/-
# What is derived is read

The other direction of `ParameterChain.Proofs.Parsing`: tokens that a form derives are read,
if nothing follows them but what may follow a value (`form_of_derives`).  Each reader is run
on the tokens of each group of forms; the lemmas of the first two sections are its steps.
-/
import ParameterChain.Proofs.Parsing

namespace ParameterChain

theorem Kind.grammar_one (s : Scalar) : (Kind.one s).grammar = s.scalarGrammar :=
  rfl

theorem Kind.grammar_many (s : Scalar) : (Kind.many s).grammar = s.vectorGrammar :=
  rfl

theorem ok_bind {ε α β : Type} (a : α) (f : α → Except ε β) : (Except.ok a >>= f) = f a :=
  rfl

namespace Resolution

variable {r : Resolution} {k : Kind} {kinds : List Kind} {t first : String} {ts rest : Tokens}
  {s : Scalar} {factor : Float} {res : Resolved} {strict : Bool} {op : Operator}
  {ops : List Operator} {ref : Ref} {u : MeasureUnit} {f : Form} {o : Operand} {raw : Tokens}

/-! ## What stands at a place -/

theorem stands_literal_iff : r.Stands strict factor (.literal s) ts o ↔
    ∃ t x, ts = [t] ∧ s.read? factor t = some x ∧
      (s = .boolean → r.names [Kind.one .boolean] t = false) ∧ o = .literal ⟨s, .one x⟩ := by
  constructor
  · rintro ⟨hx, hnames⟩
    exact ⟨_, _, rfl, hx, hnames, rfl⟩
  · rintro ⟨t, x, rfl, hx, hnames, rfl⟩
    exact .literal hx hnames

theorem stands_dimensioned_iff : r.Stands strict factor (.literal .dimensioned) ts o ↔
    ∃ t y, ts = [t] ∧ Number.realOf? t = some y ∧ o = .literal (.dimensioned (y * factor)) := by
  rw [stands_literal_iff]
  constructor
  · rintro ⟨t, x, rfl, hx, -, rfl⟩
    obtain ⟨y, hy, rfl⟩ := Option.map_eq_some_iff.mp hx
    exact ⟨t, y, rfl, hy, rfl⟩
  · rintro ⟨t, y, rfl, hy, rfl⟩
    exact ⟨t, _, rfl, Option.map_eq_some_iff.mpr ⟨y, hy, rfl⟩, by rintro ⟨⟩, rfl⟩

theorem stands_name_iff {barred : List Spelling} {chosen : Bool} :
    r.Stands strict factor (.name kinds barred chosen) ts o ↔
      ∃ t ref, ts = [t] ∧ (∀ spelling ∈ barred, spelling.test t = false) ∧
        r.Refers (strict || chosen) kinds t ref ∧ o = .param ref := by
  constructor
  · rintro (_ | ⟨hbarred, href⟩)
    exact ⟨_, _, rfl, hbarred, href, rfl⟩
  · rintro ⟨t, ref, rfl, hbarred, href, rfl⟩
    exact .name hbarred href

theorem stands_values_iff {starred : Bool} :
    r.Stands strict factor (.values s starred) ts o ↔
      ∃ t raw, ∃ elements : List (Element s), ts = t :: raw ∧ r.Counts t raw.length ∧
        (starred = false → raw.head? ≠ some Operator.multiply.token) ∧
          List.Forall₂ (r.Lists strict factor) raw elements ∧ o = .ofElements elements := by
  constructor
  · rintro (_ | _ | ⟨hcount, hstar, helements⟩)
    exact ⟨_, _, _, rfl, hcount, hstar, helements, rfl⟩
  · rintro ⟨t, raw, elements, rfl, hcount, hstar, helements, rfl⟩
    exact .values hcount hstar helements

theorem placed_inner_iff {v : Option MeasureUnit} {inner outer : Tokens} :
    r.Placed .inner inner outer v ↔
      ∃ t u, inner = [t] ∧ outer = [] ∧ v = some u ∧ r.Measures t u := by
  constructor
  · intro h
    cases h with
    | inner hu => exact ⟨_, _, rfl, rfl, rfl, hu⟩
  · rintro ⟨t, u, rfl, rfl, rfl, hu⟩
    exact .inner hu

theorem placed_outer_iff {v : Option MeasureUnit} {inner outer : Tokens} :
    r.Placed .outer inner outer v ↔
      ∃ t u, inner = [] ∧ outer = [t] ∧ v = some u ∧ r.Measures t u := by
  constructor
  · intro h
    cases h with
    | outer hu => exact ⟨_, _, rfl, rfl, rfl, hu⟩
  · rintro ⟨t, u, rfl, rfl, rfl, hu⟩
    exact .outer hu

/-! ## Steps of a reader -/

section Barred

variable {barred : List Spelling}

theorem not_isReal (h : ∀ spelling ∈ Spelling.number :: barred, spelling.test t = false) :
    ¬ Number.isReal t = true :=
  ne_true_of_eq_false (h .number List.mem_cons_self)

theorem not_isInteger (h : ∀ spelling ∈ Spelling.integer :: barred, spelling.test t = false) :
    ¬ Number.isInteger t = true :=
  ne_true_of_eq_false (h .integer List.mem_cons_self)

theorem not_opensQuote (barred : List Spelling)
    (h : ∀ spelling ∈ barred ++ [Spelling.quote], spelling.test t = false) :
    Token.opensQuote t = false :=
  h .quote (List.mem_append_right _ (List.mem_singleton_self _))

end Barred

theorem reference_of_refers (h : r.Refers strict kinds t ref) :
    r.reference kinds t = .ok ref :=
  reference_eq_ok.mpr h.lenient

theorem nextReference_cons (h : r.Refers strict kinds t ref) :
    r.nextReference kinds (t :: ts) = .ok (ref, ts) :=
  nextReference_eq_ok.mpr ⟨t, rfl, h.lenient⟩

theorem nextUnit_cons (h : r.Measures t u) : r.nextUnit (t :: ts) = .ok (u, ts) :=
  nextUnit_eq_ok.mpr ⟨t, rfl, h⟩

theorem operator?_token (h : op ∈ ops) : operator? ops (op.token :: ts) = some (op, ts) :=
  operator?_eq_some.mpr ⟨rfl, h⟩

theorem operator?_any :
    operator? [.add, .subtract, .multiply] (op.token :: ts) = some (op, ts) :=
  operator?_token (by cases op <;> decide)

theorem operator?_multiply :
    operator? [.multiply] (Operator.multiply.token :: ts) = some (.multiply, ts) :=
  operator?_token (List.mem_singleton_self _)

theorem operator?_add : operator? [.add] (Operator.add.token :: ts) = some (.add, ts) :=
  operator?_token (List.mem_singleton_self _)

theorem ne_multiply (h : op ∈ [Operator.add, .subtract]) : op ≠ .multiply := by
  rintro rfl
  exact absurd h (by decide)

theorem countedValues_append (h : r.Counts t raw.length) :
    r.countedValues t (raw ++ rest) = .ok (raw, rest) :=
  countedValues_eq_ok.mpr ⟨rfl, h⟩

theorem listOperand_of_lists {elements : List (Element s)}
    (h : List.Forall₂ (r.Lists false factor) raw elements) :
    r.listOperand s factor raw = .ok (.ofElements elements) :=
  listOperand_eq_ok.mpr ⟨elements, h, rfl⟩

theorem listPlan_of_lists {elements : List (Element s)}
    (h : List.Forall₂ (r.Lists false factor) raw elements) :
    r.listPlan s factor raw = .ok (Operand.ofElements elements).toPlan :=
  listPlan_eq_ok.mpr ⟨elements, h, rfl⟩

/-- A list that does not begin with a `*` is not taken for a factor. -/
theorem operator?_unstarred (hcount : r.Counts t raw.length)
    (hstar : raw.head? ≠ some Operator.multiply.token) :
    operator? [.multiply] (raw ++ rest) = none := by
  cases raw with
  | nil => exact absurd hcount.2.1 (by decide)
  | cons t' raw =>
    cases hop : operator? [.multiply] (t' :: raw ++ rest) with
    | none => rfl
    | some p =>
      obtain ⟨hts, hmem⟩ := operator?_eq_some.mp hop
      rw [List.cons_append, List.cons.injEq, List.mem_singleton.mp hmem] at hts
      exact absurd (congrArg some hts.1) hstar

/-! ## Scalar values -/

theorem dimensioned_of_number {y : Float} (hy : Number.realOf? t = some y) :
    r.dimensioned (t :: ts) = r.dimensionedAfterNumber y ts := by
  rw [dimensioned_cons, if_pos (Number.isReal_of_realOf? hy), real_eq_ok.mpr hy, ok_bind]

theorem dimensioned_of_name (h : ∀ spelling ∈ [Spelling.number], spelling.test t = false) :
    r.dimensioned (t :: ts) = r.dimensionedAfterName t ts := by
  rw [dimensioned_cons, if_neg (not_isReal h)]

theorem dimensioned_of_derives (hf : f ∈ (Kind.one .dimensioned).grammar)
    (h : f.Derives r false ts res) (hrest : endsValue rest = true) :
    r.dimensioned (ts ++ rest) = .ok (res, rest) := by
  simp only [Kind.grammar_one, Scalar.scalarGrammar, List.mem_append, Form.mem_alone,
    Form.mem_joined, List.mem_singleton, exists_eq_left] at hf
  have hend := fun ops => operator?_of_endsValue ops hrest
  rcases hf with ((((((((rfl | ⟨op, hop, rfl⟩) | rfl) | rfl) | rfl) | rfl) | rfl) | rfl) |
    ⟨op, hop, rfl⟩) | ⟨op, hop, rfl⟩
  · -- number unit
    obtain ⟨hplaced, ho⟩ := h
    obtain ⟨t', u, rfl, -, rfl, hu⟩ := placed_inner_iff.mp hplaced
    obtain ⟨t, y, rfl, hy, rfl⟩ := stands_dimensioned_iff.mp ho
    simp only [List.cons_append, List.nil_append, dimensioned_of_number hy, ok_bind,
      dimensionedAfterNumber, operator?_of_measures _ hu, nextUnit_cons hu, hend]
    rfl
  · -- number unit + name
    obtain _ | ⟨hplaced, ho, ho'⟩ := h
    obtain ⟨t', u, rfl, rfl, rfl, hu⟩ := placed_inner_iff.mp hplaced
    obtain ⟨t, y, rfl, hy, rfl⟩ := stands_dimensioned_iff.mp ho
    obtain ⟨t'', ref, rfl, -, href, rfl⟩ := stands_name_iff.mp ho'
    simp only [List.cons_append, List.nil_append, dimensioned_of_number hy, ok_bind,
      dimensionedAfterNumber, operator?_of_measures _ hu, nextUnit_cons hu, operator?_any,
      if_neg (ne_multiply hop), nextReference_cons href]
    rfl
  · -- number unit * name
    obtain _ | ⟨hplaced, ho, ho'⟩ := h
    obtain ⟨t', u, rfl, rfl, rfl, hu⟩ := placed_inner_iff.mp hplaced
    obtain ⟨t, y, rfl, hy, rfl⟩ := stands_dimensioned_iff.mp ho
    obtain ⟨t'', ref, rfl, -, href, rfl⟩ := stands_name_iff.mp ho'
    simp only [List.cons_append, List.nil_append, dimensioned_of_number hy, ok_bind,
      dimensionedAfterNumber, operator?_of_measures _ hu, nextUnit_cons hu, operator?_any, if_true,
      nextReference_cons href]
    rfl
  · -- number * name unit
    obtain _ | ⟨hplaced, ho, ho'⟩ := h
    obtain ⟨t'', u, rfl, rfl, rfl, hu⟩ := placed_outer_iff.mp hplaced
    obtain ⟨t, x, rfl, hx, -, rfl⟩ := stands_literal_iff.mp ho
    obtain ⟨t', ref, rfl, -, href, rfl⟩ := stands_name_iff.mp ho'
    simp only [List.cons_append, List.nil_append, dimensioned_of_number hx, ok_bind,
      dimensionedAfterNumber, operator?_multiply, nextReference_cons href, nextUnit_cons hu]
    rfl
  · -- name unit
    obtain ⟨hplaced, ho⟩ := h
    obtain ⟨t', u, rfl, -, rfl, hu⟩ := placed_inner_iff.mp hplaced
    obtain ⟨t, ref, rfl, hbarred, href, rfl⟩ := stands_name_iff.mp ho
    simp only [List.cons_append, List.nil_append, dimensioned_of_name hbarred, dimensionedAfterName,
      operator?_of_measures _ hu, reference_of_refers href, ok_bind, nextUnit_cons hu, hend]
    rfl
  · -- name unit * number
    obtain _ | ⟨hplaced, ho, ho'⟩ := h
    obtain ⟨t', u, rfl, rfl, rfl, hu⟩ := placed_inner_iff.mp hplaced
    obtain ⟨t, ref, rfl, hbarred, href, rfl⟩ := stands_name_iff.mp ho
    obtain ⟨t'', x, rfl, hx, -, rfl⟩ := stands_literal_iff.mp ho'
    simp only [List.cons_append, List.nil_append, dimensioned_of_name hbarred, dimensionedAfterName,
      operator?_of_measures _ hu, reference_of_refers href, ok_bind, nextUnit_cons hu,
      operator?_multiply, take_cons, if_pos (Number.isReal_of_realOf? hx), real_eq_ok.mpr hx]
    rfl
  · -- name unit * name
    obtain _ | ⟨hplaced, ho, ho'⟩ := h
    obtain ⟨t', u, rfl, rfl, rfl, hu⟩ := placed_inner_iff.mp hplaced
    obtain ⟨t, ref, rfl, hbarred, href, rfl⟩ := stands_name_iff.mp ho
    obtain ⟨t'', ref', rfl, hbarred', href', rfl⟩ := stands_name_iff.mp ho'
    simp only [List.cons_append, List.nil_append, dimensioned_of_name hbarred, dimensionedAfterName,
      operator?_of_measures _ hu, reference_of_refers href, ok_bind, nextUnit_cons hu,
      operator?_multiply, take_cons, if_neg (not_isReal hbarred'), reference_of_refers href']
    rfl
  · -- name * number unit
    obtain _ | ⟨hplaced, ho, ho'⟩ := h
    obtain ⟨t'', u, rfl, rfl, rfl, hu⟩ := placed_outer_iff.mp hplaced
    obtain ⟨t, ref, rfl, hbarred, href, rfl⟩ := stands_name_iff.mp ho
    obtain ⟨t', y, rfl, hy, rfl⟩ := stands_dimensioned_iff.mp ho'
    simp only [List.cons_append, List.nil_append, dimensioned_of_name hbarred, dimensionedAfterName,
      operator?_any, reference_of_refers href, ok_bind, take_cons, real_eq_ok.mpr hy,
      nextUnit_cons hu]
    rfl
  · -- name + number unit
    obtain _ | ⟨hplaced, ho, ho'⟩ := h
    obtain ⟨t'', u, rfl, rfl, rfl, hu⟩ := placed_outer_iff.mp hplaced
    obtain ⟨t, ref, rfl, hbarred, href, rfl⟩ := stands_name_iff.mp ho
    obtain ⟨t', y, rfl, hy, rfl⟩ := stands_dimensioned_iff.mp ho'
    have hop := ne_multiply hop
    simp only [List.cons_append, List.nil_append, dimensioned_of_name hbarred, dimensionedAfterName,
      operator?_any, reference_of_refers href, ok_bind, take_cons,
      if_pos (Number.isReal_of_realOf? hy), real_eq_ok.mpr hy, nextUnit_cons hu]
    rfl
  · -- name + name unit
    obtain _ | ⟨hplaced, ho, ho'⟩ := h
    obtain ⟨t'', u, rfl, rfl, rfl, hu⟩ := placed_outer_iff.mp hplaced
    obtain ⟨t, ref, rfl, hbarred, href, rfl⟩ := stands_name_iff.mp ho
    obtain ⟨t', ref', rfl, hbarred', href', rfl⟩ := stands_name_iff.mp ho'
    have hop := ne_multiply hop
    simp only [List.cons_append, List.nil_append, dimensioned_of_name hbarred, dimensionedAfterName,
      operator?_any, reference_of_refers href, ok_bind, take_cons, if_neg (not_isReal hbarred'),
      reference_of_refers href', nextUnit_cons hu]
    rfl

theorem unitless_of_derives (hf : f ∈ (Kind.one .unitless).grammar)
    (h : f.Derives r false ts res) (hrest : endsValue rest = true) :
    r.unitless (ts ++ rest) = .ok (res, rest) := by
  simp only [Kind.grammar_one, Scalar.scalarGrammar, List.mem_append, Form.mem_alone,
    Form.mem_joined] at hf
  have hend := operator?_of_endsValue [.add, .subtract, .multiply] hrest
  rcases hf with (((rfl | ⟨op, hop, rfl⟩) | rfl) | ⟨op, hop, rfl⟩) | ⟨op, hop, rfl⟩
  · obtain ⟨⟨⟩, ho⟩ := h
    obtain ⟨t, x, rfl, hx, -, rfl⟩ := stands_literal_iff.mp ho
    simp only [unitless, List.cons_append, List.nil_append, take_cons,
      if_pos (Number.isReal_of_realOf? hx), real_eq_ok.mpr hx, ok_bind, hend]
    rfl
  · obtain _ | ⟨⟨⟩, ho, ho'⟩ := h
    obtain ⟨t, x, rfl, hx, -, rfl⟩ := stands_literal_iff.mp ho
    obtain ⟨t', ref, rfl, -, href, rfl⟩ := stands_name_iff.mp ho'
    simp only [unitless, List.cons_append, List.nil_append, take_cons,
      if_pos (Number.isReal_of_realOf? hx), real_eq_ok.mpr hx, ok_bind, operator?_any,
      nextReference_cons href]
    rfl
  · obtain ⟨⟨⟩, ho⟩ := h
    obtain ⟨t, ref, rfl, hbarred, href, rfl⟩ := stands_name_iff.mp ho
    simp only [unitless, List.cons_append, List.nil_append, take_cons,
      if_neg (not_isReal hbarred), reference_of_refers href, ok_bind, hend]
    rfl
  · obtain _ | ⟨⟨⟩, ho, ho'⟩ := h
    obtain ⟨t, ref, rfl, hbarred, href, rfl⟩ := stands_name_iff.mp ho
    obtain ⟨t', x, rfl, hx, -, rfl⟩ := stands_literal_iff.mp ho'
    simp only [unitless, List.cons_append, List.nil_append, take_cons,
      if_neg (not_isReal hbarred), reference_of_refers href, ok_bind, operator?_any,
      if_pos (Number.isReal_of_realOf? hx), real_eq_ok.mpr hx]
    rfl
  · obtain _ | ⟨⟨⟩, ho, ho'⟩ := h
    obtain ⟨t, ref, rfl, hbarred, href, rfl⟩ := stands_name_iff.mp ho
    obtain ⟨t', ref', rfl, hbarred', href', rfl⟩ := stands_name_iff.mp ho'
    simp only [unitless, List.cons_append, List.nil_append, take_cons,
      if_neg (not_isReal hbarred), reference_of_refers href, ok_bind, operator?_any,
      if_neg (not_isReal hbarred'), reference_of_refers href']
    rfl

theorem Refers.mono {kinds' : List Kind} (h : r.Refers strict kinds t ref)
    (hsub : kinds ⊆ kinds') : r.Refers false kinds' t ref := by
  cases h with
  | self hne hself _ => exact .self hne hself nofun
  | named hne hself hk hmem => exact .named hne hself hk (hsub hmem)

/-- An integer may follow any operator. -/
theorem integer_subset (op : Operator) : [Kind.one .integer] ⊆ integerOperandKinds op := by
  cases op <;> decide

/-- A unitless number may follow a `*`. -/
theorem unitless_subset : [Kind.one .unitless] ⊆ integerOperandKinds .multiply := by
  decide

theorem integerValue_of_derives (hf : f ∈ (Kind.one .integer).grammar)
    (h : f.Derives r false ts res) (hrest : endsValue rest = true) :
    r.integerValue (ts ++ rest) = .ok (res, rest) := by
  simp only [Kind.grammar_one, Scalar.scalarGrammar, List.mem_append, Form.mem_alone,
    Form.mem_joined, List.mem_singleton, exists_eq_left] at hf
  have hend := operator?_of_endsValue [.add, .subtract, .multiply] hrest
  rcases hf with ((((((rfl | ⟨op, -, rfl⟩) | rfl) | rfl) | rfl) | ⟨op, -, rfl⟩) |
    ⟨op, -, rfl⟩) | rfl
  · -- integer
    obtain ⟨⟨⟩, ho⟩ := h
    obtain ⟨t, n, rfl, hn, -, rfl⟩ := stands_literal_iff.mp ho
    simp only [integerValue, List.cons_append, List.nil_append, take_cons,
      if_pos (Number.isReal_of_integerOf? hn), integer_eq_ok.mpr hn, ok_bind, hend]
    rfl
  · -- integer + integer name
    obtain _ | ⟨⟨⟩, ho, ho'⟩ := h
    obtain ⟨t, n, rfl, hn, -, rfl⟩ := stands_literal_iff.mp ho
    obtain ⟨t', ref, rfl, -, href, rfl⟩ := stands_name_iff.mp ho'
    simp only [integerValue, List.cons_append, List.nil_append, take_cons,
      if_pos (Number.isReal_of_integerOf? hn), integer_eq_ok.mpr hn, ok_bind, operator?_any,
      nextReference_cons (href.mono (integer_subset op))]
    rfl
  · -- integer * unitless name
    obtain _ | ⟨⟨⟩, ho, ho'⟩ := h
    obtain ⟨t, n, rfl, hn, -, rfl⟩ := stands_literal_iff.mp ho
    obtain ⟨t', ref, rfl, -, href, rfl⟩ := stands_name_iff.mp ho'
    simp only [integerValue, List.cons_append, List.nil_append, take_cons,
      if_pos (Number.isReal_of_integerOf? hn), integer_eq_ok.mpr hn, ok_bind, operator?_any,
      nextReference_cons (href.mono unitless_subset)]
    rfl
  · -- integer name
    obtain ⟨⟨⟩, ho⟩ := h
    obtain ⟨t, ref, rfl, hbarred, href, rfl⟩ := stands_name_iff.mp ho
    have hread : r.reference [Kind.one .integer, Kind.one .unitless] t = .ok ref :=
      reference_of_refers (href.mono (integer_subset .multiply))
    simp only [integerValue, List.cons_append, List.nil_append, take_cons,
      if_neg (not_isReal hbarred), hend, hread, ok_bind]
    rfl
  · -- unitless name
    obtain ⟨⟨⟩, ho⟩ := h
    obtain ⟨t, ref, rfl, hbarred, href, rfl⟩ := stands_name_iff.mp ho
    have hread : r.reference [Kind.one .integer, Kind.one .unitless] t = .ok ref :=
      reference_of_refers (href.mono unitless_subset)
    simp only [integerValue, List.cons_append, List.nil_append, take_cons,
      if_neg (not_isReal hbarred), hend, hread, ok_bind]
    rfl
  · -- integer name + integer
    obtain _ | ⟨⟨⟩, ho, ho'⟩ := h
    obtain ⟨t, ref, rfl, hbarred, href, rfl⟩ := stands_name_iff.mp ho
    obtain ⟨t', n, rfl, hn, -, rfl⟩ := stands_literal_iff.mp ho'
    simp only [integerValue, List.cons_append, List.nil_append, take_cons,
      if_neg (not_isReal hbarred), operator?_any, reference_of_refers href, ok_bind,
      if_pos (Number.isReal_of_integerOf? hn), integer_eq_ok.mpr hn]
    rfl
  · -- integer name + integer name
    obtain _ | ⟨⟨⟩, ho, ho'⟩ := h
    obtain ⟨t, ref, rfl, hbarred, href, rfl⟩ := stands_name_iff.mp ho
    obtain ⟨t', ref', rfl, hbarred', href', rfl⟩ := stands_name_iff.mp ho'
    simp only [integerValue, List.cons_append, List.nil_append, take_cons,
      if_neg (not_isReal hbarred), operator?_any, reference_of_refers href, ok_bind,
      if_neg (not_isReal hbarred'), reference_of_refers (href'.mono (integer_subset op))]
    rfl
  · -- integer name * unitless name
    obtain _ | ⟨⟨⟩, ho, ho'⟩ := h
    obtain ⟨t, ref, rfl, hbarred, href, rfl⟩ := stands_name_iff.mp ho
    obtain ⟨t', ref', rfl, hbarred', href', rfl⟩ := stands_name_iff.mp ho'
    simp only [integerValue, List.cons_append, List.nil_append, take_cons,
      if_neg (not_isReal hbarred), operator?_any, reference_of_refers href, ok_bind,
      if_neg (not_isReal hbarred'), reference_of_refers (href'.mono unitless_subset)]
    rfl

theorem boolean_of_derives (hf : f ∈ (Kind.one .boolean).grammar)
    (h : f.Derives r false ts res) (hrest : endsValue rest = true) :
    r.boolean (ts ++ rest) = .ok (res, rest) := by
  simp only [Kind.grammar_one, Scalar.scalarGrammar, List.mem_append, Form.mem_alone,
    Form.mem_joined, List.mem_singleton, exists_eq_left] at hf
  have hend := operator?_of_endsValue [.multiply] hrest
  rcases hf with (rfl | rfl) | rfl
  · -- boolean
    obtain ⟨⟨⟩, ho⟩ := h
    obtain ⟨t, b, rfl, hb, hnames, rfl⟩ := stands_literal_iff.mp ho
    simp only [boolean, List.cons_append, List.nil_append, take_cons, hnames rfl,
      show Token.boolean? t = some b from hb]
    rfl
  · -- name
    obtain ⟨⟨⟩, ho⟩ := h
    obtain ⟨t, ref, rfl, -, href, rfl⟩ := stands_name_iff.mp ho
    simp only [boolean, List.cons_append, List.nil_append, take_cons,
      if_pos (names_of_refers href), reference_of_refers href, ok_bind, hend]
    rfl
  · -- name * name
    obtain _ | ⟨⟨⟩, ho, ho'⟩ := h
    obtain ⟨t, ref, rfl, -, href, rfl⟩ := stands_name_iff.mp ho
    obtain ⟨t', ref', rfl, -, href', rfl⟩ := stands_name_iff.mp ho'
    simp only [boolean, List.cons_append, List.nil_append, take_cons,
      if_pos (names_of_refers href), reference_of_refers href, ok_bind, operator?_multiply,
      nextReference_cons href']
    rfl

theorem text_of_derives (hf : f ∈ (Kind.one .text).grammar)
    (h : f.Derives r false ts res) (hrest : endsValue rest = true) :
    r.text (ts ++ rest) = .ok (res, rest) := by
  simp only [Kind.grammar_one, Scalar.scalarGrammar, List.mem_append, Form.mem_alone,
    Form.mem_joined, List.mem_singleton, exists_eq_left] at hf
  have hend := operator?_of_endsValue [.add] hrest
  rcases hf with (((rfl | rfl) | rfl) | rfl) | rfl
  · -- "string"
    obtain ⟨⟨⟩, ho⟩ := h
    obtain ⟨t, x, rfl, hx, -, rfl⟩ := stands_literal_iff.mp ho
    simp only [text, List.cons_append, List.nil_append, take_cons,
      if_pos (Token.opensQuote_of_quoted? hx), quoted_eq_ok.mpr hx, ok_bind, hend]
    rfl
  · -- "string" + name
    obtain _ | ⟨⟨⟩, ho, ho'⟩ := h
    obtain ⟨t, x, rfl, hx, -, rfl⟩ := stands_literal_iff.mp ho
    obtain ⟨t', ref, rfl, -, href, rfl⟩ := stands_name_iff.mp ho'
    simp only [text, List.cons_append, List.nil_append, take_cons,
      if_pos (Token.opensQuote_of_quoted? hx), quoted_eq_ok.mpr hx, ok_bind, operator?_add,
      nextReference_cons href]
    rfl
  · -- name
    obtain ⟨⟨⟩, ho⟩ := h
    obtain ⟨t, ref, rfl, hbarred, href, rfl⟩ := stands_name_iff.mp ho
    have hquote := ne_true_of_eq_false (not_opensQuote [] hbarred)
    simp only [text, List.cons_append, List.nil_append, take_cons, if_neg hquote,
      reference_of_refers href, ok_bind, hend]
    rfl
  · -- name + "string"
    obtain _ | ⟨⟨⟩, ho, ho'⟩ := h
    obtain ⟨t, ref, rfl, hbarred, href, rfl⟩ := stands_name_iff.mp ho
    obtain ⟨t', x, rfl, hx, -, rfl⟩ := stands_literal_iff.mp ho'
    have hquote := ne_true_of_eq_false (not_opensQuote [] hbarred)
    simp only [text, List.cons_append, List.nil_append, take_cons, if_neg hquote,
      reference_of_refers href, ok_bind, operator?_add,
      if_pos (Token.opensQuote_of_quoted? hx), quoted_eq_ok.mpr hx]
    rfl
  · -- name + name
    obtain _ | ⟨⟨⟩, ho, ho'⟩ := h
    obtain ⟨t, ref, rfl, hbarred, href, rfl⟩ := stands_name_iff.mp ho
    obtain ⟨t', ref', rfl, hbarred', href', rfl⟩ := stands_name_iff.mp ho'
    have hquote := ne_true_of_eq_false (not_opensQuote [] hbarred)
    have hquote' := ne_true_of_eq_false (not_opensQuote [] hbarred')
    simp only [text, List.cons_append, List.nil_append, take_cons, if_neg hquote,
      reference_of_refers href, ok_bind, operator?_add, if_neg hquote',
      reference_of_refers href']
    rfl

/-! ## Vector values -/

/-- A product of a factor and a vector is read after its operator. -/
theorem scaledVector_cons {v : Value} (h : r.Refers strict [Kind.many s] t ref) :
    r.scaledVector s v (t :: rest) =
      .ok ({ plan := .binary (.literal v) .multiply (.param ref) }, rest) := by
  simp only [scaledVector, nextReference_cons h, ok_bind]
  rfl

theorem vectorAfterName_alone (hquote : Token.opensQuote t = false)
    (href : r.Refers strict [Kind.many s] t ref) (hrest : endsValue rest = true)
    (factors : List Kind) :
    r.vectorAfterName s factors t rest = .ok ({ plan := .reference ref }, rest) := by
  simp only [vectorAfterName, requireCount_eq_ok.mpr hquote, ok_bind,
    operator?_of_endsValue _ hrest, reference_of_refers href]
  rfl

theorem vectorAfterName_joined {factors : List Kind} {t' : String} {ref' : Ref}
    (hquote : Token.opensQuote t = false) (href : r.Refers strict factors t ref)
    (href' : r.Refers strict [Kind.many s] t' ref') :
    r.vectorAfterName s factors t (Operator.multiply.token :: t' :: rest) =
      .ok ({ plan := .binary (.param ref) .multiply (.param ref') }, rest) := by
  simp only [vectorAfterName, requireCount_eq_ok.mpr hquote, ok_bind, operator?_multiply,
    reference_of_refers href, nextReference_cons href']
  rfl

theorem vectorAfterCount_alone {elements : List (Element s)} (hcount : r.Counts t raw.length)
    (helements : List.Forall₂ (r.Lists false 1) raw elements) (hrest : endsValue rest = true)
    (ops : List Operator) :
    r.vectorAfterCount s ops kinds t (raw ++ rest) =
      .ok ({ plan := (Operand.ofElements elements).toPlan }, rest) := by
  simp only [vectorAfterCount, countedValues_append hcount, ok_bind,
    operator?_of_endsValue _ hrest, listPlan_of_lists helements]
  rfl

theorem vectorAfterCount_joined {elements : List (Element s)} {t' : String}
    (hcount : r.Counts t raw.length) (helements : List.Forall₂ (r.Lists false 1) raw elements)
    (hop : op ∈ ops) (href : r.Refers strict kinds t' ref) :
    r.vectorAfterCount s ops kinds t (raw ++ op.token :: t' :: rest) =
      .ok ({ plan := .binary (.ofElements elements) op (.param ref) }, rest) := by
  simp only [vectorAfterCount, countedValues_append hcount, ok_bind, operator?_token hop,
    nextReference_cons href, listOperand_of_lists helements]
  rfl

/-- The count of a list is an integer. -/
theorem isInteger_of_counts {n : Nat} (h : r.Counts t n) : Number.isInteger t = true := by
  obtain ⟨z, hz, -⟩ := Option.map_eq_some_iff.mp h.1
  exact Number.isInteger_of_integerOf? hz

theorem isReal_of_counts {n : Nat} (h : r.Counts t n) : Number.isReal t = true :=
  Number.isReal_of_isInteger (isInteger_of_counts h)

theorem unitlesses_of_derives (hf : f ∈ (Kind.many .unitless).grammar)
    (h : f.Derives r false ts res) (hrest : endsValue rest = true) :
    r.unitlesses (ts ++ rest) = .ok (res, rest) := by
  simp only [Kind.grammar_many, Scalar.vectorGrammar, List.mem_append, Form.mem_alone,
    Form.mem_joined, List.mem_singleton, exists_eq_left] at hf
  rcases hf with (((rfl | ⟨op, hop, rfl⟩) | rfl) | rfl) | rfl
  · -- values
    obtain ⟨⟨⟩, ho⟩ := h
    obtain ⟨t, raw, elements, rfl, hcount, hstar, helements, rfl⟩ := stands_values_iff.mp ho
    simp only [List.cons_append, List.append_nil, unitlesses_cons,
      if_pos (isReal_of_counts hcount), operator?_unstarred hcount (hstar rfl)]
    exact vectorAfterCount_alone hcount helements hrest _
  · -- values + name
    obtain _ | ⟨⟨⟩, ho, ho'⟩ := h
    obtain ⟨t, raw, elements, rfl, hcount, hstar, helements, rfl⟩ := stands_values_iff.mp ho
    obtain ⟨t', ref, rfl, -, href, rfl⟩ := stands_name_iff.mp ho'
    simp only [List.cons_append, List.append_nil, List.append_assoc, List.nil_append,
      unitlesses_cons, if_pos (isReal_of_counts hcount), operator?_unstarred hcount (hstar rfl)]
    exact vectorAfterCount_joined hcount helements hop href
  · -- number * name
    obtain _ | ⟨⟨⟩, ho, ho'⟩ := h
    obtain ⟨t, x, rfl, hx, -, rfl⟩ := stands_literal_iff.mp ho
    obtain ⟨t', ref, rfl, -, href, rfl⟩ := stands_name_iff.mp ho'
    simp only [List.cons_append, List.nil_append, unitlesses_cons,
      if_pos (Number.isReal_of_realOf? hx), operator?_multiply, real_eq_ok.mpr hx, ok_bind,
      scaledVector_cons href]
    rfl
  · -- name
    obtain ⟨⟨⟩, ho⟩ := h
    obtain ⟨t, ref, rfl, hbarred, href, rfl⟩ := stands_name_iff.mp ho
    simp only [List.cons_append, List.nil_append, unitlesses_cons, if_neg (not_isReal hbarred)]
    exact vectorAfterName_alone (not_opensQuote [.number] hbarred) href hrest _
  · -- name * name
    obtain _ | ⟨⟨⟩, ho, ho'⟩ := h
    obtain ⟨t, ref, rfl, hbarred, href, rfl⟩ := stands_name_iff.mp ho
    obtain ⟨t', ref', rfl, -, href', rfl⟩ := stands_name_iff.mp ho'
    simp only [List.cons_append, List.nil_append, unitlesses_cons, if_neg (not_isReal hbarred)]
    exact vectorAfterName_joined (not_opensQuote [.number] hbarred) href href'

theorem integers_of_derives (hf : f ∈ (Kind.many .integer).grammar)
    (h : f.Derives r false ts res) (hrest : endsValue rest = true) :
    r.integers (ts ++ rest) = .ok (res, rest) := by
  simp only [Kind.grammar_many, Scalar.vectorGrammar, List.mem_append, Form.mem_alone,
    Form.mem_joined, List.mem_singleton, exists_eq_left] at hf
  rcases hf with (((rfl | ⟨op, hop, rfl⟩) | rfl) | rfl) | rfl
  · -- values
    obtain ⟨⟨⟩, ho⟩ := h
    obtain ⟨t, raw, elements, rfl, hcount, hstar, helements, rfl⟩ := stands_values_iff.mp ho
    simp only [List.cons_append, List.append_nil, integers_cons,
      if_pos (isInteger_of_counts hcount), operator?_unstarred hcount (hstar rfl)]
    exact vectorAfterCount_alone hcount helements hrest _
  · -- values + name
    obtain _ | ⟨⟨⟩, ho, ho'⟩ := h
    obtain ⟨t, raw, elements, rfl, hcount, hstar, helements, rfl⟩ := stands_values_iff.mp ho
    obtain ⟨t', ref, rfl, -, href, rfl⟩ := stands_name_iff.mp ho'
    simp only [List.cons_append, List.append_nil, List.append_assoc, List.nil_append,
      integers_cons, if_pos (isInteger_of_counts hcount),
      operator?_unstarred hcount (hstar rfl)]
    exact vectorAfterCount_joined hcount helements hop href
  · -- integer * name
    obtain _ | ⟨⟨⟩, ho, ho'⟩ := h
    obtain ⟨t, n, rfl, hn, -, rfl⟩ := stands_literal_iff.mp ho
    obtain ⟨t', ref, rfl, -, href, rfl⟩ := stands_name_iff.mp ho'
    simp only [List.cons_append, List.nil_append, integers_cons,
      if_pos (Number.isInteger_of_integerOf? hn), operator?_multiply, integer_eq_ok.mpr hn,
      ok_bind, scaledVector_cons href]
    rfl
  · -- name
    obtain ⟨⟨⟩, ho⟩ := h
    obtain ⟨t, ref, rfl, hbarred, href, rfl⟩ := stands_name_iff.mp ho
    simp only [List.cons_append, List.nil_append, integers_cons, if_neg (not_isReal hbarred),
      if_neg (mt Number.isReal_of_isInteger (not_isReal hbarred))]
    exact vectorAfterName_alone (not_opensQuote [.number] hbarred) href hrest _
  · -- name * name
    obtain _ | ⟨⟨⟩, ho, ho'⟩ := h
    obtain ⟨t, ref, rfl, hbarred, href, rfl⟩ := stands_name_iff.mp ho
    obtain ⟨t', ref', rfl, -, href', rfl⟩ := stands_name_iff.mp ho'
    simp only [List.cons_append, List.nil_append, integers_cons, if_neg (not_isReal hbarred),
      if_neg (mt Number.isReal_of_isInteger (not_isReal hbarred))]
    exact vectorAfterName_joined (not_opensQuote [.number] hbarred) href href'

theorem booleans_of_derives (hf : f ∈ (Kind.many .boolean).grammar)
    (h : f.Derives r false ts res) (hrest : endsValue rest = true) :
    r.booleans (ts ++ rest) = .ok (res, rest) := by
  simp only [Kind.grammar_many, Scalar.vectorGrammar, List.mem_append, Form.mem_alone] at hf
  rcases hf with rfl | rfl
  · -- values
    obtain ⟨⟨⟩, ho⟩ := h
    obtain ⟨t, raw, elements, rfl, hcount, -, helements, rfl⟩ := stands_values_iff.mp ho
    simp only [List.cons_append, List.append_nil, booleans_cons,
      if_pos (isInteger_of_counts hcount)]
    exact vectorAfterCount_alone hcount helements hrest _
  · -- name
    obtain ⟨⟨⟩, ho⟩ := h
    obtain ⟨t, ref, rfl, hbarred, href, rfl⟩ := stands_name_iff.mp ho
    simp only [List.cons_append, List.nil_append, booleans_cons, if_neg (not_isInteger hbarred),
      requireCount_eq_ok.mpr (not_opensQuote [.integer] hbarred), ok_bind,
      reference_of_refers href]
    rfl

theorem texts_of_derives (hf : f ∈ (Kind.many .text).grammar)
    (h : f.Derives r false ts res) (hrest : endsValue rest = true) :
    r.texts (ts ++ rest) = .ok (res, rest) := by
  simp only [Kind.grammar_many, Scalar.vectorGrammar, List.mem_append, Form.mem_alone,
    Form.mem_joined, List.mem_singleton, exists_eq_left] at hf
  rcases hf with (rfl | rfl) | rfl
  · -- values
    obtain ⟨⟨⟩, ho⟩ := h
    obtain ⟨t, raw, elements, rfl, hcount, -, helements, rfl⟩ := stands_values_iff.mp ho
    simp only [List.cons_append, List.append_nil, texts_cons,
      if_pos (isInteger_of_counts hcount)]
    exact vectorAfterCount_alone hcount helements hrest _
  · -- values + name
    obtain _ | ⟨⟨⟩, ho, ho'⟩ := h
    obtain ⟨t, raw, elements, rfl, hcount, -, helements, rfl⟩ := stands_values_iff.mp ho
    obtain ⟨t', ref, rfl, -, href, rfl⟩ := stands_name_iff.mp ho'
    simp only [List.cons_append, List.append_nil, List.append_assoc, List.nil_append,
      texts_cons, if_pos (isInteger_of_counts hcount)]
    exact vectorAfterCount_joined hcount helements (List.mem_singleton_self _) href
  · -- name
    obtain ⟨⟨⟩, ho⟩ := h
    obtain ⟨t, ref, rfl, hbarred, href, rfl⟩ := stands_name_iff.mp ho
    simp only [List.cons_append, List.nil_append, texts_cons, if_neg (not_isInteger hbarred),
      requireCount_eq_ok.mpr (not_opensQuote [.integer] hbarred), ok_bind,
      reference_of_refers href]
    rfl

theorem dimensioneds_of_name
    (h : ∀ spelling ∈ [Spelling.number, .quote], spelling.test t = false) :
    r.dimensioneds (t :: ts) = r.dimensionedsAfterName t ts := by
  rw [dimensioneds_cons, if_neg (not_isReal h),
    requireCount_eq_ok.mpr (not_opensQuote [.number] h), ok_bind]

theorem dimensioneds_of_derives (hf : f ∈ (Kind.many .dimensioned).grammar)
    (h : f.Derives r false ts res) (hrest : endsValue rest = true) :
    r.dimensioneds (ts ++ rest) = .ok (res, rest) := by
  simp only [Kind.grammar_many, Scalar.vectorGrammar, List.mem_append, Form.mem_alone,
    Form.mem_joined, List.mem_singleton, exists_eq_left] at hf
  have hend := fun ops => operator?_of_endsValue ops hrest
  rcases hf with ((((((rfl | ⟨op, hop, rfl⟩) | rfl) | rfl) | rfl) | rfl) | rfl) | rfl
  · -- values unit
    obtain ⟨hplaced, ho⟩ := h
    obtain ⟨t', u, rfl, -, rfl, hu⟩ := placed_inner_iff.mp hplaced
    obtain ⟨t, raw, elements, rfl, hcount, hstar, helements, rfl⟩ := stands_values_iff.mp ho
    have helements : List.Forall₂ (r.Lists false u.factor) raw elements := helements
    simp only [List.cons_append, List.append_assoc, List.nil_append, dimensioneds_cons,
      if_pos (isReal_of_counts hcount), dimensionedsAfterNumber,
      operator?_unstarred hcount (hstar rfl), countedValues_append hcount, ok_bind,
      operator?_of_measures _ hu, nextUnit_cons hu, hend,
      listPlan_of_lists helements]
    rfl
  · -- values unit + name
    obtain _ | ⟨hplaced, ho, ho'⟩ := h
    obtain ⟨t', u, rfl, rfl, rfl, hu⟩ := placed_inner_iff.mp hplaced
    obtain ⟨t, raw, elements, rfl, hcount, hstar, helements, rfl⟩ := stands_values_iff.mp ho
    obtain ⟨t'', ref, rfl, -, href, rfl⟩ := stands_name_iff.mp ho'
    have helements : List.Forall₂ (r.Lists false u.factor) raw elements := helements
    simp only [List.cons_append, List.append_assoc, List.nil_append, dimensioneds_cons,
      if_pos (isReal_of_counts hcount), dimensionedsAfterNumber,
      operator?_unstarred hcount (hstar rfl), countedValues_append hcount, ok_bind,
      operator?_of_measures _ hu, nextUnit_cons hu, operator?_any, if_neg (ne_multiply hop),
      nextReference_cons href, listOperand_of_lists helements]
    rfl
  · -- values unit * name
    obtain _ | ⟨hplaced, ho, ho'⟩ := h
    obtain ⟨t', u, rfl, rfl, rfl, hu⟩ := placed_inner_iff.mp hplaced
    obtain ⟨t, raw, elements, rfl, hcount, hstar, helements, rfl⟩ := stands_values_iff.mp ho
    obtain ⟨t'', ref, rfl, -, href, rfl⟩ := stands_name_iff.mp ho'
    have helements : List.Forall₂ (r.Lists false u.factor) raw elements := helements
    simp only [List.cons_append, List.append_assoc, List.nil_append, dimensioneds_cons,
      if_pos (isReal_of_counts hcount), dimensionedsAfterNumber,
      operator?_unstarred hcount (hstar rfl), countedValues_append hcount, ok_bind,
      operator?_of_measures _ hu, nextUnit_cons hu, operator?_any, if_true,
      nextReference_cons href, listOperand_of_lists helements]
    rfl
  · -- values * name unit
    obtain _ | ⟨hplaced, ho, ho'⟩ := h
    obtain ⟨t'', u, rfl, rfl, rfl, hu⟩ := placed_outer_iff.mp hplaced
    obtain ⟨t, raw, elements, rfl, hcount, hstar, helements, rfl⟩ := stands_values_iff.mp ho
    obtain ⟨t', ref, rfl, -, href, rfl⟩ := stands_name_iff.mp ho'
    have helements := helements.imp fun _ _ he => Lists.rescale (by decide) he 1
    simp only [List.cons_append, List.append_assoc, List.nil_append, dimensioneds_cons,
      if_pos (isReal_of_counts hcount), dimensionedsAfterNumber,
      operator?_unstarred hcount (hstar rfl), countedValues_append hcount, ok_bind,
      operator?_multiply, nextReference_cons href, nextUnit_cons hu,
      listOperand_of_lists helements]
    rfl
  · -- number * name unit
    obtain _ | ⟨hplaced, ho, ho'⟩ := h
    obtain ⟨t'', u, rfl, rfl, rfl, hu⟩ := placed_outer_iff.mp hplaced
    obtain ⟨t, x, rfl, hx, -, rfl⟩ := stands_literal_iff.mp ho
    obtain ⟨t', ref, rfl, -, href, rfl⟩ := stands_name_iff.mp ho'
    simp only [List.cons_append, List.nil_append, dimensioneds_cons,
      if_pos (Number.isReal_of_realOf? hx), dimensionedsAfterNumber, operator?_multiply,
      real_eq_ok.mpr hx, ok_bind, nextReference_cons href, nextUnit_cons hu]
    rfl
  · -- name unit
    obtain ⟨hplaced, ho⟩ := h
    obtain ⟨t', u, rfl, -, rfl, hu⟩ := placed_inner_iff.mp hplaced
    obtain ⟨t, ref, rfl, hbarred, href, rfl⟩ := stands_name_iff.mp ho
    simp only [List.cons_append, List.nil_append, dimensioneds_of_name hbarred, ok_bind,
      dimensionedsAfterName, operator?_of_measures _ hu, reference_of_refers href, nextUnit_cons hu]
    rfl
  · -- name * values unit
    obtain _ | ⟨hplaced, ho, ho'⟩ := h
    obtain ⟨t'', u, rfl, rfl, rfl, hu⟩ := placed_outer_iff.mp hplaced
    obtain ⟨t, ref, rfl, hbarred, href, rfl⟩ := stands_name_iff.mp ho
    obtain ⟨t', raw, elements, rfl, hcount, -, helements, rfl⟩ := stands_values_iff.mp ho'
    have helements := helements.imp fun _ _ he => Lists.rescale (by decide) he 1
    simp only [List.cons_append, List.append_assoc, List.nil_append, dimensioneds_of_name hbarred,
      ok_bind, dimensionedsAfterName, operator?_multiply, if_pos (names_of_refers href),
      reference_of_refers href, take_cons, countedValues_append hcount, nextUnit_cons hu,
      listOperand_of_lists helements]
    rfl
  · -- name * name unit
    obtain _ | ⟨hplaced, ho, ho'⟩ := h
    obtain ⟨t'', u, rfl, rfl, rfl, hu⟩ := placed_outer_iff.mp hplaced
    obtain ⟨t, ref, rfl, hbarred, href, rfl⟩ := stands_name_iff.mp ho
    obtain ⟨t', ref', rfl, -, href', rfl⟩ := stands_name_iff.mp ho'
    -- A factor is the name of no vector.
    have hnames : ¬ r.names [Kind.many .dimensioned] t = true := by
      obtain ⟨k, hmem, hk⟩ := kindOf?_of_refers href
      rw [names, hk]
      rcases List.mem_pair.mp hmem with rfl | rfl <;> decide
    simp only [List.cons_append, List.nil_append, dimensioneds_of_name hbarred, ok_bind,
      dimensionedsAfterName, operator?_multiply, if_neg hnames, reference_of_refers href,
      nextReference_cons href', nextUnit_cons hu]
    rfl

/-- What a form derives is read, up to what ends a value. -/
theorem form_of_derives (hf : f ∈ r.kind.grammar) (h : f.Derives r false ts res)
    (hrest : endsValue rest = true) : r.form (ts ++ rest) = .ok (res, rest) := by
  obtain ⟨d, ⟨sort, isVector⟩, scope, maxLength⟩ := r
  cases isVector with
  | false =>
    cases sort with
    | boolean => exact boolean_of_derives hf h hrest
    | integer => exact integerValue_of_derives hf h hrest
    | unitless => exact unitless_of_derives hf h hrest
    | dimensioned => exact dimensioned_of_derives hf h hrest
    | text => exact text_of_derives hf h hrest
  | true =>
    cases sort with
    | boolean => exact booleans_of_derives hf h hrest
    | integer => exact integers_of_derives hf h hrest
    | unitless => exact unitlesses_of_derives hf h hrest
    | dimensioned => exact dimensioneds_of_derives hf h hrest
    | text => exact texts_of_derives hf h hrest

end Resolution

end ParameterChain
