/-
# What the small readers accept

Each small reader of `ParameterChain.Resolution` succeeds exactly where the grammar finds a
token of its class: `reference` where the token refers to a parameter, `unit` where it is a
unit, `count` where it counts the values of a list, `element` where it stands for one of them.
The lemmas are stated once for each reader, so that the readers of whole forms can be compared
with the grammar without a look inside these.
-/
import Mathlib.Data.List.TakeWhile
import ParameterChain.Proofs.Syntax

namespace ParameterChain

/-! ## Classes of tokens -/

namespace Number

variable {t : String}

theorem isReal_iff : isReal t = true ↔ ∃ x, realOf? t = some x := by
  rw [isReal, realOf?, Option.isSome_iff_exists]
  simp only [Option.map_eq_some_iff]
  exact ⟨fun ⟨l, hl⟩ => ⟨_, l, hl, rfl⟩, fun ⟨_, l, hl, _⟩ => ⟨l, hl⟩⟩

theorem isReal_of_realOf? {x : Float} (h : realOf? t = some x) : isReal t = true :=
  isReal_iff.mpr ⟨x, h⟩

theorem isInteger_of_integerOf? {n : Int64} (h : integerOf? t = some n) : isInteger t = true := by
  rw [integerOf?] at h
  obtain ⟨z, hz, -⟩ := Option.bind_eq_some_iff.mp h
  rw [isInteger, hz]
  rfl

/-- An integer literal is a real literal without a fraction or an exponent. -/
theorem isReal_of_isInteger (h : isInteger t = true) : isReal t = true := by
  obtain ⟨z, hz⟩ := Option.isSome_iff_exists.mp h
  rw [intOfChars?] at hz
  generalize hsign : splitSign t.toList = sign at hz
  obtain ⟨negative, ds⟩ := sign
  simp only at hz
  split at hz
  · next hds =>
    simp only [Bool.and_eq_true, decide_eq_true_eq, List.all_eq_true] at hds
    obtain ⟨⟨hlength, -⟩, hdigits⟩ := hds
    have hwhole : ds.takeWhile Char.isDigit = ds := List.takeWhile_eq_self_iff.mpr hdigits
    have hrest : ds.dropWhile Char.isDigit = [] := List.dropWhile_eq_nil_iff.mpr hdigits
    have hne : ds.isEmpty = false := by
      cases ds with
      | nil => cases hlength
      | cons d ds => rfl
    rw [isReal, RealLiteral.ofChars?, hsign]
    simp only [splitDigits, hwhole, hrest, splitFraction, hne, Bool.false_and, exponentOfChars?]
    rfl
  · cases hz

theorem isReal_of_integerOf? {n : Int64} (h : integerOf? t = some n) : isReal t = true :=
  isReal_of_isInteger (isInteger_of_integerOf? h)

end Number

theorem Token.opensQuote_of_quoted? {t text : String} (h : Token.quoted? t = some text) :
    Token.opensQuote t = true := by
  rw [Token.quoted?] at h
  split at h
  · next rest hchars =>
    rw [Token.opensQuote, hchars]
    rfl
  · cases h

theorem Operator.ofToken?_eq_some {t : String} {op : Operator} :
    Operator.ofToken? t = some op ↔ t = op.token := by
  constructor
  · intro h
    unfold Operator.ofToken? at h
    split at h <;> cases h <;> rfl
  · rintro rfl
    cases op <;> rfl

theorem Operator.head?_token (op : Operator) : op.token.toList.head? ≠ some '#' := by
  cases op <;> decide

/-- A unit is spelled neither like a number nor like an operator or a comment. -/
theorem MeasureUnit.symbol_of_ofSymbol? {t : String} {u : MeasureUnit}
    (h : MeasureUnit.ofSymbol? t = some u) :
    t ≠ "" ∧ t.toList.head? ≠ some '#' ∧ Number.isReal t = false ∧
      Operator.ofToken? t = none := by
  have hsymbol : u.symbol = t := by simpa using List.find?_some h
  have hall : (MeasureUnit.table.all fun u => u.symbol != "" &&
      u.symbol.toList.head? != some '#' && !Number.isReal u.symbol &&
        (Operator.ofToken? u.symbol).isNone) = true := by
    decide +kernel
  have hu := List.all_eq_true.mp hall u (List.mem_of_find?_eq_some h)
  rw [hsymbol] at hu
  simpa [and_assoc] using hu

/-- The symbols of a category are those of its units. -/
theorem MeasureUnit.mem_symbolsOf {category symbol : String} :
    symbol ∈ symbolsOf category ↔ ∃ u ∈ table, u.category = category ∧ u.symbol = symbol := by
  simp only [symbolsOf, List.mem_mergeSort, List.mem_map, List.mem_filter, beq_iff_eq, and_assoc]

/-- They are listed in code point order. -/
theorem MeasureUnit.pairwise_symbolsOf (category : String) :
    (symbolsOf category).Pairwise (· ≤ ·) := by
  have htrans : ∀ a b c : String, decide (a ≤ b) → decide (b ≤ c) → decide (a ≤ c) := by
    intro a b c hab hbc
    exact decide_eq_true (String.le_trans (of_decide_eq_true hab) (of_decide_eq_true hbc))
  have htotal : ∀ a b : String, (decide (a ≤ b) || decide (b ≤ a)) = true := by
    intro a b
    simpa using String.le_total a b
  exact (List.pairwise_mergeSort htrans htotal _).imp of_decide_eq_true

/-- What a symbol is looked up by is listed in its category. -/
theorem MeasureUnit.mem_symbolsOf_of_category? {category symbol : String}
    (h : category? symbol = some category) : symbol ∈ symbolsOf category := by
  obtain ⟨u, hu, rfl⟩ := Option.map_eq_some_iff.mp h
  have hsymbol := List.find?_some hu
  exact mem_symbolsOf.mpr ⟨u, List.mem_of_find?_eq_some hu, rfl, eq_of_beq hsymbol⟩

namespace Resolution

variable {r : Resolution} {kinds : List Kind} {t : String} {ts rest : Tokens} {s : Scalar}
  {factor : Float} {strict : Bool}

/-! ## Tokens -/

/-- The next token, if it is not empty, is taken off the front. -/
theorem take_eq {p : String × Tokens} (h : take ts = p) (hne : p.1 ≠ "") : ts = p.1 :: p.2 := by
  cases ts with
  | nil =>
    subst h
    exact absurd rfl hne
  | cons t ts => rw [← h, take]

theorem real_eq_ok {x : Float} : real t = .ok x ↔ Number.realOf? t = some x := by
  rw [real]
  cases Number.realOf? t <;> simp

theorem integer_eq_ok {n : Int64} : integer t = .ok n ↔ Number.integerOf? t = some n := by
  rw [integer]
  cases Number.integerOf? t <;> simp

theorem quoted_eq_ok {text : String} : quoted t = .ok text ↔ Token.quoted? t = some text := by
  rw [quoted]
  cases Token.quoted? t <;> simp

theorem requireCount_eq_ok : requireCount t = .ok () ↔ Token.opensQuote t = false := by
  rw [requireCount]
  cases Token.opensQuote t <;> simp

/-! ## Operators -/

theorem operator?_eq_some {ops : List Operator} {op : Operator} :
    operator? ops ts = some (op, rest) ↔ ts = op.token :: rest ∧ op ∈ ops := by
  cases ts with
  | nil => simp [operator?]
  | cons t ts =>
    cases hop : Operator.ofToken? t with
    | none =>
      have hne : t ≠ op.token := by
        rintro rfl
        rw [Operator.ofToken?_eq_some.mpr rfl] at hop
        cases hop
      simp [operator?, hop, hne]
    | some op' =>
      obtain rfl := Operator.ofToken?_eq_some.mp hop
      simp only [operator?, hop]
      split
      · next hmem =>
        have hmem := List.contains_iff_mem.mp hmem
        simp only [Option.some.injEq, Prod.mk.injEq, List.cons.injEq]
        constructor
        · rintro ⟨rfl, rfl⟩
          exact ⟨⟨rfl, rfl⟩, hmem⟩
        · rintro ⟨⟨htoken, rfl⟩, -⟩
          refine ⟨?_, rfl⟩
          have heq := Operator.ofToken?_eq_some.mpr htoken
          exact Option.some.inj (hop.symm.trans heq)
      · next hmem =>
        simp only [reduceCtorEq, List.cons.injEq, false_iff, not_and]
        rintro ⟨htoken, -⟩ hop'
        have heq := Operator.ofToken?_eq_some.mpr htoken
        cases hop.symm.trans heq
        exact hmem (List.contains_iff_mem.mpr hop')

/-- What ends a value begins with no operator. -/
theorem operator?_of_endsValue (ops : List Operator) (h : endsValue ts = true) :
    operator? ops ts = none := by
  cases hop : operator? ops ts with
  | none => rfl
  | some p =>
    obtain ⟨rfl, -⟩ := operator?_eq_some.mp hop
    exact absurd (of_decide_eq_true h) p.1.head?_token

/-! ## Names -/

theorem reference_eq_ok {ref : Ref} :
    r.reference kinds t = .ok ref ↔ r.Refers false kinds t ref := by
  rw [reference]
  constructor
  · intro h
    split at h
    · cases h
    next hempty =>
    have hne : t ≠ "" := fun h => hempty (by rw [h]; rfl)
    split at h
    · next hself =>
      cases h
      exact .self hne hself nofun
    next hself =>
    split at h
    · cases h
    · next k hk =>
      split at h
      · next hmem =>
        cases h
        exact .named hne (Bool.not_eq_true _ ▸ hself) hk (List.contains_iff_mem.mp hmem)
      · cases h
  · rintro (⟨hne, hself, -⟩ | ⟨hne, hself, hk, hmem⟩)
    · rw [if_neg (by simpa using hne), if_pos hself]
    · rw [if_neg (by simpa using hne), if_neg (by simp [hself]), hk]
      simp [hmem]

/-- Where the name chooses the form, it has one of the kinds. -/
theorem kindOf?_of_refers {ref : Ref} (h : r.Refers true kinds t ref) :
    ∃ k ∈ kinds, r.kindOf? t = some k := by
  cases h with
  | self _ hself hkind => exact ⟨r.kind, hkind rfl, by rw [kindOf?, if_pos hself]⟩
  | named _ hself hk hmem => exact ⟨_, hmem, by rw [kindOf?, hself, if_neg Bool.false_ne_true, hk]⟩

theorem names_of_refers {ref : Ref} (h : r.Refers true kinds t ref) : r.names kinds t = true := by
  obtain ⟨k, hmem, hk⟩ := kindOf?_of_refers h
  rw [names, hk, Option.any_some, List.contains_iff_mem]
  exact hmem

theorem refers_of_names {ref : Ref} (hnames : r.names kinds t = true)
    (h : r.Refers false kinds t ref) : r.Refers strict kinds t ref := by
  cases h with
  | self hne hself _ =>
    refine .self hne hself fun _ => ?_
    simpa [names, kindOf?, hself] using hnames
  | named hne hself hk hmem => exact .named hne hself hk hmem

theorem Refers.ne {ref : Ref} (h : r.Refers strict kinds t ref) : t ≠ "" := by
  cases h with
  | self hne _ _ => exact hne
  | named hne _ _ _ => exact hne

/-- What is accepted strictly is accepted. -/
theorem Refers.lenient {ref : Ref} (h : r.Refers strict kinds t ref) :
    r.Refers false kinds t ref := by
  cases h with
  | self hne hself _ => exact .self hne hself nofun
  | named hne hself hk hmem => exact .named hne hself hk hmem

theorem nextReference_eq_ok {ref : Ref} :
    r.nextReference kinds ts = .ok (ref, rest) ↔
      ∃ t, ts = t :: rest ∧ r.Refers false kinds t ref := by
  simp only [nextReference, bind_eq_ok, pure_eq_ok, Prod.mk.injEq, reference_eq_ok]
  constructor
  · rintro ⟨ref', href, rfl, rfl⟩
    exact ⟨_, take_eq rfl href.ne, href⟩
  · rintro ⟨t, rfl, href⟩
    exact ⟨ref, href, rfl, rfl⟩

/-! ## Units -/

theorem unit_eq_ok {u : MeasureUnit} : r.unit t = .ok u ↔ r.Measures t u := by
  rw [unit, Measures]
  constructor
  · intro h
    split at h
    · cases h
    split at h
    · cases h
    split at h
    · cases h
    next v hv =>
    split at h
    · next hnone =>
      cases h
      exact ⟨hv, fun c hc => nomatch hnone.symm.trans hc⟩
    · next c hc =>
      split at h
      · next heq =>
        cases h
        exact ⟨hv, fun c' hc' => Option.some.inj (hc.symm.trans hc') ▸ heq⟩
      · cases h
  · rintro ⟨hu, hcategory⟩
    obtain ⟨hne, hcomment, hreal, -⟩ := MeasureUnit.symbol_of_ofSymbol? hu
    rw [if_neg (by simp [hne, hcomment]), hreal, if_neg Bool.false_ne_true, hu]
    simp only
    split
    · rfl
    · next c hc => rw [if_pos (hcategory c hc)]

theorem nextUnit_eq_ok {u : MeasureUnit} :
    r.nextUnit ts = .ok (u, rest) ↔ ∃ t, ts = t :: rest ∧ r.Measures t u := by
  simp only [nextUnit, bind_eq_ok, pure_eq_ok, Prod.mk.injEq, unit_eq_ok]
  constructor
  · rintro ⟨u', hu, rfl, rfl⟩
    exact ⟨_, take_eq rfl (MeasureUnit.symbol_of_ofSymbol? hu.1).1, hu⟩
  · rintro ⟨t, rfl, hu⟩
    exact ⟨u, hu, rfl, rfl⟩

/-- A unit is no operator. -/
theorem operator?_of_measures {u : MeasureUnit} (ops : List Operator) (hu : r.Measures t u) :
    operator? ops (t :: ts) = none := by
  rw [operator?, (MeasureUnit.symbol_of_ofSymbol? hu.1).2.2.2]

/-! ## Counts and lists -/

theorem count_eq_ok {n : Nat} : r.count t = .ok n ↔ r.Counts t n := by
  rw [count, Counts]
  cases hz : Number.integerOf? t with
  | none => simp
  | some z =>
    simp only [Option.map_some, Option.some.injEq, Int64.lt_iff_toInt_lt, Int64.toInt_zero]
    have hone : (1 : Int64).toInt = 1 := rfl
    rw [hone]
    constructor
    · intro h
      split at h
      · cases h
      split at h
      · cases h
      split at h
      · cases h
      · cases h
        omega
    · rintro ⟨heq, hpos, hmax⟩
      rw [if_neg (by omega), if_neg (by omega), if_neg (by omega), heq, Int.toNat_natCast]

theorem values_eq_ok {n : Nat} {raw : List String} :
    values n ts = .ok (raw, rest) ↔ ts = raw ++ rest ∧ raw.length = n := by
  rw [values]
  split
  · next hlt =>
    simp only [reduceCtorEq, false_iff, not_and]
    rintro rfl hlength
    rw [List.length_append] at hlt
    omega
  · next hge =>
    simp only [Except.ok.injEq, Prod.mk.injEq]
    constructor
    · rintro ⟨rfl, rfl⟩
      exact ⟨(List.take_append_drop n ts).symm, List.length_take_of_le (Nat.le_of_not_lt hge)⟩
    · rintro ⟨rfl, rfl⟩
      exact ⟨List.take_left, List.drop_left⟩

theorem countedValues_eq_ok {raw : List String} :
    r.countedValues t ts = .ok (raw, rest) ↔ ts = raw ++ rest ∧ r.Counts t raw.length := by
  simp only [countedValues, bind_eq_ok, count_eq_ok, values_eq_ok]
  constructor
  · rintro ⟨n, hn, hts, rfl⟩
    exact ⟨hts, hn⟩
  · rintro ⟨hts, hn⟩
    exact ⟨_, hn, hts, rfl⟩

/-- A token that spells a literal is one. -/
theorem element_of_read? {x : s.Carrier} (hx : s.read? factor t = some x) :
    r.element s factor t = .ok (.literal x) := by
  cases s with
  | dimensioned =>
    obtain ⟨y, hy, rfl⟩ := Option.map_eq_some_iff.mp hx
    rw [element, if_pos (Number.isReal_of_realOf? hy), real_eq_ok.mpr hy]
    rfl
  | unitless =>
    rw [element, if_pos (Number.isReal_of_realOf? hx), real_eq_ok.mpr hx]
    rfl
  | integer =>
    rw [element, if_pos (Number.isReal_of_integerOf? hx), integer_eq_ok.mpr hx]
    rfl
  | boolean =>
    rw [element, show Token.boolean? t = some x from hx]
    rfl
  | text =>
    rw [element, if_pos (Token.opensQuote_of_quoted? hx), quoted_eq_ok.mpr hx]
    rfl

/-- A token that does not look like a literal is a name, if it refers to a parameter. -/
theorem element_of_refers {ref : Ref} (hspelling : s.spelling.test t = false)
    (href : r.Refers (s = .text) s.elementKinds t ref) :
    r.element s factor t = .ok (.param ref) := by
  have hread := reference_eq_ok.mpr href.lenient
  have hne := ne_true_of_eq_false hspelling
  cases s with
  | dimensioned | unitless | integer =>
    have hne : ¬ Number.isReal t = true := hne
    rw [element, if_neg hne]
    exact bind_eq_ok.mpr ⟨ref, hread, rfl⟩
  | boolean =>
    have hnone : Token.boolean? t = none := Option.not_isSome_iff_eq_none.mp hne
    rw [element, hnone]
    exact bind_eq_ok.mpr ⟨ref, hread, rfl⟩
  | text =>
    have hne : ¬ Token.opensQuote t = true := hne
    have hnames : r.names [Kind.one .text, Kind.one .integer] t = true := names_of_refers href
    rw [element, if_neg hne, if_pos hnames]
    exact bind_eq_ok.mpr ⟨ref, hread, rfl⟩

/-- A reference that is read among the values of a list is a name. -/
theorem lists_of_reference {e : Element s} (hs : s ≠ .text) (hspelling : s.spelling.test t = false)
    (h : (r.reference s.elementKinds t >>= fun ref => pure (Element.param ref)) = .ok e) :
    r.Lists false factor t e := by
  simp only [bind_eq_ok, pure_eq_ok, reference_eq_ok] at h
  obtain ⟨ref, href, rfl⟩ := h
  exact .name hspelling (by simpa [hs] using href)

theorem element_eq_ok {e : Element s} :
    r.element s factor t = .ok e ↔ r.Lists false factor t e := by
  constructor
  · intro h
    cases s with
    | dimensioned =>
      simp only [element] at h
      split at h
      · simp only [bind_eq_ok, pure_eq_ok, real_eq_ok] at h
        obtain ⟨x, hx, rfl⟩ := h
        exact .literal (by simp [Scalar.read?, hx])
      · next hreal => exact lists_of_reference (by decide) (Bool.not_eq_true _ ▸ hreal) h
    | unitless =>
      simp only [element] at h
      split at h
      · simp only [bind_eq_ok, pure_eq_ok, real_eq_ok] at h
        obtain ⟨x, hx, rfl⟩ := h
        exact .literal hx
      · next hreal => exact lists_of_reference (by decide) (Bool.not_eq_true _ ▸ hreal) h
    | integer =>
      simp only [element] at h
      split at h
      · simp only [bind_eq_ok, pure_eq_ok, integer_eq_ok] at h
        obtain ⟨x, hx, rfl⟩ := h
        exact .literal hx
      · next hreal => exact lists_of_reference (by decide) (Bool.not_eq_true _ ▸ hreal) h
    | boolean =>
      simp only [element] at h
      split at h
      · next b hb =>
        cases pure_eq_ok.mp h
        exact .literal hb
      · next hnone =>
        exact lists_of_reference (by decide) (by simp [Scalar.spelling, Spelling.test, hnone]) h
    | text =>
      simp only [element] at h
      split at h
      · simp only [bind_eq_ok, pure_eq_ok, quoted_eq_ok] at h
        obtain ⟨x, hx, rfl⟩ := h
        exact .literal hx
      next hquote =>
      have hquote := Bool.not_eq_true _ ▸ hquote
      split at h
      · next hnames =>
        simp only [bind_eq_ok, pure_eq_ok, reference_eq_ok] at h
        obtain ⟨ref, href, rfl⟩ := h
        exact .name hquote (refers_of_names hnames href)
      · next hnames =>
        cases pure_eq_ok.mp h
        exact .bare hquote (Bool.not_eq_true _ ▸ hnames)
  · intro h
    cases h with
    | literal hx => exact element_of_read? hx
    | name hspelling href => exact element_of_refers hspelling href
    | bare hquote hnames =>
      rw [element, if_neg (Bool.not_eq_true _ ▸ hquote), if_neg (Bool.not_eq_true _ ▸ hnames)]
      rfl

theorem elements_eq_ok {tokens : Tokens} {elements : List (Element s)} :
    r.elements s factor tokens = .ok elements ↔
      List.Forall₂ (r.Lists false factor) tokens elements := by
  constructor
  · intro h
    exact (forall₂_of_mapM h).imp fun _ _ => element_eq_ok.mp
  · intro h
    rw [Resolution.elements]
    induction h with
    | nil => rfl
    | cons he _ ih =>
      rw [List.mapM_cons, element_eq_ok.mpr he, ih]
      rfl

theorem listOperand_eq_ok {tokens : Tokens} {o : Operand} :
    r.listOperand s factor tokens = .ok o ↔
      ∃ elements : List (Element s), List.Forall₂ (r.Lists false factor) tokens elements ∧
        Operand.ofElements elements = o := by
  simp only [listOperand, bind_eq_ok, pure_eq_ok, elements_eq_ok]

theorem toPlan_ofElements (elements : List (Element s)) :
    (Operand.ofElements elements).toPlan = Plan.ofElements elements := by
  rw [Operand.ofElements, Plan.ofElements]
  split <;> rfl

theorem listPlan_eq_ok {tokens : Tokens} {p : Plan} :
    r.listPlan s factor tokens = .ok p ↔
      ∃ elements : List (Element s), List.Forall₂ (r.Lists false factor) tokens elements ∧
        (Operand.ofElements elements).toPlan = p := by
  simp only [listPlan, bind_eq_ok, pure_eq_ok, elements_eq_ok, toPlan_ofElements]

end Resolution

end ParameterChain
