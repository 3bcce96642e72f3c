/-
# What is read is derived

Each reader of `ParameterChain.Resolution` takes from the front of the tokens what a form of
its kind derives, and gives the plan and the unit of that form (`form_reads`).  There is one
lemma for each reader, with one case for each group of forms that differ in the operator only.
The other direction is `ParameterChain.Proofs.Accepted`.
-/
import ParameterChain.Proofs.Lexemes

namespace ParameterChain

theorem Form.mem_alone {f : Form} {lhs : Place} {unit : UnitPlace} :
    f ∈ Form.alone lhs unit ↔ f = ⟨lhs, unit, none⟩ :=
  List.mem_singleton

theorem Form.mem_joined {f : Form} {lhs rhs : Place} {ops : List Operator} {unit : UnitPlace} :
    f ∈ Form.joined lhs ops rhs unit ↔ ∃ op ∈ ops, ⟨lhs, unit, some (op, rhs)⟩ = f :=
  List.mem_map

namespace Resolution

variable {r : Resolution} {k : Kind} {kinds : List Kind} {t first : String} {ts rest : Tokens}
  {s : Scalar} {factor : Float} {res : Resolved} {lhs rhs : Place} {unit : UnitPlace}
  {op : Operator} {u : Option MeasureUnit} {o o' : Operand} {ls rs inner outer : Tokens}

/-- The tokens begin with what a form of the kind derives. -/
def Reads (r : Resolution) (k : Kind) (ts rest : Tokens) (res : Resolved) : Prop :=
  ∃ f ∈ k.grammar, ∃ pre, ts = pre ++ rest ∧ f.Derives r false pre res

theorem reads_alone (hf : ⟨lhs, unit, none⟩ ∈ k.grammar) (hu : r.Placed unit inner [] u)
    (ho : r.Stands false (scale u) lhs ls o) (hts : ts = ls ++ inner ++ rest) :
    r.Reads k ts rest ⟨o.toPlan, u.map MeasureUnit.symbol⟩ :=
  ⟨_, hf, _, hts, .alone hu ho⟩

theorem reads_joined (hf : ⟨lhs, unit, some (op, rhs)⟩ ∈ k.grammar)
    (hu : r.Placed unit inner outer u) (ho : r.Stands false (scale u) lhs ls o)
    (ho' : r.Stands false (scale u) rhs rs o')
    (hts : ts = ls ++ inner ++ op.token :: rs ++ outer ++ rest) :
    r.Reads k ts rest ⟨.binary o op o', u.map MeasureUnit.symbol⟩ :=
  ⟨_, hf, _, hts, .joined hu ho ho'⟩

/-! ## Places -/

section Places

theorem stands_unitless {x : Float} (hx : Number.realOf? t = some x) :
    r.Stands false factor (.literal .unitless) [t] (.literal (.unitless x)) :=
  .literal hx nofun

theorem stands_dimensioned {x : Float} (hx : Number.realOf? t = some x) :
    r.Stands false factor (.literal .dimensioned) [t] (.literal (.dimensioned (x * factor))) :=
  .literal (by rw [Scalar.read?, hx, Option.map_some]) nofun

theorem stands_integer {n : Int64} (hn : Number.integerOf? t = some n) :
    r.Stands false factor (.literal .integer) [t] (.literal (.integer n)) :=
  .literal hn nofun

theorem stands_text {text : String} (htext : Token.quoted? t = some text) :
    r.Stands false factor (.literal .text) [t] (.literal (.text text)) :=
  .literal htext nofun

/-- The name of a parameter whose kind chooses the form. -/
theorem stands_chosen {barred : List Spelling} {ref : Ref}
    (hbarred : ∀ spelling ∈ barred, spelling.test t = false) (href : r.Refers true kinds t ref) :
    r.Stands false factor (.name kinds barred true) [t] (.param ref) :=
  .name hbarred href

theorem not_barred (t : String) : ∀ spelling ∈ [], Spelling.test spelling t = false :=
  fun _ h => absurd h List.not_mem_nil

/-- A name that gives way to no literal. -/
theorem stands_named {ref : Ref} (href : r.Refers false kinds t ref) :
    r.Stands false factor (.name kinds [] false) [t] (.param ref) :=
  .name (not_barred t) href

theorem not_number (h : ¬ Number.isReal t = true) :
    ∀ spelling ∈ [Spelling.number], spelling.test t = false := by
  simpa [Spelling.test] using h

theorem not_quote (h : ¬ Token.opensQuote t = true) :
    ∀ spelling ∈ [Spelling.quote], spelling.test t = false := by
  simpa [Spelling.test] using h

theorem not_number_or_quote (h : ¬ Number.isReal t = true) (h' : Token.opensQuote t = false) :
    ∀ spelling ∈ [Spelling.number, Spelling.quote], spelling.test t = false := by
  simpa [Spelling.test] using ⟨Bool.not_eq_true _ ▸ h, h'⟩

theorem not_integer_or_quote (h : ¬ Number.isInteger t = true) (h' : Token.opensQuote t = false) :
    ∀ spelling ∈ [Spelling.integer, Spelling.quote], spelling.test t = false := by
  simpa [Spelling.test] using ⟨Bool.not_eq_true _ ▸ h, h'⟩

/-- A number that begins a vector and is followed by no `*` counts its values. -/
theorem not_starred {raw : Tokens} (h : operator? [.multiply] (raw ++ rest) = none) :
    raw.head? ≠ some Operator.multiply.token := by
  intro hhead
  obtain ⟨tail, rfl⟩ := List.head?_eq_some_iff.mp hhead
  rw [List.cons_append, operator?_eq_some.mpr ⟨rfl, List.mem_singleton_self _⟩] at h
  cases h

theorem ne_of_isReal (h : Number.isReal t = true) : t ≠ "" := by
  rintro rfl
  exact absurd h (by decide)

theorem ne_of_opensQuote (h : Token.opensQuote t = true) : t ≠ "" := by
  rintro rfl
  exact absurd h (by decide)

end Places

theorem take_cons (t : String) (ts : Tokens) : take (t :: ts) = (t, ts) :=
  rfl

/-! ## What is read is derived -/

theorem dimensionedAfterNumber_reads {x : Float} (hx : Number.realOf? first = some x)
    (h : r.dimensionedAfterNumber x ts = .ok (res, rest)) :
    r.Reads (Kind.one .dimensioned) (first :: ts) rest res := by
  rw [dimensionedAfterNumber] at h
  split at h
  · next op ts hop =>
    obtain ⟨rfl, hmem⟩ := operator?_eq_some.mp hop
    obtain rfl := List.mem_singleton.mp hmem
    simp only [bind_eq_ok, Prod.exists, nextReference_eq_ok, nextUnit_eq_ok, pure_eq_ok,
      Prod.mk.injEq] at h
    obtain ⟨rhs, _, ⟨t, rfl, hrhs⟩, u, _, ⟨t', rfl, hu⟩, rfl, rfl⟩ := h
    exact reads_joined (by decide) (.outer hu) (stands_unitless hx) (stands_named hrhs) rfl
  · simp only [bind_eq_ok, Prod.exists, nextUnit_eq_ok] at h
    obtain ⟨u, _, ⟨t, rfl, hu⟩, h⟩ := h
    split at h
    · cases h
      exact reads_alone (by decide) (.inner hu) (stands_dimensioned hx) rfl
    · next op ts hop =>
      obtain ⟨rfl, -⟩ := operator?_eq_some.mp hop
      simp only [bind_eq_ok, Prod.exists, nextReference_eq_ok, pure_eq_ok, Prod.mk.injEq] at h
      obtain ⟨rhs, _, ⟨t', rfl, hrhs⟩, rfl, rfl⟩ := h
      cases op with
      | multiply =>
        exact reads_joined (by decide) (.inner hu) (stands_dimensioned hx) (stands_named hrhs) rfl
      | _ =>
        exact reads_joined (by decide) (.inner hu) (stands_dimensioned hx) (stands_named hrhs) rfl

theorem dimensionedAfterName_reads (hreal : ¬ Number.isReal first = true)
    (h : r.dimensionedAfterName first ts = .ok (res, rest)) :
    r.Reads (Kind.one .dimensioned) (first :: ts) rest res := by
  have hfirst : ∀ {factor kinds ref}, r.Refers false kinds first ref →
      r.Stands false factor (.name kinds [.number] false) [first] (.param ref) :=
    fun href => .name (not_number hreal) href
  rw [dimensionedAfterName] at h
  split at h
  · next hop =>
    obtain ⟨rfl, -⟩ := operator?_eq_some.mp hop
    simp only [bind_eq_ok, Prod.exists, reference_eq_ok, real_eq_ok, nextUnit_eq_ok, pure_eq_ok,
      Prod.mk.injEq] at h
    obtain ⟨lhs, hlhs, x, hx, u, _, ⟨t, hts, hu⟩, rfl, rfl⟩ := h
    have hts' := take_eq rfl (ne_of_isReal (Number.isReal_of_realOf? hx))
    rw [hts', hts]
    exact reads_joined (by decide) (.outer hu) (hfirst hlhs) (stands_dimensioned hx) rfl
  · next op ts hmultiply hop =>
    obtain ⟨rfl, -⟩ := operator?_eq_some.mp hop
    simp only [bind_eq_ok, reference_eq_ok] at h
    obtain ⟨lhs, hlhs, h⟩ := h
    generalize htake : take ts = next at h
    obtain ⟨second, ts⟩ := next
    simp only at h
    split at h
    · next hreal' =>
      obtain rfl := take_eq htake (ne_of_isReal hreal')
      simp only [bind_eq_ok, Prod.exists, real_eq_ok, nextUnit_eq_ok, pure_eq_ok,
        Prod.mk.injEq] at h
      obtain ⟨x, hx, u, _, ⟨t, rfl, hu⟩, rfl, rfl⟩ := h
      cases op with
      | multiply => exact absurd rfl hmultiply
      | _ => exact reads_joined (by decide) (.outer hu) (hfirst hlhs) (stands_dimensioned hx) rfl
    · next hreal' =>
      simp only [bind_eq_ok, Prod.exists, reference_eq_ok, nextUnit_eq_ok, pure_eq_ok,
        Prod.mk.injEq] at h
      obtain ⟨rhs, hrhs, u, _, ⟨t, rfl, hu⟩, rfl, rfl⟩ := h
      obtain rfl := take_eq htake hrhs.ne
      cases op with
      | multiply => exact absurd rfl hmultiply
      | _ =>
        exact reads_joined (by decide) (.outer hu) (hfirst hlhs) (.name (not_number hreal') hrhs)
          rfl
  · simp only [bind_eq_ok, Prod.exists, reference_eq_ok, nextUnit_eq_ok] at h
    obtain ⟨lhs, hlhs, u, _, ⟨t, rfl, hu⟩, h⟩ := h
    split at h
    · cases h
      exact reads_alone (by decide) (.inner hu) (hfirst hlhs) rfl
    · next op ts hop =>
      obtain ⟨rfl, hmem⟩ := operator?_eq_some.mp hop
      obtain rfl := List.mem_singleton.mp hmem
      generalize htake : take ts = next at h
      obtain ⟨second, ts⟩ := next
      simp only at h
      split at h
      · next hreal' =>
        obtain rfl := take_eq htake (ne_of_isReal hreal')
        simp only [bind_eq_ok, real_eq_ok, pure_eq_ok, Prod.mk.injEq] at h
        obtain ⟨x, hx, rfl, rfl⟩ := h
        exact reads_joined (by decide) (.inner hu) (hfirst hlhs) (stands_unitless hx) rfl
      · next hreal' =>
        simp only [bind_eq_ok, reference_eq_ok, pure_eq_ok, Prod.mk.injEq] at h
        obtain ⟨rhs, hrhs, rfl, rfl⟩ := h
        obtain rfl := take_eq htake hrhs.ne
        exact reads_joined (by decide) (.inner hu) (hfirst hlhs) (.name (not_number hreal') hrhs)
          rfl

theorem dimensioned_cons (r : Resolution) (first : String) (ts : Tokens) :
    r.dimensioned (first :: ts) =
      if Number.isReal first then real first >>= fun x => r.dimensionedAfterNumber x ts
      else r.dimensionedAfterName first ts :=
  rfl

theorem dimensioned_reads (h : r.dimensioned ts = .ok (res, rest)) :
    r.Reads (Kind.one .dimensioned) ts rest res := by
  cases ts with
  | nil => cases h
  | cons first ts =>
    rw [dimensioned_cons] at h
    split at h
    · simp only [bind_eq_ok, real_eq_ok] at h
      obtain ⟨x, hx, h⟩ := h
      exact dimensionedAfterNumber_reads hx h
    · next hreal => exact dimensionedAfterName_reads hreal h

theorem unitless_reads (h : r.unitless ts = .ok (res, rest)) :
    r.Reads (Kind.one .unitless) ts rest res := by
  cases ts with
  | nil => cases h
  | cons first ts =>
    simp only [unitless, take_cons] at h
    split at h
    · simp only [bind_eq_ok, real_eq_ok] at h
      obtain ⟨x, hx, h⟩ := h
      split at h
      · cases h
        exact reads_alone (by decide) .absent (stands_unitless hx) rfl
      · next op ts hop =>
        obtain ⟨rfl, -⟩ := operator?_eq_some.mp hop
        simp only [bind_eq_ok, Prod.exists, nextReference_eq_ok, pure_eq_ok, Prod.mk.injEq] at h
        obtain ⟨rhs, ts, ⟨t, rfl, hrhs⟩, rfl, rfl⟩ := h
        exact reads_joined (by cases op <;> decide) .absent (stands_unitless hx)
          (stands_named hrhs) rfl
    · next hreal =>
      simp only [bind_eq_ok, reference_eq_ok] at h
      obtain ⟨lhs, hlhs, h⟩ := h
      split at h
      · cases h
        exact reads_alone (by decide) .absent (.name (not_number hreal) hlhs) rfl
      · next op ts hop =>
        obtain ⟨rfl, -⟩ := operator?_eq_some.mp hop
        generalize htake : take ts = next at h
        obtain ⟨second, ts⟩ := next
        simp only at h
        split at h
        · next hreal' =>
          obtain rfl := take_eq htake (ne_of_isReal hreal')
          simp only [bind_eq_ok, real_eq_ok, pure_eq_ok, Prod.mk.injEq] at h
          obtain ⟨x, hx, rfl, rfl⟩ := h
          exact reads_joined (by cases op <;> decide) .absent (.name (not_number hreal) hlhs)
            (stands_unitless hx) rfl
        · next hreal' =>
          simp only [bind_eq_ok, reference_eq_ok, pure_eq_ok, Prod.mk.injEq] at h
          obtain ⟨rhs, hrhs, rfl, rfl⟩ := h
          obtain rfl := take_eq htake hrhs.ne
          exact reads_joined (by cases op <;> decide) .absent (.name (not_number hreal) hlhs)
            (.name (not_number hreal') hrhs) rfl

/-- Where integers and numbers without a unit may stand, the kind of the name chooses the
form; the name of the declaration is that of an integer. -/
theorem refers_integer_or_unitless {ref : Ref} (hk : r.kind = Kind.one .integer)
    (h : r.Refers false [Kind.one .integer, Kind.one .unitless] t ref) :
    r.Refers true [Kind.one .integer] t ref ∨ r.Refers true [Kind.one .unitless] t ref := by
  cases h with
  | self hne hself _ => exact Or.inl (.self hne hself fun _ => by rw [hk]; decide)
  | named hne hself hkind hmem =>
    rcases List.mem_pair.mp hmem with rfl | rfl
    · exact Or.inl (.named hne hself hkind (List.mem_singleton_self _))
    · exact Or.inr (.named hne hself hkind (List.mem_singleton_self _))

theorem refers_integer {ref : Ref} (hk : r.kind = Kind.one .integer)
    (h : r.Refers false [Kind.one .integer] t ref) : r.Refers true [Kind.one .integer] t ref := by
  cases h with
  | self hne hself _ => exact .self hne hself fun _ => by rw [hk]; decide
  | named hne hself hkind hmem => exact .named hne hself hkind hmem

theorem integerOperandKinds_of_ne (hop : op ≠ .multiply) :
    integerOperandKinds op = [Kind.one .integer] :=
  if_neg hop

/-- What follows an integer and an operator. -/
theorem reads_of_integerOperand {ref : Ref} {barred : List Spelling}
    (hk : r.kind = Kind.one .integer)
    (hinteger : ⟨lhs, .absent, some (op, .name [Kind.one .integer] barred true)⟩ ∈
      (Kind.one .integer).grammar)
    (hunitless : op = .multiply →
      ⟨lhs, .absent, some (op, .name [Kind.one .unitless] barred true)⟩ ∈
        (Kind.one .integer).grammar)
    (ho : r.Stands false 1 lhs ls o) (hbarred : ∀ spelling ∈ barred, spelling.test t = false)
    (href : r.Refers false (integerOperandKinds op) t ref)
    (hts : ts = ls ++ op.token :: [t] ++ rest) :
    r.Reads (Kind.one .integer) ts rest { plan := .binary o op (.param ref) } := by
  have hts : ts = ls ++ [] ++ op.token :: [t] ++ [] ++ rest := by simpa using hts
  by_cases hop : op = .multiply
  · subst hop
    rcases refers_integer_or_unitless hk href with href | href
    · exact reads_joined hinteger .absent ho (.name hbarred href) hts
    · exact reads_joined (hunitless rfl) .absent ho (.name hbarred href) hts
  · rw [integerOperandKinds_of_ne hop] at href
    exact reads_joined hinteger .absent ho (.name hbarred (refers_integer hk href)) hts

theorem integerValue_reads (hk : r.kind = Kind.one .integer)
    (h : r.integerValue ts = .ok (res, rest)) : r.Reads (Kind.one .integer) ts rest res := by
  cases ts with
  | nil => cases h
  | cons first ts =>
    simp only [integerValue, take_cons] at h
    split at h
    · simp only [bind_eq_ok, integer_eq_ok] at h
      obtain ⟨n, hn, h⟩ := h
      split at h
      · cases h
        exact reads_alone (by decide) .absent (stands_integer hn) rfl
      · next op ts hop =>
        obtain ⟨rfl, -⟩ := operator?_eq_some.mp hop
        simp only [bind_eq_ok, Prod.exists, nextReference_eq_ok, pure_eq_ok, Prod.mk.injEq] at h
        obtain ⟨rhs, ts, ⟨t, rfl, hrhs⟩, rfl, rfl⟩ := h
        exact reads_of_integerOperand hk (by cases op <;> decide) (by rintro rfl; decide)
          (stands_integer hn) (not_barred t) hrhs rfl
    · next hreal =>
      split at h
      · simp only [bind_eq_ok, reference_eq_ok, pure_eq_ok, Prod.mk.injEq] at h
        obtain ⟨lhs, hlhs, rfl, rfl⟩ := h
        rcases refers_integer_or_unitless hk hlhs with hlhs | hlhs
        · exact reads_alone (by decide) .absent (.name (not_number hreal) hlhs) rfl
        · exact reads_alone (by decide) .absent (.name (not_number hreal) hlhs) rfl
      · next op ts hop =>
        obtain ⟨rfl, -⟩ := operator?_eq_some.mp hop
        simp only [bind_eq_ok, reference_eq_ok] at h
        obtain ⟨lhs, hlhs, h⟩ := h
        have hlhs := refers_integer hk hlhs
        generalize htake : take ts = next at h
        obtain ⟨second, ts⟩ := next
        simp only at h
        split at h
        · next hreal' =>
          obtain rfl := take_eq htake (ne_of_isReal hreal')
          simp only [bind_eq_ok, integer_eq_ok, pure_eq_ok, Prod.mk.injEq] at h
          obtain ⟨n, hn, rfl, rfl⟩ := h
          exact reads_joined (by cases op <;> decide) .absent (.name (not_number hreal) hlhs)
            (stands_integer hn) rfl
        · next hreal' =>
          simp only [bind_eq_ok, reference_eq_ok, pure_eq_ok, Prod.mk.injEq] at h
          obtain ⟨rhs, hrhs, rfl, rfl⟩ := h
          obtain rfl := take_eq htake hrhs.ne
          exact reads_of_integerOperand hk (by cases op <;> decide) (by rintro rfl; decide)
            (.name (not_number hreal) hlhs) (not_number hreal') hrhs rfl

theorem boolean_reads (h : r.boolean ts = .ok (res, rest)) :
    r.Reads (Kind.one .boolean) ts rest res := by
  simp only [boolean] at h
  generalize htake : take ts = next at h
  obtain ⟨first, ts⟩ := next
  simp only at h
  split at h
  · next hnames =>
    simp only [bind_eq_ok, reference_eq_ok] at h
    obtain ⟨lhs, hlhs, h⟩ := h
    obtain rfl := take_eq htake hlhs.ne
    have hlhs : r.Refers true [Kind.one .boolean] first lhs := refers_of_names hnames hlhs
    split at h
    · cases h
      exact reads_alone (by decide) .absent (stands_chosen (not_barred _) hlhs) rfl
    · next op ts hop =>
      obtain ⟨rfl, hmem⟩ := operator?_eq_some.mp hop
      obtain rfl := List.mem_singleton.mp hmem
      simp only [bind_eq_ok, Prod.exists, nextReference_eq_ok, pure_eq_ok, Prod.mk.injEq] at h
      obtain ⟨rhs, _, ⟨t, rfl, hrhs⟩, rfl, rfl⟩ := h
      exact reads_joined (by decide) .absent (stands_chosen (not_barred _) hlhs)
        (stands_named hrhs) rfl
  · next hnames =>
    split at h
    · next b hb =>
      cases h
      have hne : first ≠ "" := by
        rintro rfl
        cases hb
      obtain rfl := take_eq htake hne
      exact reads_alone (by decide) .absent
        (.literal (s := .boolean) hb fun _ => Bool.not_eq_true _ ▸ hnames) rfl
    · split at h
      · simp only [bind_eq_ok] at h
        obtain ⟨ref, -, h⟩ := h
        cases h
      · cases h

theorem text_reads (h : r.text ts = .ok (res, rest)) :
    r.Reads (Kind.one .text) ts rest res := by
  cases ts with
  | nil => cases h
  | cons first ts =>
    simp only [text, take_cons] at h
    split at h
    · simp only [bind_eq_ok, quoted_eq_ok] at h
      obtain ⟨x, hx, h⟩ := h
      split at h
      · cases h
        exact reads_alone (by decide) .absent (stands_text hx) rfl
      · next op ts hop =>
        obtain ⟨rfl, hmem⟩ := operator?_eq_some.mp hop
        obtain rfl := List.mem_singleton.mp hmem
        simp only [bind_eq_ok, Prod.exists, nextReference_eq_ok, pure_eq_ok, Prod.mk.injEq] at h
        obtain ⟨rhs, _, ⟨t, rfl, hrhs⟩, rfl, rfl⟩ := h
        exact reads_joined (by decide) .absent (stands_text hx) (stands_named hrhs) rfl
    · next hquote =>
      simp only [bind_eq_ok, reference_eq_ok] at h
      obtain ⟨lhs, hlhs, h⟩ := h
      split at h
      · cases h
        exact reads_alone (by decide) .absent (.name (not_quote hquote) hlhs) rfl
      · next op ts hop =>
        obtain ⟨rfl, hmem⟩ := operator?_eq_some.mp hop
        obtain rfl := List.mem_singleton.mp hmem
        generalize htake : take ts = next at h
        obtain ⟨second, ts⟩ := next
        simp only at h
        split at h
        · next hquote' =>
          obtain rfl := take_eq htake (ne_of_opensQuote hquote')
          simp only [bind_eq_ok, quoted_eq_ok, pure_eq_ok, Prod.mk.injEq] at h
          obtain ⟨x, hx, rfl, rfl⟩ := h
          exact reads_joined (by decide) .absent (.name (not_quote hquote) hlhs) (stands_text hx)
            rfl
        · next hquote' =>
          simp only [bind_eq_ok, reference_eq_ok, pure_eq_ok, Prod.mk.injEq] at h
          obtain ⟨rhs, hrhs, rfl, rfl⟩ := h
          obtain rfl := take_eq htake hrhs.ne
          exact reads_joined (by decide) .absent (.name (not_quote hquote) hlhs)
            (.name (not_quote hquote') hrhs) rfl

/-! ### Vectors -/

theorem ne_of_counts {n : Nat} (h : r.Counts t n) : t ≠ "" := by
  rintro rfl
  cases h.1

/-- Nothing but a dimensioned literal depends on the size of the unit. -/
theorem Lists.rescale {strict : Bool} {e : Element s} (hs : s ≠ .dimensioned)
    (h : r.Lists strict factor t e) (factor' : Float) : r.Lists strict factor' t e := by
  cases h with
  | literal hx =>
    cases s with
    | dimensioned => exact absurd rfl hs
    | _ => exact .literal hx
  | name hspelling href => exact .name hspelling href
  | bare hquote hnames => exact .bare hquote hnames

/-- A count and as many values, the first of which is no `*`. -/
theorem stands_unstarred {raw : Tokens} {elements : List (Element s)}
    (hcount : r.Counts first raw.length) (hstar : raw.head? ≠ some Operator.multiply.token)
    (helements : List.Forall₂ (r.Lists false factor) raw elements) :
    r.Stands false factor (.values s false) (first :: raw) (.ofElements elements) :=
  .values hcount (fun _ => hstar) helements

theorem stands_unitlesses {raw : Tokens} {o : Operand} (starred : Bool)
    (hcount : r.Counts first raw.length)
    (hstar : starred = false → raw.head? ≠ some Operator.multiply.token)
    (ho : r.listOperand .unitless 1 raw = .ok o) :
    r.Stands false factor (.values .unitless starred) (first :: raw) o := by
  obtain ⟨elements, helements, rfl⟩ := listOperand_eq_ok.mp ho
  exact .values hcount hstar (helements.imp fun _ _ h => h.rescale (by decide) factor)

theorem dimensionedsAfterNumber_reads (h : r.dimensionedsAfterNumber first ts = .ok (res, rest)) :
    r.Reads (Kind.many .dimensioned) (first :: ts) rest res := by
  rw [dimensionedsAfterNumber] at h
  split at h
  · next op ts hop =>
    obtain ⟨rfl, hmem⟩ := operator?_eq_some.mp hop
    obtain rfl := List.mem_singleton.mp hmem
    simp only [bind_eq_ok, Prod.exists, real_eq_ok, nextReference_eq_ok, nextUnit_eq_ok,
      pure_eq_ok, Prod.mk.injEq] at h
    obtain ⟨x, hx, rhs, _, ⟨t, rfl, hrhs⟩, u, _, ⟨t', rfl, hu⟩, rfl, rfl⟩ := h
    exact reads_joined (by decide) (.outer hu) (stands_unitless hx) (stands_named hrhs) rfl
  · next hnone =>
    simp only [bind_eq_ok, Prod.exists, countedValues_eq_ok] at h
    obtain ⟨raw, ts, ⟨rfl, hcount⟩, h⟩ := h
    have hstar := not_starred hnone
    split at h
    · next op ts hop =>
      obtain ⟨rfl, hmem⟩ := operator?_eq_some.mp hop
      obtain rfl := List.mem_singleton.mp hmem
      simp only [bind_eq_ok, Prod.exists, nextReference_eq_ok, nextUnit_eq_ok, pure_eq_ok,
        Prod.mk.injEq] at h
      obtain ⟨rhs, _, ⟨t, rfl, hrhs⟩, u, _, ⟨t', rfl, hu⟩, lhs, hlhs, rfl, rfl⟩ := h
      exact reads_joined (by decide) (.outer hu)
        (stands_unitlesses false hcount (fun _ => hstar) hlhs)
        (stands_named hrhs) (by simp)
    · simp only [bind_eq_ok, Prod.exists, nextUnit_eq_ok] at h
      obtain ⟨u, _, ⟨t, rfl, hu⟩, h⟩ := h
      split at h
      · simp only [bind_eq_ok, listPlan_eq_ok, pure_eq_ok, Prod.mk.injEq] at h
        obtain ⟨_, ⟨elements, helements, rfl⟩, rfl, rfl⟩ := h
        exact reads_alone (by decide) (.inner hu)
          (stands_unstarred hcount hstar helements) (by simp)
      · next op ts hop =>
        obtain ⟨rfl, -⟩ := operator?_eq_some.mp hop
        simp only [bind_eq_ok, Prod.exists, nextReference_eq_ok, listOperand_eq_ok, pure_eq_ok,
          Prod.mk.injEq] at h
        obtain ⟨rhs, _, ⟨t', rfl, hrhs⟩, _, ⟨elements, helements, rfl⟩, rfl, rfl⟩ := h
        have hlhs : r.Stands false (scale (some u)) (.values .dimensioned false) (first :: raw)
            (.ofElements elements) := stands_unstarred hcount hstar helements
        cases op with
        | multiply =>
          exact reads_joined (by decide) (.inner hu) hlhs (stands_named hrhs) (by simp)
        | _ =>
          exact reads_joined (by decide) (.inner hu) hlhs (stands_named hrhs) (by simp)

theorem dimensionedsAfterName_reads (hk : r.kind = Kind.many .dimensioned)
    (hreal : ¬ Number.isReal first = true) (hquote : Token.opensQuote first = false)
    (h : r.dimensionedsAfterName first ts = .ok (res, rest)) :
    r.Reads (Kind.many .dimensioned) (first :: ts) rest res := by
  have hbarred := not_number_or_quote hreal hquote
  rw [dimensionedsAfterName] at h
  split at h
  · next op ts hop =>
    obtain ⟨rfl, hmem⟩ := operator?_eq_some.mp hop
    obtain rfl := List.mem_singleton.mp hmem
    split at h
    · next hnames =>
      simp only [bind_eq_ok, Prod.exists, reference_eq_ok, countedValues_eq_ok, nextUnit_eq_ok,
        pure_eq_ok, Prod.mk.injEq] at h
      obtain ⟨lhs, hlhs, raw, _, ⟨hraw, hcount⟩, u, _, ⟨t, rfl, hu⟩, rhs, hrhs, rfl, rfl⟩ := h
      rw [take_eq rfl (ne_of_counts hcount), hraw]
      exact reads_joined (by decide) (.outer hu)
        (stands_chosen hbarred (refers_of_names hnames hlhs))
        (stands_unitlesses true hcount nofun hrhs) (by simp)
    · next hnames =>
      simp only [bind_eq_ok, Prod.exists, reference_eq_ok, nextReference_eq_ok, nextUnit_eq_ok,
        pure_eq_ok, Prod.mk.injEq] at h
      obtain ⟨lhs, hlhs, rhs, _, ⟨t, rfl, hrhs⟩, u, _, ⟨t', rfl, hu⟩, rfl, rfl⟩ := h
      -- The name of the declaration itself is that of a vector, so it is not read here.
      have hlhs : r.Refers true [Kind.one .unitless, Kind.one .integer] first lhs := by
        cases hlhs with
        | self _ hself _ => exact absurd (by simp [names, kindOf?, hself, hk]) hnames
        | named hne hself hkind hmem => exact .named hne hself hkind hmem
      exact reads_joined (by decide) (.outer hu) (stands_chosen hbarred hlhs)
        (stands_named hrhs) rfl
  · simp only [bind_eq_ok, Prod.exists, reference_eq_ok, nextUnit_eq_ok, pure_eq_ok,
      Prod.mk.injEq] at h
    obtain ⟨lhs, hlhs, u, _, ⟨t, rfl, hu⟩, rfl, rfl⟩ := h
    have hlhs : r.Refers true [Kind.many .dimensioned] first lhs := by
      cases hlhs with
      | self hne hself _ => exact .self hne hself fun _ => by rw [hk]; decide
      | named hne hself hkind hmem => exact .named hne hself hkind hmem
    exact reads_alone (by decide) (.inner hu) (stands_chosen hbarred hlhs) rfl

theorem dimensioneds_cons (r : Resolution) (first : String) (ts : Tokens) :
    r.dimensioneds (first :: ts) =
      if Number.isReal first then r.dimensionedsAfterNumber first ts
      else requireCount first >>= fun _ => r.dimensionedsAfterName first ts :=
  rfl

theorem dimensioneds_reads (hk : r.kind = Kind.many .dimensioned)
    (h : r.dimensioneds ts = .ok (res, rest)) :
    r.Reads (Kind.many .dimensioned) ts rest res := by
  cases ts with
  | nil => cases h
  | cons first ts =>
    rw [dimensioneds_cons] at h
    split at h
    · exact dimensionedsAfterNumber_reads h
    · next hreal =>
      obtain ⟨⟨⟩, hquote, h⟩ := bind_eq_ok.mp h
      exact dimensionedsAfterName_reads hk hreal (requireCount_eq_ok.mp hquote) h

theorem vectorAfterName_reads {barred : List Spelling} {factors : List Kind}
    (halone : ⟨.name [Kind.many s] barred false, .absent, none⟩ ∈ k.grammar)
    (hjoined : ⟨.name factors barred false, .absent,
      some (.multiply, .name [Kind.many s] [] false)⟩ ∈ k.grammar)
    (hbarred : Token.opensQuote first = false → ∀ spelling ∈ barred, spelling.test first = false)
    (h : r.vectorAfterName s factors first ts = .ok (res, rest)) :
    r.Reads k (first :: ts) rest res := by
  obtain ⟨u, hquote, hread⟩ := bind_eq_ok.mp h
  have hbarred := hbarred (requireCount_eq_ok.mp hquote)
  split at hread
  · next op ts hop =>
    obtain ⟨rfl, hmem⟩ := operator?_eq_some.mp hop
    obtain rfl := List.mem_singleton.mp hmem
    simp only [bind_eq_ok, Prod.exists, reference_eq_ok, nextReference_eq_ok, pure_eq_ok,
      Prod.mk.injEq] at hread
    obtain ⟨lhs, hlhs, rhs, _, ⟨t, rfl, hrhs⟩, rfl, rfl⟩ := hread
    exact reads_joined hjoined .absent (.name hbarred hlhs) (stands_named hrhs) rfl
  · simp only [bind_eq_ok, reference_eq_ok, pure_eq_ok, Prod.mk.injEq] at hread
    obtain ⟨ref, href, rfl, rfl⟩ := hread
    exact reads_alone halone .absent (.name hbarred href) rfl

theorem vectorAfterCount_reads (starred : Bool) {ops : List Operator}
    (halone : ⟨.values s starred, .absent, none⟩ ∈ k.grammar)
    (hjoined : ∀ op ∈ ops,
      ⟨.values s starred, .absent, some (op, .name kinds [] false)⟩ ∈ k.grammar)
    (hstar : starred = false → operator? [.multiply] ts = none)
    (h : r.vectorAfterCount s ops kinds first ts = .ok (res, rest)) :
    r.Reads k (first :: ts) rest res := by
  simp only [vectorAfterCount, bind_eq_ok, Prod.exists, countedValues_eq_ok] at h
  obtain ⟨raw, ts, ⟨rfl, hcount⟩, h⟩ := h
  have hhead : starred = false → raw.head? ≠ some Operator.multiply.token :=
    fun hstarred => not_starred (hstar hstarred)
  split at h
  · simp only [bind_eq_ok, listPlan_eq_ok, pure_eq_ok, Prod.mk.injEq] at h
    obtain ⟨_, ⟨elements, helements, rfl⟩, rfl, rfl⟩ := h
    exact reads_alone halone .absent (.values hcount hhead helements) (by simp)
  · next op ts hop =>
    obtain ⟨rfl, hmem⟩ := operator?_eq_some.mp hop
    simp only [bind_eq_ok, Prod.exists, nextReference_eq_ok, listOperand_eq_ok, pure_eq_ok,
      Prod.mk.injEq] at h
    obtain ⟨rhs, _, ⟨t, rfl, hrhs⟩, _, ⟨elements, helements, rfl⟩, rfl, rfl⟩ := h
    exact reads_joined (hjoined op hmem) .absent (.values hcount hhead helements)
      (stands_named hrhs) (by simp)

theorem scaledVector_reads {v : Value}
    (hjoined : ⟨lhs, .absent, some (.multiply, .name [Kind.many s] [] false)⟩ ∈ k.grammar)
    (hlhs : r.Stands false 1 lhs [first] (.literal v))
    (h : r.scaledVector s v ts = .ok (res, rest)) :
    r.Reads k (first :: Operator.multiply.token :: ts) rest res := by
  simp only [scaledVector, bind_eq_ok, Prod.exists, nextReference_eq_ok, pure_eq_ok,
    Prod.mk.injEq] at h
  obtain ⟨rhs, _, ⟨t, rfl, hrhs⟩, rfl, rfl⟩ := h
  exact reads_joined hjoined .absent hlhs (stands_named hrhs) rfl

theorem unitlesses_cons (r : Resolution) (first : String) (ts : Tokens) :
    r.unitlesses (first :: ts) =
      if Number.isReal first then
        match operator? [.multiply] ts with
        | some (_, ts) => real first >>= fun x => r.scaledVector .unitless (.unitless x) ts
        | none =>
            r.vectorAfterCount .unitless [.add, .subtract, .multiply]
              [Kind.one .unitless, Kind.one .integer, Kind.many .unitless, Kind.many .integer]
              first ts
      else r.vectorAfterName .unitless [Kind.one .unitless, Kind.one .integer] first ts :=
  rfl

theorem unitlesses_reads (h : r.unitlesses ts = .ok (res, rest)) :
    r.Reads (Kind.many .unitless) ts rest res := by
  cases ts with
  | nil => cases h
  | cons first ts =>
    rw [unitlesses_cons] at h
    split at h
    · split at h
      · next op ts hop =>
        obtain ⟨rfl, hmem⟩ := operator?_eq_some.mp hop
        obtain rfl := List.mem_singleton.mp hmem
        simp only [bind_eq_ok, real_eq_ok] at h
        obtain ⟨x, hx, h⟩ := h
        exact scaledVector_reads (by decide) (stands_unitless hx) h
      · next hnone =>
        exact vectorAfterCount_reads false (by decide) (by decide) (fun _ => hnone) h
    · next hreal =>
      exact vectorAfterName_reads (by decide) (by decide) (not_number_or_quote hreal) h

theorem integers_cons (r : Resolution) (first : String) (ts : Tokens) :
    r.integers (first :: ts) =
      if Number.isInteger first then
        match operator? [.multiply] ts with
        | some (_, ts) => integer first >>= fun n => r.scaledVector .integer (.integer n) ts
        | none =>
            r.vectorAfterCount .integer [.add, .subtract, .multiply]
              [Kind.one .integer, Kind.many .integer] first ts
      else if Number.isReal first then .error (.countNotInteger first)
      else r.vectorAfterName .integer [Kind.one .integer] first ts :=
  rfl

theorem integers_reads (h : r.integers ts = .ok (res, rest)) :
    r.Reads (Kind.many .integer) ts rest res := by
  cases ts with
  | nil => cases h
  | cons first ts =>
    rw [integers_cons] at h
    split at h
    · split at h
      · next op ts hop =>
        obtain ⟨rfl, hmem⟩ := operator?_eq_some.mp hop
        obtain rfl := List.mem_singleton.mp hmem
        simp only [bind_eq_ok, integer_eq_ok] at h
        obtain ⟨n, hn, h⟩ := h
        exact scaledVector_reads (by decide) (stands_integer hn) h
      · next hnone =>
        exact vectorAfterCount_reads false (by decide) (by decide) (fun _ => hnone) h
    · split at h
      · cases h
      · next hreal =>
        exact vectorAfterName_reads (by decide) (by decide) (not_number_or_quote hreal) h

theorem booleans_cons (r : Resolution) (first : String) (ts : Tokens) :
    r.booleans (first :: ts) =
      if Number.isInteger first then r.vectorAfterCount .boolean [] [] first ts
      else requireCount first >>= fun _ => r.reference [Kind.many .boolean] first >>= fun ref =>
        pure ({ plan := .reference ref }, ts) :=
  rfl

theorem booleans_reads (h : r.booleans ts = .ok (res, rest)) :
    r.Reads (Kind.many .boolean) ts rest res := by
  cases ts with
  | nil => cases h
  | cons first ts =>
    rw [booleans_cons] at h
    split at h
    · exact vectorAfterCount_reads true (by decide) (by decide) nofun h
    · next hinteger =>
      simp only [bind_eq_ok, reference_eq_ok, pure_eq_ok, Prod.mk.injEq] at h
      obtain ⟨⟨⟩, hquote, ref, href, rfl, rfl⟩ := h
      exact reads_alone (by decide) .absent
        (.name (not_integer_or_quote hinteger (requireCount_eq_ok.mp hquote)) href) rfl

theorem texts_cons (r : Resolution) (first : String) (ts : Tokens) :
    r.texts (first :: ts) =
      if Number.isInteger first then
        r.vectorAfterCount .text [.add]
          [Kind.one .integer, Kind.one .text, Kind.many .integer, Kind.many .text] first ts
      else requireCount first >>= fun _ => r.reference [Kind.many .text] first >>= fun ref =>
        pure ({ plan := .reference ref }, ts) :=
  rfl

theorem texts_reads (h : r.texts ts = .ok (res, rest)) :
    r.Reads (Kind.many .text) ts rest res := by
  cases ts with
  | nil => cases h
  | cons first ts =>
    rw [texts_cons] at h
    split at h
    · exact vectorAfterCount_reads true (by decide) (by decide) nofun h
    · next hinteger =>
      simp only [bind_eq_ok, reference_eq_ok, pure_eq_ok, Prod.mk.injEq] at h
      obtain ⟨⟨⟩, hquote, ref, href, rfl, rfl⟩ := h
      exact reads_alone (by decide) .absent
        (.name (not_integer_or_quote hinteger (requireCount_eq_ok.mp hquote)) href) rfl

/-- What is read from the front of the tokens is derived by a form of the kind. -/
theorem form_reads (h : r.form ts = .ok (res, rest)) : r.Reads r.kind ts rest res := by
  obtain ⟨d, ⟨sort, isVector⟩, scope, maxLength⟩ := r
  cases isVector with
  | false =>
    cases sort with
    | boolean => exact boolean_reads h
    | integer => exact integerValue_reads rfl h
    | unitless => exact unitless_reads h
    | dimensioned => exact dimensioned_reads h
    | text => exact text_reads h
  | true =>
    cases sort with
    | boolean => exact booleans_reads h
    | integer => exact integers_reads h
    | unitless => exact unitlesses_reads h
    | dimensioned => exact dimensioneds_reads rfl h
    | text => exact texts_reads h

end Resolution

end ParameterChain
