/-
# What a refusal can be about

A computation *fails only* for certain reasons if every failure of it is one of these.  As
with successes (`ParameterChain.Proofs.Success`), there is one lemma for each way in which
steps are put together.

Main statements: `resolve_failsOnly` and `ofDeclaration_failsOnly`.  A raw value is refused,
and a time feature is not made of it, for a reason that lies in the value and the names in
it: never for what the includes of its file say, nor for the length of a vector that it
reads.
-/
import ParameterChain.Proofs.Success
import ParameterChain.Resolution
import ParameterChain.TimeFeature

namespace ParameterChain

variable {ε ε' α β : Type} {P : ε → Prop}

/-- Every failure of `x` satisfies `P`. -/
def FailsOnly (P : ε → Prop) (x : Except ε α) : Prop :=
  ∀ e, x = .error e → P e

namespace FailsOnly

theorem ok (a : α) : FailsOnly P (.ok a) := by
  intro e he
  cases he

theorem error {e : ε} (he : P e) : FailsOnly P (.error e : Except ε α) := by
  intro e' he'
  cases he'
  exact he

theorem mono {Q : ε → Prop} {x : Except ε α} (hx : FailsOnly P x) (hPQ : ∀ e, P e → Q e) :
    FailsOnly Q x :=
  fun e he => hPQ e (hx e he)

/-- A step and what follows it where it succeeds. -/
theorem bind_of_ok {x : Except ε α} {f : α → Except ε β} (hx : FailsOnly P x)
    (hf : ∀ a, x = .ok a → FailsOnly P (f a)) : FailsOnly P (x >>= f) := by
  cases hcase : x with
  | error e =>
    intro e' he'
    cases he'
    exact hx e hcase
  | ok a => exact hf a hcase

theorem bind {x : Except ε α} {f : α → Except ε β} (hx : FailsOnly P x)
    (hf : ∀ a, FailsOnly P (f a)) : FailsOnly P (x >>= f) :=
  hx.bind_of_ok fun a _ => hf a

/-- A check that may fail before the rest is done. -/
theorem guarded {p : Prop} [Decidable p] {x : Except ε PUnit} {y : Except ε α}
    (hx : FailsOnly P x) (hy : FailsOnly P y) :
    FailsOnly P (if p then x >>= fun _ => y else y) := by
  split
  · exact hx.bind fun _ => hy
  · exact hy

theorem map {x : Except ε α} {f : α → β} (hx : FailsOnly P x) : FailsOnly P (x.map f) := by
  cases x with
  | error e => exact .error (hx e rfl)
  | ok a => exact .ok (f a)

theorem mapError {Q : ε' → Prop} {x : Except ε α} {f : ε → ε'} (hx : FailsOnly P x)
    (hf : ∀ e, P e → Q (f e)) : FailsOnly Q (x.mapError f) := by
  cases x with
  | error e => exact .error (hf e (hx e rfl))
  | ok a => exact .ok a

theorem mapM {f : α → Except ε β} {xs : List α} (hf : ∀ x ∈ xs, FailsOnly P (f x)) :
    FailsOnly P (xs.mapM f) := by
  induction xs with
  | nil => exact .ok []
  | cons x xs ih =>
    rw [List.mapM_cons]
    refine (hf x List.mem_cons_self).bind ?_
    intro y
    refine (ih fun x hx => hf x (List.mem_cons_of_mem _ hx)).bind ?_
    intro ys
    exact .ok _

theorem foldlM {f : β → α → Except ε β} {xs : List α} (hf : ∀ b, ∀ x ∈ xs, FailsOnly P (f b x))
    (b : β) : FailsOnly P (xs.foldlM f b) := by
  induction xs generalizing b with
  | nil => exact .ok b
  | cons x xs ih =>
    rw [List.foldlM_cons]
    refine (hf b x List.mem_cons_self).bind ?_
    intro b
    exact ih (fun b x hx => hf b x (List.mem_cons_of_mem _ hx)) b

theorem forM {f : α → Except ε PUnit} {xs : List α} (hf : ∀ x ∈ xs, FailsOnly P (f x)) :
    FailsOnly P (xs.forM f) := by
  induction xs with
  | nil => exact .ok _
  | cons x xs ih =>
    refine FailsOnly.bind (hf x List.mem_cons_self) ?_
    intro _
    exact ih fun x hx => hf x (List.mem_cons_of_mem _ hx)

end FailsOnly

/-! ## The first failure -/

theorem bind_eq_error {x : Except ε α} {f : α → Except ε β} {e : ε} :
    (x >>= f) = .error e ↔ x = .error e ∨ ∃ a, x = .ok a ∧ f a = .error e := by
  cases x with
  | error e' =>
    constructor
    · intro h
      cases h
      exact .inl rfl
    · rintro (h | ⟨a, h, -⟩) <;> cases h
      rfl
  | ok a =>
    constructor
    · exact fun h => .inr ⟨a, rfl, h⟩
    · rintro (h | ⟨a', h, h'⟩) <;> cases h
      exact h'

/-- Checks in order end at the first that fails. -/
theorem forM_eq_error {f : α → Except ε Unit} {xs : List α} {e : ε} :
    xs.forM f = .error e ↔
      ∃ pre x post, xs = pre ++ x :: post ∧ (∀ y ∈ pre, f y = .ok ()) ∧ f x = .error e := by
  induction xs with
  | nil =>
    refine ⟨nofun, ?_⟩
    rintro ⟨pre, x, post, h, -⟩
    exact absurd h.symm (List.append_ne_nil_of_right_ne_nil pre (List.cons_ne_nil x post))
  | cons x xs ih =>
    have hcons : (x :: xs).forM f = (f x >>= fun _ => xs.forM f) := rfl
    rw [hcons]
    cases hx : f x with
    | error e' =>
      constructor
      · intro h
        cases h
        exact ⟨[], x, xs, rfl, nofun, hx⟩
      · rintro ⟨_ | ⟨p, pre⟩, y, post, h, hpre, hy⟩
        · obtain ⟨rfl, -⟩ := List.cons.inj h
          exact hx.symm.trans hy
        · obtain ⟨rfl, -⟩ := List.cons.inj h
          cases hx.symm.trans (hpre x List.mem_cons_self)
    | ok u =>
      refine ih.trans ⟨?_, ?_⟩
      · rintro ⟨pre, y, post, rfl, hpre, hy⟩
        exact ⟨x :: pre, y, post, rfl, List.forall_mem_cons.mpr ⟨hx, hpre⟩, hy⟩
      · rintro ⟨_ | ⟨p, pre⟩, y, post, h, hpre, hy⟩
        · obtain ⟨rfl, -⟩ := List.cons.inj h
          cases hx.symm.trans hy
        · obtain ⟨rfl, rfl⟩ := List.cons.inj h
          exact ⟨pre, y, post, rfl, (List.forall_mem_cons.mp hpre).2, hy⟩

/-! ## Causes that lie in a value -/

/-- The kinds of failure for which a raw value is refused. -/
def valueFailures : List FailureKind :=
  [.invalidValue, .trailingTokens, .typeMismatch, .unknownReference, .missingUnit,
    .unrecognizedUnit, .unitCategoryMismatch, .limitExceeded]

/-- Whether an include is not followed for this cause. -/
def Cause.refusesInclude : Cause → Bool
  | .includeCycle _ | .includeTooDeep _ | .tooManyFiles _ => true
  | _ => false

/-- A cause that lies in a value or in the names in it. -/
def Cause.LiesInValue (c : Cause) : Prop :=
  c.kind ∈ valueFailures ∧ c.refusesInclude = false

instance (c : Cause) : Decidable c.LiesInValue :=
  inferInstanceAs (Decidable (_ ∧ _))

namespace Resolution

variable (r : Resolution) (ts : Tokens)

/-! ## Tokens and names -/

theorem real_failsOnly (token : String) : FailsOnly Cause.LiesInValue (real token) := by
  rw [real]
  split
  · exact .ok _
  · exact .error (of_decide_eq_true rfl)

theorem integer_failsOnly (token : String) : FailsOnly Cause.LiesInValue (integer token) := by
  rw [integer]
  split
  · exact .ok _
  · exact .error (of_decide_eq_true rfl)

theorem quoted_failsOnly (token : String) : FailsOnly Cause.LiesInValue (quoted token) := by
  rw [quoted]
  split
  · exact .ok _
  · exact .error (of_decide_eq_true rfl)

theorem values_failsOnly (count : Nat) : FailsOnly Cause.LiesInValue (values count ts) := by
  rw [values]
  split
  · exact .error (of_decide_eq_true rfl)
  · exact .ok _

theorem requireCount_failsOnly (token : String) :
    FailsOnly Cause.LiesInValue (requireCount token) := by
  rw [requireCount]
  split
  · exact .error (of_decide_eq_true rfl)
  · exact .ok _

theorem reference_failsOnly (kinds : List Kind) (token : String) :
    FailsOnly Cause.LiesInValue (r.reference kinds token) := by
  rw [reference]
  split
  · exact .error (of_decide_eq_true rfl)
  split
  · exact .ok _
  split
  · exact .error (of_decide_eq_true rfl)
  split
  · exact .ok _
  · exact .error (of_decide_eq_true rfl)

theorem nextReference_failsOnly (kinds : List Kind) :
    FailsOnly Cause.LiesInValue (r.nextReference kinds ts) :=
  (r.reference_failsOnly kinds _).bind fun _ => .ok _

theorem unit_failsOnly (token : String) : FailsOnly Cause.LiesInValue (r.unit token) := by
  rw [unit]
  split
  · exact .error (of_decide_eq_true rfl)
  split
  · exact .error (of_decide_eq_true rfl)
  split
  · exact .error (of_decide_eq_true rfl)
  split
  · exact .ok _
  split
  · exact .ok _
  · exact .error (of_decide_eq_true rfl)

theorem nextUnit_failsOnly : FailsOnly Cause.LiesInValue (r.nextUnit ts) :=
  (r.unit_failsOnly _).bind fun _ => .ok _

theorem count_failsOnly (token : String) : FailsOnly Cause.LiesInValue (r.count token) := by
  rw [count]
  split
  · exact .error (of_decide_eq_true rfl)
  split
  · exact .error (of_decide_eq_true rfl)
  split
  · exact .error (of_decide_eq_true rfl)
  simp only
  split
  · exact .error (of_decide_eq_true rfl)
  · exact .ok _

/-! ## Lists -/

variable {s : Scalar} {factor : Float}

theorem element_failsOnly (token : String) :
    FailsOnly Cause.LiesInValue (r.element s factor token) := by
  have href : ∀ kinds, FailsOnly Cause.LiesInValue (do
      return Element.param (s := s) (← r.reference kinds token)) := by
    intro kinds
    exact (r.reference_failsOnly kinds token).bind fun _ => .ok _
  cases s with
  | dimensioned | unitless =>
    rw [element]
    split
    · exact (real_failsOnly token).bind fun _ => .ok _
    · exact href _
  | integer =>
    rw [element]
    split
    · exact (integer_failsOnly token).bind fun _ => .ok _
    · exact href _
  | boolean =>
    rw [element]
    split
    · exact .ok _
    · exact href _
  | text =>
    rw [element]
    split
    · exact (quoted_failsOnly token).bind fun _ => .ok _
    split
    · exact href _
    · exact .ok _

theorem elements_failsOnly : FailsOnly Cause.LiesInValue (r.elements s factor ts) :=
  .mapM fun token _ => r.element_failsOnly token

theorem listOperand_failsOnly : FailsOnly Cause.LiesInValue (r.listOperand s factor ts) :=
  (r.elements_failsOnly ts).bind fun _ => .ok _

theorem listPlan_failsOnly : FailsOnly Cause.LiesInValue (r.listPlan s factor ts) :=
  (r.elements_failsOnly ts).bind fun _ => .ok _

theorem countedValues_failsOnly (first : String) :
    FailsOnly Cause.LiesInValue (r.countedValues first ts) :=
  (r.count_failsOnly first).bind fun n => values_failsOnly ts n

/-! ## Scalar values -/

theorem dimensionedAfterNumber_failsOnly (x : Float) :
    FailsOnly Cause.LiesInValue (r.dimensionedAfterNumber x ts) := by
  rw [dimensionedAfterNumber]
  split
  · refine .bind (r.nextReference_failsOnly _ _) ?_
    rintro ⟨rhs, ts⟩
    refine .bind (r.nextUnit_failsOnly ts) ?_
    rintro ⟨u, ts⟩
    exact .ok _
  · refine .bind (r.nextUnit_failsOnly ts) ?_
    rintro ⟨u, ts⟩
    simp only
    split
    · exact .ok _
    · refine .bind (r.nextReference_failsOnly _ _) ?_
      rintro ⟨rhs, ts⟩
      exact .ok _

theorem dimensionedAfterName_failsOnly (first : String) :
    FailsOnly Cause.LiesInValue (r.dimensionedAfterName first ts) := by
  rw [dimensionedAfterName]
  split
  · refine .bind (r.reference_failsOnly _ first) ?_
    intro lhs
    refine .bind (real_failsOnly _) ?_
    intro x
    refine .bind (r.nextUnit_failsOnly _) ?_
    rintro ⟨u, ts⟩
    exact .ok _
  · refine .bind (r.reference_failsOnly _ first) ?_
    intro lhs
    simp only
    split
    · refine .bind (real_failsOnly _) ?_
      intro x
      refine .bind (r.nextUnit_failsOnly _) ?_
      rintro ⟨u, ts⟩
      exact .ok _
    · refine .bind (r.reference_failsOnly _ _) ?_
      intro rhs
      refine .bind (r.nextUnit_failsOnly _) ?_
      rintro ⟨u, ts⟩
      exact .ok _
  · refine .bind (r.reference_failsOnly _ first) ?_
    intro lhs
    refine .bind (r.nextUnit_failsOnly ts) ?_
    rintro ⟨u, ts⟩
    simp only
    split
    · exact .ok _
    split
    · exact .bind (real_failsOnly _) fun _ => .ok _
    · exact .bind (r.reference_failsOnly _ _) fun _ => .ok _

theorem dimensioned_failsOnly : FailsOnly Cause.LiesInValue (r.dimensioned ts) := by
  simp only [dimensioned]
  split
  · exact .bind (real_failsOnly _) fun x => r.dimensionedAfterNumber_failsOnly _ x
  · exact r.dimensionedAfterName_failsOnly _ _

theorem unitless_failsOnly : FailsOnly Cause.LiesInValue (r.unitless ts) := by
  simp only [unitless]
  split
  · refine .bind (real_failsOnly _) ?_
    intro x
    split
    · exact .ok _
    · refine .bind (r.nextReference_failsOnly _ _) ?_
      rintro ⟨rhs, ts⟩
      exact .ok _
  · refine .bind (r.reference_failsOnly _ _) ?_
    intro lhs
    split
    · exact .ok _
    split
    · exact .bind (real_failsOnly _) fun _ => .ok _
    · exact .bind (r.reference_failsOnly _ _) fun _ => .ok _

theorem integerValue_failsOnly : FailsOnly Cause.LiesInValue (r.integerValue ts) := by
  simp only [integerValue]
  split
  · refine .bind (integer_failsOnly _) ?_
    intro n
    split
    · exact .ok _
    · refine .bind (r.nextReference_failsOnly _ _) ?_
      rintro ⟨rhs, ts⟩
      exact .ok _
  · split
    · exact .bind (r.reference_failsOnly _ _) fun _ => .ok _
    · refine .bind (r.reference_failsOnly _ _) ?_
      intro lhs
      split
      · exact .bind (integer_failsOnly _) fun _ => .ok _
      · exact .bind (r.reference_failsOnly _ _) fun _ => .ok _

theorem boolean_failsOnly : FailsOnly Cause.LiesInValue (r.boolean ts) := by
  simp only [boolean]
  split
  · refine .bind (r.reference_failsOnly _ _) ?_
    intro lhs
    split
    · exact .ok _
    · refine .bind (r.nextReference_failsOnly _ _) ?_
      rintro ⟨rhs, ts⟩
      exact .ok _
  · split
    · exact .ok _
    split
    · refine .bind (r.reference_failsOnly _ _) ?_
      intro _
      exact .error (of_decide_eq_true rfl)
    · exact .error (of_decide_eq_true rfl)

theorem text_failsOnly : FailsOnly Cause.LiesInValue (r.text ts) := by
  simp only [text]
  split
  · refine .bind (quoted_failsOnly _) ?_
    intro t
    split
    · exact .ok _
    · refine .bind (r.nextReference_failsOnly _ _) ?_
      rintro ⟨rhs, ts⟩
      exact .ok _
  · refine .bind (r.reference_failsOnly _ _) ?_
    intro lhs
    split
    · exact .ok _
    split
    · exact .bind (quoted_failsOnly _) fun _ => .ok _
    · exact .bind (r.reference_failsOnly _ _) fun _ => .ok _

/-! ## Vector values -/

theorem dimensionedsAfterNumber_failsOnly (first : String) :
    FailsOnly Cause.LiesInValue (r.dimensionedsAfterNumber first ts) := by
  rw [dimensionedsAfterNumber]
  split
  · refine .bind (real_failsOnly _) ?_
    intro x
    refine .bind (r.nextReference_failsOnly _ _) ?_
    rintro ⟨rhs, ts⟩
    refine .bind (r.nextUnit_failsOnly _) ?_
    rintro ⟨u, ts⟩
    exact .ok _
  · refine .bind (r.countedValues_failsOnly _ _) ?_
    rintro ⟨raw, ts⟩
    simp only
    split
    · refine .bind (r.nextReference_failsOnly _ _) ?_
      rintro ⟨rhs, ts⟩
      refine .bind (r.nextUnit_failsOnly _) ?_
      rintro ⟨u, ts⟩
      exact .bind (r.listOperand_failsOnly _) fun _ => .ok _
    · refine .bind (r.nextUnit_failsOnly _) ?_
      rintro ⟨u, ts⟩
      simp only
      split
      · exact .bind (r.listPlan_failsOnly _) fun _ => .ok _
      · refine .bind (r.nextReference_failsOnly _ _) ?_
        rintro ⟨rhs, ts⟩
        exact .bind (r.listOperand_failsOnly _) fun _ => .ok _

theorem dimensionedsAfterName_failsOnly (first : String) :
    FailsOnly Cause.LiesInValue (r.dimensionedsAfterName first ts) := by
  rw [dimensionedsAfterName]
  split
  · split
    · refine .bind (r.reference_failsOnly _ _) ?_
      intro lhs
      refine .bind (r.countedValues_failsOnly _ _) ?_
      rintro ⟨raw, ts⟩
      refine .bind (r.nextUnit_failsOnly _) ?_
      rintro ⟨u, ts⟩
      exact .bind (r.listOperand_failsOnly _) fun _ => .ok _
    · refine .bind (r.reference_failsOnly _ _) ?_
      intro lhs
      refine .bind (r.nextReference_failsOnly _ _) ?_
      rintro ⟨rhs, ts⟩
      refine .bind (r.nextUnit_failsOnly _) ?_
      rintro ⟨u, ts⟩
      exact .ok _
  · refine .bind (r.reference_failsOnly _ _) ?_
    intro lhs
    refine .bind (r.nextUnit_failsOnly _) ?_
    rintro ⟨u, ts⟩
    exact .ok _

theorem dimensioneds_failsOnly : FailsOnly Cause.LiesInValue (r.dimensioneds ts) := by
  simp only [dimensioneds]
  split
  · exact r.dimensionedsAfterNumber_failsOnly _ _
  · exact .bind (requireCount_failsOnly _) fun _ => r.dimensionedsAfterName_failsOnly _ _

theorem vectorAfterName_failsOnly (s : Scalar) (factors : List Kind) (first : String) :
    FailsOnly Cause.LiesInValue (r.vectorAfterName s factors first ts) := by
  rw [vectorAfterName]
  refine .bind (requireCount_failsOnly _) ?_
  intro _
  split
  · refine .bind (r.reference_failsOnly _ _) ?_
    intro lhs
    refine .bind (r.nextReference_failsOnly _ _) ?_
    rintro ⟨rhs, ts⟩
    exact .ok _
  · exact .bind (r.reference_failsOnly _ _) fun _ => .ok _

theorem vectorAfterCount_failsOnly (s : Scalar) (ops : List Operator) (kinds : List Kind)
    (first : String) :
    FailsOnly Cause.LiesInValue (r.vectorAfterCount s ops kinds first ts) := by
  rw [vectorAfterCount]
  refine .bind (r.countedValues_failsOnly _ _) ?_
  rintro ⟨raw, ts⟩
  simp only
  split
  · exact .bind (r.listPlan_failsOnly _) fun _ => .ok _
  · refine .bind (r.nextReference_failsOnly _ _) ?_
    rintro ⟨rhs, ts⟩
    exact .bind (r.listOperand_failsOnly _) fun _ => .ok _

theorem scaledVector_failsOnly (s : Scalar) (factor : Value) :
    FailsOnly Cause.LiesInValue (r.scaledVector s factor ts) := by
  refine .bind (r.nextReference_failsOnly _ _) ?_
  rintro ⟨rhs, ts⟩
  exact .ok _

theorem unitlesses_failsOnly : FailsOnly Cause.LiesInValue (r.unitlesses ts) := by
  simp only [unitlesses]
  split
  · split
    · exact .bind (real_failsOnly _) fun _ => r.scaledVector_failsOnly _ _ _
    · exact r.vectorAfterCount_failsOnly _ _ _ _ _
  · exact r.vectorAfterName_failsOnly _ _ _ _

theorem integers_failsOnly : FailsOnly Cause.LiesInValue (r.integers ts) := by
  simp only [integers]
  split
  · split
    · exact .bind (integer_failsOnly _) fun _ => r.scaledVector_failsOnly _ _ _
    · exact r.vectorAfterCount_failsOnly _ _ _ _ _
  split
  · exact .error (of_decide_eq_true rfl)
  · exact r.vectorAfterName_failsOnly _ _ _ _

theorem booleans_failsOnly : FailsOnly Cause.LiesInValue (r.booleans ts) := by
  simp only [booleans]
  split
  · exact r.vectorAfterCount_failsOnly _ _ _ _ _
  · refine .bind (requireCount_failsOnly _) ?_
    intro _
    exact .bind (r.reference_failsOnly _ _) fun _ => .ok _

theorem texts_failsOnly : FailsOnly Cause.LiesInValue (r.texts ts) := by
  simp only [texts]
  split
  · exact r.vectorAfterCount_failsOnly _ _ _ _ _
  · refine .bind (requireCount_failsOnly _) ?_
    intro _
    exact .bind (r.reference_failsOnly _ _) fun _ => .ok _

/-! ## Whole values -/

theorem form_failsOnly : FailsOnly Cause.LiesInValue (r.form ts) := by
  obtain ⟨d, ⟨sort, isVector⟩, scope, maxLength⟩ := r
  cases isVector with
  | false =>
    cases sort with
    | boolean => exact boolean_failsOnly _ ts
    | integer => exact integerValue_failsOnly _ ts
    | unitless => exact unitless_failsOnly _ ts
    | dimensioned => exact dimensioned_failsOnly _ ts
    | text => exact text_failsOnly _ ts
  | true =>
    cases sort with
    | boolean => exact booleans_failsOnly _ ts
    | integer => exact integers_failsOnly _ ts
    | unitless => exact unitlesses_failsOnly _ ts
    | dimensioned => exact dimensioneds_failsOnly _ ts
    | text => exact texts_failsOnly _ ts

theorem ofTokens_failsOnly : FailsOnly Cause.LiesInValue (r.ofTokens ts) := by
  rw [ofTokens]
  split
  · exact .error (of_decide_eq_true rfl)
  split
  · next c hform => exact .error (r.form_failsOnly ts c hform)
  split
  · exact .ok _
  · exact .error (of_decide_eq_true rfl)

/-- A value is refused for a reason that lies in it. -/
theorem resolve_failsOnly : FailsOnly (fun f => f.cause.LiesInValue) r.resolve := by
  refine (r.ofTokens_failsOnly _).mapError ?_
  intro c hc
  have hcause : (r.failure c).cause = c := by
    rw [failure]
    simp only
    split <;> rfl
  rw [hcause]
  exact hc

end Resolution

/-! ## Time features -/

namespace TimeFeature

theorem ofFunction_failsOnly (base : Name) (rawValue : String) :
    FailsOnly Cause.LiesInValue (ofFunction base rawValue) := by
  rw [ofFunction]
  split
  · exact .error (of_decide_eq_true rfl)
  simp only
  split
  · exact .error (of_decide_eq_true rfl)
  split
  · exact .ok _
  split
  · exact .error (of_decide_eq_true rfl)
  split
  · exact .error (of_decide_eq_true rfl)
  split
  · exact .error (of_decide_eq_true rfl)
  split
  · exact .ok _
  split
  · exact .ok _
  · exact .error (of_decide_eq_true rfl)

theorem closingUnit_failsOnly (token : String) :
    FailsOnly Cause.LiesInValue (closingUnit token) := by
  rw [closingUnit]
  split
  · exact .error (of_decide_eq_true rfl)
  split
  · exact .error (of_decide_eq_true rfl)
  split
  · exact .ok _
  · exact .error (of_decide_eq_true rfl)

theorem ofValues_failsOnly (base : Name) (kind : Kind) (rawValue : String) :
    FailsOnly Cause.LiesInValue (ofValues base kind rawValue) := by
  rw [ofValues]
  split
  · exact .error (of_decide_eq_true rfl)
  simp only
  split
  · exact .error (of_decide_eq_true rfl)
  split
  · exact .error (of_decide_eq_true rfl)
  split
  · exact .error (of_decide_eq_true rfl)
  split
  · exact .bind (closingUnit_failsOnly _) fun _ => .ok _
  · exact .ok _

theorem ofDeclaration_failsOnly (d : Declaration) :
    FailsOnly Cause.LiesInValue (ofDeclaration d) := by
  rw [ofDeclaration]
  split
  · exact .ok _
  · exact ofFunction_failsOnly _ _
  · split
    · exact .ok _
    · exact (ofValues_failsOnly _ _ _).map

end TimeFeature

end ParameterChain
