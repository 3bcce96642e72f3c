/-
# The unit above a file

The unit that the parameter of the same name has above the file does one thing: a value with
a unit of another category is refused.  It leaves no mark on the values that are accepted, so
what a declaration resolves to does not depend on it (`Resolution.resolve_eq`).

The proof goes through the readers of dimensioned values, up to the unit that each of them
reads; the other readers do not look at units.
-/
import ParameterChain.Proofs.Success
import ParameterChain.Resolution

namespace ParameterChain

/-! ## Successes that carry over -/

section Carries

variable {ε α β : Type}

/-- What `x` succeeds with, `y` succeeds with. -/
def Carries (x y : Except ε α) : Prop :=
  ∀ a, x = .ok a → y = .ok a

theorem Carries.refl (x : Except ε α) : Carries x x :=
  fun _ h => h

theorem Carries.bind {x y : Except ε α} {f f' : α → Except ε β} (hxy : Carries x y)
    (hf : ∀ a, Carries (f a) (f' a)) : Carries (x >>= f) (y >>= f') := by
  intro b h
  obtain ⟨a, ha, hb⟩ := bind_eq_ok.mp h
  exact bind_eq_ok.mpr ⟨a, hxy a ha, hf a b hb⟩

end Carries

namespace Resolution

variable (r : Resolution)

/-- The same declaration, with nothing known of a unit above the file. -/
def withoutUnit : Resolution :=
  { r with scope := { r.scope with inheritedUnit := none } }

variable {r} {first : String} {ts : Tokens}

/-! ## Readers -/

theorem carries_unit (token : String) : Carries (r.unit token) (r.withoutUnit.unit token) := by
  intro u h
  rw [unit] at h ⊢
  split
  · next hmissing =>
    rw [if_pos hmissing] at h
    cases h
  next hmissing =>
  rw [if_neg hmissing] at h
  split
  · next hnumber =>
    rw [if_pos hnumber] at h
    cases h
  next hnumber =>
  rw [if_neg hnumber] at h
  cases hsymbol : MeasureUnit.ofSymbol? token with
  | none =>
    rw [hsymbol] at h
    cases h
  | some v =>
    simp only [hsymbol] at h
    have hv : v = u := by
      split at h
      · exact Except.ok.inj h
      · split at h
        · exact Except.ok.inj h
        · cases h
    rw [hv]
    rfl

theorem carries_nextUnit : Carries (r.nextUnit ts) (r.withoutUnit.nextUnit ts) :=
  .bind (carries_unit _) fun _ => .refl _

theorem carries_dimensionedAfterNumber (x : Float) :
    Carries (r.dimensionedAfterNumber x ts) (r.withoutUnit.dimensionedAfterNumber x ts) := by
  rw [dimensionedAfterNumber, dimensionedAfterNumber]
  split
  · refine .bind (.refl _) fun ⟨_, _⟩ => ?_
    exact .bind carries_nextUnit fun _ => .refl _
  · exact .bind carries_nextUnit fun _ => .refl _

theorem carries_dimensionedAfterName :
    Carries (r.dimensionedAfterName first ts) (r.withoutUnit.dimensionedAfterName first ts) := by
  rw [dimensionedAfterName, dimensionedAfterName]
  split
  · -- name * number unit
    refine .bind (.refl _) fun _ => .bind (.refl _) fun _ => ?_
    exact .bind carries_nextUnit fun _ => .refl _
  · refine .bind (.refl _) fun _ => ?_
    generalize take _ = next
    obtain ⟨second, ts⟩ := next
    simp only
    split
    · -- name + number unit
      refine .bind (.refl _) fun _ => ?_
      exact .bind carries_nextUnit fun _ => .refl _
    · -- name + name unit
      refine .bind (.refl _) fun _ => ?_
      exact .bind carries_nextUnit fun _ => .refl _
  · exact .bind (.refl _) fun _ => .bind carries_nextUnit fun _ => .refl _

theorem carries_dimensioned : Carries (r.dimensioned ts) (r.withoutUnit.dimensioned ts) := by
  simp only [dimensioned]
  split
  · exact .bind (.refl _) fun x => carries_dimensionedAfterNumber x
  · exact carries_dimensionedAfterName

theorem carries_dimensionedsAfterNumber :
    Carries (r.dimensionedsAfterNumber first ts)
      (r.withoutUnit.dimensionedsAfterNumber first ts) := by
  rw [dimensionedsAfterNumber, dimensionedsAfterNumber]
  split
  · refine .bind (.refl _) fun _ => .bind (.refl _) fun ⟨_, _⟩ => ?_
    exact .bind carries_nextUnit fun _ => .refl _
  · refine .bind (.refl _) fun ⟨_, _⟩ => ?_
    simp only
    split
    · -- count values * name unit
      refine .bind (.refl _) fun ⟨_, _⟩ => ?_
      exact .bind carries_nextUnit fun _ => .refl _
    · exact .bind carries_nextUnit fun _ => .refl _

theorem carries_dimensionedsAfterName :
    Carries (r.dimensionedsAfterName first ts) (r.withoutUnit.dimensionedsAfterName first ts) := by
  have hnames : r.withoutUnit.names [Kind.many .dimensioned] first =
      r.names [Kind.many .dimensioned] first := rfl
  rw [dimensionedsAfterName, dimensionedsAfterName, hnames]
  split
  · split
    · -- name * count values unit
      refine .bind (.refl _) fun _ => .bind (.refl _) fun ⟨_, _⟩ => ?_
      exact .bind carries_nextUnit fun _ => .refl _
    · -- name * name unit
      refine .bind (.refl _) fun _ => .bind (.refl _) fun ⟨_, _⟩ => ?_
      exact .bind carries_nextUnit fun _ => .refl _
  · refine .bind (.refl _) fun _ => ?_
    exact .bind carries_nextUnit fun _ => .refl _

theorem carries_dimensioneds : Carries (r.dimensioneds ts) (r.withoutUnit.dimensioneds ts) := by
  simp only [dimensioneds]
  split
  · exact carries_dimensionedsAfterNumber
  · exact .bind (.refl _) fun _ => carries_dimensionedsAfterName

/-! ## Whole values -/

theorem carries_form : Carries (r.form ts) (r.withoutUnit.form ts) := by
  obtain ⟨declaration, ⟨scalar, isVector⟩, scope, maxLength⟩ := r
  cases scalar with
  | dimensioned =>
    cases isVector with
    | false => exact carries_dimensioned
    | true => exact carries_dimensioneds
  | _ => cases isVector <;> exact .refl _

theorem resolve_withoutUnit {res : Resolved} (h : r.resolve = .ok res) :
    r.withoutUnit.resolve = .ok res := by
  rw [resolve, mapError_eq_ok, ofTokens] at h ⊢
  have hsame : r.withoutUnit.declaration = r.declaration := rfl
  rw [hsame]
  split
  · next hempty =>
    rw [if_pos hempty] at h
    cases h
  next hempty =>
  rw [if_neg hempty] at h
  cases hform : r.form (Token.ofValue r.declaration.rawValue) with
  | error c =>
    rw [hform] at h
    cases h
  | ok read =>
    rw [hform] at h
    rw [carries_form read hform]
    exact h

/-- What a value resolves to does not depend on the unit above the file. -/
theorem resolve_eq {r' : Resolution} {res res' : Resolved}
    (hsame : r'.withoutUnit = r.withoutUnit) (h : r.resolve = .ok res)
    (h' : r'.resolve = .ok res') : res' = res := by
  have hsuccess := resolve_withoutUnit h'
  rw [hsame, resolve_withoutUnit h] at hsuccess
  exact (Except.ok.inj hsuccess).symm

end Resolution

end ParameterChain
