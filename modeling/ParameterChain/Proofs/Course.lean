/-
# The course of a time feature

The inputs of a time feature do not depend on the time, so evaluating a feature is
evaluating its inputs and applying the function of time that they make, its *course*.
The course of a closed-form feature has a value at every time.  That of a step feature
has one at every time or at none, for whether there is one is a matter of the lengths
of its tables.

Main statements: `evalFeature_eq` and `total_of_evalCourse`.
-/
import ParameterChain.Proofs.Traced

namespace ParameterChain

/-- What a feature gives at each time. -/
abbrev Course := Float → Except Cause Value

namespace TimeFeature

/-- The time within the repetition interval, if there is one. -/
def within (period? : Option Float) (t : Float) : Float :=
  match period? with
  | some period => wrap t period
  | none => t

/-! ## Tables -/

/-- The position that a table gives is one of the table. -/
theorem stepIndex_lt {times : List Float} (htimes : times ≠ []) (t : Float) :
    stepIndex times t < times.length := by
  simp only [stepIndex]
  generalize htable : (times.zipIdx.mergeSort fun a b => Number.totalLe a.1 b.1) = table
  have hperm : table.Perm times.zipIdx := htable ▸ List.mergeSort_perm _ _
  cases hentry : table[min (countPassed (fun entry => decide (entry.1 ≤ t)) table)
      (table.length - 1)]? with
  | none => exact List.length_pos_iff.mpr htimes
  | some entry =>
    have hmem := hperm.mem_iff.mp (List.mem_of_getElem? hentry)
    exact (List.mem_zipIdx' hmem).1

/-- Tables that give a value at some time give one at every time. -/
theorem stepValue_total {times : List Float} {values v : Value} {t : Float}
    (hv : stepValue times values t = .ok v) (u : Float) :
    ∃ w, stepValue times values u = .ok w := by
  rw [stepValue] at hv ⊢
  cases hlast : times.getLast? with
  | none =>
    rw [hlast] at hv
    cases hv
  | some period =>
    have htimes : times ≠ [] := by
      rintro rfl
      cases hlast
    simp only [hlast] at hv ⊢
    split at hv
    · cases hv
    next hlength =>
    rw [if_neg hlength]
    rcases values with ⟨scalar, shape⟩
    cases shape with
    | one a => cases hv
    | many as =>
      have hlt := stepIndex_lt htimes (wrap u period)
      have hsize : as.length = times.length := (Decidable.not_not.mp hlength).symm
      have hget := List.getElem?_eq_getElem (l := as) (hsize ▸ hlt)
      simp only [Value.element?, Shape.at?, hget, Option.map_some]
      exact ⟨_, rfl⟩

end TimeFeature

namespace Graph

variable (g : Graph) (eval : Parameter → Traced Value)

/-- The repetition interval of a feature, if it has one. -/
def evalPeriod (f : TimeFeature) : Traced (Option Float) :=
  let interval := f.input "RepetitionInterval"
  if (g.visible? (Key.ofText interval)).isSome then do
    return some (← g.evalDimensioned eval interval "Time")
  else pure none

/-- The course of a feature. -/
def evalCourse (f : TimeFeature) : Traced Course :=
  if f.function = .step then do
    let times ← g.evalDimensioneds eval (f.input "Times") "Time"
    let values ← eval (← g.named (f.input "Values"))
    return TimeFeature.stepValue times values
  else do
    let period? ← g.evalPeriod eval f
    let (start, rate) ← g.evalStartAndRate eval f
    return fun t => .ok (f.closedForm (TimeFeature.within period? t) start rate)

theorem evalRepetition_eq (f : TimeFeature) (t : Float) :
    g.evalRepetition eval f t =
      g.evalPeriod eval f >>= fun period? => pure (TimeFeature.within period? t) := by
  unfold evalRepetition evalPeriod
  simp only
  split
  · rw [bind_assoc]
    simp only [pure_bind, TimeFeature.within]
  · rw [pure_bind]
    rfl

/-- A feature is evaluated by applying its course to the time. -/
theorem evalFeature_eq (f : TimeFeature) (t : Float) :
    g.evalFeature eval f t =
      g.evalCourse eval f >>= fun course => Traced.ofCause (course t) := by
  rw [evalFeature, evalCourse]
  split
  · simp only [evalStep, bind_assoc, pure_bind]
  · simp only [evalClosedForm, evalRepetition_eq, bind_assoc, pure_bind]
    rfl

/-- A course that has a value at some time has one at every time. -/
theorem total_of_evalCourse {f : TimeFeature} {course : Course} {s s' : Trace} {t : Float}
    {v : Value} (hrun : (g.evalCourse eval f).run s = (.ok course, s'))
    (hv : course t = .ok v) (u : Float) : ∃ w, course u = .ok w := by
  rw [evalCourse] at hrun
  split at hrun
  · obtain ⟨times, m, -, hrun⟩ := Traced.run_bind_eq_ok.mp hrun
    obtain ⟨p, m', -, hrun⟩ := Traced.run_bind_eq_ok.mp hrun
    obtain ⟨values, m'', -, hrun⟩ := Traced.run_bind_eq_ok.mp hrun
    cases hrun
    exact TimeFeature.stepValue_total hv u
  · obtain ⟨period?, m, -, hrun⟩ := Traced.run_bind_eq_ok.mp hrun
    obtain ⟨inputs, m', -, hrun⟩ := Traced.run_bind_eq_ok.mp hrun
    cases hrun
    exact ⟨_, rfl⟩

end Graph

end ParameterChain
