/-
# Running traced computations

A traced computation is run from a trace and ends with a result and a longer trace.
These lemmas say how the ways of putting computations together are run; nothing else
looks at how the trace is threaded.
-/
import ParameterChain.Evaluation

namespace ParameterChain.Traced

variable {α β : Type} {x : Traced α} {f : α → Traced β} {t t' : Trace}

theorem run_pure (a : α) (t : Trace) : (pure a : Traced α).run t = (.ok a, t) :=
  rfl

theorem run_visit (s : Slot) (t : Trace) :
    (modify (Trace.visit · s) : Traced PUnit).run t = (.ok ⟨⟩, t.visit s) :=
  rfl

theorem run_ofCause_eq_ok {r : Except Cause α} {a : α} :
    (Traced.ofCause r).run t = (.ok a, t') ↔ r = .ok a ∧ t = t' := by
  cases r with
  | error c =>
    constructor
    · intro h
      cases h
    · rintro ⟨h, -⟩
      cases h
  | ok b =>
    constructor
    · intro h
      cases h
      exact ⟨rfl, rfl⟩
    · rintro ⟨h, rfl⟩
      cases h
      rfl

theorem run_bind_ok {a : α} (h : x.run t = (.ok a, t')) :
    (x >>= f).run t = (f a).run t' := by
  have h : (x : StateM Trace (Except Failure α)) t = (.ok a, t') := h
  simp only [ExceptT.run, bind, ExceptT.bind, ExceptT.mk, StateT.bind, h, ExceptT.bindCont]

theorem run_bind_error {e : Failure} (h : x.run t = (.error e, t')) :
    (x >>= f).run t = (.error e, t') := by
  have h : (x : StateM Trace (Except Failure α)) t = (.error e, t') := h
  simp only [ExceptT.run, bind, ExceptT.bind, ExceptT.mk, StateT.bind, h, ExceptT.bindCont]
  rfl

/-- A sequence succeeds when both of its steps do, the second after the first. -/
theorem run_bind_eq_ok {b : β} :
    (x >>= f).run t = (.ok b, t') ↔
      ∃ a m, x.run t = (.ok a, m) ∧ (f a).run m = (.ok b, t') := by
  rcases hx : x.run t with ⟨result, m⟩
  cases result with
  | ok a =>
    rw [run_bind_ok hx]
    constructor
    · intro h
      exact ⟨a, m, rfl, h⟩
    · rintro ⟨a', m', heq, h⟩
      cases heq
      exact h
  | error e =>
    rw [run_bind_error hx]
    constructor
    · intro h
      cases h
    · rintro ⟨a, m', heq, -⟩
      cases heq

end ParameterChain.Traced
