/-
# The limit on the depth

The limit on the depth of references decides whether an evaluation is carried through and
nothing else.

  * With a higher limit an evaluation runs as it did, to the same value or failure and with
    the same trace, unless it failed for want of depth.
  * A parameter that reads itself in the end has no value under any limit.
  * An evaluation fails for want of depth only if it followed a path of more parameters than
    the limit allows.

All three are inductions on the depth that is left; what one parameter contributes is an
induction on the questions that its plan asks.

Main statement: `valueOf_depth`.
-/
import ParameterChain.Proofs.Questions

namespace ParameterChain

namespace Traced

variable {α : Type} {limit : Nat} {qs : List Parameter} {eval eval' : Parameter → Traced Value}
  {x : (Parameter → Traced Value) → Traced α}

/-! ## Runs that a deeper run repeats -/

/-- `y` runs as `x` does, unless `x` fails for want of depth. -/
def Deepens (limit : Nat) (x y : Traced α) : Prop :=
  ∀ t, x.run t = y.run t ∨
    ∃ t', x.run t = (.error (Cause.evaluationTooDeep limit).failure, t')

theorem Deepens.refl (x : Traced α) : Deepens limit x x :=
  fun _ => Or.inl rfl

theorem Deepens.bind {β : Type} {x y : Traced α} {f f' : α → Traced β}
    (hx : Deepens limit x y) (hf : ∀ a, Deepens limit (f a) (f' a)) :
    Deepens limit (x >>= f) (y >>= f') := by
  intro t
  rcases hx t with hsame | ⟨t', hdeep⟩
  · rcases hrun : x.run t with ⟨result, m⟩
    cases result with
    | ok a =>
      rw [run_bind_ok hrun, run_bind_ok (hsame ▸ hrun)]
      exact hf a m
    | error e =>
      rw [run_bind_error hrun, run_bind_error (hsame ▸ hrun)]
      exact Or.inl rfl
  · exact Or.inr ⟨t', run_bind_error hdeep⟩

/-- Questions that are answered alike lead to the same result. -/
theorem Asks.deepens (hx : Asks qs x) (heval : ∀ q, Deepens limit (eval q) (eval' q)) :
    Deepens limit (x eval) (x eval') := by
  induction hx with
  | pure a => exact .refl _
  | fail _ => exact .refl _
  | ask _ ih => exact (heval _).bind ih

/-! ## Questions that were answered -/

/-- The computation succeeds from some trace. -/
def Succeeds (x : Traced α) : Prop :=
  ∃ t a t', x.run t = (.ok a, t')

/-- A computation that succeeds has all its questions answered. -/
theorem Asks.succeeds (hx : Asks qs x) (hsucc : Succeeds (x eval)) :
    ∀ q ∈ qs, Succeeds (eval q) := by
  obtain ⟨t, a, t', hrun⟩ := hsucc
  induction hx generalizing t with
  | pure b => simp
  | fail _ => cases hrun
  | ask _ ih =>
    obtain ⟨v, m, hfirst, hrest⟩ := run_bind_eq_ok.mp hrun
    intro q hq
    rcases List.mem_cons.mp hq with rfl | hq
    · exact ⟨t, v, m, hfirst⟩
    · exact ih v m hrest q hq

/-- A trace only grows along the questions of a computation. -/
theorem Asks.grows (hx : Asks qs x) (heval : ∀ q t, t ⊆ ((eval q).run t).2) (t : Trace) :
    t ⊆ ((x eval).run t).2 := by
  induction hx generalizing t with
  | pure a => exact List.Subset.refl t
  | fail _ => exact List.Subset.refl t
  | @ask qs q k _ ih =>
    have hgrows := heval q t
    rcases hrun : (eval q).run t with ⟨result, m⟩
    rw [hrun] at hgrows
    cases result with
    | ok v =>
      rw [run_bind_ok hrun]
      exact List.Subset.trans hgrows (ih v m)
    | error e =>
      rw [run_bind_error hrun]
      exact hgrows

/-- A computation that fails for want of depth does so at one of its questions. -/
theorem Asks.exists_tooDeep (hx : Asks qs x) (heval : ∀ q t, t ⊆ ((eval q).run t).2)
    {t t' : Trace} {e : Failure} (hrun : (x eval).run t = (.error e, t'))
    (he : e.cause.IsTooDeep) :
    ∃ q ∈ qs, ∃ u, t ⊆ u ∧ (eval q).run u = (.error e, t') := by
  induction hx generalizing t with
  | pure a => cases hrun
  | fail hc =>
    cases hrun
    exact absurd he hc
  | @ask qs q k _ ih =>
    have hgrows := heval q t
    rcases hfirst : (eval q).run t with ⟨result, m⟩
    rw [hfirst] at hgrows
    cases result with
    | ok v =>
      rw [run_bind_ok hfirst] at hrun
      obtain ⟨r, hr, u, hu, hdeep⟩ := ih v hrun
      exact ⟨r, List.mem_cons_of_mem q hr, u, List.Subset.trans hgrows hu, hdeep⟩
    | error f =>
      rw [run_bind_error hfirst] at hrun
      cases hrun
      exact ⟨q, List.mem_cons_self, t, List.Subset.refl t, hfirst⟩

end Traced

open Traced

namespace Graph

variable {g : Graph} {p q : Parameter} {limit n : Nat}

/-! ## One parameter -/

/-- Evaluating `p` visits it and asks for what it reads. -/
theorem evalWith_eq (g : Graph) (p : Parameter) : ∃ x : (Parameter → Traced Value) → Traced Value,
    Asks (g.readsOf p) x ∧ ∀ eval t, (g.evalWith eval p).run t = (x eval).run (t.visit p.slot) :=
  ⟨fun eval => g.evalPlan eval p >>= fun v =>
      Traced.ofOption (.wrongKind p.name.text p.kind v.kind) (v.coerce? p.kind),
    (evalPlan_asks p).bind_silent fun _ => .ofOption (by rintro ⟨⟩) _,
    fun _ _ => run_bind_ok (run_visit _ _)⟩

theorem evaluate_grows (g : Graph) (limit n : Nat) (p : Parameter) (t : Trace) :
    t ⊆ ((g.evaluate limit n p).run t).2 := by
  induction n generalizing p t with
  | zero => exact List.Subset.refl t
  | succ n ih =>
    obtain ⟨x, hasks, hx⟩ := evalWith_eq g p
    rw [evaluate, hx]
    intro σ hσ
    exact hasks.grows ih _ (mem_visit.mpr (Or.inr hσ))

/-- An evaluation that does not run out of depth is repeated when there is more. -/
theorem evaluate_deepens (g : Graph) (limit limit' : Nat) {n m : Nat} (hnm : n ≤ m)
    (p : Parameter) : Deepens limit (g.evaluate limit n p) (g.evaluate limit' m p) := by
  induction n generalizing m p with
  | zero => exact fun t => Or.inr ⟨t, rfl⟩
  | succ n ih =>
    obtain ⟨m, rfl⟩ := Nat.exists_eq_add_of_le' (Nat.one_le_of_lt hnm)
    obtain ⟨x, hasks, hx⟩ := evalWith_eq g p
    intro t
    rw [evaluate, evaluate, hx, hx]
    exact hasks.deepens (fun q => ih (Nat.le_of_succ_le_succ hnm) q) _

/-- A parameter that has a value with some depth has one only if all that it reads have
values with less. -/
theorem succeeds_of_reads (hpq : g.Reads p q) (hp : Succeeds (g.evaluate limit (n + 1) p)) :
    Succeeds (g.evaluate limit n q) := by
  obtain ⟨x, hasks, hx⟩ := evalWith_eq g p
  obtain ⟨t, v, t', hrun⟩ := hp
  rw [evaluate, hx] at hrun
  exact hasks.succeeds ⟨_, v, t', hrun⟩ q (mem_readsOf.mpr hpq)

/-- What leads to a cycle reads something that leads to it as well. -/
theorem exists_reads_of_cycle (hq : Relation.TransGen g.Reads q q) (hpq : g.Reaches p q) :
    ∃ m, g.Reads p m ∧ g.Reaches m q := by
  rcases Relation.ReflTransGen.cases_head hpq with rfl | hm
  · exact Relation.TransGen.head'_iff.mp hq
  · exact hm

/-- What leads to a cycle has no value: with every parameter entered there is less depth
left, and always another parameter to read. -/
theorem not_succeeds_of_cycle (hq : Relation.TransGen g.Reads q q) (hpq : g.Reaches p q) :
    ¬ Succeeds (g.evaluate limit n p) := by
  induction n generalizing p with
  | zero =>
    rintro ⟨t, v, t', hrun⟩
    cases hrun
  | succ n ih =>
    obtain ⟨m, hpm, hmq⟩ := exists_reads_of_cycle hq hpq
    exact fun hp => ih hmq (succeeds_of_reads hpm hp)

/-! ## Paths of reads -/

/-- A path of reads of a run that left the trace `t`: each parameter reads the next, and all
but the last were entered. -/
def Path (g : Graph) (t : Trace) : List Parameter → Prop
  | p :: q :: ps => p.slot ∈ t ∧ g.Reads p q ∧ Path g t (q :: ps)
  | _ => True

/-- An evaluation that fails for want of depth has used up all of it on one path. -/
theorem exists_path_of_tooDeep {t t' : Trace} {e : Failure}
    (hrun : (g.evaluate limit n p).run t = (.error e, t')) (he : e.cause.IsTooDeep) :
    ∃ ps, g.Path t' (p :: ps) ∧ ps.length = n := by
  induction n generalizing p t with
  | zero => exact ⟨[], trivial, rfl⟩
  | succ n ih =>
    obtain ⟨x, hasks, hx⟩ := evalWith_eq g p
    rw [evaluate, hx] at hrun
    obtain ⟨q, hq, u, hu, hdeep⟩ :=
      hasks.exists_tooDeep (evaluate_grows g limit n) hrun he
    obtain ⟨ps, hpath, hlength⟩ := ih hdeep
    have hgrows := evaluate_grows g limit n q u
    rw [hdeep] at hgrows
    have hentered : p.slot ∈ t' := hgrows (hu (mem_visit.mpr (Or.inl rfl)))
    exact ⟨q :: ps, ⟨hentered, mem_readsOf.mp hq, hpath⟩, congrArg Nat.succ hlength⟩

/-! ## The limit -/

/-- Adequacy of the limit on the depth, in every graph and for every parameter.

  * A higher limit leads to the same result and the same trace, so the same parameters are
    used and depended on, unless the lower limit is the reason of a failure.
  * A parameter from which a parameter is reached that reads itself in the end has a value
    under no limit.
  * An evaluation each of whose paths of reads has at most as many parameters as the limit
    says does not fail for want of depth. -/
theorem valueOf_depth (g : Graph) (p : Parameter) :
    (∀ lower higher : Limits, lower.evaluationDepth ≤ higher.evaluationDepth → ∀ t : Trace,
      (g.valueOf lower p).run t = (g.valueOf higher p).run t ∨
        ∃ t', (g.valueOf lower p).run t =
          (.error (Cause.evaluationTooDeep lower.evaluationDepth).failure, t')) ∧
    (∀ q, g.Reaches p q → Relation.TransGen g.Reads q q →
      ∀ limits t v t', (g.valueOf limits p).run t ≠ (.ok v, t')) ∧
    ∀ limits t e t', (g.valueOf limits p).run t = (.error e, t') →
      (∀ ps, g.Path t' (p :: ps) → (p :: ps).length ≤ limits.evaluationDepth) →
      ∀ limit, e.cause ≠ .evaluationTooDeep limit := by
  refine ⟨?_, ?_, ?_⟩
  · intro lower higher hle t
    exact evaluate_deepens g _ _ hle p t
  · intro q hpq hq limits t v t' hrun
    exact not_succeeds_of_cycle hq hpq ⟨t, v, t', hrun⟩
  · intro limits t e t' hrun hpaths limit he
    obtain ⟨ps, hpath, hlength⟩ := exists_path_of_tooDeep hrun (he ▸ .mk limit)
    have hle := hpaths ps hpath
    rw [List.length_cons, hlength] at hle
    exact Nat.not_succ_le_self _ hle

/-- An integer parameter that refers to another. -/
def referring (name other : String) : Parameter where
  name := .ofText name
  kind := .one .integer
  changeable := false
  unit := none
  rawValue := other
  file := transientFile
  plan := .reference (.named (.ofText other))

/-- Two parameters that refer to each other, and one that refers to nothing. -/
def crossed : Graph :=
  { files := #[{
      name := transientName
      parameters := [referring "a" "b", referring "b" "a", referring "c" "d"] }] }

theorem valueOf_depth_crossed :
    ((crossed.valueOf { evaluationDepth := 1 } (referring "a" "b")).run [] =
        (crossed.valueOf { evaluationDepth := 2 } (referring "a" "b")).run [] ∨
      ∃ t', (crossed.valueOf { evaluationDepth := 1 } (referring "a" "b")).run [] =
        (.error (Cause.evaluationTooDeep 1).failure, t')) ∧
    (crossed.Reaches (referring "a" "b") (referring "b" "a") ∧
      Relation.TransGen crossed.Reads (referring "b" "a") (referring "b" "a") ∧
      ∀ limits t v t', (crossed.valueOf limits (referring "a" "b")).run t ≠ (.ok v, t')) ∧
    ∃ e t', (crossed.valueOf { evaluationDepth := 1 } (referring "c" "d")).run [] =
        (.error e, t') ∧
      (∀ ps, crossed.Path t' (referring "c" "d" :: ps) →
        (referring "c" "d" :: ps).length ≤ 1) ∧
      ∀ limit, e.cause ≠ .evaluationTooDeep limit := by
  have hab : crossed.Reads (referring "a" "b") (referring "b" "a") :=
    .ref List.mem_cons_self rfl
  have hba : crossed.Reads (referring "b" "a") (referring "a" "b") :=
    .ref List.mem_cons_self rfl
  have hcycle : Relation.TransGen crossed.Reads (referring "b" "a") (referring "b" "a") :=
    .tail (.single hba) hab
  have hpaths : ∀ t' ps, crossed.Path t' (referring "c" "d" :: ps) →
      (referring "c" "d" :: ps).length ≤ 1 := by
    intro t' ps hpath
    cases ps with
    | nil => exact Nat.le_refl 1
    | cons q ps => cases mem_readsOf.mpr hpath.2.1
  refine ⟨?_, ⟨.single hab, hcycle, ?_⟩, _, _, rfl, hpaths _, ?_⟩
  · exact (valueOf_depth crossed _).1 _ _ (by decide) []
  · exact (valueOf_depth crossed _).2.1 _ (.single hab) hcycle
  · exact (valueOf_depth crossed (referring "c" "d")).2.2 { evaluationDepth := 1 } [] _ _ rfl
      (hpaths _)

end Graph

end ParameterChain
