/-
# Runs of a session

A session goes from state to state by readings, edits, clones and moves of the clock,
in any order.  A step that fails may still leave something behind (a failed reading
its trace, a failed move of the clock the new time), except that a failed edit leaves
the session as it was.

Main statements: `Session.run_induction`, by which every invariant of sessions is
proved, and `rooted_run`: whatever is done to a loaded session, its graph is one that
`ParameterChain.Proofs.Built` speaks of.
-/
import ParameterChain.Proofs.Load
import ParameterChain.Session.Clock

namespace ParameterChain

/-- What can be done to a session. -/
inductive Session.Step where
  | read (consumer : Option String) (name : String) (e : Expectation)
  | change (c : Change)
  | clone (name copy : String)
  | moveClock (t : Float)

namespace Session

variable {s s' : Session} {c : Change} {d : Declaration} {ds : Declarations}

/-- The session after an attempt to make the edit `c`. -/
def afterEdit (s : Session) (c : Change) : Session :=
  match s.edit c with
  | .ok (s', _) => s'
  | .error _ => s

/-- The session after a step. -/
def next (s : Session) : Step → Session
  | .read consumer name e => (s.read consumer name e).2
  | .change c => s.afterEdit c
  | .clone name copy =>
      match s.cloning name copy with
      | .ok c => s.afterEdit c
      | .error _ => s
  | .moveClock t => (s.moveClock t).2

/-- The session after some steps. -/
def run (s : Session) (steps : List Step) : Session :=
  steps.foldl next s

theorem run_append (s : Session) (steps later : List Step) :
    s.run (steps ++ later) = (s.run steps).run later :=
  List.foldl_append

theorem run_concat (s : Session) (steps : List Step) (step : Step) :
    s.run (steps ++ [step]) = (s.run steps).next step :=
  run_append s steps [step]

/-! ## What a step leaves alone -/

theorem exists_depend (s : Session) (d : Dependency) :
    ∃ xs, s.depend d = { s with dependencies := xs } := by
  rw [depend]
  split
  · exact ⟨s.dependencies, rfl⟩
  · exact ⟨s.dependencies ++ [d], rfl⟩

theorem exists_dependOn (s : Session) (consumer : String) (direct : Name) (t : Trace) :
    ∃ xs, s.dependOn consumer direct t = { s with dependencies := xs } := by
  rw [dependOn]
  generalize s.touched t = ps
  induction ps generalizing s with
  | nil => exact ⟨s.dependencies, rfl⟩
  | cons p ps ih =>
    obtain ⟨xs, hxs⟩ := exists_depend s ⟨p.name, consumer, direct⟩
    rw [List.foldl_cons, hxs]
    exact ih _

/-- A reading counts parameters as used and adds dependencies. -/
theorem exists_read (s : Session) (consumer : Option String) (name : String)
    (e : Expectation) :
    ∃ used xs, (s.read consumer name e).2 = { s with used := used, dependencies := xs } := by
  rw [read]
  split
  next result t _ =>
  cases consumer with
  | none => exact ⟨_, s.dependencies, rfl⟩
  | some c =>
    cases result with
    | error _ => exact ⟨_, s.dependencies, rfl⟩
    | ok _ =>
      obtain ⟨xs, hxs⟩ := exists_dependOn (s.markUsed t) c (Name.ofText name) t
      exact ⟨_, xs, hxs⟩

theorem graph_read (s : Session) (consumer : Option String) (name : String) (e : Expectation) :
    (s.read consumer name e).2.graph = s.graph := by
  obtain ⟨used, xs, hread⟩ := exists_read s consumer name e
  rw [hread]

theorem limits_read (s : Session) (consumer : Option String) (name : String) (e : Expectation) :
    (s.read consumer name e).2.limits = s.limits := by
  obtain ⟨used, xs, hread⟩ := exists_read s consumer name e
  rw [hread]

/-- Looking at time features counts parameters as used and keeps values. -/
theorem exists_observe (s : Session) (fs : List TimeFeature) :
    ∃ used seen, (s.observe fs).2 = { s with used := used, sightings := seen } := by
  induction fs generalizing s with
  | nil => exact ⟨s.used, s.sightings, rfl⟩
  | cons f fs ih =>
    rw [observe]
    split
    next result t _ =>
    cases result with
    | error _ => exact ⟨_, s.sightings, rfl⟩
    | ok v =>
      simp only
      split
      · obtain ⟨used, seen, hrest⟩ := ih ((s.markUsed t).see f v)
        exact ⟨used, seen, hrest⟩
      · obtain ⟨used, seen, hrest⟩ := ih (s.markUsed t)
        exact ⟨used, seen, hrest⟩

theorem graph_moveClock (s : Session) (t : Float) :
    (s.moveClock t).2.graph = { s.graph with clock := t } := by
  obtain ⟨used, seen, hmove⟩ :=
    exists_observe { s with graph := { s.graph with clock := t } } s.graph.sortedFeatures
  rw [moveClock, hmove]

/-! ## Edits -/

/-- The declaration of a change is alone in its table. -/
theorem rows_of_declarations (hc : c.declarations = .ok (ds, d)) : ds.rows = [d] := by
  simp only [Change.declarations, locate_eq_ok, bind_eq_ok, Prod.exists] at hc
  obtain ⟨ds', added, hadd, hc⟩ := hc
  rw [Declarations.add] at hadd
  split at hadd
  · cases hadd
    cases hc
  split at hadd
  · cases hadd
    cases pure_eq_ok.mp hc
    rfl
  · cases hadd

theorem distinct_of_declarations (hc : c.declarations = .ok (ds, d)) : ds.Distinct := by
  rw [Declarations.Distinct, rows_of_declarations hc]
  exact List.nodup_singleton _

theorem edit_eq_ok {n : Name} :
    s.edit c = .ok (s', n) ↔ ∃ ds d done, c.declarations = .ok (ds, d) ∧
      s.requireChangeable c d = .ok () ∧
      s.graph.commit s.limits transientFile ds = .ok done ∧
      s.committed c d done = s' ∧ d.name = n := by
  simp only [edit, bind_eq_ok, pure_eq_ok, Prod.mk.injEq, Prod.exists, exists_and_left]
  constructor
  · rintro ⟨ds, d, hc, u, hu, done, hdone, hs, hn⟩
    exact ⟨ds, d, hc, hu, done, hdone, hs, hn⟩
  · rintro ⟨ds, d, hc, hu, done, hdone, hs, hn⟩
    exact ⟨ds, d, hc, (), hu, done, hdone, hs, hn⟩

/-- A permissive edit is not refused for what it hides. -/
theorem requireChangeable_of_permissive (hpermissive : c.permissive = true) (s : Session)
    (d : Declaration) : s.requireChangeable c d = .ok () := by
  rw [requireChangeable, Change.exempts, hpermissive, Bool.true_or, Bool.not_true, Bool.false_and]
  exact if_neg Bool.false_ne_true

/-- An edit that is attempted either is a commit to the transient file or leaves the
session as it was. -/
theorem afterEdit_cases (s : Session) (c : Change) :
    s.afterEdit c = s ∨ ∃ ds d done, c.declarations = .ok (ds, d) ∧
      s.graph.commit s.limits transientFile ds = .ok done ∧
      s.afterEdit c = s.committed c d done := by
  rw [afterEdit]
  cases hedit : s.edit c with
  | error f => exact Or.inl rfl
  | ok r =>
    obtain ⟨ds, d, done, hc, -, hdone, hs, -⟩ := edit_eq_ok.mp hedit
    exact Or.inr ⟨ds, d, done, hc, hdone, hs.symm⟩

/-- A step leaves the graph as it was, commits an edit to the transient file or moves the
clock. -/
theorem graph_next_cases (s : Session) (step : Step) :
    (s.next step).graph = s.graph ∨
      (∃ ds done, ds.Distinct ∧ s.graph.commit s.limits transientFile ds = .ok done ∧
        (s.next step).graph = done.graph) ∨
      ∃ t, (s.next step).graph = { s.graph with clock := t } := by
  have hedit : ∀ c, (s.afterEdit c).graph = s.graph ∨
      ∃ ds done, ds.Distinct ∧ s.graph.commit s.limits transientFile ds = .ok done ∧
        (s.afterEdit c).graph = done.graph := by
    intro c
    rcases afterEdit_cases s c with heq | ⟨ds, d, done, hc, hdone, heq⟩
    · exact Or.inl (by rw [heq])
    · exact Or.inr ⟨ds, done, distinct_of_declarations hc, hdone, by rw [heq]; rfl⟩
  cases step with
  | read consumer name e => exact Or.inl (graph_read s consumer name e)
  | change c => exact (hedit c).imp_right Or.inl
  | clone name copy =>
    simp only [next]
    split
    · exact (hedit _).imp_right Or.inl
    · exact Or.inl rfl
  | moveClock t => exact Or.inr (Or.inr ⟨t, graph_moveClock s t⟩)

/-! ## Invariants -/

/-- What readings, commits to the transient file and moves of the clock keep, every
run keeps. -/
theorem run_induction {P : Session → Prop}
    (hread : ∀ s consumer name e, P s → P (s.read consumer name e).2)
    (hcommit : ∀ s c ds d done, P s → c.declarations = .ok (ds, d) →
      s.graph.commit s.limits transientFile ds = .ok done → P (s.committed c d done))
    (hclock : ∀ s t, P s → P (s.moveClock t).2)
    (hs : P s) (steps : List Step) : P (s.run steps) := by
  have hedit : ∀ s c, P s → P (s.afterEdit c) := by
    intro s c hs
    rcases afterEdit_cases s c with heq | ⟨ds, d, done, hc, hdone, heq⟩
    · rw [heq]
      exact hs
    · rw [heq]
      exact hcommit s c ds d done hs hc hdone
  induction steps generalizing s with
  | nil => exact hs
  | cons step steps ih =>
    refine ih ?_
    cases step with
    | read consumer name e => exact hread s consumer name e hs
    | change c => exact hedit s c hs
    | clone name copy =>
      simp only [next]
      split
      · exact hedit s _ hs
      · exact hs
    | moveClock t => exact hclock s t hs

theorem rooted_run (hs : s.graph.Rooted) (steps : List Step) : (s.run steps).graph.Rooted := by
  refine run_induction (P := fun s => s.graph.Rooted) ?_ ?_ ?_ hs steps
  · intro s consumer name e hs
    rw [graph_read]
    exact hs
  · intro s c ds d done hs hc hdone
    exact .edit hs (distinct_of_declarations hc) hdone
  · intro s t hs
    rw [graph_moveClock]
    exact .tick t hs

theorem load_eq_ok {source : Source} {options : LoadOptions} {top : String} :
    Session.load source options top = .ok s ↔
      ∃ g, source.load options top = .ok g ∧ { graph := g, limits := options.limits } = s := by
  simp only [Session.load, bind_eq_ok, pure_eq_ok]

theorem rooted_load {source : Source} {options : LoadOptions} {top : String}
    (hload : Session.load source options top = .ok s) : s.graph.Rooted := by
  obtain ⟨g, hg, rfl⟩ := load_eq_ok.mp hload
  exact rooted_of_load hg

end Session

end ParameterChain
