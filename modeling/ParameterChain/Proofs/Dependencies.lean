/-
# What consumers depend on

A successful reading of a consumer leaves one dependency for each changeable parameter
that its evaluation came by.  Nothing else adds a dependency and nothing takes one away,
neither failures nor edits nor moves of the clock, so the dependencies of a session are
an account of what its consumers have read.

Main statements: `mem_dependencies_run` and `depends_run`, which read the dependencies
after a run off the steps of the run.
-/
import Mathlib.Data.List.Induction
import ParameterChain.Proofs.Run

namespace ParameterChain

/-- The consumer read `direct` and came by a changeable parameter with the key `k`. -/
def Session.Depends (s : Session) (k : Key) (consumer : String) (direct : Key) : Prop :=
  (k, consumer, direct) ∈ s.dependencies.map Dependency.id

/-- With this step the consumer reads the name `n` with success and comes by a
changeable parameter with the key `k`. -/
def Session.Consults (s : Session) (step : Session.Step) (k : Key) (consumer n : String) :
    Prop :=
  ∃ e v t p, step = .read (some consumer) n e ∧
    (s.graph.read s.limits n e).run [] = (.ok v, t) ∧ p ∈ s.touched t ∧ p.key = k

/-- There is such a step among those that were taken. -/
def Session.Consulted (s : Session) (steps : List Session.Step) (k : Key)
    (consumer n : String) : Prop :=
  ∃ before step after, steps = before ++ step :: after ∧
    (s.run before).Consults step k consumer n

namespace Session

variable {s : Session} {x : Dependency} {p : Parameter} {t : Trace} {n : String}
  {e : Expectation} {v : Value} {k j : Key} {consumer : String} {direct : Name}

/-! ## Readings -/

/-- The changeable parameters of a trace are those that it shows in its slots. -/
theorem mem_touched :
    p ∈ s.touched t ↔
      (∃ σ ∈ t, s.graph.declared? σ.file σ.key = some p) ∧ p.changeable := by
  simp only [touched, List.mem_filter, List.mem_filterMap, List.mem_reverse]

theorem read_of_ok (hrun : (s.graph.read s.limits n e).run [] = (.ok v, t)) :
    s.read (some consumer) n e =
      (.ok v, (s.markUsed t).dependOn consumer (Name.ofText n) t) := by
  rw [read, hrun]

theorem read_of_error {f : Failure} {reader : Option String}
    (hrun : (s.graph.read s.limits n e).run [] = (.error f, t)) :
    s.read reader n e = (.error f, s.markUsed t) := by
  rw [read, hrun]
  cases reader <;> rfl

theorem read_none : (s.read none n e).2.dependencies = s.dependencies := by
  rw [read]
  rfl

/-- What a reading gives does not depend on who reads. -/
theorem fst_read (s : Session) (reader : Option String) (n : String) (e : Expectation) :
    (s.read reader n e).1 = ((s.graph.read s.limits n e).run []).1 := by
  rw [read]
  rcases (s.graph.read s.limits n e).run [] with ⟨result, t⟩
  cases reader with
  | none => rfl
  | some consumer => cases result <;> rfl

/-! ## Adding dependencies -/

theorem mem_depend {y : Dependency} (hy : y ∈ (s.depend x).dependencies) :
    y = x ∨ y ∈ s.dependencies := by
  rw [depend] at hy
  split at hy
  · exact Or.inr hy
  · rcases List.mem_append.mp hy with hy | hy
    · exact Or.inr hy
    · exact Or.inl (List.mem_singleton.mp hy)

/-- The parts that tell dependencies apart, after one was added. -/
theorem ids_depend (s : Session) (x : Dependency) :
    (s.depend x).dependencies.map Dependency.id =
      if x.id ∈ s.dependencies.map Dependency.id then s.dependencies.map Dependency.id
      else s.dependencies.map Dependency.id ++ [x.id] := by
  have hrow : (rowOf? Dependency.id x.id s.dependencies).isSome ↔
      x.id ∈ s.dependencies.map Dependency.id := by
    simp [rowOf?]
  rw [depend]
  by_cases hx : x.id ∈ s.dependencies.map Dependency.id
  · rw [if_pos (hrow.mpr hx), if_pos hx]
  · rw [if_neg (mt hrow.mp hx), if_neg hx]
    exact List.map_append

theorem depends_depend :
    (s.depend x).Depends k consumer j ↔
      (k, consumer, j) = x.id ∨ s.Depends k consumer j := by
  rw [Depends, ids_depend]
  split
  · next hx => exact ⟨Or.inr, fun h => h.elim (fun heq => heq ▸ hx) id⟩
  · rw [List.mem_append, List.mem_singleton, or_comm]
    exact Iff.rfl

theorem nodup_depend (hs : (s.dependencies.map Dependency.id).Nodup) :
    ((s.depend x).dependencies.map Dependency.id).Nodup := by
  rw [ids_depend]
  split
  · exact hs
  · next hx =>
    refine List.nodup_append.mpr ⟨hs, List.nodup_singleton x.id, ?_⟩
    intro a ha b hb
    rintro rfl
    exact hx (List.mem_singleton.mp hb ▸ ha)

section Touched

variable (ps : List Parameter)

/-- Add the dependencies on some parameters. -/
def dependOnAll (s : Session) (consumer : String) (direct : Name) (ps : List Parameter) :
    Session :=
  ps.foldl (fun s p => s.depend ⟨p.name, consumer, direct⟩) s

theorem mem_dependOnAll (hx : x ∈ (s.dependOnAll consumer direct ps).dependencies) :
    x ∈ s.dependencies ∨ ∃ p ∈ ps, x = ⟨p.name, consumer, direct⟩ := by
  induction ps generalizing s with
  | nil => exact Or.inl hx
  | cons p ps ih =>
    rcases ih hx with hx | ⟨q, hq, hx⟩
    · rcases mem_depend hx with hx | hx
      · exact Or.inr ⟨p, List.mem_cons_self, hx⟩
      · exact Or.inl hx
    · exact Or.inr ⟨q, List.mem_cons_of_mem p hq, hx⟩

theorem depends_dependOnAll {c : String} :
    (s.dependOnAll consumer direct ps).Depends k c j ↔
      s.Depends k c j ∨ c = consumer ∧ j = direct.key ∧ ∃ p ∈ ps, p.key = k := by
  induction ps generalizing s with
  | nil => exact ⟨Or.inl, fun h => h.elim id fun h => absurd h.2.2 (by simp)⟩
  | cons p ps ih =>
    show (Session.dependOnAll (s.depend ⟨p.name, consumer, direct⟩) consumer direct ps).Depends
      k c j ↔ _
    rw [ih, depends_depend]
    have hid : (k, c, j) = (⟨p.name, consumer, direct⟩ : Dependency).id ↔
        p.key = k ∧ c = consumer ∧ j = direct.key := by
      simp only [Dependency.id, Prod.mk.injEq]
      exact and_congr_left fun _ => eq_comm
    rw [hid]
    simp only [List.mem_cons, exists_eq_or_imp]
    tauto

theorem nodup_dependOnAll (hs : (s.dependencies.map Dependency.id).Nodup) :
    ((s.dependOnAll consumer direct ps).dependencies.map Dependency.id).Nodup := by
  induction ps generalizing s with
  | nil => exact hs
  | cons p ps ih => exact ih (nodup_depend hs)

end Touched

/-! ## Steps -/

theorem dependencies_afterEdit (s : Session) (c : Change) :
    (s.afterEdit c).dependencies = s.dependencies := by
  rcases afterEdit_cases s c with heq | ⟨ds, d, done, -, -, heq⟩
  · rw [heq]
  · rw [heq]
    rfl

/-- A step either is a reading of a consumer or leaves the dependencies alone. -/
theorem next_cases (s : Session) (step : Step) :
    (∃ c n e v t, step = .read (some c) n e ∧
      (s.graph.read s.limits n e).run [] = (.ok v, t) ∧
      s.next step = (s.markUsed t).dependOnAll c (Name.ofText n) (s.touched t)) ∨
    ((∀ k c n, ¬ s.Consults step k c n) ∧ (s.next step).dependencies = s.dependencies) := by
  cases step with
  | read reader n e =>
    rcases hrun : (s.graph.read s.limits n e).run [] with ⟨result, t⟩
    cases result with
    | error f =>
      refine Or.inr ⟨?_, ?_⟩
      · rintro k c n' ⟨e', v, t', p, hstep, hread, -, -⟩
        cases hstep
        cases hrun.symm.trans hread
      · show (s.read reader n e).2.dependencies = s.dependencies
        rw [read_of_error hrun]
        rfl
    | ok v =>
      cases reader with
      | none =>
        refine Or.inr ⟨?_, read_none⟩
        rintro k c n' ⟨e', v', t', p, hstep, -, -, -⟩
        cases hstep
      | some c =>
        refine Or.inl ⟨c, n, e, v, t, rfl, hrun, ?_⟩
        show (s.read (some c) n e).2 = _
        rw [read_of_ok hrun]
        rfl
  | change c =>
    refine Or.inr ⟨?_, dependencies_afterEdit s c⟩
    rintro k c n ⟨e, v, t, p, hstep, -, -, -⟩
    cases hstep
  | clone name copy =>
    refine Or.inr ⟨?_, ?_⟩
    · rintro k c n ⟨e, v, t, p, hstep, -, -, -⟩
      cases hstep
    · simp only [next]
      split
      · exact dependencies_afterEdit s _
      · rfl
  | moveClock t =>
    refine Or.inr ⟨?_, ?_⟩
    · rintro k c n ⟨e, v, t, p, hstep, -, -, -⟩
      cases hstep
    · obtain ⟨used, seen, hmove⟩ :=
        exists_observe { s with graph := { s.graph with clock := t } } s.graph.sortedFeatures
      show (s.moveClock t).2.dependencies = s.dependencies
      rw [moveClock, hmove]

theorem mem_dependencies_next {step : Step} (hx : x ∈ (s.next step).dependencies) :
    x ∈ s.dependencies ∨
      ∃ n, x.direct = Name.ofText n ∧ s.Consults step x.base.key x.consumer n := by
  rcases next_cases s step with ⟨c, n, e, v, t, hstep, hread, hnext⟩ | ⟨-, hsame⟩
  · rw [hnext] at hx
    rcases mem_dependOnAll _ hx with hx | ⟨p, hp, rfl⟩
    · exact Or.inl hx
    · exact Or.inr ⟨n, rfl, e, v, t, p, hstep, hread, hp, rfl⟩
  · rw [hsame] at hx
    exact Or.inl hx

theorem depends_next {step : Step} {c : String} :
    (s.next step).Depends k c j ↔
      s.Depends k c j ∨ ∃ n, j = Key.ofText n ∧ s.Consults step k c n := by
  rcases next_cases s step with ⟨c', n, e, v, t, hstep, hread, hnext⟩ | ⟨hnone, hsame⟩
  · rw [hnext, depends_dependOnAll]
    refine or_congr Iff.rfl ?_
    constructor
    · rintro ⟨rfl, rfl, p, hp, rfl⟩
      exact ⟨n, rfl, e, v, t, p, hstep, hread, hp, rfl⟩
    · rintro ⟨n', rfl, e', v', t', p, hstep', hread', hp, rfl⟩
      cases hstep.symm.trans hstep'
      cases hread.symm.trans hread'
      exact ⟨rfl, rfl, p, hp, rfl⟩
  · rw [Depends, hsame]
    refine ⟨Or.inl, fun h => h.elim id ?_⟩
    rintro ⟨n, -, hconsults⟩
    exact absurd hconsults (hnone k c n)

theorem nodup_next {step : Step} (hs : (s.dependencies.map Dependency.id).Nodup) :
    ((s.next step).dependencies.map Dependency.id).Nodup := by
  rcases next_cases s step with ⟨c, n, e, v, t, -, -, hnext⟩ | ⟨-, hsame⟩
  · rw [hnext]
    exact nodup_dependOnAll _ hs
  · rw [hsame]
    exact hs

/-! ## Runs -/

theorem consulted_concat {steps : List Step} {step : Step} :
    s.Consulted (steps ++ [step]) k consumer n ↔
      s.Consulted steps k consumer n ∨ (s.run steps).Consults step k consumer n := by
  constructor
  · rintro ⟨before, step', after, heq, hconsults⟩
    rcases List.eq_nil_or_concat' after with rfl | ⟨after, last, rfl⟩
    · obtain ⟨rfl, hlast⟩ := List.append_inj' heq rfl
      cases hlast
      exact Or.inr hconsults
    · rw [← List.cons_append, ← List.append_assoc] at heq
      obtain ⟨rfl, -⟩ := List.append_inj' heq rfl
      exact Or.inl ⟨before, step', after, rfl, hconsults⟩
  · rintro (⟨before, step', after, rfl, hconsults⟩ | hconsults)
    · exact ⟨before, step', after ++ [step], by simp, hconsults⟩
    · exact ⟨steps, step, [], rfl, hconsults⟩

theorem dependencies_load {source : Source} {options : LoadOptions} {top : String}
    (hload : Session.load source options top = .ok s) : s.dependencies = [] := by
  obtain ⟨g, -, rfl⟩ := load_eq_ok.mp hload
  rfl

section Loaded

variable (hs : s.dependencies = [])

include hs

/-- Every dependency comes from a reading. -/
theorem mem_dependencies_run (steps : List Step) (hx : x ∈ (s.run steps).dependencies) :
    ∃ n, x.direct = Name.ofText n ∧ s.Consulted steps x.base.key x.consumer n := by
  induction steps using List.reverseRecOn with
  | nil =>
    rw [run, List.foldl_nil, hs] at hx
    exact absurd hx List.not_mem_nil
  | append_singleton steps step ih =>
    rw [run_concat] at hx
    rcases mem_dependencies_next hx with hx | ⟨n, hn, hconsults⟩
    · obtain ⟨n, hn, hconsulted⟩ := ih hx
      exact ⟨n, hn, consulted_concat.mpr (Or.inl hconsulted)⟩
    · exact ⟨n, hn, consulted_concat.mpr (Or.inr hconsults)⟩

/-- A consumer depends on what its readings came by. -/
theorem depends_run (steps : List Step) :
    (s.run steps).Depends k consumer j ↔
      ∃ n, j = Key.ofText n ∧ s.Consulted steps k consumer n := by
  induction steps using List.reverseRecOn with
  | nil =>
    constructor
    · intro h
      rw [Depends, run, List.foldl_nil, hs] at h
      exact absurd h List.not_mem_nil
    · rintro ⟨n, -, before, step, after, heq, -⟩
      simp at heq
  | append_singleton steps step ih =>
    simp only [run_concat, depends_next, ih, consulted_concat, and_or_left, exists_or]

theorem nodup_run (steps : List Step) :
    ((s.run steps).dependencies.map Dependency.id).Nodup := by
  induction steps using List.reverseRecOn with
  | nil =>
    rw [run, List.foldl_nil, hs]
    exact List.nodup_nil
  | append_singleton steps step ih =>
    rw [run_concat]
    exact nodup_next ih

end Loaded

end Session

end ParameterChain
