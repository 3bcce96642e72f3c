/-
# Attempts on the session itself

An edit is made on the session itself, step by step (`Session.apply`).  Before its value
is resolved, the chain of the transient file is laid anew, and whatever the steps have done
by the time that one of them fails stays done.

In a session that was loaded the chain is linear already, so that laying it once more
gives the same graph back (`Whole.linearize_eq`).  No other step changes anything before
all checks have passed.  So an edit that fails leaves nothing behind, and an edit that is
only tried never does.

Main statements: `apply_of_whole` and `apply_false`, by which what is done to a session
in place is what `Session.edit` and `Session.tryEdit` say.
-/
import ParameterChain.Proofs.Linearization
import ParameterChain.Proofs.Run

namespace ParameterChain

namespace Graph

variable {g g' : Graph}

/-- A chain that is linear is laid again as it is. -/
theorem Whole.linearize_eq (hg : g.Whole) : g.linearize transientFile = g := by
  refine eq_of_files ?_ rfl rfl
  intro h
  rw [linearize, getElem?_link]
  cases hfile : g.files[h]? with
  | none => rfl
  | some file =>
    have hparent : g.parentOf? h = file.parent := by
      rw [parentOf?, hfile]
      rfl
    by_cases hh : h ∈ g.linearOrder transientFile
    · rw [Option.map_some, if_pos hh, ← hg.linked h hh, hparent]
    · rw [Option.map_some, if_neg hh]

/-! ## Processing in place -/

/-- What is to be kept is processed as it is committed.  The graph is left as the commit
makes it; after a failure its chain may have been laid anew. -/
theorem process_true (g : Graph) (limits : Limits) (f : FileId) (ds : Declarations) :
    (∃ done, g.commit limits f ds = .ok done ∧
      g.process limits f ds true = (.ok done, done.graph)) ∨
    ∃ e g', g.commit limits f ds = .error e ∧ g.process limits f ds true = (.error e, g') ∧
      (g' = g ∨ g' = g.linearize f) := by
  cases houtline : g.outline f ds with
  | error e =>
    have hcommit : g.commit limits f ds = .error (e.inFile (g.nameOf f)) := by
      rw [commit, houtline]
      rfl
    have hprocess : g.process limits f ds true = (.error (e.inFile (g.nameOf f)), g) := by
      rw [process, houtline]
      rfl
    exact Or.inr ⟨_, g, hcommit, hprocess, Or.inl rfl⟩
  | ok o =>
    cases hdraft : (g.linearize f).draft limits f o with
    | error e =>
      have hcommit : g.commit limits f ds = .error (e.inFile (g.nameOf f)) := by
        simp only [commit, houtline, bind, Except.bind, hdraft]
        rfl
      have hprocess : g.process limits f ds true =
          (.error (e.inFile (g.nameOf f)), g.linearize f) := by
        simp only [process, houtline, if_true, Attempt.locate, Except.mapError, hdraft]
      exact Or.inr ⟨_, _, hcommit, hprocess, Or.inr rfl⟩
    | ok drafts =>
      refine Or.inl ⟨⟨(g.linearize f).storeAll drafts o.features, drafts, o.features⟩, ?_, ?_⟩
      · simp only [commit, houtline, bind, Except.bind, hdraft]
        rfl
      · simp only [process, houtline, if_true, Attempt.locate, Except.mapError, hdraft]

/-- What is not to be kept is processed as it is tried, and the graph is left as it was. -/
theorem process_false (g : Graph) (limits : Limits) (f : FileId) (ds : Declarations) :
    (g.process limits f ds false).1.map (fun _ => ()) = g.trial limits f ds ∧
      (g.process limits f ds false).2 = g := by
  cases houtline : g.outline f ds with
  | error e =>
    simp only [process, trial, houtline]
    exact ⟨rfl, rfl⟩
  | ok o =>
    cases hdraft : g.draft limits f o with
    | error e =>
      simp only [process, trial, houtline, Attempt.locate, Except.mapError, bind, Except.bind,
        Bool.false_eq_true, if_false, hdraft, Except.map, and_self]
    | ok drafts =>
      simp only [process, trial, houtline, Attempt.locate, Except.mapError, bind, Except.bind,
        Bool.false_eq_true, if_false, hdraft, Except.map, pure, Except.pure, and_self]

/-- A failure leaves a graph whose chain is linear as it was. -/
theorem Whole.process_eq (hg : g.Whole) (limits : Limits) (ds : Declarations) :
    g.process limits transientFile ds true =
      match g.commit limits transientFile ds with
      | .ok done => (.ok done, done.graph)
      | .error e => (.error e, g) := by
  rcases process_true g limits transientFile ds with
    ⟨done, hcommit, hprocess⟩ | ⟨e, g', hcommit, hprocess, rfl | rfl⟩
  · rw [hprocess, hcommit]
  · rw [hprocess, hcommit]
  · rw [hprocess, hcommit, hg.linearize_eq]

theorem Whole.process_eq_ok (hg : g.Whole) {limits : Limits} {ds : Declarations} {done : Commit} :
    g.process limits transientFile ds true = (.ok done, g') ↔
      g.commit limits transientFile ds = .ok done ∧ done.graph = g' := by
  rw [hg.process_eq]
  cases g.commit limits transientFile ds with
  | error e => simp
  | ok made =>
    simp only [Prod.mk.injEq, Except.ok.injEq]
    exact and_congr_right fun heq => heq ▸ Iff.rfl

end Graph

/-! ## Edits in place -/

namespace Session

variable {s s' : Session} {c : Change}

/-- An edit that is made on a session whose chain is linear leaves it as the edit makes it,
or, when it fails, as it was. -/
theorem apply_of_whole (hg : s.graph.Whole) (c : Change) :
    s.apply c true =
      match s.edit c with
      | .ok (s', name) => (.ok name, s')
      | .error e => (.error e, s) := by
  rw [apply, edit]
  cases c.declarations with
  | error e => rfl
  | ok made =>
    obtain ⟨ds, d⟩ := made
    simp only [if_true, bind, Except.bind, hg.process_eq]
    cases s.requireChangeable c d with
    | error e => rfl
    | ok =>
      cases s.graph.commit s.limits transientFile ds with
      | error e => rfl
      | ok done => rfl

theorem apply_eq_ok (hg : s.graph.Whole) {n : Name} :
    s.apply c true = (.ok n, s') ↔ s.edit c = .ok (s', n) := by
  rw [apply_of_whole hg]
  cases s.edit c with
  | error e => simp
  | ok made =>
    obtain ⟨made, name⟩ := made
    simp only [Prod.mk.injEq, Except.ok.injEq]
    exact and_comm

/-- An edit that is only tried leaves the session as it was. -/
theorem apply_false (s : Session) (c : Change) :
    (s.apply c false).1.map (fun _ => ()) = s.tryEdit c ∧ (s.apply c false).2 = s := by
  rw [apply, tryEdit]
  cases c.declarations with
  | error e => exact ⟨rfl, rfl⟩
  | ok made =>
    obtain ⟨ds, d⟩ := made
    obtain ⟨hresult, hgraph⟩ := s.graph.process_false s.limits transientFile ds
    simp only [Bool.false_eq_true, if_false, bind, Except.bind]
    rcases hprocess : s.graph.process s.limits transientFile ds false with ⟨result, g⟩
    rw [hprocess] at hresult hgraph
    obtain rfl : g = s.graph := hgraph
    rw [← hresult]
    cases result with
    | error e => exact ⟨rfl, rfl⟩
    | ok done => exact ⟨rfl, rfl⟩

end Session

end ParameterChain
