/-
# Trials

A trial of an edit looks at a session and leaves it as it is.  It resolves the values
along the chain as it stands, whereas an edit lays the chain of the transient file anew
first.  In a session that was loaded the chain is linear already, so both resolve the same
values along the same chain, and a trial fails just as the edit would.

A trial does not ask whether the parameter that the edit hides is changeable, and so it
speaks of the permissive edit only (`performWithin_tryEdit`).
-/
import ParameterChain.Proofs.Failed

namespace ParameterChain

/-! ## Trials and commits -/

/-- A trial to commit to the transient file is the commit without its result, where the
chain is linear. -/
theorem Graph.Whole.trial_eq {g : Graph} (hg : g.Whole) (limits : Limits) (ds : Declarations) :
    g.trial limits transientFile ds =
      (g.commit limits transientFile ds).map fun _ => () := by
  rw [trial, commit, hg.linearize_eq]
  cases houtline : g.outline transientFile ds with
  | error e => rfl
  | ok o =>
    simp only [bind, Except.bind]
    cases g.draft limits transientFile o with
    | error e => rfl
    | ok drafts => rfl

/-! ## Trials and edits -/

namespace Session

variable {s : Session} {c : Change}

/-- What a change declares does not depend on whether it is permissive. -/
theorem tryEdit_permissive (s : Session) (c : Change) :
    s.tryEdit { c with permissive := true } = s.tryEdit c :=
  rfl

/-- To try an edit is to make the permissive edit without keeping its result. -/
theorem tryEdit_eq (hg : s.graph.Whole) (c : Change) :
    s.tryEdit c = (s.edit { c with permissive := true }).map fun _ => () := by
  rw [← tryEdit_permissive, tryEdit, edit]
  cases Change.declarations { c with permissive := true } with
  | error e => rfl
  | ok made =>
    obtain ⟨ds, d⟩ := made
    have hallowed := requireChangeable_of_permissive (c := { c with permissive := true }) rfl s d
    simp only [bind, Except.bind, hallowed, hg.trial_eq]
    cases s.graph.commit s.limits transientFile ds with
    | error e => rfl
    | ok done => rfl

end Session

/-! ## Trials in a dialogue -/

namespace Dialogue

variable {perform : Dialogue → Request → Answer × Dialogue} {d : Dialogue}

open Session

/-- The answer to a trial. -/
theorem performWith_tryEdit_fst (d : Dialogue) (c : Change) :
    (d.performWith perform (.tryEdit c)).1 =
      .notices ((d.session.tryEdit c).map fun _ => []) := by
  rw [← (apply_false d.session c).1]
  simp only [performWith, inSession]
  cases (d.session.apply c false).1 with
  | error e => rfl
  | ok name => rfl

/-- The answer to an edit: its failure, or the notices that it gave rise to. -/
theorem performWith_change_fst (perform : Dialogue → Request → Answer × Dialogue)
    (hd : d.session.graph.Whole) (c : Change) :
    ∃ told, (d.performWith perform (.change c)).1 =
      .notices ((d.session.edit c).map fun _ => told) := by
  simp only [performWith, change, inSession, apply_of_whole hd]
  cases d.session.edit c with
  | error e => exact ⟨[], rfl⟩
  | ok made => exact ⟨_, rfl⟩

/-- Whatever has been done to a loaded session, a trial of an edit, permissive or not,
comes to the verdict of the permissive edit: both succeed, or both fail with the same
failure, its cause and all its context.  This is so at every depth of deliveries. -/
theorem performWithin_tryEdit {source : Source} {options : LoadOptions} {top : String}
    {s : Session} (hload : Session.load source options top = .ok s) :
    (∀ rs, s.Reaches (({ session := s } : Dialogue).after rs).session) ∧
      ∀ d : Dialogue, s.Reaches d.session → ∀ depth c, ∃ verdict : Attempt Unit,
        (performWithin depth d (.tryEdit c)).1 = .notices (verdict.map fun _ => []) ∧
        ∃ told, (performWithin depth d (.change { c with permissive := true })).1 =
          .notices (verdict.map fun _ => told) := by
  have hrooted : s.graph.Rooted := rooted_load hload
  refine ⟨fun rs => after_reaches (d := { session := s }) hrooted rs, ?_⟩
  intro d hd depth c
  have hwhole : d.session.graph.Whole := (hd.rooted hrooted).whole
  obtain ⟨perform, -, hperform⟩ := exists_performWith depth
  obtain ⟨told, htold⟩ :=
    performWith_change_fst perform hwhole { c with permissive := true }
  refine ⟨d.session.tryEdit c, ?_, told, ?_⟩
  · rw [hperform, performWith_tryEdit_fst]
  · rw [hperform, htold, tryEdit_eq hwhole]
    cases d.session.edit { c with permissive := true } with
    | error e => rfl
    | ok made => rfl

/-- A file whose only parameter is not changeable, and a listener that has heard of it.
The edit with a unit fails for both, the one without would be refused were it not
permissive. -/
theorem performWithin_tryEdit_still :
    ∃ s d f, Session.load still { withDefaults := false } "top" = .ok s ∧
      d = ({ session := s } : Dialogue).after [.ask (.value (some "C") "Z" .any)] ∧
      (d.perform (.tryEdit ⟨"Z", "7 mm", false⟩)).1 = .notices (.error f) ∧
      (d.performWithin (d.budget (.tryEdit ⟨"Z", "7 mm", false⟩))
        (.change ⟨"Z", "7 mm", true⟩)).1 = .notices (.error f) ∧
      (d.perform (.tryEdit ⟨"Z", "8", false⟩)).1 = .notices (.ok []) ∧
      ∃ told, (d.performWithin (d.budget (.tryEdit ⟨"Z", "8", false⟩))
        (.change ⟨"Z", "8", true⟩)).1 = .notices (.ok told) := by
  have hok : (Session.load still { withDefaults := false } "top").toOption.any fun s =>
      let d := ({ session := s } : Dialogue).after [.ask (.value (some "C") "Z" .any)]
      (match (d.perform (.tryEdit ⟨"Z", "7 mm", false⟩)).1 with
        | .notices r => r.toOption.isNone
        | _ => false) &&
      (match (d.perform (.tryEdit ⟨"Z", "8", false⟩)).1 with
        | .notices r => r.toOption.isSome
        | _ => false) := by
    decide +kernel
  obtain ⟨s, hs, hanswers⟩ := (Option.any_eq_true _ _).mp hok
  have hload := toOption_eq_some.mp hs
  obtain ⟨hreaches, hsame⟩ := performWithin_tryEdit hload
  obtain ⟨hfails, hsucceeds⟩ := (Bool.and_eq_true _ _).mp hanswers
  have hd := hreaches [.ask (.value (some "C") "Z" .any)]
  obtain ⟨verdict, htried, told, hmade⟩ := hsame _ hd _ ⟨"Z", "7 mm", false⟩
  obtain ⟨verdict', htried', told', hmade'⟩ := hsame _ hd _ ⟨"Z", "8", false⟩
  rw [Dialogue.perform, htried] at hfails
  rw [Dialogue.perform, htried'] at hsucceeds
  cases verdict with
  | ok u => cases hfails
  | error f =>
    cases verdict' with
    | error e => cases hsucceeds
    | ok u => exact ⟨s, _, f, hload, rfl, htried, hmade, htried', told', hmade'⟩

end Dialogue

end ParameterChain
