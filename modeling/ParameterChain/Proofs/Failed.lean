/-
# What a failure leaves behind

An edit, a clone or a trial that fails leaves a dialogue as it was: the session, the
listeners and the log (`performWithin_of_error`).

A move of the clock that fails does not.  The clock stays where it was moved to, and the
features that were looked at before the one that failed keep their new values, although
nobody is told of them.  When the next move finds them at these values again, it takes
them for old, so that their readers are never told (`updateTime_of_error`).
-/
import ParameterChain.Proofs.Clock
import ParameterChain.Proofs.Dialogues

namespace ParameterChain

open Session

/-! ## Edits that fail -/

namespace Dialogue

variable {perform : Dialogue → Request → Answer × Dialogue} {d : Dialogue}
  {c : Change} {f : Failure}

theorem change_of_error (hd : d.session.graph.Rooted)
    (herror : (d.change perform c).1 = .error f) : (d.change perform c).2 = d := by
  rw [change, inSession, apply_of_whole hd.whole] at herror ⊢
  cases hedit : d.session.edit c with
  | error e => rfl
  | ok made =>
    rw [hedit] at herror
    cases herror

theorem performWith_change_of_error (hd : d.session.graph.Rooted)
    (herror : (d.performWith perform (.change c)).1 = .notices (.error f)) :
    (d.performWith perform (.change c)).2 = d :=
  change_of_error hd (Answer.notices.inj herror)

theorem performWith_tryEdit (d : Dialogue) (c : Change) :
    (d.performWith perform (.tryEdit c)).2 = d := by
  show ({ d with session := (d.session.apply c false).2 } : Dialogue) = d
  rw [(apply_false d.session c).2]

theorem performWith_clone_of_error {name copy : String} (hd : d.session.graph.Rooted)
    (herror : (d.performWith perform (.clone name copy)).1 = .done (.error f)) :
    (d.performWith perform (.clone name copy)).2 = d := by
  simp only [performWith] at herror ⊢
  cases hcloning : d.session.cloning name copy with
  | error e => rfl
  | ok c =>
    rw [hcloning] at herror
    simp only [Answer.done.injEq] at herror
    rcases hchange : (d.change perform c).1 with e | ns
    · exact change_of_error hd hchange
    · rw [hchange] at herror
      cases herror

/-- Whatever has been done to a loaded session, an edit or a clone that fails, and every
edit that is only tried, leaves the dialogue as it was, with all that the session keeps,
the listeners and the log, to which no notification has been added.  This is so at every
depth of deliveries. -/
theorem performWithin_of_error {source : Source} {options : LoadOptions} {top : String}
    {s : Session} (hload : Session.load source options top = .ok s) :
    (∀ rs, s.Reaches (({ session := s } : Dialogue).after rs).session) ∧
      ∀ d : Dialogue, s.Reaches d.session → ∀ depth,
        (∀ c f, (d.performWithin depth (.change c)).1 = .notices (.error f) →
          (performWithin depth d (.change c)).2 = d) ∧
        (∀ c, (performWithin depth d (.tryEdit c)).2 = d) ∧
        ∀ name copy f, (performWithin depth d (.clone name copy)).1 = .done (.error f) →
          (performWithin depth d (.clone name copy)).2 = d := by
  have hrooted : s.graph.Rooted := rooted_load hload
  refine ⟨fun rs => after_reaches (d := { session := s }) hrooted rs, ?_⟩
  intro d hd depth
  obtain ⟨perform, -, hperform⟩ := exists_performWith depth
  simp only [hperform]
  refine ⟨?_, performWith_tryEdit d, ?_⟩
  · intro c f herror
    exact performWith_change_of_error (hd.rooted hrooted) herror
  · intro name copy f herror
    exact performWith_clone_of_error (hd.rooted hrooted) herror

/-- A listener that reads what it is told of, and an edit that tells it. -/
def heard : List Request :=
  [.listen "C" [.ask (.value (some "C") "Z" .any)] 5, .ask (.value (some "C") "Z" .any),
    .change ⟨"ic:Z", "7", true⟩]

theorem performWithin_of_error_heard :
    ∃ s d f f', Session.load still { withDefaults := false } "top" = .ok s ∧
      d = ({ session := s } : Dialogue).after heard ∧
      (d.perform (.change ⟨"Z", "7 mm", true⟩)).1 = .notices (.error f) ∧
      (d.perform (.change ⟨"Z", "7 mm", true⟩)).2 = d ∧
      (d.perform (.tryEdit ⟨"Z", "8", true⟩)).2 = d ∧
      (d.perform (.clone "X" "Y")).1 = .done (.error f') ∧
      (d.perform (.clone "X" "Y")).2 = d := by
  have hok : (Session.load still { withDefaults := false } "top").toOption.any fun s =>
      let d := ({ session := s } : Dialogue).after heard
      (match (d.perform (.change ⟨"Z", "7 mm", true⟩)).1 with
        | .notices (.error _) => true
        | _ => false) &&
      (match (d.perform (.clone "X" "Y")).1 with
        | .done (.error _) => true
        | _ => false) := by
    decide +kernel
  obtain ⟨s, hs, hfails⟩ := (Option.any_eq_true _ _).mp hok
  have hload := toOption_eq_some.mp hs
  obtain ⟨hreaches, hsame⟩ := performWithin_of_error hload
  obtain ⟨hchange, hclone⟩ := (Bool.and_eq_true _ _).mp hfails
  have hd := hreaches heard
  split at hchange
  · next f hf =>
    split at hclone
    · next f' hf' =>
      refine ⟨s, _, f, f', hload, rfl, hf, ?_, ?_, hf', ?_⟩
      · exact (hsame _ hd _).1 _ f hf
      · exact (hsame _ hd _).2.1 _
      · exact (hsame _ hd _).2.2 _ _ f' hf'
    · cases hclone
  · cases hchange

end Dialogue

/-! ## Moves of the clock that fail -/

namespace Session

variable {s s' : Session} {b f : TimeFeature} {fs : List TimeFeature} {t : Float}
  {e : Failure}

/-- Looking at features changes what was last seen of no other. -/
theorem lastSeen?_observe (hb : b.key ∉ fs.map TimeFeature.key) :
    (s.observe fs).2.lastSeen? b = s.lastSeen? b := by
  induction fs generalizing s with
  | nil => rfl
  | cons f fs ih =>
    obtain ⟨hne, hrest⟩ := not_or.mp (mt List.mem_cons.mpr hb)
    rw [observe]
    split
    next result trace _ =>
    cases result with
    | error e => rfl
    | ok v =>
      simp only
      split
      · refine (ih (s := (s.markUsed trace).see f v) hrest).trans ?_
        rw [lastSeen?, see, rowOf?_put, if_neg fun heq => hne heq.symm]
        rfl
      · exact ih (s := s.markUsed trace) hrest

/-- When features are looked at in turn and one fails, those before it have values and
keep them if they are news, and the others keep what they had. -/
theorem observe_eq_error (hfs : (fs.map TimeFeature.key).Nodup)
    (h : s.observe fs = (.error e, s')) :
    ∃ before f after, fs = before ++ f :: after ∧
      (∀ b ∈ before, ∃ v, s.graph.HasValue s.limits b v ∧
        s'.lastSeen? b = if s.isNews b v then some v else s.lastSeen? b) ∧
      ((s.graph.featureValue s.limits f).run []).1 = .error e ∧
      ∀ b ∈ f :: after, s'.lastSeen? b = s.lastSeen? b := by
  induction fs generalizing s with
  | nil => cases h
  | cons f fs ih =>
    obtain ⟨hf, hnodup⟩ := List.nodup_cons.mp hfs
    rcases hrun : (s.graph.featureValue s.limits f).run [] with ⟨result, trace⟩
    cases result with
    | error e' =>
      rw [observe, hrun] at h
      cases h
      refine ⟨[], f, fs, rfl, fun b hb => absurd hb List.not_mem_nil, ?_, fun b _ => rfl⟩
      exact congrArg Prod.fst hrun
    | ok v =>
      rw [observe_cons hrun] at h
      obtain ⟨hgraph, hlimits⟩ := (s.markUsed trace).noted_kept f v
      have hleft := lastSeen?_observe (s := (s.markUsed trace).noted f v) hf
      rcases hrest : ((s.markUsed trace).noted f v).observe fs with ⟨result, s''⟩
      simp only [hrest, Prod.mk.injEq] at h hleft
      obtain ⟨hresult, rfl⟩ := h
      cases result with
      | ok names =>
        split at hresult <;> cases hresult
      | error e' =>
        have he : e' = e := by
          split at hresult <;> cases hresult <;> rfl
        subst he
        obtain ⟨before, f', after, hsplit, hbefore, hfails, hafter⟩ := ih hnodup hrest
        rw [hgraph, hlimits] at hfails
        have hother : ∀ b ∈ fs, ((s.markUsed trace).noted f v).lastSeen? b = s.lastSeen? b := by
          intro b hb
          have hne : f.key ≠ b.key := fun heq => hf (heq ▸ List.mem_map_of_mem hb)
          exact lastSeen?_noted_of_ne hne v
        subst hsplit
        refine ⟨f :: before, f', after, rfl, List.forall_mem_cons.mpr ⟨?_, ?_⟩, hfails, ?_⟩
        · exact ⟨v, congrArg Prod.fst hrun, hleft.trans (lastSeen?_noted _ f v)⟩
        · intro b hb
          obtain ⟨w, hw, hseen⟩ := hbefore b hb
          rw [hgraph, hlimits] at hw
          rw [isNews, hother b (List.mem_append_left _ hb)] at hseen
          exact ⟨w, hw, hseen⟩
        · intro b hb
          rw [hafter b hb, hother b (List.mem_append_right _ hb)]

theorem updateTime_eq_error :
    s.updateTime t = (.error e, s') ↔ s.moveClock t = (.error e, s') := by
  rw [updateTime]
  rcases s.moveClock t with ⟨result, s''⟩
  cases result with
  | error e' => simp only [Except.map, Prod.mk.injEq, Except.error.injEq]
  | ok names => simp only [Except.map, Prod.mk.injEq, reduceCtorEq, false_and]

/-- A move of the clock that fails leaves the clock at the new time.  It fails for the
first feature, in the order of their bases, that has no value then; the features before it
keep the values they have then, those after it what was last seen of them, and nobody is
told.  The next move that succeeds tells those who depend on a feature whose value differs
from what is kept now, so that a value that was kept by the failed move and is still the
same is told to nobody. -/
theorem updateTime_of_error {source : Source} {options : LoadOptions} {top : String}
    (hload : Session.load source options top = .ok s) (steps : List Step) {s₁ : Session}
    (hrun : s.run steps = s₁) (hmove : s₁.updateTime t = (.error e, s')) :
    (s'.graph = { s₁.graph with clock := t } ∧ s'.dependencies = s₁.dependencies ∧
        s'.limits = s₁.limits ∧ s'.edits = s₁.edits) ∧
      (∃ before f after, s₁.graph.sortedFeatures = before ++ f :: after ∧
        (∀ b ∈ before, ∃ v, s'.graph.HasValue s'.limits b v ∧
          s'.lastSeen? b = if s₁.isNews b v then some v else s₁.lastSeen? b) ∧
        ((s'.graph.featureValue s'.limits f).run []).1 = .error e ∧
        ∀ b ∈ f :: after, s'.lastSeen? b = s₁.lastSeen? b) ∧
      (∀ d : Dialogue, d.session = s₁ →
        d.perform (.moveClock t) = (.notices (.error e), { d with session := s' })) ∧
      ∀ u ns s₂, s'.updateTime u = (.ok ns, s₂) → ∀ consumer n,
        Told ns consumer n ↔ ∃ f ∈ s₁.graph.features,
          s₁.Depends f.key.ofValue consumer (Key.ofText n) ∧
            ∃ v, s₂.graph.HasValue s₂.limits f v ∧ s'.isNews f v := by
  have hrooted : s₁.graph.Rooted := hrun ▸ rooted_run (rooted_load hload) steps
  have hclock := updateTime_eq_error.mp hmove
  have hgraph := graph_moveClock s₁ t
  obtain ⟨hdependencies, hlimits, hedits⟩ := moveClock_kept s₁ t
  rw [hclock] at hgraph hdependencies hlimits hedits
  refine ⟨⟨hgraph, hdependencies, hlimits, hedits⟩, ?_, ?_, ?_⟩
  · rw [hgraph, hlimits]
    obtain ⟨before, f, after, hsplit, hbefore, hfails, hafter⟩ :=
      observe_eq_error (nodup_sortedFeatures hrooted.nodup_features) hclock
    refine ⟨before, f, after, hsplit, ?_, hfails, hafter⟩
    exact hbefore
  · rintro d rfl
    obtain ⟨perform, -, hperform⟩ := Dialogue.exists_performWith (d.budget (.moveClock t))
    rw [Dialogue.perform, hperform, Dialogue.performWith, Dialogue.inSession, hclock]
  · intro u ns s₂ hnext consumer n
    have hfeatures : s'.graph.features = s₁.graph.features := by rw [hgraph]
    have hnodup := hrooted.nodup_features
    rw [← hfeatures] at hnodup
    have hsame : s'.dependencies = s₁.dependencies := hdependencies
    simp only [told_updateTime hnodup hnext, hfeatures, Depends, hsame]

/-! ### Two features, the second of which has no value -/

/-- A ramp and, after it, a slope without inputs. -/
def slopeEdits : List Step :=
  rampEdits ++ [.change ⟨"s:Tf/Slope/Function", "\"Linear mm\"", true⟩]

/-- The move fails for the slope, and yet the ramp keeps its value: nothing had been seen
of it before. -/
theorem updateTime_of_error_slope :
    ∃ s e s', Session.load still { withDefaults := false } "top" = .ok s ∧
      (s.run slopeEdits).updateTime 2 = (.error e, s') ∧ s'.graph.clock = 2 ∧
      ∃ b f, (s.run slopeEdits).graph.sortedFeatures = [b, f] ∧
        (s.run slopeEdits).lastSeen? b = none ∧ (s'.lastSeen? b).isSome ∧
        s'.lastSeen? f = (s.run slopeEdits).lastSeen? f := by
  have hok : (Session.load still { withDefaults := false } "top").toOption.any fun s =>
      let s₀ := s.run slopeEdits
      let clocked : Session := { s₀ with graph := { s₀.graph with clock := 2 } }
      match s₀.graph.features with
      | [b, f] => b.key.le f.key && (s₀.lastSeen? b).isNone &&
          match clocked.observe [b, f] with
          | (.error _, s₁) => (s₁.lastSeen? b).isSome
          | (.ok _, _) => false
      | [] | [_] | _ :: _ :: _ :: _ => false := by
    decide +kernel
  obtain ⟨s, hs, hrun⟩ := (Option.any_eq_true _ _).mp hok
  have hload := toOption_eq_some.mp hs
  simp only at hrun
  split at hrun
  · next b f hfeatures =>
    simp only [Bool.and_eq_true, Option.isNone_iff_eq_none] at hrun
    obtain ⟨⟨hle, hnone⟩, hfails⟩ := hrun
    have hsorted := sortedFeatures_of_pair hfeatures hle
    split at hfails
    · next e s' hobserve =>
      have hmove : (s.run slopeEdits).updateTime 2 = (.error e, s') := by
        rw [updateTime_eq_error, moveClock, hsorted]
        exact hobserve
      obtain ⟨⟨hgraph, -⟩, ⟨before, f', after, hsplit, -, -, hafter⟩, -⟩ :=
        updateTime_of_error hload slopeEdits rfl hmove
      have hlast : f ∈ f' :: after := by
        have hgetLast := congrArg List.getLast? (hsplit.symm.trans hsorted)
        rw [List.getLast?_append_of_ne_nil _ (List.cons_ne_nil f' after)] at hgetLast
        exact List.mem_of_getLast? hgetLast
      exact ⟨s, e, s', hload, hmove, by rw [hgraph], b, f, hsorted, hnone, hfails,
        hafter f hlast⟩
    · cases hfails
  all_goals cases hrun

end Session

end ParameterChain
