/-
# Who is told of a move of the clock

A move of the clock tells those who depend on the value of a time feature that differs
from the value last seen of it.  What was last seen is not always what was last read:
an edit may change the value of a feature without making the session forget it, and
when the clock then brings back the value last seen, nobody is told.

Main statement: `updateTime_run`, which says exactly who is told, and that a reading
that changes is told of unless a feature it came by is back at the value last seen.
-/
import ParameterChain.Proofs.Features
import ParameterChain.Proofs.Notices

namespace ParameterChain

/-- At the time of the clock the feature has the value `v`. -/
def Graph.HasValue (g : Graph) (limits : Limits) (f : TimeFeature) (v : Value) : Prop :=
  ((g.featureValue limits f).run []).1 = .ok v

open Traced

/-! ## Readings at another time -/

namespace Graph

variable {g g' : Graph} {limits : Limits} {f : TimeFeature} {eval : Parameter → Traced Value}
  {course : Course} {s : Trace} {t : Float} {v : Value}

theorem fst_run_evalFeature (hcourse : ((g.evalCourse eval f).run s).1 = .ok course)
    (hv : course t = .ok v) : ((g.evalFeature eval f t).run s).1 = .ok v := by
  rw [evalFeature_eq]
  rcases hrun : (g.evalCourse eval f).run s with ⟨result, m⟩
  rw [hrun] at hcourse
  cases hcourse
  rw [run_bind_ok hrun, hv]
  rfl

/-- More depth does not change a course. -/
theorem evalCourse_mono (hhome : g.AtHome) {limit m n : Nat} (hmn : m ≤ n)
    (f : TimeFeature) :
    Repeats (fun _ => True) (g.evalCourse (g.evaluate limit m) f)
      (g.evalCourse (g.evaluate limit n) f) :=
  evalCourse_repeats (Shows.refl hhome) (marks_true _) (evaluate_mono hhome m n hmn) f

/-- A course that is found at some depth gives the feature its value. -/
theorem hasValue_of_evalCourse (hhome : g.AtHome) {m : Nat} (hm : m ≤ limits.evaluationDepth)
    {s' : Trace}
    (hcourse : (g.evalCourse (g.evaluate limits.evaluationDepth m) f).run s = (.ok course, s'))
    (hv : course g.clock = .ok v) : g.HasValue limits f v := by
  refine fst_run_evalFeature ?_ hv
  exact (evalCourse_mono hhome hm f).same s course s' hcourse (fun _ _ => trivial) []

/-- If the slot holds the value of a time feature, both graphs give the feature the
same value, as far as they give it one. -/
def Steady (g : Graph) (limits : Limits) (g' : Graph) (σ : Slot) : Prop :=
  ∀ p base f v w, g.declared? σ.file σ.key = some p → p.plan = .feature base →
    g.feature? base = some f → g.HasValue limits f v → g'.HasValue limits f w → v = w

/-- A feature that has the same value in both graphs is evaluated to it in both, at
whatever depth and whatever their clocks. -/
theorem evalFeature_repeats_of_steady {good : Slot → Prop} (hshows : g.Shows good g')
    (hhome' : g'.AtHome) {m : Nat} (hm : m ≤ limits.evaluationDepth)
    (heval : ∀ q, g.Stored q → Repeats good (g.evaluate limits.evaluationDepth m q)
      (g'.evaluate limits.evaluationDepth m q))
    (hsteady : ∀ v w, g.HasValue limits f v → g'.HasValue limits f w → v = w) :
    Repeats good (g.evalFeature (g.evaluate limits.evaluationDepth m) f g.clock)
      (g'.evalFeature (g'.evaluate limits.evaluationDepth m) f g'.clock) := by
  have hcourses := evalCourse_repeats hshows (marks_evaluate hshows.home m) heval f
  constructor
  · rw [evalFeature_eq]
    exact (hcourses.bind fun course => Repeats.ofCause (course g.clock)).grows
  · intro s v s' hrun hall u
    rw [evalFeature_eq] at hrun
    obtain ⟨course, m', hcourse, hvalue⟩ := run_bind_eq_ok.mp hrun
    obtain ⟨hv, rfl⟩ := run_ofCause_eq_ok.mp hvalue
    obtain ⟨w, hw⟩ := total_of_evalCourse g _ hcourse hv g'.clock
    -- The course is the same in both graphs and with all the depth there is.
    have hcourse' := hcourses.same s course m' hcourse hall u
    have hbefore : g.HasValue limits f v :=
      hasValue_of_evalCourse hshows.home hm hcourse hv
    have hafter : g'.HasValue limits f w := by
      rcases hrun' : (g'.evalCourse (g'.evaluate limits.evaluationDepth m) f).run u with
        ⟨result, u'⟩
      rw [hrun'] at hcourse'
      cases hcourse'
      exact hasValue_of_evalCourse hhome' hm hrun' hw
    rw [hsteady v w hbefore hafter]
    exact fst_run_evalFeature hcourse' hw

/-- A reading that came by steady slots only gives the same in both graphs. -/
theorem read_of_steady (hshows : g.Shows (g.Steady limits g') g') (hhome' : g'.AtHome)
    {n : String} {e : Expectation} {trace : Trace}
    (hrun : (g.read limits n e).run [] = (.ok v, trace))
    (hsteady : ∀ σ ∈ trace, g.Steady limits g' σ) :
    ((g'.read limits n e).run []).1 = .ok v := by
  have hvalue : ∀ p, g.Stored p → Repeats (g.Steady limits g') (g.valueOf limits p)
      (g'.valueOf limits p) := by
    refine evaluate_repeats hshows limits.evaluationDepth ?_
    intro m hm heval p base f hp hgood hplan hf
    refine evalFeature_repeats_of_steady hshows hhome' (Nat.le_of_lt hm) heval ?_
    intro v w
    exact hgood p base f v w hp hplan hf
  exact (read_repeats hshows hvalue n e).same [] v trace hrun hsteady []

theorem find?_tick (g : Graph) (t : Float) (h : FileId) (k : Key) :
    ({ g with clock := t } : Graph).find? h k = g.find? h k := by
  have hchain : ({ g with clock := t } : Graph).chain h = g.chain h := by
    refine chain_congr ?_ ?_ h
    · rfl
    · exact fun x => rfl
  rw [find?, find?, hchain]
  rfl

theorem above?_tick (g : Graph) (t : Float) (h : FileId) (k : Key) :
    ({ g with clock := t } : Graph).above? h k = g.above? h k := by
  show (g.parentOf? h).bind _ = (g.parentOf? h).bind _
  simp only [find?_tick]

theorem shows_tick (hhome : g.AtHome) (good : Slot → Prop) (t : Float) :
    g.Shows good { g with clock := t } where
  home := hhome
  visible := by
    intro k p hp _
    rw [visible?, find?_tick]
    exact hp
  known := by
    intro k
    rw [visible?, find?_tick]
    rfl
  above := above?_tick g t
  feature := fun base => rfl

end Graph

/-! ## Looking at the features -/

namespace Session

variable {s s' : Session} {f : TimeFeature} {fs : List TimeFeature} {v : Value}
  {names : List String} {name consumer n : String} {t : Float} {ns : List Notice}

/-- The session once a value of `f` has been looked at. -/
def noted (s : Session) (f : TimeFeature) (v : Value) : Session :=
  if s.isNews f v then s.see f v else s

theorem noted_kept (s : Session) (f : TimeFeature) (v : Value) :
    (s.noted f v).graph = s.graph ∧ (s.noted f v).limits = s.limits := by
  rw [noted]
  split <;> exact ⟨rfl, rfl⟩

theorem lastSeen?_noted (s : Session) (f : TimeFeature) (v : Value) :
    (s.noted f v).lastSeen? f = if s.isNews f v then some v else s.lastSeen? f := by
  rw [noted]
  split
  · rw [lastSeen?, see, rowOf?_put, if_pos rfl]
    rfl
  · rfl

/-- What is seen of one feature is nothing to another. -/
theorem lastSeen?_noted_of_ne {f' : TimeFeature} (hne : f.key ≠ f'.key) (v : Value) :
    (s.noted f v).lastSeen? f' = s.lastSeen? f' := by
  rw [noted]
  split
  · rw [lastSeen?, see, rowOf?_put, if_neg hne, lastSeen?]
  · rfl

theorem observe_cons {trace : Trace}
    (hrun : (s.graph.featureValue s.limits f).run [] = (.ok v, trace)) :
    s.observe (f :: fs) =
      let rest := ((s.markUsed trace).noted f v).observe fs
      (if s.isNews f v then rest.1.map (f.valueName :: ·) else rest.1, rest.2) := by
  have hsame : (s.markUsed trace).isNews f v = s.isNews f v := rfl
  rw [observe, hrun, noted]
  simp only [hsame]
  by_cases hnews : s.isNews f v = true
  · simp only [if_pos hnews]
  · simp only [if_neg hnews]

/-- When all features have values, the names told are those of the news, in order. -/
theorem observe_eq_ok (hfs : (fs.map TimeFeature.key).Nodup)
    (h : s.observe fs = (.ok names, s')) :
    (∀ f ∈ fs, ∃ v, s.graph.HasValue s.limits f v) ∧
      ∃ changed : List TimeFeature, changed.Sublist fs ∧ changed.map TimeFeature.valueName = names ∧
        ∀ f ∈ fs, f ∈ changed ↔ ∃ v, s.graph.HasValue s.limits f v ∧ s.isNews f v := by
  induction fs generalizing s names with
  | nil =>
    cases h
    exact ⟨fun f hf => absurd hf List.not_mem_nil, [], .slnil, rfl,
      fun f hf => absurd hf List.not_mem_nil⟩
  | cons f fs ih =>
    obtain ⟨hf, hfs⟩ := List.nodup_cons.mp hfs
    rcases hrun : (s.graph.featureValue s.limits f).run [] with ⟨result, trace⟩
    cases result with
    | error e =>
      rw [observe, hrun] at h
      cases h
    | ok v =>
      have hv : s.graph.HasValue s.limits f v := congrArg Prod.fst hrun
      rw [observe_cons hrun] at h
      obtain ⟨hgraph, hlimits⟩ := (s.markUsed trace).noted_kept f v
      rcases hrest : ((s.markUsed trace).noted f v).observe fs with ⟨result, s''⟩
      simp only [hrest, Prod.mk.injEq] at h
      obtain ⟨hnames, rfl⟩ := h
      cases result with
      | error e =>
        split at hnames <;> cases hnames
      | ok rest =>
        obtain ⟨hvalues, changed, hsub, hchanged, hmem⟩ := ih hfs hrest
        simp only [hgraph, hlimits] at hvalues hmem
        refine ⟨List.forall_mem_cons.mpr ⟨⟨v, hv⟩, hvalues⟩, ?_⟩
        have hfresh : f ∉ changed := fun hc => hf (List.mem_map_of_mem (hsub.subset hc))
        have hhead : (∃ w, s.graph.HasValue s.limits f w ∧ s.isNews f w) ↔ s.isNews f v := by
          constructor
          · rintro ⟨w, hw, hnews⟩
            cases hw.symm.trans hv
            exact hnews
          · exact fun hnews => ⟨v, hv, hnews⟩
        have htail : ∀ f' ∈ fs, f' ∈ changed ↔
            ∃ w, s.graph.HasValue s.limits f' w ∧ s.isNews f' w := by
          intro f' hf'
          have hne : f.key ≠ f'.key := fun heq => hf (heq ▸ List.mem_map_of_mem hf')
          have hsame : ∀ w, ((s.markUsed trace).noted f v).isNews f' w = s.isNews f' w := by
            intro w
            rw [isNews, lastSeen?_noted_of_ne hne]
            rfl
          simp only [hmem f' hf', hsame]
          exact Iff.rfl
        by_cases hnews : s.isNews f v = true
        · rw [if_pos hnews] at hnames
          cases hnames
          refine ⟨f :: changed, hsub.cons_cons f, by rw [List.map_cons, hchanged], ?_⟩
          refine List.forall_mem_cons.mpr ⟨?_, ?_⟩
          · exact iff_of_true List.mem_cons_self (hhead.mpr hnews)
          · intro f' hf'
            have hne : f' ≠ f := fun heq => hf (heq ▸ List.mem_map_of_mem hf')
            rw [List.mem_cons, or_iff_right hne, htail f' hf']
        · rw [if_neg hnews] at hnames
          cases hnames
          refine ⟨changed, hsub.cons f, hchanged, ?_⟩
          refine List.forall_mem_cons.mpr ⟨?_, htail⟩
          exact iff_of_false hfresh (hhead.not.mpr hnews)

theorem mem_sortedFeatures (g : Graph) : f ∈ g.sortedFeatures ↔ f ∈ g.features :=
  List.mem_mergeSort

theorem sortedFeatures_of_pair {g : Graph} {f f' : TimeFeature} (hfeatures : g.features = [f, f'])
    (hle : f.key.le f'.key) : g.sortedFeatures = [f, f'] := by
  rw [Graph.sortedFeatures, hfeatures]
  refine List.mergeSort_of_pairwise ?_
  simpa using hle

theorem nodup_sortedFeatures {g : Graph} (hfeatures : (g.features.map TimeFeature.key).Nodup) :
    (g.sortedFeatures.map TimeFeature.key).Nodup := by
  have hperm : g.sortedFeatures.Perm g.features := List.mergeSort_perm _ _
  exact (hperm.map TimeFeature.key).nodup_iff.mpr hfeatures

/-- Moving the clock leaves alone what readers depend on. -/
theorem moveClock_kept (s : Session) (t : Float) :
    (s.moveClock t).2.dependencies = s.dependencies ∧ (s.moveClock t).2.limits = s.limits ∧
      (s.moveClock t).2.edits = s.edits := by
  obtain ⟨used, seen, hmove⟩ :=
    exists_observe { s with graph := { s.graph with clock := t } } s.graph.sortedFeatures
  rw [moveClock, hmove]
  exact ⟨rfl, rfl, rfl⟩

/-- A move of the clock that succeeds gives every feature a value, and the names it tells
are those of the features whose values are news, in the order of their bases. -/
theorem exists_changed (hfeatures : (s.graph.features.map TimeFeature.key).Nodup)
    (hmove : s.moveClock t = (.ok names, s')) :
    (∀ f ∈ s.graph.features, ∃ v, s'.graph.HasValue s'.limits f v) ∧
      ∃ changed : List TimeFeature, changed.Sublist s.graph.sortedFeatures ∧
        changed.map TimeFeature.valueName = names ∧
        ∀ f ∈ s.graph.features,
          f ∈ changed ↔ ∃ v, s'.graph.HasValue s'.limits f v ∧ s.isNews f v := by
  have hgraph := graph_moveClock s t
  have hlimits := (moveClock_kept s t).2.1
  rw [hmove] at hgraph hlimits
  obtain ⟨hvalues, changed, hsub, hnames, hchanged⟩ :=
    observe_eq_ok (nodup_sortedFeatures hfeatures) hmove
  rw [hgraph, hlimits]
  refine ⟨fun f hf => hvalues f ((mem_sortedFeatures _).mpr hf), changed, hsub, hnames, ?_⟩
  exact fun f hf => hchanged f ((mem_sortedFeatures _).mpr hf)

/-- A move of the clock that succeeds gives every feature a value. -/
theorem moveClock_eq_ok (hfeatures : (s.graph.features.map TimeFeature.key).Nodup)
    (hmove : s.moveClock t = (.ok names, s')) :
    (s'.dependencies = s.dependencies ∧ s'.limits = s.limits ∧
      s'.graph = { s.graph with clock := t }) ∧
      (∀ f ∈ s.graph.features, ∃ v, s'.graph.HasValue s'.limits f v) ∧
      ∀ name, name ∈ names ↔ ∃ f ∈ s.graph.features, f.valueName = name ∧
        ∃ v, s'.graph.HasValue s'.limits f v ∧ s.isNews f v := by
  have hgraph := graph_moveClock s t
  obtain ⟨hdependencies, hlimits, -⟩ := moveClock_kept s t
  obtain ⟨hvalues, changed, hsub, rfl, hchanged⟩ := exists_changed hfeatures hmove
  rw [hmove] at hgraph hdependencies hlimits
  refine ⟨⟨hdependencies, hlimits, hgraph⟩, hvalues, ?_⟩
  intro name
  rw [List.mem_map]
  constructor
  · rintro ⟨f, hf, rfl⟩
    have hmem := (mem_sortedFeatures _).mp (hsub.subset hf)
    exact ⟨f, hmem, rfl, (hchanged f hmem).mp hf⟩
  · rintro ⟨f, hf, rfl, hnews⟩
    exact ⟨f, (hchanged f hf).mpr hnews, rfl⟩

theorem updateTime_eq_ok :
    s.updateTime t = (.ok ns, s') ↔
      ∃ names, s.moveClock t = (.ok names, s') ∧ names.flatMap s'.notices = ns := by
  rw [updateTime]
  rcases s.moveClock t with ⟨result, s''⟩
  cases result with
  | error e =>
    constructor
    · intro h
      cases h
    · rintro ⟨names, h, -⟩
      cases h
  | ok names =>
    constructor
    · intro h
      cases h
      exact ⟨names, rfl, rfl⟩
    · rintro ⟨names', h, rfl⟩
      cases h
      rfl

theorem told_flatMap {tell : String → List Notice} :
    Told (names.flatMap tell) consumer n ↔ ∃ name ∈ names, Told (tell name) consumer n := by
  constructor
  · rintro ⟨m, hm, htold⟩
    obtain ⟨name, hname, hm⟩ := List.mem_flatMap.mp hm
    exact ⟨name, hname, m, hm, htold⟩
  · rintro ⟨name, hname, m, hm, htold⟩
    exact ⟨m, List.mem_flatMap.mpr ⟨name, hname, hm⟩, htold⟩

/-- Told are those who depend on a value that is news. -/
theorem told_updateTime (hfeatures : (s.graph.features.map TimeFeature.key).Nodup)
    (hmove : s.updateTime t = (.ok ns, s')) (consumer n : String) :
    Told ns consumer n ↔ ∃ f ∈ s.graph.features,
      s.Depends f.key.ofValue consumer (Key.ofText n) ∧
        ∃ v, s'.graph.HasValue s'.limits f v ∧ s.isNews f v := by
  obtain ⟨names, hclock, rfl⟩ := updateTime_eq_ok.mp hmove
  obtain ⟨⟨hdependencies, -, -⟩, -, hnames⟩ := moveClock_eq_ok hfeatures hclock
  rw [told_flatMap]
  constructor
  · rintro ⟨name, hname, htold⟩
    obtain ⟨f, hf, rfl, hnews⟩ := (hnames name).mp hname
    refine ⟨f, hf, ?_, hnews⟩
    rw [notices_congr hdependencies, told_notices, f.key_valueName] at htold
    exact htold
  · rintro ⟨f, hf, hdepends, hnews⟩
    refine ⟨f.valueName, (hnames _).mpr ⟨f, hf, rfl, hnews⟩, ?_⟩
    rw [notices_congr hdependencies, told_notices, f.key_valueName]
    exact hdepends

/-- A reader is told of a move of the clock exactly if it depends on the value of a time
feature that is news.  So a reading that the move changes is told of, unless it came by a
feature whose value changed back to the one last seen. -/
theorem updateTime_run {source : Source} {options : LoadOptions} {top : String}
    (hload : Session.load source options top = .ok s) (steps : List Step) {e : Expectation}
    {s₁ s₂ : Session} (hread : (s.run steps).read (some consumer) n e = (.ok v, s₁))
    (hmove : s₁.updateTime t = (.ok ns, s₂)) :
    (Told ns consumer n ↔ ∃ f ∈ s₁.graph.features,
        s₁.Depends f.key.ofValue consumer (Key.ofText n) ∧
          ∃ w, s₂.graph.HasValue s₂.limits f w ∧ s₁.isNews f w) ∧
      ((s₂.read (some consumer) n e).1 = .ok v ∨ Told ns consumer n ∨
        ∃ f ∈ s₁.graph.features, s₁.Depends f.key.ofValue consumer (Key.ofText n) ∧
          ∃ w w' seen, s₁.graph.HasValue s₁.limits f w ∧
            s₂.graph.HasValue s₂.limits f w' ∧ w ≠ w' ∧
            s₁.lastSeen? f = some seen ∧ w'.same seen) := by
  have hrooted : (s.run steps).graph.Rooted := rooted_run (rooted_load hload) steps
  rcases hrun : ((s.run steps).graph.read (s.run steps).limits n e).run [] with
    ⟨result, trace⟩
  have hresult := fst_read (s.run steps) (some consumer) n e
  rw [hread, hrun] at hresult
  obtain rfl : .ok v = result := hresult
  have hnext : (s.run steps).next (.read (some consumer) n e) = s₁ :=
    congrArg Prod.snd hread
  have hgraph : s₁.graph = (s.run steps).graph := hnext ▸ graph_read _ _ _ _
  have hlimits : s₁.limits = (s.run steps).limits := hnext ▸ limits_read _ _ _ _
  have hrooted₁ : s₁.graph.Rooted := hgraph ▸ hrooted
  have htold := told_updateTime hrooted₁.nodup_features hmove consumer n
  refine ⟨htold, ?_⟩
  obtain ⟨names, hclock, -⟩ := updateTime_eq_ok.mp hmove
  obtain ⟨⟨-, hlimits₂, hgraph₂⟩, -, -⟩ := moveClock_eq_ok hrooted₁.nodup_features hclock
  by_cases hsteady : ∀ σ ∈ trace, s₁.graph.Steady s₁.limits s₂.graph σ
  · refine Or.inl ?_
    have hhome := hrooted₁.whole.home
    have hshows : s₁.graph.Shows (s₁.graph.Steady s₁.limits s₂.graph) s₂.graph := by
      rw [hgraph₂]
      exact Graph.shows_tick hhome _ t
    have hhome₂ : s₂.graph.AtHome := by
      rw [hgraph₂]
      exact hhome
    rw [← hgraph, ← hlimits] at hrun
    rw [fst_read, hlimits₂]
    exact Graph.read_of_steady hshows hhome₂ hrun hsteady
  · refine Or.inr (or_iff_not_imp_left.mpr fun hsilent => ?_)
    simp only [Graph.Steady, not_forall] at hsteady
    obtain ⟨σ, hσ, p, base, f, w, w', hp, hplan, hf, hw, hw', hne⟩ := hsteady
    obtain ⟨hchangeable, hkey⟩ := hrooted₁.holdsValue hp base hplan
    have hbase : f.key = base := key_of_rowOf? hf
    have hdepends : s₁.Depends f.key.ofValue consumer (Key.ofText n) := by
      rw [hgraph] at hp
      rw [← hnext, depends_next, hbase]
      refine Or.inr ⟨n, rfl, e, v, trace, p, rfl, hrun, ?_, hkey⟩
      exact mem_touched.mpr ⟨⟨σ, hσ, hp⟩, hchangeable⟩
    rw [← hlimits₂] at hw'
    have hold : ¬ s₁.isNews f w' := fun hnews =>
      hsilent (htold.mpr ⟨f, mem_of_rowOf? hf, hdepends, w', hw', hnews⟩)
    have hsame : (s₁.lastSeen? f).any w'.same = true := by
      rw [isNews] at hold
      simpa using hold
    obtain ⟨seen, hseen, hsame⟩ := (Option.any_eq_true _ _).mp hsame
    exact ⟨f, mem_of_rowOf? hf, hdepends, w, w', seen, hw, hw', hne, hseen, hsame⟩

/-! ## A length that grows with time -/

/-- A file without time features. -/
def still : Source := fun spec =>
  if spec = "top" then .ok "i:Z = 1".toUTF8
  else .error (.cannotOpen spec "no such file")

/-- Edits that add a time feature. -/
def rampEdits : List Step :=
  [.change ⟨"s:Tf/Ramp/Function", "\"Linear mm\"", true⟩,
    .change ⟨"d:Tf/Ramp/StartValue", "0 mm", true⟩,
    .change ⟨"d:Tf/Ramp/Rate", "1 mm/ns", true⟩]

theorem updateTime_run_ramp :
    ∃ s s₁ s₂ v ns, Session.load still { withDefaults := false } "top" = .ok s ∧
      (s.run rampEdits).read (some "C") "Tf/Ramp/Value" .any = (.ok v, s₁) ∧
      s₁.updateTime 5 = (.ok ns, s₂) ∧ Told ns "C" "Tf/Ramp/Value" ∧
      ∃ f ∈ s₁.graph.features,
        s₁.Depends f.key.ofValue "C" (Key.ofText "Tf/Ramp/Value") ∧
          ∃ w, s₂.graph.HasValue s₂.limits f w ∧ s₁.isNews f w := by
  have hok : (Session.load still { withDefaults := false } "top").toOption.any fun s =>
      let reading := (s.run rampEdits).read (some "C") "Tf/Ramp/Value" .any
      reading.1.toOption.any fun _ =>
        (reading.2.updateTime 5).1.toOption.any fun ns => ns.any fun m =>
          m.consumer == "C" && m.direct.key == Key.ofText "Tf/Ramp/Value" := by
    decide +kernel
  obtain ⟨s, hs, hreads⟩ := (Option.any_eq_true _ _).mp hok
  have hload := toOption_eq_some.mp hs
  rcases hread : (s.run rampEdits).read (some "C") "Tf/Ramp/Value" .any with ⟨result, s₁⟩
  simp only [hread] at hreads
  obtain ⟨v, hv, hmoves⟩ := (Option.any_eq_true _ _).mp hreads
  obtain rfl : result = .ok v := toOption_eq_some.mp hv
  rcases hmove : s₁.updateTime 5 with ⟨answer, s₂⟩
  rw [hmove] at hmoves
  obtain ⟨ns, hns, htells⟩ := (Option.any_eq_true _ _).mp hmoves
  obtain rfl : answer = .ok ns := toOption_eq_some.mp hns
  have htold : Told ns "C" "Tf/Ramp/Value" := by
    simpa only [Told, List.any_eq_true, Bool.and_eq_true, beq_iff_eq] using htells
  have hrun := updateTime_run hload rampEdits hread hmove
  exact ⟨s, s₁, s₂, v, ns, hload, hread, hmove, htold, hrun.1.mp htold⟩

end Session

end ParameterChain
