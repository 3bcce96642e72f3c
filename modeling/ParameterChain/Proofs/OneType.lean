/-
# One name, one type

The type of a declaration is the kind and the marker that stand before its name.  One that is
written without them takes over those of what it overrides, and one that is written with them
is refused if they differ from what any include shows.  Includes that show different
declarations of a name oblige the file to declare it, so that the arms of a file agree through
the file itself, although none of them has been compared with another.

The declarations that time features bring with them are compared with nothing.  So a key has
one type in all files of a session, hidden or not, unless it is the value of a time feature
(`Session.type_run`).
-/
import ParameterChain.Proofs.Categories

namespace ParameterChain

/-- The kind of a parameter and whether it is marked as changeable. -/
def Parameter.type (p : Parameter) : Kind × Bool :=
  (p.kind, p.changeable)

namespace Graph

variable {g : Graph} {f h i : FileId} {k : Key} {ds : Declarations} {limits : Limits}
  {done : Commit} {p q : Parameter}

/-! ## Tables of parameters -/

/-- No file stores two parameters under one key. -/
def Tabled (g : Graph) : Prop :=
  ∀ f, ((g.parametersOf f).map Parameter.key).Nodup

/-- Where no key is stored twice a parameter is found under its key. -/
theorem Tabled.declared? (hg : g.Tabled) (hp : p ∈ g.parametersOf f) :
    g.declared? f p.key = some p :=
  rowOf?_key (hg f) hp

theorem parametersOf_store (g : Graph) (p : Parameter) (h : FileId) :
    (g.store p).parametersOf h = g.parametersOf h ∨
      (g.store p).parametersOf h = put Parameter.key p (g.parametersOf h) := by
  simp only [parametersOf, store, Array.getElem?_modify]
  by_cases heq : p.file = h
  · rw [if_pos heq]
    cases g.files[h]? with
    | none => exact Or.inl rfl
    | some file => exact Or.inr rfl
  · rw [if_neg heq]
    exact Or.inl rfl

theorem Tabled.store (hg : g.Tabled) (p : Parameter) : (g.store p).Tabled := by
  intro h
  rcases parametersOf_store g p h with heq | heq
  · rw [heq]
    exact hg h
  · rw [heq]
    exact nodup_keys_put Parameter.key p (hg h)

theorem Tabled.storeAll (hg : g.Tabled) (ps : List Parameter) (fs : List TimeFeature) :
    (g.storeAll ps fs).Tabled := by
  have hstored : (ps.foldl Graph.store g).Tabled := by
    induction ps generalizing g with
    | nil => exact hg
    | cons p ps ih => exact ih (hg.store p)
  intro h
  rw [parametersOf, files_storeAll]
  exact hstored h

theorem Tabled.commit (hg : g.Tabled) (hc : g.commit limits f ds = .ok done) :
    done.graph.Tabled := by
  obtain ⟨o, drafts, -, -, rfl⟩ := commit_eq_ok.mp hc
  refine Tabled.storeAll ?_ drafts o.features
  intro h
  rw [linearize, parametersOf_link]
  exact hg h

theorem Tabled.addFile (hg : g.Tabled) (name : String) (includes : List FileId) :
    (g.addFile name includes).Tabled := by
  intro h
  rw [parametersOf_addFile]
  exact hg h

theorem Tabled.setIncludes (hg : g.Tabled) (f : FileId) (includes : List FileId) :
    (g.setIncludes f includes).Tabled := by
  intro h
  rw [parametersOf_setIncludes]
  exact hg h

theorem Built.tabled (hb : g.Built) : g.Tabled := by
  induction hb with
  | empty =>
    intro f
    cases f <;> exact List.nodup_nil
  | file _ _ _ hc ih => exact (ih.addFile _ _).commit hc

theorem Rooted.tabled (hr : g.Rooted) : g.Tabled := by
  induction hr with
  | root hb _ _ hc => exact (hb.tabled.setIncludes _ _).commit hc
  | edit _ _ hc ih => exact ih.commit hc
  | tick _ _ ih => exact ih

/-! ## New declarations -/

/-- What is committed has the type of every parameter that it is compared with. -/
theorem type_of_mem_parameters (huntimed : done.graph.Untimed p.key) (hds : ds.Distinct)
    (hc : g.commit limits f ds = .ok done) (hp : p ∈ done.parameters)
    (hq : q ∈ g.ancestors f p.key) : p.type = q.type := by
  have huntimed := untimed_iff.mp huntimed
  obtain ⟨o, drafts, ho, hdraft, hdone⟩ := commit_eq_ok.mp hc
  have hdrafts : done.parameters = drafts := by rw [← hdone]
  have hfeatures : done.features = o.features := by rw [← hdone]
  rw [hdrafts] at hp
  obtain ⟨d, hd, hresolved⟩ := mem_of_mapM (draft_eq_ok hdraft) hp
  obtain ⟨kind, resolved, hkind, -, rfl⟩ := draftOf_eq_ok.mp hresolved
  rcases mem_rows_cases hds ho hd with ⟨feature, hmem, -, line, rfl⟩ | ⟨-, d₀, -, hinherits⟩
  · -- The key would be the value of a feature.
    rw [← hfeatures] at hmem
    have hbase := (mem_bases_commit hc).mpr (Or.inl (List.mem_map_of_mem hmem))
    exact absurd feature.key_valueName.symm (huntimed feature.key hbase)
  · have hq : q ∈ g.ancestors f d₀.key := by
      rw [← hinherits.key]
      exact hq
    obtain ⟨hagrees, hmarker⟩ := hinherits.agrees q hq
    exact Prod.ext (Option.some.inj (hkind.symm.trans hagrees)) hmarker

/-! ## Built graphs -/

theorem Built.uniform_type (hb : g.Built) (huntimed : g.Untimed k) :
    ∀ f < g.files.size, g.Uniform Parameter.type f k := by
  induction hb with
  | empty =>
    intro f _ h i p q _ _ hp _
    cases h <;> cases hp
  | @file g limits name includes ds done hb hincludes hds hc ih =>
    have hg := hb.coherent
    have huntimed₀ : (g.addFile name includes).Untimed k := huntimed.of_commit hc
    refine uniform_file hg hincludes (ih huntimed₀) hc ?_
    rintro p hp rfl i hi q hq
    have hne : g.files.size ≠ transientFile := Nat.ne_of_gt hg.ordered.transientFile_lt_size
    exact type_of_mem_parameters huntimed hds hc hp (mem_ancestors hne hi hq)

/-! ## Graphs of sessions -/

/-- What is new in the transient file has the type of all that was declared before. -/
theorem type_of_edit (hr : g.Rooted) (hds : ds.Distinct)
    (hc : g.commit limits transientFile ds = .ok done) (huntimed : done.graph.Untimed p.key)
    (hsame : ∀ h i q r, g.declared? h p.key = some q → g.declared? i p.key = some r →
      q.type = r.type)
    (hp : p ∈ done.parameters) (hq : g.declared? h p.key = some q) : p.type = q.type := by
  have hg := hr.whole
  have hu : g.Uniform Parameter.type transientFile p.key :=
    fun h i q r _ _ hq hr => hsame h i q r hq hr
  obtain ⟨r, hshown, htype⟩ := hu.exists_firstFound? hg.ordered hg.ordered.transientFile_lt_size
    (hg.below_of_declared? hq) hq
  rw [htype]
  exact type_of_mem_parameters huntimed hds hc hp (mem_ancestors_transientFile hshown)

/-- In a session all declarations of a key have the same type, unless the key is the value of
a time feature. -/
theorem Rooted.type_eq (hr : g.Rooted) (huntimed : g.Untimed k)
    (hp : g.declared? h k = some p) (hq : g.declared? i k = some q) : p.type = q.type := by
  induction hr generalizing h i p q with
  | @root g limits top done hb htop hall hc =>
    have huntimed₀ : (g.setIncludes transientFile [top]).Untimed k := huntimed.of_commit hc
    exact hb.uniform_root hall hc (hb.uniform_type huntimed₀ top htop.2) hp hq
  | @edit g limits ds done hr hds hc ih =>
    have hold : ∀ h i q r, g.declared? h k = some q → g.declared? i k = some r →
        q.type = r.type :=
      fun h i q r hq hr => ih (huntimed.of_commit hc) hq hr
    have hkp : p.key = k := key_of_declared? hp
    have hkq : q.key = k := key_of_declared? hq
    rcases declared?_commit_cases hc hp with ⟨hnew, rfl, -⟩ | hp'
    · rcases declared?_commit_cases hc hq with ⟨-, rfl, -⟩ | hq'
      · rw [Option.some.inj (hp.symm.trans hq)]
      · subst hkp
        exact type_of_edit hr hds hc huntimed hold hnew hq'
    · rcases declared?_commit_cases hc hq with ⟨hnew, -, -⟩ | hq'
      · subst hkq
        exact (type_of_edit hr hds hc huntimed hold hnew hp').symm
      · exact hold h i p q hp' hq'
  | tick t hr ih => exact ih huntimed hp hq

end Graph

/-! ## Sessions -/

namespace Session

/-- Whatever has been done to a loaded session, the parameters that any two of its files store
under a key, whether they are seen or hidden, are of the same kind, and both are changeable
or neither is, unless the key is that of the value of a time feature.  Time features are never
removed, so that those of the session are all that any file or edit has brought. -/
theorem type_run {source : Source} {options : LoadOptions} {top : String} {s : Session}
    (hload : Session.load source options top = .ok s) (steps : List Step) {k : Key}
    (huntimed : ∀ feature ∈ (s.run steps).graph.features, Key.ofText feature.valueName ≠ k)
    {f h : FileId} {p q : Parameter} (hp : p ∈ (s.run steps).graph.parametersOf f)
    (hq : q ∈ (s.run steps).graph.parametersOf h) (hpkey : p.key = k) (hqkey : q.key = k) :
    p.kind = q.kind ∧ p.changeable = q.changeable := by
  have hrooted : (s.run steps).graph.Rooted := rooted_run (rooted_load hload) steps
  have huntimed : (s.run steps).graph.Untimed k :=
    fun feature hfeature => feature.key_valueName ▸ huntimed feature hfeature
  have hp := hrooted.tabled.declared? hp
  have hq := hrooted.tabled.declared? hq
  rw [hpkey] at hp
  rw [hqkey] at hq
  exact Prod.mk.inj (hrooted.type_eq huntimed hp hq)

/-- A length that is overridden without its kind being said again, in one of two arms. -/
def untypedArms : Source := fun spec =>
  if spec = "base" then .ok "dc:X = 1 cm".toUTF8
  else if spec = "left" then .ok "includeFile = base\nX = 2 cm".toUTF8
  else if spec = "right" then .ok "includeFile = base".toUTF8
  else if spec = "top" then .ok "includeFile = left right\nX = 5 mm".toUTF8
  else .error (.cannotOpen spec "no such file")

/-- Edits that add a time feature and override the length once more. -/
def untypedEdits : List Step :=
  [.change ⟨"s:Tf/Ramp/Function", "\"Linear mm\"", true⟩, .change ⟨"X", "7 mm", false⟩]

theorem type_run_untypedArms :
    ∃ s p q, Session.load untypedArms { withDefaults := false } "top" = .ok s ∧
      let g := (s.run untypedEdits).graph
      g.features ≠ [] ∧ p ∈ g.parametersOf transientFile ∧ q ∈ g.parametersOf 1 ∧
        p.key = ⟨"x"⟩ ∧ q.key = ⟨"x"⟩ ∧ p.rawValue ≠ q.rawValue ∧
        p.kind = q.kind ∧ p.changeable = q.changeable := by
  have hok : (Session.load untypedArms { withDefaults := false } "top").toOption.any fun s =>
      let g := (s.run untypedEdits).graph
      (!g.features.isEmpty && g.features.all fun feature =>
        decide (Key.ofText feature.valueName ≠ ⟨"x"⟩)) &&
      (g.parametersOf transientFile).any fun p => p.key == ⟨"x"⟩ &&
        (g.parametersOf 1).any fun q => q.key == ⟨"x"⟩ && p.rawValue != q.rawValue := by
    decide +kernel
  obtain ⟨s, hs, hrun⟩ := (Option.any_eq_true _ _).mp hok
  have hload := toOption_eq_some.mp hs
  simp only [Bool.and_eq_true, List.any_eq_true, List.all_eq_true, decide_eq_true_eq, beq_iff_eq,
    bne_iff_ne, Bool.not_eq_true', List.isEmpty_eq_false_iff] at hrun
  obtain ⟨⟨hsome, huntimed⟩, p, hp, hpkey, q, hq, hqkey, hraw⟩ := hrun
  exact ⟨s, p, q, hload, hsome, hp, hq, hpkey, hqkey, hraw,
    type_run hload untypedEdits huntimed hp hq hpkey hqkey⟩

end Session

end ParameterChain
