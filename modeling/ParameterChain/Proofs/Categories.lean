/-
# Units of what is read

The unit of a dimensioned parameter is compared with the units of the parameters that it
reads, and with the unit that its key has above its file.  Both comparisons are made once,
when the parameter is committed, along the chain of its file; the reads that follow go
through the whole chain, and to declarations that are made later.  So the units of a
parameter and of what it reads are of one category as long as the key that is read keeps to
one category, which is the case (`Held`) if

  * no time feature has its value under the key;
  * a file that was loaded declares it, so that every edit is compared with that file;
  * no file includes two files that show it with units of different categories, for an
    override is compared with the nearest declaration only.

Main statements: `Rooted.uniform_measure?` and `Session.category?_run`.
-/
import Mathlib.Data.List.Induction
import ParameterChain.Proofs.Measured
import ParameterChain.Proofs.Typed
import ParameterChain.Proofs.Visible

namespace ParameterChain

/-! ## Measures -/

/-- The category of the unit of a parameter, if its kind has units. -/
def Parameter.measure? (p : Parameter) : Option String :=
  if p.kind.hasUnit then p.category? else none

theorem Parameter.measure?_eq_some {p : Parameter} {c : String} :
    p.measure? = some c ↔ p.kind.hasUnit ∧ p.category? = some c := by
  rw [measure?]
  by_cases h : p.kind.hasUnit <;> simp [h]

namespace Graph

variable {g g' : Graph} {f h : FileId} {k : Key} {ds : Declarations} {limits : Limits}
  {done : Commit} {o : Outline} {p q : Parameter} {name : Name}

/-- The check of two units passes if both have the same category. -/
theorem disagreement?_eq_none :
    disagreement? p q = none ↔
      ∀ c c', p.measure? = some c → q.measure? = some c' → c = c' := by
  simp only [Parameter.measure?_eq_some, disagreement?]
  cases hp : p.kind.hasUnit <;> cases hq : q.kind.hasUnit <;> simp
  cases p.category? <;> cases q.category? <;> simp

theorem disagreement?_of_measure? (hmeasure : p.measure? = q.measure?) :
    disagreement? p q = none := by
  rw [disagreement?_eq_none]
  intro c c' hc hc'
  exact Option.some.inj (hc.symm.trans (hmeasure.trans hc'))

theorem disagreement?_congr {q' : Parameter} (hmeasure : q.measure? = q'.measure?)
    (hq : disagreement? p q = none) : disagreement? p q' = none := by
  rw [disagreement?_eq_none] at hq ⊢
  rw [← hmeasure]
  exact hq

/-- An inherited value is declared under the same key. -/
theorem exists_of_inherited (hq : g.target? p .inherited = some q) :
    ∃ h, g.declared? h p.key = some q ∧ q.key = p.key := by
  obtain ⟨parent, -, hfound⟩ := Option.bind_eq_some_iff.mp hq
  obtain ⟨h, -, hh⟩ := List.exists_of_findSome?_eq_some hfound
  exact ⟨h, hh, key_of_declared? hh⟩

/-- No time feature has its value under `k`. -/
def Untimed (g : Graph) (k : Key) : Prop :=
  ∀ feature ∈ g.features, feature.key.ofValue ≠ k

/-- A file that was loaded declares `k`. -/
def Loaded (g : Graph) (k : Key) : Prop :=
  ∃ h p, h ≠ transientFile ∧ g.declared? h k = some p

/-- A file that was loaded includes two files that show `k` with units of different
categories. -/
def Mixed (g : Graph) (k : Key) : Prop :=
  ∃ f i j p q, f ≠ transientFile ∧ i ∈ g.includesOf f ∧ j ∈ g.includesOf f ∧
    g.firstFound? i k = some p ∧ g.firstFound? j k = some q ∧
    p.kind.hasUnit ∧ q.kind.hasUnit ∧ p.category? ≠ q.category?

/-- The key is kept to one category. -/
structure Held (g : Graph) (k : Key) : Prop where
  untimed : g.Untimed k
  loaded : g.Loaded k
  unmixed : ¬ g.Mixed k

/-- The unit of every dimensioned parameter has a category. -/
def Measured (g : Graph) : Prop :=
  ∀ h k p, g.declared? h k = some p → p.kind.hasUnit → ∃ c, p.category? = some c

theorem Measured.measure? (hmeasured : g.Measured) (hp : g.declared? h k = some p)
    (hunit : p.kind.hasUnit) : ∃ c, p.measure? = some c := by
  obtain ⟨c, hc⟩ := hmeasured h k p hp hunit
  exact ⟨c, Parameter.measure?_eq_some.mpr ⟨hunit, hc⟩⟩

/-! ## What is said of a key before and after a commit -/

/-- The bases of the features after a commit. -/
theorem mem_bases_commit (hc : g.commit limits f ds = .ok done) {base : Key} :
    base ∈ done.graph.features.map TimeFeature.key ↔
      base ∈ done.features.map TimeFeature.key ∨ base ∈ g.features.map TimeFeature.key := by
  rw [features_commit hc]
  generalize g.features = rows
  induction done.features generalizing rows with
  | nil => simp
  | cons feature features ih =>
    rw [List.foldl_cons, ih, mem_keys_put, List.map_cons, List.mem_cons, or_left_comm, or_assoc]

theorem untimed_iff :
    g.Untimed k ↔ ∀ base ∈ g.features.map TimeFeature.key, base.ofValue ≠ k := by
  simp [Untimed]

theorem Untimed.of_commit (huntimed : done.graph.Untimed k)
    (hc : g.commit limits f ds = .ok done) : g.Untimed k := by
  rw [untimed_iff] at huntimed ⊢
  intro base hbase
  exact huntimed base ((mem_bases_commit hc).mpr (Or.inr hbase))

/-- What is committed under an untimed key was resolved. -/
theorem Untimed.exists_resolvedAs (huntimed : done.graph.Untimed p.key) (hds : ds.Distinct)
    (hc : g.commit limits f ds = .ok done) (hp : p ∈ done.parameters) :
    ∃ o r, g.ResolvedAs f o r p := by
  have hbases : ∀ feature ∈ done.features, feature.key.ofValue ≠ p.key := by
    intro feature hfeature
    have hbase := (mem_bases_commit hc).mpr (Or.inl (List.mem_map_of_mem hfeature))
    exact untimed_iff.mp huntimed feature.key hbase
  obtain ⟨o, drafts, ho, hdraft, rfl⟩ := commit_eq_ok.mp hc
  rcases mem_draft_cases hds ho hdraft hp with ⟨feature, hfeature, hvalue⟩ | ⟨r, hr⟩
  · exact absurd hvalue.key.symm (hbases feature hfeature)
  · exact ⟨o, r, hr⟩

/-- A key stays mixed where files still include what they included and nothing has changed
below that. -/
theorem Mixed.of_sameBelow (ho : g.Ordered) (ho' : g'.Ordered)
    (hsame : ∀ f ≠ transientFile, ∀ i ∈ g.includesOf f,
      i ∈ g'.includesOf f ∧ g.SameBelow g' i k)
    (hmixed : g.Mixed k) : g'.Mixed k := by
  obtain ⟨f, i, j, p, q, hf, hi, hj, hp, hq, hunits⟩ := hmixed
  have hfound : ∀ i ∈ g.includesOf f, g'.firstFound? i k = g.firstFound? i k := by
    intro i hi
    obtain ⟨hi', hbelow⟩ := hsame f hf i hi
    exact hbelow.firstFound?_eq ho ho' (ho.lt_size_of_include hi) (ho'.lt_size_of_include hi')
  refine ⟨f, i, j, p, q, hf, (hsame f hf i hi).1, (hsame f hf j hj).1, ?_, ?_, hunits⟩
  · rw [hfound i hi]
    exact hp
  · rw [hfound j hj]
    exact hq

/-! ## New declarations -/

/-- What the includes show, or what an edit replaces, is declared. -/
theorem exists_of_mem_ancestors (hq : q ∈ g.ancestors f k) : ∃ h, g.declared? h k = some q := by
  obtain ⟨root, -, hroot⟩ := List.mem_filterMap.mp hq
  exact exists_of_firstFound? hroot

/-- A new declaration has the measure of the declarations below its file, if they have one in
common, and the includes, or the earlier edits, show something of it. -/
theorem measure?_of_mem_parameters (ho : g.Ordered) (hf : f < g.files.size)
    (hmeasured : g.Measured) (hds : ds.Distinct) (hc : g.commit limits f ds = .ok done)
    (huntimed : done.graph.Untimed p.key) (hp : p ∈ done.parameters) {m : Option String}
    (hshown : ∃ q ∈ g.ancestors f p.key, q.measure? = m)
    (hdeclared : ∃ h, g.Below f h ∧ h ≠ f ∧ (g.declared? h p.key).isSome)
    (hsame : ∀ h q, g.Below f h → h ≠ f → g.declared? h p.key = some q → q.measure? = m) :
    p.measure? = m := by
  obtain ⟨o, r, hr⟩ := huntimed.exists_resolvedAs hds hc hp
  obtain ⟨q, hq, rfl⟩ := hshown
  have hkind : p.kind = q.kind := hr.agrees q hq
  cases hunit : p.kind.hasUnit with
  | false =>
    rw [Parameter.measure?, Parameter.measure?, ← hkind, hunit]
    rfl
  | true =>
    -- What is above is dimensioned as well, so the unit of `p` was compared with its unit.
    obtain ⟨x, hx⟩ := exists_of_mem_ancestors hq
    obtain ⟨c, hc⟩ := hmeasured.measure? hx (hkind ▸ hunit)
    obtain ⟨h, hb, hne, hh⟩ := hdeclared
    obtain ⟨i, a, habove, hbelow, hi, ha⟩ := ho.exists_above?_linearize hf hb hne hh
    have hmeasure : a.measure? = some c := (hsame i a hbelow hi ha).trans hc
    obtain ⟨-, hcategory⟩ := Parameter.measure?_eq_some.mp hmeasure
    have hinherited : r.scope.inheritedUnit.bind MeasureUnit.category? = some c := by
      rw [hr.scope, scope, habove]
      exact hcategory
    obtain ⟨c', hc', hagrees⟩ := Resolution.resolve_measured hr.resolve (hr.kind ▸ hunit)
    rw [hc, Parameter.measure?_eq_some]
    refine ⟨hunit, ?_⟩
    rw [hagrees c hinherited]
    exact hc'

/-- What two includes show is of one kind. -/
theorem kind_eq_of_shown (ho : g.Ordered) (hhome : g.AtHome) (hf : f ≠ transientFile)
    (hc : g.commit limits f ds = .ok done) {i j : FileId} (hi : i ∈ g.includesOf f)
    (hj : j ∈ g.includesOf f) (hp : g.firstFound? i k = some p)
    (hq : g.firstFound? j k = some q) : p.kind = q.kind := by
  rcases shown_agree_or_declared ho hhome hc hi hj hp hq with rfl | hdecl
  · rfl
  · obtain ⟨d, hd⟩ := Option.isSome_iff_exists.mp hdecl
    have hkey : d.key = k := key_of_rowOf? hd
    subst hkey
    obtain ⟨o, drafts, hout, -, -⟩ := commit_eq_ok.mp hc
    obtain ⟨ks, ds', rows, -, hkinds, -⟩ := outline_eq_ok.mp hout
    obtain ⟨d', -, hinherits⟩ := exists_right_of_forall₂ (inheritKinds_eq_ok hkinds)
      (mem_of_rowOf? hd)
    obtain ⟨hpkind, -⟩ := hinherits.agrees p (mem_ancestors hf hi hp)
    obtain ⟨hqkind, -⟩ := hinherits.agrees q (mem_ancestors hf hj hq)
    exact Option.some.inj (hpkind.symm.trans hqkind)

/-! ## Built graphs -/

/-- What two includes of a new file show of a key that is not mixed has one measure. -/
theorem measure?_eq_of_shown (ho : g.Ordered) (hhome : g.AtHome) (hf : f ≠ transientFile)
    (hc : g.commit limits f ds = .ok done) (hunmixed : ¬ g.Mixed k) {i j : FileId}
    (hi : i ∈ g.includesOf f) (hj : j ∈ g.includesOf f) (hp : g.firstFound? i k = some p)
    (hq : g.firstFound? j k = some q) : p.measure? = q.measure? := by
  have hkind := kind_eq_of_shown ho hhome hf hc hi hj hp hq
  rw [Parameter.measure?, Parameter.measure?, ← hkind]
  cases hunit : p.kind.hasUnit with
  | false => rfl
  | true =>
    by_contra hne
    exact hunmixed ⟨f, i, j, p, q, hf, hi, hj, hp, hq, hunit, hkind ▸ hunit, hne⟩

/-- What is declared in a new file has the measure of what the includes show. -/
theorem measure?_of_new (ho : g.Ordered) (hhome : g.AtHome) (hmeasured : g.Measured)
    (hf : f < g.files.size) (hne : f ≠ transientFile) (hds : ds.Distinct)
    (hc : g.commit limits f ds = .ok done) (huntimed : done.graph.Untimed p.key)
    (hunmixed : ¬ g.Mixed p.key)
    (harms : ∀ i ∈ g.includesOf f, g.Uniform Parameter.measure? i p.key)
    (hp : p ∈ done.parameters) {i : FileId} (hi : i ∈ g.includesOf f)
    (hq : g.firstFound? i p.key = some q) : p.measure? = q.measure? := by
  refine measure?_of_mem_parameters ho hf hmeasured hds hc huntimed hp
    ⟨q, mem_ancestors hne hi hq, rfl⟩ ?_ ?_
  · obtain ⟨h, hb, hh⟩ := ho.below_of_firstFound? (ho.lt_size_of_include hi) hq
    refine ⟨h, hb.head hi, ?_, by simp [hh]⟩
    rintro rfl
    exact ho.not_below_of_include hi hb
  · intro h a hb hh ha
    rcases below_iff.mp hb with rfl | ⟨j, hj, hb⟩
    · exact absurd rfl hh
    obtain ⟨b, hfound, hab⟩ := (harms j hj).exists_firstFound? ho (ho.lt_size_of_include hj) hb ha
    exact hab.trans (measure?_eq_of_shown ho hhome hne hc hunmixed hj hi hfound hq)

theorem Built.uniform_measure? (hb : g.Built) (huntimed : g.Untimed k) (hunmixed : ¬ g.Mixed k) :
    ∀ f < g.files.size, g.Uniform Parameter.measure? f k := by
  induction hb with
  | empty =>
    intro f _ h i p q _ _ hp _
    cases h <;> cases hp
  | @file g limits name includes ds done hb hincludes hds hc ih =>
    have hg := hb.coherent
    have ho : (g.addFile name includes).Ordered := ordered_addFile hg.ordered hincludes
    have ho' : done.graph.Ordered := ordered_commit ho hc
    have hne : g.files.size ≠ transientFile := Nat.ne_of_gt hg.ordered.transientFile_lt_size
    have hmeasured : (g.addFile name includes).Measured := by
      intro h k p hp
      rw [declared?_addFile] at hp
      exact hb.measured hp
    -- A key that is mixed while the file is loaded is so from then on.
    have hunmixed' : ¬ (g.addFile name includes).Mixed k := by
      refine mt (Mixed.of_sameBelow ho ho' ?_) hunmixed
      intro f _ i hi
      have hlt := lt_size_of_include_addFile hg.ordered hincludes hi
      rw [includesOf_commit hc]
      exact ⟨hi, sameBelow_commit hc (not_below_addFile hg.ordered hlt name includes) k⟩
    have hunmixed₀ : ¬ g.Mixed k := by
      refine mt (Mixed.of_sameBelow hg.ordered ho ?_) hunmixed'
      intro f _ i hi
      have hlt := hg.ordered.lt_size_of_include hi
      refine ⟨?_, sameBelow_addFile hg.ordered hlt name includes k⟩
      rw [includesOf_addFile, if_neg]
      · exact hi
      · rintro rfl
        rw [includesOf_of_size_le (Nat.le_refl _)] at hi
        exact absurd hi List.not_mem_nil
    have huntimed₀ : (g.addFile name includes).Untimed k := huntimed.of_commit hc
    have hu := ih huntimed₀ hunmixed₀
    refine uniform_file hg hincludes hu hc ?_
    rintro p hp rfl i hi q hq
    exact measure?_of_new ho (hg.home.addFile name includes) hmeasured (by simp) hne hds hc
      huntimed hunmixed' (fun i hi => uniform_arms hg hincludes hu hi) hp hi hq

/-! ## Graphs of sessions -/

/-- What holds a key to one category holds it before an edit, too. -/
theorem Held.of_edit (hg : g.Whole) (hk : done.graph.Held k)
    (hc : g.commit limits transientFile ds = .ok done) : g.Held k := by
  refine ⟨hk.untimed.of_commit hc, ?_, ?_⟩
  · obtain ⟨h, p, hh, hp⟩ := hk.loaded
    rw [declared?_commit_of_ne hc hh] at hp
    exact ⟨h, p, hh, hp⟩
  · refine mt (Mixed.of_sameBelow hg.ordered (ordered_commit hg.ordered hc) ?_) hk.unmixed
    intro f _ i hi
    have hne : i ≠ transientFile := (hg.ordered.lower f i hi).1
    rw [includesOf_commit hc]
    exact ⟨hi, sameBelow_commit hc (hg.ordered.transientFile_not_below hne) k⟩

/-- What holds a key to one category does not depend on the clock. -/
theorem Held.of_tick (hg : g.Whole) {t : Float} (hk : ({ g with clock := t } : Graph).Held k) :
    g.Held k := by
  refine ⟨hk.untimed, hk.loaded, ?_⟩
  refine mt (Mixed.of_sameBelow hg.ordered (hg.tick t).ordered ?_) hk.unmixed
  exact fun f _ i hi => ⟨hi, fun h _ => ⟨rfl, rfl⟩⟩

/-- An edit of a key that a loaded file declares keeps its measure. -/
theorem measure?_of_edit (hr : g.Rooted) (hds : ds.Distinct)
    (hc : g.commit limits transientFile ds = .ok done) (huntimed : done.graph.Untimed p.key)
    (hp : p ∈ done.parameters) (hh : h ≠ transientFile) (hq : g.declared? h p.key = some q)
    (hsame : ∀ i a, g.declared? i p.key = some a → a.measure? = q.measure?) :
    p.measure? = q.measure? := by
  have hg := hr.whole
  have hsize := hg.ordered.transientFile_lt_size
  obtain ⟨hfound, hbelow⟩ := hg.visible?_eq p.key
  obtain ⟨r, hr', -⟩ := hbelow h q hq
  have hshown := mem_ancestors_transientFile (hfound.symm.trans hr')
  obtain ⟨i, hi⟩ := exists_of_mem_ancestors hshown
  exact measure?_of_mem_parameters hg.ordered hsize (fun _ _ _ => hr.measured) hds hc huntimed hp
    ⟨r, hshown, hsame i r hi⟩ ⟨h, hg.below_of_declared? hq, hh, by simp [hq]⟩
    fun i a _ _ ha => hsame i a ha

/-- In a session all declarations of a key that is held to one category have the same
measure. -/
theorem Rooted.uniform_measure? (hr : g.Rooted) (hk : g.Held k) {i : FileId}
    (hp : g.declared? h k = some p) (hq : g.declared? i k = some q) :
    p.measure? = q.measure? := by
  induction hr generalizing h i p q with
  | @root g limits top done hb htop hall hc =>
    have ho := hb.coherent.ordered
    have ho' := ordered_setIncludes ho htop
    have hunmixed : ¬ g.Mixed k := by
      refine mt (Mixed.of_sameBelow ho (ordered_commit ho' hc) ?_) hk.unmixed
      intro f hf i hi
      have hne : i ≠ transientFile := (ho.lower f i hi).1
      refine ⟨?_, (sameBelow_setIncludes ho hne [top] k).trans
        (sameBelow_commit hc (ho'.transientFile_not_below hne) k)⟩
      rw [includesOf_commit hc, includesOf_setIncludes g _ _ _ ho.transientFile_lt_size,
        if_neg hf]
      exact hi
    have huntimed : (g.setIncludes transientFile [top]).Untimed k := hk.untimed.of_commit hc
    exact hb.uniform_root hall hc (hb.uniform_measure? huntimed hunmixed top htop.2) hp hq
  | @edit g limits ds done hr hds hc ih =>
    have hk₀ := hk.of_edit hr.whole hc
    obtain ⟨x, l, hx, hl⟩ := hk₀.loaded
    have hall : ∀ h p, done.graph.declared? h k = some p → p.measure? = l.measure? := by
      intro h p hp
      rcases declared?_commit_cases hc hp with ⟨hnew, -, rfl⟩ | hold
      · exact measure?_of_edit hr hds hc hk.untimed hnew hx hl fun i a ha => ih hk₀ ha hl
      · exact ih hk₀ hold hl
    rw [hall h p hp, hall i q hq]
  | tick t hr ih => exact ih (hk.of_tick hr.whole) hp hq

/-! ## References -/

/-- A draft passes the check of the units. -/
theorem disagreement?_of_draft {drafts : List Parameter} {r : Ref}
    (hdraft : g.draft limits f o = .ok drafts) (hp : p ∈ drafts) (hr : r ∈ p.plan.refs)
    (hq : g.draftTarget? f drafts p r = some q) : disagreement? p q = none := by
  have hcheck := (draft_eq_ok_iff.mp hdraft).2.1 p hp
  simp only [checkUnits] at hcheck
  split at hcheck
  · cases hcheck
  · next hnone =>
    exact List.findSome?_eq_none_iff.mp hnone q (List.mem_filterMap.mpr ⟨r, hr, hq⟩)

/-- What is committed agrees with some declaration of every name that it refers to. -/
theorem exists_agreeing (hds : ds.Distinct) (hf : f < g.files.size)
    (hc : g.commit limits f ds = .ok done) (hp : p ∈ done.parameters)
    (hname : .named name ∈ p.plan.refs) :
    ∃ h q, done.graph.declared? h name.key = some q ∧ disagreement? p q = none := by
  obtain ⟨o, drafts, ho, hdraft, hdone⟩ := commit_eq_ok.mp hc
  have hdrafts : done.parameters = drafts := by rw [← hdone]
  rw [hdrafts] at hp
  rcases mem_draft_cases hds ho hdraft hp with ⟨feature, -, hvalue⟩ | ⟨r, hr⟩
  · rw [hvalue.plan] at hname
    exact absurd hname List.not_mem_nil
  obtain ⟨a, ha⟩ := (Resolution.resolve_fits hr.resolve).of_mem_refs hname
  obtain ⟨q, -, hrow | ⟨hfresh, hfound⟩⟩ := hr.exists_target hds ho hdraft ha
  · -- The name is declared along with `p`.
    have hq : q ∈ done.parameters := hdrafts ▸ mem_of_rowOf? hrow
    have hkey : q.key = name.key := key_of_rowOf? hrow
    refine ⟨f, q, hkey ▸ declared?_of_mem_parameters hds hf hc hq, ?_⟩
    refine disagreement?_of_draft hdraft hp hname ?_
    rw [draftTarget?, hrow, Option.some_or]
  · obtain ⟨h, -, hh⟩ := List.exists_of_findSome?_eq_some hfound
    rw [linearize, declared?_link] at hh
    refine ⟨h, q, ?_, ?_⟩
    · rw [declared?_commit_of_fresh hc]
      · exact hh
      · rw [hdrafts]
        exact fun q' hq' hslot => hfresh q' hq' (congrArg Slot.key hslot)
    · refine disagreement?_of_draft hdraft hp hname ?_
      have hnone : rowOf? Parameter.key name.key drafts = none :=
        List.find?_eq_none.mpr fun q' hq' => by simpa using hfresh q' hq'
      rw [draftTarget?, hnone, Option.none_or]
      exact hfound

theorem Built.exists_agreeing (hb : g.Built) (hp : g.declared? h k = some p)
    (hname : .named name ∈ p.plan.refs) :
    ∃ i q, g.declared? i name.key = some q ∧ disagreement? p q = none := by
  induction hb generalizing h k p with
  | empty => cases h <;> cases hp
  | @file g limits _ includes ds done hb hincludes hds hc ih =>
    rcases declared?_commit_cases hc hp with ⟨hnew, -, -⟩ | hold
    · exact Graph.exists_agreeing hds (by simp) hc hnew hname
    · rw [declared?_addFile] at hold
      obtain ⟨i, q, hq, hagree⟩ := ih hold hname
      refine ⟨i, q, ?_, hagree⟩
      have hlt := lt_size_of_declared? hq
      rw [declared?_commit_of_ne hc (Nat.ne_of_lt hlt), declared?_addFile]
      exact hq

/-- A parameter agrees with every declaration of a name that it refers to, if the key is held
to one category. -/
theorem Rooted.disagreement?_named (hr : g.Rooted) (hk : g.Held name.key)
    (hp : g.declared? h k = some p) (hname : .named name ∈ p.plan.refs) {i : FileId}
    (hq : g.declared? i name.key = some q) : disagreement? p q = none := by
  induction hr generalizing h k p i q with
  | @root g limits top done hb htop hall hc =>
    rw [declared?_root hc] at hp
    obtain ⟨i', q', hq', hagree⟩ := hb.exists_agreeing hp hname
    rw [← declared?_root hc] at hq'
    exact disagreement?_congr ((Rooted.root hb htop hall hc).uniform_measure? hk hq' hq) hagree
  | @edit g limits ds done hr hds hc ih =>
    have hr' : done.graph.Rooted := hr.edit hds hc
    rcases declared?_commit_cases hc hp with ⟨hnew, -, -⟩ | hold
    · have hsize := hr.whole.ordered.transientFile_lt_size
      obtain ⟨i', q', hq', hagree⟩ := Graph.exists_agreeing hds hsize hc hnew hname
      exact disagreement?_congr (hr'.uniform_measure? hk hq' hq) hagree
    · -- The declaration in a loaded file was there before and is there still.
      have hk₀ := hk.of_edit hr.whole hc
      obtain ⟨x, l, hx, hl⟩ := hk₀.loaded
      have hagree := ih hk₀ hold hname hl
      rw [← declared?_commit_of_ne hc hx] at hl
      exact disagreement?_congr (hr'.uniform_measure? hk hl hq) hagree
  | tick t hr ih => exact ih (hk.of_tick hr.whole) hp hname hq

/-- A parameter agrees with what it refers to, if the key is held to one category. -/
theorem Rooted.disagreement?_target (hr : g.Rooted) (hp : g.Stored p) {r : Ref}
    (href : r ∈ p.plan.refs) (hq : g.target? p r = some q) (hk : g.Held q.key) :
    disagreement? p q = none := by
  cases r with
  | named name =>
    have hstored : g.declared? q.file q.key = some q := hr.whole.home.stored_of_visible? hq
    have hkey : q.key = name.key := key_of_visible? hq
    rw [hkey] at hk hstored
    exact hr.disagreement?_named hk hp href hstored
  | inherited =>
    obtain ⟨x, hx, hkey⟩ := exists_of_inherited hq
    rw [hkey] at hk
    exact disagreement?_of_measure? (hr.uniform_measure? hk hp hx)

/-- Parameters that agree and are both dimensioned have units of one category. -/
theorem Rooted.category?_of_agree (hr : g.Rooted) (hp : g.Stored p) (hq : g.Stored q)
    (hpunit : p.kind.hasUnit) (hqunit : q.kind.hasUnit) (hagree : disagreement? p q = none) :
    ∃ c, p.category? = some c ∧ q.category? = some c := by
  obtain ⟨c, hc⟩ := hr.measured hp hpunit
  obtain ⟨c', hc'⟩ := hr.measured hq hqunit
  have heq := disagreement?_eq_none.mp hagree c c' (Parameter.measure?_eq_some.mpr ⟨hpunit, hc⟩)
    (Parameter.measure?_eq_some.mpr ⟨hqunit, hc'⟩)
  exact ⟨c, hc, heq ▸ hc'⟩

end Graph

/-! ## Sessions -/

namespace Session

variable {s : Session} {steps : List Step} {p : Parameter} {k : Key}

/-- The parameter is declared at some time of the run. -/
def Appears (s : Session) (steps : List Step) (p : Parameter) : Prop :=
  ∃ before after h, steps = before ++ after ∧ (s.run before).graph.declared? h p.key = some p

/-- Under `k` there are declarations, at some times of the run, that do not have units of one
category. -/
def Varies (s : Session) (steps : List Step) (k : Key) : Prop :=
  ∃ p q, s.Appears steps p ∧ s.Appears steps q ∧ p.key = k ∧ q.key = k ∧
    p.measure? ≠ q.measure?

theorem appears_of_declared? {h : FileId} (hp : (s.run steps).graph.declared? h k = some p) :
    s.Appears steps p := by
  have hkey : p.key = k := Graph.key_of_declared? hp
  subst hkey
  exact ⟨steps, [], h, (List.append_nil steps).symm, hp⟩

theorem Appears.append (hp : s.Appears steps p) (later : List Step) :
    s.Appears (steps ++ later) p := by
  obtain ⟨before, after, h, rfl, hp⟩ := hp
  exact ⟨before, after ++ later, h, List.append_assoc _ _ _, hp⟩

/-- Every name that a declared parameter refers to was declared, when the parameter was, by
one that it agrees with. -/
theorem exists_agreeing {source : Source} {options : LoadOptions} {top : String}
    (hload : Session.load source options top = .ok s) {h : FileId} {name : Name}
    (hp : (s.run steps).graph.declared? h k = some p) (hname : .named name ∈ p.plan.refs) :
    ∃ q, s.Appears steps q ∧ q.key = name.key ∧ Graph.disagreement? p q = none := by
  induction steps using List.reverseRecOn with
  | nil =>
    simp only [Session.load, bind_eq_ok, pure_eq_ok] at hload
    obtain ⟨g, hg, rfl⟩ := hload
    obtain ⟨b, f, done, hb, -, -, hc, rfl⟩ := exists_built_of_load hg
    change done.graph.declared? h k = some p at hp
    rw [Graph.declared?_root hc] at hp
    obtain ⟨i, q, hq, hagree⟩ := hb.exists_agreeing hp hname
    rw [← Graph.declared?_root hc] at hq
    exact ⟨q, appears_of_declared? hq, Graph.key_of_declared? hq, hagree⟩
  | append_singleton steps step ih =>
    -- What was declared before the step has been treated.
    have hold : (s.run steps).graph.declared? h k = some p →
        ∃ q, s.Appears (steps ++ [step]) q ∧ q.key = name.key ∧
          Graph.disagreement? p q = none := by
      intro hp
      obtain ⟨q, hq, hagree⟩ := ih hp
      exact ⟨q, hq.append [step], hagree⟩
    rw [run_concat] at hp
    rcases graph_next_cases (s.run steps) step with
      hsame | ⟨ds, done, hds, hc, hdone⟩ | ⟨t, hclock⟩
    · rw [hsame] at hp
      exact hold hp
    · rw [hdone] at hp
      rcases Graph.declared?_commit_cases hc hp with ⟨hnew, -, -⟩ | hp
      · have hsize := (rooted_run (rooted_load hload) steps).whole.ordered.transientFile_lt_size
        obtain ⟨i, q, hq, hagree⟩ := Graph.exists_agreeing hds hsize hc hnew hname
        rw [← hdone, ← run_concat] at hq
        exact ⟨q, appears_of_declared? hq, Graph.key_of_declared? hq, hagree⟩
      · exact hold hp
    · rw [hclock] at hp
      exact hold hp

/-- Unit soundness.  Let a session have been loaded and then edited at will.  A dimensioned
parameter that is visible and a dimensioned parameter that it refers to have units of one
category.  Or else the unit of the key that is referred to has changed its category in the
course of the run, and then the key is not held to one: a time feature has its value there, or
no loaded file declares it, or two includes of a file show it with different categories. -/
theorem category?_run {source : Source} {options : LoadOptions} {top : String} {s : Session}
    (hload : Session.load source options top = .ok s) (steps : List Step) {k : Key}
    {p q : Parameter} {r : Ref} (hp : (s.run steps).graph.visible? k = some p)
    (href : r ∈ p.plan.refs) (hq : (s.run steps).graph.target? p r = some q)
    (hpunit : p.kind.hasUnit) (hqunit : q.kind.hasUnit) :
    (∃ c, p.category? = some c ∧ q.category? = some c) ∨
      s.Varies steps q.key ∧ ¬ (s.run steps).graph.Held q.key := by
  have hrooted : (s.run steps).graph.Rooted := rooted_run (rooted_load hload) steps
  have hpstored := hrooted.whole.home.stored_of_visible? hp
  have hqstored : (s.run steps).graph.Stored q := hrooted.whole.home.stored_of_target? hq
  by_cases hagree : Graph.disagreement? p q = none
  · exact Or.inl (hrooted.category?_of_agree hpstored hqstored hpunit hqunit hagree)
  refine Or.inr ⟨?_, fun hk => hagree (hrooted.disagreement?_target hpstored href hq hk)⟩
  have happears := appears_of_declared? hqstored
  cases r with
  | named name =>
    have hkey : q.key = name.key := Graph.key_of_visible? hq
    obtain ⟨m, hm, hmkey, hmagree⟩ := exists_agreeing hload hpstored href
    refine ⟨m, q, hm, happears, hmkey.trans hkey.symm, rfl, fun hmeasure => hagree ?_⟩
    exact Graph.disagreement?_congr hmeasure hmagree
  | inherited =>
    obtain ⟨x, -, hkey⟩ := Graph.exists_of_inherited hq
    refine ⟨p, q, appears_of_declared? hpstored, happears, hkey.symm, rfl, fun hmeasure => ?_⟩
    exact hagree (Graph.disagreement?_of_measure? hmeasure)

/-- No key is mixed where every file includes one other at most. -/
theorem not_mixed_of_single {g : Graph} {k : Key}
    (hsingle : (g.files.toList.all fun file => file.includes.length ≤ 1) = true) :
    ¬ g.Mixed k := by
  rintro ⟨f, i, j, p, q, -, hi, hj, hp, hq, -, -, hne⟩
  rw [Graph.includesOf] at hi hj
  cases hfile : g.files[f]? with
  | none =>
    rw [hfile] at hi
    cases hi
  | some file =>
    rw [hfile] at hi hj
    change i ∈ file.includes at hi
    change j ∈ file.includes at hj
    have hmem : file ∈ g.files.toList := Array.mem_toList_iff.mpr (Array.mem_of_getElem? hfile)
    have hlength : file.includes.length ≤ 1 :=
      of_decide_eq_true (List.all_eq_true.mp hsingle file hmem)
    obtain ⟨m, hm, rfl⟩ := List.getElem_of_mem hi
    obtain ⟨n, hn, rfl⟩ := List.getElem_of_mem hj
    have hmn : m = n := by omega
    subst hmn
    exact hne (congrArg Parameter.category? (Option.some.inj (hp.symm.trans hq)))

/-- A length that is overridden, and an edit that refers to it. -/
def lengths : Source := fun spec =>
  if spec = "base" then .ok "dc:X = 1 cm".toUTF8
  else if spec = "top" then .ok "includeFile = base\ndc:X = InheritedValue + 2 mm".toUTF8
  else .error (.cannotOpen spec "no such file")

def lengthEdits : List Step :=
  [.change ⟨"dc:Y", "3 * X km", false⟩]

theorem category?_run_lengths :
    ∃ s p r q c, Session.load lengths { withDefaults := false } "top" = .ok s ∧
      let g := (s.run lengthEdits).graph
      g.visible? ⟨"y"⟩ = some p ∧ r ∈ p.plan.refs ∧ g.target? p r = some q ∧
        p.kind.hasUnit ∧ q.kind.hasUnit ∧ g.Held q.key ∧
        p.category? = some c ∧ q.category? = some c := by
  have hok : ((Session.load lengths { withDefaults := false } "top").toOption.any fun s =>
      let g := (s.run lengthEdits).graph
      g.features.isEmpty && (g.declared? 2 ⟨"x"⟩).isSome &&
        (g.files.toList.all fun file => file.includes.length ≤ 1) &&
        (g.visible? ⟨"y"⟩).any fun p => p.kind.hasUnit && p.plan.refs.any fun r =>
          (g.target? p r).any fun q => q.kind.hasUnit && q.key == ⟨"x"⟩) = true := by
    decide +kernel
  obtain ⟨s, hs, hok⟩ := (Option.any_eq_true _ _).mp hok
  have hload := toOption_eq_some.mp hs
  simp only [Bool.and_eq_true, Option.any_eq_true, List.any_eq_true, beq_iff_eq] at hok
  obtain ⟨⟨⟨hfeatures, hdeclared⟩, hincludes⟩, p, hp, hpunit, r, href, q, hq, hqunit, hkey⟩ := hok
  have hheld : (s.run lengthEdits).graph.Held ⟨"x"⟩ := by
    refine ⟨?_, ?_, ?_⟩
    · intro feature hfeature
      rw [List.isEmpty_iff.mp hfeatures] at hfeature
      exact absurd hfeature List.not_mem_nil
    · obtain ⟨l, hl⟩ := Option.isSome_iff_exists.mp hdeclared
      exact ⟨2, l, by decide, hl⟩
    · exact not_mixed_of_single hincludes
  rw [← hkey] at hheld
  rcases category?_run hload lengthEdits hp href hq hpunit hqunit with ⟨c, hc⟩ | ⟨-, hnot⟩
  · exact ⟨s, p, r, q, c, hload, hp, href, hq, hpunit, hqunit, hheld, hc⟩
  · exact absurd hheld hnot

end Session

end ParameterChain
