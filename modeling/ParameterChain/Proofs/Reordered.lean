/-
# Files in which declarations are in another order

Two graphs are the same *but for the order* in which their files keep parameters if they have
the same files, includes and parents and declare the same parameter under every key
(`Graph.Reordered`).  Nothing that can be asked of a graph tells them apart: walks and chains go
through the same files, and what is listed is sorted by key.

Let one and the same file be put into both, with its declarations in another order.  Then
each step of the commit does the same in both: inferring kinds, marking what is contested,
declaring the values of time features, resolving values and the two checks.  Failures may
differ, for the first declaration that is at fault is the one that is reported.

Main statement: `Reordered.commit`.
-/
import ParameterChain.Proofs.Overlay
import ParameterChain.Proofs.Rows
import ParameterChain.Proofs.Shown

namespace ParameterChain

/-- The graphs are the same, but for the order in which each file keeps its parameters. -/
structure Graph.Reordered (g g' : Graph) : Prop where
  size : g'.files.size = g.files.size
  includes : ∀ f, g'.includesOf f = g.includesOf f
  names : ∀ f, g'.nameOf f = g.nameOf f
  parents : ∀ f, g'.parentOf? f = g.parentOf? f
  declared : ∀ f k, g'.declared? f k = g.declared? f k
  features : ∀ base, g'.feature? base = g.feature? base
  clock : g'.clock = g.clock

/-- The outlines hold the same declarations, but for order and lines, the same features and the
same contested names. -/
structure Outline.Reordered (o o' : Outline) : Prop where
  declarations : o.declarations.Reordered o'.declarations
  featureAt? : ∀ k, o'.featureAt? k = o.featureAt? k
  contested : o'.contested = o.contested

theorem Outline.Reordered.symm {o o' : Outline} (ho : o.Reordered o') : o'.Reordered o :=
  ⟨ho.declarations.symm, fun k => (ho.featureAt? k).symm, ho.contested.symm⟩

namespace Graph

variable {g g' : Graph} {f : FileId} {k : Key} {ds ds' : Declarations} {limits : Limits}
  {o o' : Outline} {done : Commit} {drafts drafts' : List Parameter} {p : Parameter}

namespace Reordered

theorem refl (g : Graph) : g.Reordered g :=
  ⟨rfl, fun _ => rfl, fun _ => rfl, fun _ => rfl, fun _ _ => rfl, fun _ => rfl, rfl⟩

/-! ## Questions -/

section Questions

variable (hg : g.Reordered g')

include hg

theorem symm : g'.Reordered g :=
  ⟨hg.size.symm, fun f => (hg.includes f).symm, fun f => (hg.names f).symm,
    fun f => (hg.parents f).symm, fun f k => (hg.declared f k).symm,
    fun base => (hg.features base).symm, hg.clock.symm⟩

theorem chain_eq (f : FileId) : g'.chain f = g.chain f := by
  have hparents : ∀ n f, g'.parentsFrom n f = g.parentsFrom n f := by
    intro n
    induction n with
    | zero => exact fun f => rfl
    | succ n ih =>
      intro f
      simp only [parentsFrom, hg.parents, ih]
  rw [chain, chain, hg.size, hparents]

theorem find?_eq (f : FileId) (k : Key) : g'.find? f k = g.find? f k := by
  simp only [find?, hg.chain_eq, hg.declared]

theorem above?_eq (f : FileId) (k : Key) : g'.above? f k = g.above? f k := by
  simp only [above?, hg.parents, hg.find?_eq]

theorem visible?_eq (k : Key) : g'.visible? k = g.visible? k :=
  hg.find?_eq transientFile k

theorem preorder_eq (f : FileId) : g'.preorder f = g.preorder f := by
  have hvisit : ∀ n, g'.visit n = g.visit n := by
    intro n
    induction n with
    | zero => rfl
    | succ n ih =>
      funext seen f
      simp only [visit, hg.includes, ih]
  rw [preorder, preorder, hg.size, hvisit]

theorem firstFound?_eq (f : FileId) (k : Key) : g'.firstFound? f k = g.firstFound? f k := by
  simp only [firstFound?, hg.preorder_eq, hg.declared]

theorem namesBelow_eq (f : FileId) : g'.namesBelow f = g.namesBelow f := by
  rw [namesBelow, namesBelow, hg.preorder_eq]
  exact List.map_congr_left fun h _ => hg.names h

/-- What is listed of some files is sorted, so it does not show the order they keep. -/
theorem firstIn_eq (files : List FileId) : g'.firstIn files = g.firstIn files := by
  have hmem : ∀ p, p ∈ g'.firstIn files ↔ p ∈ g.firstIn files := by
    intro p
    rw [mem_firstIn, mem_firstIn]
    simp only [hg.declared]
  have hsorted := pairwise_firstIn g files
  have hsorted' := pairwise_firstIn g' files
  have hne : ∀ {p q : Parameter}, p.key.text < q.key.text → p ≠ q := by
    rintro p q hlt rfl
    exact String.lt_irrefl _ hlt
  have hperm : (g'.firstIn files).Perm (g.firstIn files) :=
    (List.perm_ext_iff_of_nodup (hsorted'.imp hne) (hsorted.imp hne)).mpr hmem
  refine hperm.eq_of_pairwise ?_ hsorted' hsorted
  intro p q _ _ hlt hgt
  exact absurd hgt (String.lt_asymm hlt)

theorem shownBy_eq (f : FileId) : g'.shownBy f = g.shownBy f := by
  rw [shownBy, shownBy, hg.preorder_eq, hg.firstIn_eq]

theorem visible_eq : g'.visible = g.visible := by
  rw [visible, visible, hg.chain_eq, hg.firstIn_eq]

theorem ancestors_eq (f : FileId) (k : Key) : g'.ancestors f k = g.ancestors f k := by
  simp only [ancestors, rootsOf, hg.includes, hg.firstFound?_eq]

/-! ## Outlines -/

/-- The arms of a file contest the same names, and are refused for the same reasons. -/
theorem contested_eq (hds : ds.Reordered ds') (f : FileId) :
    g'.contested f ds' = g.contested f ds := by
  have hname : g'.contestedName f ds' = g.contestedName f ds := by
    funext arm later others p
    simp only [contestedName, disagreeing?, modifier?, hg.names, hg.namesBelow_eq,
      hg.firstFound?_eq, hg.shownBy_eq, hds.get?_isNone]
  have harms : ∀ arms, g'.contestedFrom f ds' arms = g.contestedFrom f ds arms := by
    intro arms
    induction arms with
    | nil => rfl
    | cons arm later ih => simp only [contestedFrom, hg.includes, hg.shownBy_eq, hname, ih]
  rw [contested, contested, hg.includes, harms]

theorem inheritKinds_eq (f : FileId) (ds : Declarations) :
    g'.inheritKinds f ds = g.inheritKinds f ds := by
  simp only [inheritKinds, hg.ancestors_eq]

end Questions

end Reordered

/-- Of features with distinct bases, the one whose value has a key is found whatever their
order. -/
theorem find?_valueName {features : List TimeFeature}
    (hunique : ∀ x ∈ features, ∀ y ∈ features, x.key = y.key → x = y) {x : TimeFeature} :
    (features.reverse.find? fun y => Key.ofText y.valueName = k) = some x ↔
      x ∈ features ∧ Key.ofText x.valueName = k := by
  constructor
  · intro h
    exact ⟨List.mem_reverse.mp (List.mem_of_find?_eq_some h), by simpa using List.find?_some h⟩
  · rintro ⟨hx, rfl⟩
    cases hfound : features.reverse.find? fun y =>
        Key.ofText y.valueName = Key.ofText x.valueName with
    | none =>
      have hnot := List.find?_eq_none.mp hfound x (List.mem_reverse.mpr hx)
      exact absurd (decide_eq_true rfl) hnot
    | some y =>
      have hy := List.mem_reverse.mp (List.mem_of_find?_eq_some hfound)
      have hkey : Key.ofText y.valueName = Key.ofText x.valueName := by
        simpa using List.find?_some hfound
      rw [y.key_valueName, x.key_valueName] at hkey
      rw [hunique y hy x hx (Key.ofValue_inj hkey)]

/-- An outline declares the value of a feature under its key, and what has inherited under
all other keys. -/
theorem unlined_get?_outline (kinds : Declarations) (rows : List Declarations.FeatureRow)
    (ks : List Key) (k : Key) :
    let o : Outline :=
      { declarations := rows.foldl
          (fun ds row => ds.insert (row.feature.valueDeclaration row.line)) kinds
        features := rows.map Declarations.FeatureRow.feature
        contested := ks }
    (o.declarations.get? k).map Declaration.unlined =
      ((o.featureAt? k).map fun feature => feature.valueDeclaration 0).or
        ((kinds.get? k).map Declaration.unlined) := by
  simp only [Declarations.get?_foldl_insert, Outline.featureAt?, ← List.map_reverse,
    List.find?_map, Option.map_or, Option.map_map]
  rfl

/-- Declarations in another order have the same outline, if no two of them describe features
with one base. -/
theorem Reordered.outline (hg : g.Reordered g') (hds : ds.Reordered ds')
    (hapart : ds' = ds ∨ ds.Apart) (ho : g.outline f ds = .ok o) :
    ∃ o', g'.outline f ds' = .ok o' ∧ o.Reordered o' := by
  obtain ⟨ks, kinds, rows, hks, hkinds, hrows, rfl⟩ := outline_eq_ok.mp ho
  obtain ⟨kinds', hkinds', hsame⟩ := hds.inheritKinds hkinds
  obtain ⟨rows', hrows', hmem⟩ := hsame.featureRows hrows
  rw [← hg.contested_eq hds] at hks
  rw [← hg.inheritKinds_eq] at hkinds'
  have ho' := outline_eq_ok.mpr ⟨ks, kinds', rows', hks, hkinds', hrows', rfl⟩
  have hfeatures : ∀ k, ((rows'.map Declarations.FeatureRow.feature).reverse.find? fun y =>
        Key.ofText y.valueName = k) =
      (rows.map Declarations.FeatureRow.feature).reverse.find? fun y =>
        Key.ofText y.valueName = k := by
    intro k
    rcases hapart with rfl | hapart
    · -- The very same declarations give the very same features.
      rw [hg.inheritKinds_eq, hkinds] at hkinds'
      cases hkinds'
      cases hrows.symm.trans hrows'
      rfl
    · have hunique : ∀ x ∈ rows.map Declarations.FeatureRow.feature,
          ∀ y ∈ rows.map Declarations.FeatureRow.feature, x.key = y.key → x = y :=
        fun x hx y hy => hapart.feature_eq hds.distinct hkinds hrows hx hy
      refine Option.ext fun x => ?_
      rw [find?_valueName hunique, find?_valueName, hmem]
      exact fun x hx y hy => hunique x ((hmem x).mp hx) y ((hmem y).mp hy)
  refine ⟨_, ho', ⟨distinct_outline hds.distinct ho, distinct_outline hds.distinct' ho', ?_⟩,
    hfeatures, rfl⟩
  intro k
  rw [unlined_get?_outline kinds rows ks k, unlined_get?_outline kinds' rows' ks k, hsame.unlined]
  simp only [Outline.featureAt?, hfeatures]

/-! ## Drafts -/

/-- On every line a raw value is resolved to the same plan. -/
theorem resolve_onLine {r : Resolution} {resolved : Resolved} (h : r.resolve = .ok resolved)
    (n : Nat) :
    ({ r with declaration := r.declaration.onLine n } : Resolution).resolve = .ok resolved := by
  rw [Resolution.resolve, mapError_eq_ok] at h ⊢
  exact h

namespace Reordered

variable (hg : g.Reordered g') (ho : o.Reordered o')

include hg

theorem scope_eq (hds : ds.Reordered ds') (f : FileId) (k : Key) :
    g'.scope f ds' k = g.scope f ds k := by
  simp only [scope, hds.bind_kind, hg.find?_eq, hg.above?_eq]

include ho

theorem planOf_onLine {d : Declaration} {kind : Kind} {resolved : Resolved}
    (h : g.planOf limits f o d kind = .ok resolved) (n : Nat) :
    g'.planOf limits f o' (d.onLine n) kind = .ok resolved := by
  have hkey : (d.onLine n).key = d.key := rfl
  rw [planOf] at h ⊢
  rw [hkey, ho.featureAt?]
  cases hat : o.featureAt? d.key with
  | some feature =>
    rw [hat] at h
    exact h
  | none =>
    rw [hat] at h
    simp only [bind_eq_ok] at h ⊢
    obtain ⟨resolved', hresolve, hrest⟩ := h
    refine ⟨resolved', ?_, ?_⟩
    · rw [hg.scope_eq ho.declarations]
      exact resolve_onLine hresolve n
    · rw [ho.contested]
      split
      · next hbad =>
        rw [if_pos hbad] at hrest
        cases hrest
      · next hgood =>
        rw [if_neg hgood] at hrest
        exact hrest

/-- A declaration is drafted as the same parameter on every line. -/
theorem draftOf_onLine {d : Declaration} (h : g.draftOf limits f o d = .ok p) (n : Nat) :
    g'.draftOf limits f o' (d.onLine n) = .ok p := by
  obtain ⟨kind, resolved, hkind, hplan, rfl⟩ := draftOf_eq_ok.mp h
  exact draftOf_eq_ok.mpr ⟨kind, resolved, hkind, hg.planOf_onLine ho hplan n, rfl⟩

omit ho in
theorem draftTarget?_eq (hdrafts : ∀ k, rowOf? Parameter.key k drafts' =
      rowOf? Parameter.key k drafts) (f : FileId) (p : Parameter) (r : Ref) :
    g'.draftTarget? f drafts' p r = g.draftTarget? f drafts p r := by
  cases r with
  | named name => simp only [draftTarget?, hdrafts, hg.find?_eq]
  | inherited => exact hg.above?_eq f p.key

omit ho in
theorem declaredLength?_eq (n : Nat) (p : Parameter) :
    g'.declaredLength? n p = g.declaredLength? n p := by
  induction n generalizing p with
  | zero => rfl
  | succ n ih =>
    have hrest : g'.declaredLength? n = g.declaredLength? n := funext ih
    have htarget : ∀ f r, g'.draftTarget? f [] p r = g.draftTarget? f [] p r :=
      fun f => hg.draftTarget?_eq (fun _ => rfl) f p
    simp only [declaredLength?, htarget, hrest]

omit ho in
/-- The checks of a draft say the same whatever its order. -/
theorem checks_eq (hdrafts : ∀ k, rowOf? Parameter.key k drafts' =
      rowOf? Parameter.key k drafts) (f : FileId) (p : Parameter) :
    g'.checkUnits f drafts' p = g.checkUnits f drafts p ∧
      g'.checkLengths f drafts' p = g.checkLengths f drafts p := by
  have htarget : g'.draftTarget? f drafts' p = g.draftTarget? f drafts p :=
    funext (hg.draftTarget?_eq hdrafts f p)
  have hlength : g'.declaredLength? lengthHops = g.declaredLength? lengthHops :=
    funext (hg.declaredLength?_eq lengthHops)
  refine ⟨?_, ?_⟩
  · rw [checkUnits, checkUnits, htarget]
  · rw [checkLengths, checkLengths, htarget, hlength]

omit hg ho in
/-- What is drafted of declarations in another order is drafted of the declarations. -/
theorem mem_of_draft (hg : g.Reordered g') (ho : o.Reordered o')
    (h : o.declarations.rows.mapM (g.draftOf limits f o) = .ok drafts)
    (h' : o'.declarations.rows.mapM (g'.draftOf limits f o') = .ok drafts')
    (hp : p ∈ drafts') : p ∈ drafts := by
  obtain ⟨d', hd', hdrafted'⟩ := mem_of_mapM h' hp
  obtain ⟨d, hd, hsame⟩ := ho.declarations.exists_mem hd'
  obtain ⟨q, hq, hdrafted⟩ := exists_of_mapM h hd
  have honLine := hg.draftOf_onLine ho hdrafted d'.line
  rw [← hsame, hdrafted'] at honLine
  cases honLine
  exact hq

/-- The draft of declarations in another order is the same, but for its order. -/
theorem draft (h : g.draft limits f o = .ok drafts) :
    ∃ drafts', g'.draft limits f o' = .ok drafts' ∧ drafts'.Perm drafts := by
  obtain ⟨hrows, hunits, hlengths⟩ := draft_eq_ok_iff.mp h
  have hall : ∀ d' ∈ o'.declarations.rows, ∃ p, g'.draftOf limits f o' d' = .ok p := by
    intro d' hd'
    obtain ⟨d, hd, hsame⟩ := ho.declarations.exists_mem hd'
    obtain ⟨p, -, hdrafted⟩ := exists_of_mapM hrows hd
    rw [hsame]
    exact ⟨p, hg.draftOf_onLine ho hdrafted d'.line⟩
  obtain ⟨drafts', hrows'⟩ := exists_mapM hall
  have hkeys : (drafts.map Parameter.key).Nodup := by
    rw [keys_of_draft hrows]
    exact ho.declarations.distinct
  have hkeys' : (drafts'.map Parameter.key).Nodup := by
    rw [keys_of_draft hrows']
    exact ho.declarations.distinct'
  have hperm : drafts'.Perm drafts := by
    refine (List.perm_ext_iff_of_nodup hkeys'.of_map hkeys.of_map).mpr fun p => ?_
    exact ⟨mem_of_draft hg ho hrows hrows', mem_of_draft hg.symm ho.symm hrows' hrows⟩
  have hchecks := hg.checks_eq (rowOf?_perm hperm hkeys) f
  refine ⟨drafts', draft_eq_ok_iff.mpr ⟨hrows', ?_, ?_⟩, hperm⟩
  · intro p hp
    rw [(hchecks p).1]
    exact hunits p (hperm.mem_iff.mp hp)
  · intro p hp
    rw [(hchecks p).2]
    exact hlengths p (hperm.mem_iff.mp hp)

end Reordered

/-! ## Commits -/

theorem Reordered.addFile (hg : g.Reordered g') (name : String) (includes : List FileId) :
    (g.addFile name includes).Reordered (g'.addFile name includes) where
  size := by rw [size_addFile, size_addFile, hg.size]
  includes := by
    intro f
    rw [includesOf_addFile, includesOf_addFile, hg.size, hg.includes]
  names := by
    intro f
    rw [nameOf_addFile, nameOf_addFile, hg.size, hg.names]
  parents := by
    intro f
    rw [parentOf?_addFile, parentOf?_addFile, hg.parents]
  declared := by
    intro f k
    rw [declared?_addFile, declared?_addFile, hg.declared]
  features := hg.features
  clock := hg.clock

theorem Reordered.setIncludes (hg : g.Reordered g') (hf : f < g.files.size)
    (includes : List FileId) :
    (g.setIncludes f includes).Reordered (g'.setIncludes f includes) where
  size := by rw [size_setIncludes, size_setIncludes, hg.size]
  includes := by
    intro h
    rw [includesOf_setIncludes g f includes h hf,
      includesOf_setIncludes g' f includes h (hg.size ▸ hf), hg.includes]
  names := by
    intro h
    rw [nameOf_setIncludes, nameOf_setIncludes, hg.names]
  parents := by
    intro h
    rw [parentOf?_setIncludes, parentOf?_setIncludes, hg.parents]
  declared := by
    intro h k
    rw [declared?_setIncludes, declared?_setIncludes, hg.declared]
  features := hg.features
  clock := hg.clock

theorem Reordered.linearize (hg : g.Reordered g') (f : FileId) :
    (g.linearize f).Reordered (g'.linearize f) where
  size := by rw [Graph.linearize, Graph.linearize, size_link, size_link, hg.size]
  includes := by
    intro h
    rw [Graph.linearize, Graph.linearize, includesOf_link, includesOf_link, hg.includes]
  names := by
    intro h
    rw [Graph.linearize, Graph.linearize, nameOf_link, nameOf_link, hg.names]
  parents := by
    intro h
    rw [Graph.linearize, Graph.linearize, linearOrder_congr hg.size hg.includes]
    by_cases hh : h ∈ g.linearOrder f
    · by_cases hsize : h < g.files.size
      · rw [parentOf?_link_of_mem hh hsize, parentOf?_link_of_mem hh (hg.size ▸ hsize)]
      · have hnone : ∀ {x : Graph}, x.files.size = g.files.size →
            (x.link (g.linearOrder f)).parentOf? h = none := by
          intro x hx
          rw [parentOf?, getElem?_link, Array.getElem?_eq_none (hx ▸ Nat.le_of_not_lt hsize)]
          rfl
        rw [hnone rfl, hnone hg.size]
    · rw [parentOf?_link_of_not_mem hh, parentOf?_link_of_not_mem hh, hg.parents]
  declared := by
    intro h k
    rw [Graph.linearize, Graph.linearize, declared?_link, declared?_link, hg.declared]
  features := hg.features
  clock := hg.clock

/-- Declarations in another order can be committed as well, and the graphs are then the same
but for the order. -/
theorem Reordered.commit (hg : g.Reordered g') (hds : ds.Reordered ds')
    (hapart : ds' = ds ∨ ds.Apart) (hc : g.commit limits f ds = .ok done) :
    ∃ done', g'.commit limits f ds' = .ok done' ∧ done.graph.Reordered done'.graph := by
  have hkeys := nodup_keys_commit hds.distinct hc
  have hc₀ := hc
  obtain ⟨o, drafts, ho, hdraft, rfl⟩ := commit_eq_ok.mp hc
  obtain ⟨o', ho', hoo⟩ := hg.outline hds hapart ho
  obtain ⟨drafts', hdraft', hperm⟩ := (hg.linearize f).draft hoo hdraft
  have hc' := commit_eq_ok.mpr ⟨o', drafts', ho', hdraft', rfl⟩
  refine ⟨_, hc', ?_⟩
  refine
    { size := ?_, includes := ?_, names := ?_, parents := ?_, declared := ?_, features := ?_
      clock := ?_ }
  · rw [size_commit hc₀, size_commit hc', hg.size]
  · intro h
    rw [includesOf_commit hc₀, includesOf_commit hc', hg.includes]
  · intro h
    rw [nameOf_commit hc₀, nameOf_commit hc', hg.names]
  · intro h
    rw [parentOf?_commit hc₀, parentOf?_commit hc', (hg.linearize f).parents]
  · intro h k
    by_cases hh : h < g.files.size
    · have hslots : (drafts.reverse.map Parameter.slot).Nodup := by
        rw [List.map_reverse, List.nodup_reverse]
        refine List.Nodup.of_map Slot.key ?_
        rw [List.map_map]
        exact hkeys
      have hreverse : drafts'.reverse.Perm drafts.reverse :=
        (List.reverse_perm _).trans (hperm.trans (List.reverse_perm _).symm)
      have hfound := rowOf?_perm hreverse hslots ⟨h, k⟩
      rw [rowOf?, rowOf?] at hfound
      rw [declared?_commit hc₀ hh, declared?_commit hc' (hg.size ▸ hh), hg.declared, hfound]
    · have hle := Nat.le_of_not_lt hh
      refine (declared?_eq_none_of_size_le ?_).trans (declared?_eq_none_of_size_le ?_).symm
      · rw [size_commit hc', hg.size]
        exact hle
      · rw [size_commit hc₀]
        exact hle
  · intro base
    have hfeature := hoo.featureAt? base.ofValue
    rw [Outline.featureAt?, Outline.featureAt?] at hfeature
    rw [feature?_commit hc₀, feature?_commit hc', TimeFeature.find?_base, TimeFeature.find?_base,
      hfeature, hg.features]
  · rw [clock_commit hc₀, clock_commit hc', hg.clock]

/-- What is read does not depend on the order in which files keep their parameters. -/
theorem Reordered.readsAlike (hg : g.Reordered g') (hhome : g.AtHome) (limits : Limits) :
    g.ReadsAlike limits g' := by
  have hmoved : ∀ o : Option Parameter, o.map (Parameter.moved id) = o := by
    intro o
    cases o <;> rfl
  have hreenacts : g.Reenacts id g' := by
    refine ⟨⟨hhome, ?_, ?_⟩, ?_, hg.features, hg.clock⟩
    · intro f _ k
      rw [hmoved]
      exact hg.find?_eq f k
    · intro f _ k
      rw [hmoved]
      exact hg.above?_eq f k
    · intro k
      rw [hmoved]
      exact hg.visible?_eq k
  exact hreenacts.readsAlike limits

end Graph

end ParameterChain
