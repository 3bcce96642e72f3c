/-
# One file in two graphs

Let two sources have the same declarations under every spec and list the same specs, each in
its own order.  A file that is loaded from both stands in another place in each graph, and yet
what it declares comes to the same: its parameters are *twins*, which differ in the place of
their file only (`Graph.Twins`).

The proof goes by induction along the includes.  Where one of the files has an include that
shows something, the other has one that shows the twin of it (`Graph.ShownAlike`).  So the
declarations of both inherit the same kinds, describe the same time features and resolve to the
same plans.  A key that a file does not declare is one on which its includes agree, and then it
does not matter which of them is asked first.

Main statement: `Graph.TwinFiles.shows`.
-/
import ParameterChain.Proofs.InheritedUnit
import ParameterChain.Proofs.Origin
import ParameterChain.Proofs.Reordered

namespace ParameterChain

variable {source source' : Source} {options : LoadOptions} {g g' m m' : Graph}
  {f f' h i j : FileId} {k : Key} {ds ds' : Declarations} {done done' : Commit}
  {p p' q : Parameter} {limits : Limits} {o o' : Outline}

/-! ## Relations on what is found -/

section Rel

variable {α β : Type} {R S : α → β → Prop} {x : Option α} {y : Option β} {a : α} {b : β}

theorem rel_of_eq_some (h : Option.Rel R x y) (hx : x = some a) : ∃ b, y = some b ∧ R a b := by
  subst hx
  cases h with
  | some hab => exact ⟨_, rfl, hab⟩

theorem rel_swap (h : Option.Rel R x y) : Option.Rel (fun b a => R a b) y x := by
  cases h with
  | none => exact .none
  | some hab => exact .some hab

theorem rel_of_eq_some' (h : Option.Rel R x y) (hy : y = some b) : ∃ a, x = some a ∧ R a b :=
  rel_of_eq_some (rel_swap h) hy

theorem rel_mono (h : Option.Rel R x y)
    (hS : ∀ a b, x = some a → y = some b → R a b → S a b) : Option.Rel S x y := by
  cases h with
  | none => exact .none
  | some hab => exact .some (hS _ _ rfl rfl hab)

end Rel

namespace Graph

/-! ## Twins -/

/-- One file in two graphs: both files have the same name. -/
structure TwinFiles (g g' : Graph) (f f' : FileId) : Prop where
  loaded : f ≠ transientFile ∧ f < g.files.size
  loaded' : f' ≠ transientFile ∧ f' < g'.files.size
  name : g'.nameOf f' = g.nameOf f

/-- One parameter in two graphs: it is the same in both, and so is the file that declares
it. -/
structure Twins (g g' : Graph) (p p' : Parameter) : Prop where
  files : g.TwinFiles g' p.file p'.file
  same : p' = { p with file := p'.file }

theorem TwinFiles.symm (h : g.TwinFiles g' f f') : g'.TwinFiles g f' f :=
  ⟨h.loaded', h.loaded, h.name.symm⟩

theorem Twins.symm (h : g.Twins g' p p') : g'.Twins g p' p where
  files := h.files.symm
  same := by
    rw [h.same]

theorem Twins.key (h : g.Twins g' p p') : p'.key = p.key := by
  rw [h.same]
  rfl

theorem Twins.plan (h : g.Twins g' p p') : p'.plan = p.plan := by
  rw [h.same]

/-- What an include of the one file shows, an include of the other shows. -/
structure ShownAlike (g g' : Graph) (f f' : FileId) : Prop where
  forth : ∀ i ∈ g.includesOf f, ∃ i' ∈ g'.includesOf f',
    ∀ k, Option.Rel (g.Twins g') (g.firstFound? i k) (g'.firstFound? i' k)
  back : ∀ i' ∈ g'.includesOf f', ∃ i ∈ g.includesOf f,
    ∀ k, Option.Rel (g.Twins g') (g.firstFound? i k) (g'.firstFound? i' k)

/-- Includes that agree on a key show one parameter of it. -/
theorem AgreeOn.eq (hg : g.Coherent) (h : g.AgreeOn k i j) (hi : i < g.files.size)
    (hj : j < g.files.size) {q : Parameter} (hp : g.firstFound? i k = some p)
    (hq : g.firstFound? j k = some q) : p = q := by
  obtain ⟨x, -, hx⟩ := hg.ordered.below_of_firstFound? hi hp
  obtain ⟨y, -, hy⟩ := hg.ordered.below_of_firstFound? hj hq
  exact hg.home.eq_of_slot hx hy (h p q hp hq)

/-- Where the includes agree on a key, it does not matter in which order they are asked. -/
theorem ShownAlike.findSome? (hs : g.ShownAlike g' f f') (hg : g.Coherent)
    (hagree : ∀ i ∈ g.includesOf f, ∀ j ∈ g.includesOf f, g.AgreeOn k i j) :
    Option.Rel (g.Twins g') ((g.includesOf f).findSome? (g.firstFound? · k))
      ((g'.includesOf f').findSome? (g'.firstFound? · k)) := by
  cases hfound : (g.includesOf f).findSome? (g.firstFound? · k) with
  | none =>
    have hnone : (g'.includesOf f').findSome? (g'.firstFound? · k) = none := by
      refine List.findSome?_eq_none_iff.mpr fun i' hi' => ?_
      obtain ⟨i, hi, hrel⟩ := hs.back i' hi'
      have hi := List.findSome?_eq_none_iff.mp hfound i hi
      refine Option.eq_none_iff_forall_ne_some.mpr fun p' hp' => ?_
      obtain ⟨p, hp, -⟩ := rel_of_eq_some' (hrel k) hp'
      cases hi.symm.trans hp
    rw [hnone]
    exact .none
  | some p =>
    obtain ⟨i, hi, hp⟩ := List.exists_of_findSome?_eq_some hfound
    cases hfound' : (g'.includesOf f').findSome? (g'.firstFound? · k) with
    | none =>
      obtain ⟨i', hi', hrel⟩ := hs.forth i hi
      obtain ⟨p', hp', -⟩ := rel_of_eq_some (hrel k) hp
      cases (List.findSome?_eq_none_iff.mp hfound' i' hi').symm.trans hp'
    | some p' =>
      obtain ⟨j', hj', hp'⟩ := List.exists_of_findSome?_eq_some hfound'
      obtain ⟨j, hj, hrel⟩ := hs.back j' hj'
      obtain ⟨q, hq, htwins⟩ := rel_of_eq_some' (hrel k) hp'
      have hsize := fun i hi => hg.ordered.lt_size_of_include (f := f) (i := i) hi
      cases (hagree i hi j hj).eq hg (hsize i hi) (hsize j hj) hp hq
      exact .some htwins

end Graph

/-! ## Twin commits -/

namespace Declaration

variable {b b' : Bool} {ps ps' : List Parameter} {d e e' : Declaration}

theorem line_of_inherit (h : ps.foldlM (inherit b) d = .ok e) : e.line = d.line := by
  have hline := inherit_foldlM_onLine h d.line
  have hsame : d.onLine d.line = d := rfl
  rw [hsame, h] at hline
  rw [Except.ok.inj hline]
  rfl

/-- What a declaration inherits depends on the kinds and markers that are shown only, and not
on how many show them. -/
theorem inherit_unique (hnil : ps' = [] → ps = [])
    (hshown : ∀ q' ∈ ps', ∃ q ∈ ps, q'.kind = q.kind ∧ q'.changeable = q.changeable)
    (h : ps.foldlM (inherit b) d = .ok e) (h' : ps'.foldlM (inherit b') d = .ok e') :
    e' = e := by
  have hinherits := inherit_foldlM_eq_ok h
  have hinherits' := inherit_foldlM_eq_ok h'
  cases hkind : d.kind with
  | some kind =>
    have hsome : d.kind.isSome := by rw [hkind]; rfl
    exact (hinherits'.kept hsome).trans (hinherits.kept hsome).symm
  | none =>
    cases hps' : ps' with
    | nil =>
      rw [hps', List.foldlM_nil, pure_eq_ok] at h'
      rw [hnil hps', List.foldlM_nil, pure_eq_ok] at h
      exact h'.symm.trans h
    | cons q' rest =>
      have hq' : q' ∈ ps' := hps' ▸ List.mem_cons_self
      obtain ⟨q, hq, hkinds, hmarkers⟩ := hshown q' hq'
      obtain ⟨hk, hc⟩ := hinherits.agrees q hq
      obtain ⟨hk', hc'⟩ := hinherits'.agrees q' hq'
      have hname := hinherits'.name.trans hinherits.name.symm
      have hvalue := hinherits'.rawValue.trans hinherits.rawValue.symm
      have hline := (line_of_inherit h').trans (line_of_inherit h).symm
      have hkind : e'.kind = e.kind := by rw [hk, hk', hkinds]
      have hmarker : e'.changeable = e.changeable := by rw [hc, hc', hmarkers]
      cases e
      cases e'
      exact Declaration.mk.injEq .. |>.mpr ⟨hname, hkind, hvalue, hmarker, hline⟩

end Declaration

namespace Graph

/-- Outlines of the same declarations are the same, up to what is contested, if the same is
inherited. -/
theorem outline_unique (hrows : ds'.rows = ds.rows)
    (hnil : ∀ k, g'.ancestors f' k = [] → g.ancestors f k = [])
    (hshown : ∀ k, ∀ q' ∈ g'.ancestors f' k, ∃ q ∈ g.ancestors f k,
      q'.kind = q.kind ∧ q'.changeable = q.changeable)
    (ho : g.outline f ds = .ok o) (ho' : g'.outline f' ds' = .ok o') :
    o'.declarations.rows = o.declarations.rows ∧ o'.features = o.features := by
  obtain ⟨ks, kinds, rows, -, hkinds, hrows₀, rfl⟩ := outline_eq_ok.mp ho
  obtain ⟨ks', kinds', rows', -, hkinds', hrows₀', rfl⟩ := outline_eq_ok.mp ho'
  have hmapped := (Declarations.inheritKinds_eq_ok_iff.mp hkinds).2.2
  have hmapped' := (Declarations.inheritKinds_eq_ok_iff.mp hkinds').2.2
  rw [hrows] at hmapped'
  have hsame : kinds'.rows = kinds.rows := by
    have hall := forall₂_of_mapM_mapM (R := fun e e' => e' = e) hmapped hmapped'
      fun d _ e e' he he' => Declaration.inherit_unique (hnil d.key) (hshown d.key) he he'
    clear hmapped hmapped' hkinds hkinds' hrows₀ hrows₀' ho ho'
    generalize kinds.rows = xs at hall
    generalize kinds'.rows = ys at hall
    induction hall with
    | nil => rfl
    | cons heq _ ih => rw [heq, ih]
  have hfeatures : rows' = rows := by
    rw [Declarations.featureRows, hsame] at hrows₀'
    exact Except.ok.inj (hrows₀'.symm.trans hrows₀)
  rw [hfeatures]
  exact ⟨rows_foldl_insert hsame rows, rfl⟩

/-- A declaration is drafted as one parameter, if the same is known of the names that are
looked up. -/
theorem draftOf_unique {d : Declaration} (hrows : o'.declarations.rows = o.declarations.rows)
    (hfeatures : o'.features = o.features)
    (hkinds : ∀ d ∈ o.declarations.rows, d.kind.isSome)
    (hfound : ∀ k, o.declarations.get? k = none →
      (g'.find? f' k).map Parameter.kind = (g.find? f k).map Parameter.kind)
    (hp : g.draftOf limits f o d = .ok p) (hp' : g'.draftOf limits f' o' d = .ok p') :
    p' = { p with file := f' } := by
  obtain ⟨kind, resolved, hkind, hplan, rfl⟩ := draftOf_eq_ok.mp hp
  obtain ⟨kind', resolved', hkind', hplan', rfl⟩ := draftOf_eq_ok.mp hp'
  cases hkind.symm.trans hkind'
  have hknown : (g'.scope f' o'.declarations d.key).kindOf =
      (g.scope f o.declarations d.key).kindOf := by
    funext name
    show ((o'.declarations.get? name).bind _).or _ = ((o.declarations.get? name).bind _).or _
    have hget : o'.declarations.get? name = o.declarations.get? name := by
      rw [Declarations.get?, Declarations.get?, hrows]
    rw [hget]
    cases hd : o.declarations.get? name with
    | none => exact hfound name hd
    | some d =>
      obtain ⟨kind, hkind⟩ := Option.isSome_iff_exists.mp (hkinds d (mem_of_rowOf? hd))
      rw [Option.bind_some, hkind]
      rfl
  have hresolved : resolved' = resolved := by
    rw [planOf] at hplan hplan'
    have hat : o'.featureAt? d.key = o.featureAt? d.key := by
      rw [Outline.featureAt?, Outline.featureAt?, hfeatures]
    rw [hat] at hplan'
    cases hfeature : o.featureAt? d.key with
    | some feature =>
      rw [hfeature] at hplan hplan'
      exact (pure_eq_ok.mp hplan').symm.trans (pure_eq_ok.mp hplan)
    | none =>
      simp only [hfeature, bind_eq_ok] at hplan hplan'
      obtain ⟨r, hr, hplan⟩ := hplan
      obtain ⟨r', hr', hplan'⟩ := hplan'
      have hsame : r' = r := by
        refine Resolution.resolve_eq ?_ hr hr'
        simp only [Resolution.withoutUnit, hknown]
      split at hplan
      · cases hplan
      split at hplan'
      · cases hplan'
      rw [← pure_eq_ok.mp hplan, ← pure_eq_ok.mp hplan', hsame]
  rw [hresolved]

/-! ## Twin files -/

section Twins

variable (ho : g.Origin source options f ds m done)
  (ho' : g'.Origin source' options f' ds' m' done') (hg : g.Coherent) (hg' : g'.Coherent)
  (hs : g.ShownAlike g' f f') (hrows : ds'.rows = ds.rows)

include ho ho' hg hg' hs

/-- What is inherited from the includes of the one file is inherited from those of the
other. -/
theorem Origin.ancestors_twins (k : Key) :
    (∀ q ∈ (m.addFile (g.nameOf f) (g.includesOf f)).ancestors f k,
      ∃ q' ∈ (m'.addFile (g'.nameOf f') (g'.includesOf f')).ancestors f' k, g.Twins g' q q') ∧
    ∀ q' ∈ (m'.addFile (g'.nameOf f') (g'.includesOf f')).ancestors f' k,
      ∃ q ∈ (m.addFile (g.nameOf f) (g.includesOf f)).ancestors f k, g.Twins g' q q' := by
  simp only [ho.ancestors_eq hg, ho'.ancestors_eq hg', List.mem_filterMap]
  constructor
  · rintro q ⟨i, hi, hq⟩
    obtain ⟨i', hi', hrel⟩ := hs.forth i hi
    obtain ⟨q', hq', htwins⟩ := rel_of_eq_some (hrel k) hq
    exact ⟨q', ⟨i', hi', hq'⟩, htwins⟩
  · rintro q' ⟨i', hi', hq'⟩
    obtain ⟨i, hi, hrel⟩ := hs.back i' hi'
    obtain ⟨q, hq, htwins⟩ := rel_of_eq_some' (hrel k) hq'
    exact ⟨q, ⟨i, hi, hq⟩, htwins⟩

include hrows

/-- The same declarations behind includes that show the same come to the same. -/
theorem Origin.committed_twins :
    List.Forall₂ (fun p p' => p' = { p with file := f' }) done.parameters done'.parameters ∧
      done'.features = done.features := by
  obtain ⟨o, drafts, hout, hdraft, rfl⟩ := commit_eq_ok.mp ho.commit
  obtain ⟨o', drafts', hout', hdraft', rfl⟩ := commit_eq_ok.mp ho'.commit
  have hancestors := fun k => ho.ancestors_twins ho' hg hg' hs k
  obtain ⟨hsame, hfeatures⟩ : o'.declarations.rows = o.declarations.rows ∧
      o'.features = o.features := by
    refine outline_unique hrows ?_ ?_ hout hout'
    · intro k hnil
      refine List.eq_nil_iff_forall_not_mem.mpr fun q hq => ?_
      obtain ⟨q', hq', -⟩ := (hancestors k).1 q hq
      exact absurd (hnil ▸ hq') List.not_mem_nil
    · intro k q' hq'
      obtain ⟨q, hq, htwins⟩ := (hancestors k).2 q' hq'
      rw [htwins.same]
      exact ⟨q, hq, rfl, rfl⟩
  refine ⟨?_, hfeatures⟩
  have hdrafts := draft_eq_ok hdraft
  have hdrafts' := draft_eq_ok hdraft'
  rw [hsame] at hdrafts'
  refine forall₂_of_mapM_mapM hdrafts hdrafts' fun d hd p p' hp hp' => ?_
  refine draftOf_unique hsame hfeatures ?_ ?_ hp hp'
  · intro d hd
    obtain ⟨q, -, hq⟩ := exists_of_mapM hdrafts hd
    obtain ⟨kind, -, hkind, -, -⟩ := draftOf_eq_ok.mp hq
    rw [hkind]
    rfl
  · intro k hk
    have hk' : o'.declarations.get? k = none := by
      rw [Declarations.get?, hsame]
      exact hk
    have hagree : ∀ i ∈ g.includesOf f, ∀ j ∈ g.includesOf f, g.AgreeOn k i j := by
      intro i hi j hj
      refine (ho.agreeOn hg hout hi hj k).resolve_right ?_
      rw [get?_eq_none_of_outline hout hk]
      rintro ⟨-, ⟨⟩⟩
    rw [ho.find?_eq hg hout hk, ho'.find?_eq hg' hout' hk']
    have hrel := hs.findSome? hg hagree
    generalize (g.includesOf f).findSome? (g.firstFound? · k) = found at hrel
    generalize (g'.includesOf f').findSome? (g'.firstFound? · k) = found' at hrel
    cases hrel with
    | none => rfl
    | some htwins => rw [Option.map_some, Option.map_some, htwins.same]

/-- Twin files declare twins. -/
theorem Origin.declared?_twins (hfiles : g.TwinFiles g' f f') (k : Key) :
    Option.Rel (g.Twins g') (g.declared? f k) (g'.declared? f' k) := by
  rw [ho.declared?_eq, ho'.declared?_eq]
  have hall := (ho.committed_twins ho' hg hg' hs hrows).1
  have hfile : ∀ p ∈ done.parameters, p.file = f := fun p hp => file_of_commit ho.commit hp
  refine rel_rowOf?_of_forall₂ (fun p p' htwins => htwins.key) ?_ k
  generalize done.parameters = ps at hall hfile
  generalize done'.parameters = ps' at hall
  induction hall with
  | nil => exact .nil
  | cons hp _ ih =>
    subst hp
    obtain ⟨hfirst, hrest⟩ := List.forall_mem_cons.mp hfile
    refine .cons ⟨?_, rfl⟩ (ih hrest)
    rw [hfirst]
    exact hfiles

end Twins

end Graph

/-! ## Twin graphs -/

/-- Under every spec both sources have the same declarations, and list the same specs, in any
order. -/
def Source.ListsAlike (limits : Limits) (source source' : Source) : Prop :=
  ∀ spec ds ds', source.declarations limits spec = .ok ds →
    source'.declarations limits spec = .ok ds' → ds'.rows = ds.rows ∧ ds'.includes.Perm ds.includes

theorem Source.ListsAlike.symm (hs : Source.ListsAlike limits source source') :
    Source.ListsAlike limits source' source := by
  intro spec ds ds' hds hds'
  obtain ⟨hrows, hperm⟩ := hs spec ds' ds hds' hds
  exact ⟨hrows.symm, hperm.symm⟩

theorem LoadOptions.includeSpecs_perm {spec : String} (h : ds'.includes.Perm ds.includes) :
    (options.includeSpecs spec ds').Perm (options.includeSpecs spec ds) := by
  have hempty : ds'.includes.isEmpty = ds.includes.isEmpty := h.isEmpty_eq
  rw [includeSpecs, includeSpecs, hempty]
  split
  · exact .refl _
  · exact h

namespace Graph

/-- Of every include of the one file the twin is an include of the other. -/
theorem Origin.includes_twins (ho : g.Origin source options f ds m done)
    (ho' : g'.Origin source' options f' ds' m' done') (hname : g'.nameOf f' = g.nameOf f)
    (hperm : ds'.includes.Perm ds.includes) :
    (∀ i ∈ g.includesOf f, ∃ i' ∈ g'.includesOf f', g'.nameOf i' = g.nameOf i) ∧
      ∀ i' ∈ g'.includesOf f', ∃ i ∈ g.includesOf f, g'.nameOf i' = g.nameOf i := by
  have hnames : ((g'.includesOf f').map g'.nameOf).Perm ((g.includesOf f).map g.nameOf) := by
    rw [ho.specs, ho'.specs, hname]
    exact LoadOptions.includeSpecs_perm hperm
  constructor
  · intro i hi
    exact List.mem_map.mp (hnames.mem_iff.mpr (List.mem_map_of_mem hi))
  · intro i' hi'
    obtain ⟨i, hi, heq⟩ := List.mem_map.mp (hnames.mem_iff.mp (List.mem_map_of_mem hi'))
    exact ⟨i, hi, heq.symm⟩

section Loaded

variable (hg : g.Coherent) (hg' : g'.Coherent) (hsourced : g.Sourced source options)
  (hsourced' : g'.Sourced source' options)
  (hs : Source.ListsAlike options.limits source source')

include hg hg' hsourced hsourced' hs

/-- Twin files show twins, and so do their includes, in any order. -/
theorem TwinFiles.shows (hfiles : g.TwinFiles g' f f') :
    g.ShownAlike g' f f' ∧ ∀ k, Option.Rel (g.Twins g') (g.declared? f k) (g'.declared? f' k) ∧
      Option.Rel (g.Twins g') (g.firstFound? f k) (g'.firstFound? f' k) := by
  induction f using hg.ordered.induction generalizing f' with
  | step f ih =>
  obtain ⟨⟨hne, hlt⟩, ⟨hne', hlt'⟩, hname⟩ := hfiles
  obtain ⟨ds, m, done, ho⟩ := hsourced.origin f hlt hne
  obtain ⟨ds', m', done', ho'⟩ := hsourced'.origin f' hlt' hne'
  obtain ⟨hrows, hperm⟩ := hs _ _ _ ho.declarations (hname ▸ ho'.declarations)
  obtain ⟨hforth, hback⟩ := ho.includes_twins ho' hname hperm
  have htwins : ∀ i ∈ g.includesOf f, ∀ i' ∈ g'.includesOf f', g'.nameOf i' = g.nameOf i →
      g.TwinFiles g' i i' := fun i hi i' hi' heq =>
    ⟨⟨(ho.known i hi).1, hg.ordered.lt_size_of_include hi⟩,
      ⟨(ho'.known i' hi').1, hg'.ordered.lt_size_of_include hi'⟩, heq⟩
  have hshown : g.ShownAlike g' f f' := by
    constructor
    · intro i hi
      obtain ⟨i', hi', heq⟩ := hforth i hi
      exact ⟨i', hi', fun k => ((ih i hi (htwins i hi i' hi' heq)).2 k).2⟩
    · intro i' hi'
      obtain ⟨i, hi, heq⟩ := hback i' hi'
      exact ⟨i, hi, fun k => ((ih i hi (htwins i hi i' hi' heq)).2 k).2⟩
  refine ⟨hshown, fun k => ?_⟩
  have hdeclared := ho.declared?_twins ho' hg hg' hshown hrows
    ⟨⟨hne, hlt⟩, ⟨hne', hlt'⟩, hname⟩ k
  refine ⟨hdeclared, ?_⟩
  rw [hg.ordered.firstFound?_eq hlt, hg'.ordered.firstFound?_eq hlt']
  cases hk : g.declared? f k with
  | some p =>
    obtain ⟨p', hp', hp⟩ := rel_of_eq_some hdeclared hk
    rw [hp']
    exact .some hp
  | none =>
    rw [hk] at hdeclared
    cases hk' : g'.declared? f' k with
    | some p' =>
      rw [hk'] at hdeclared
      cases hdeclared
    | none =>
      rw [Option.none_or, Option.none_or]
      exact hshown.findSome? hg fun i hi j hj => ho.agreeOn_of_undeclared hg hk hi hj

end Loaded

end Graph

end ParameterChain
