/-
# Where the files of a loaded graph come from

Every file of a loaded graph but the transient one was read from the source.  When it was
committed it was the newest file of the graph so far, behind the files that it lists, and
nothing below it has changed since (`Graph.Origin`).  So what can be said of a commit can be
said of the file in the graph that was loaded.

Of two files that describe a time feature with one base, the later one counts, and a file is
later than all the files below it; so it is kept in mind as well which file it was
(`Graph.Sourced.featured`).

What a file inherits, and what is found from it while it is resolved, can be told from what its
includes show in the graph that was loaded, as long as they agree (`Origin.find?_eq`).

Main statement: `sourced_of_load`.
-/
import ParameterChain.Proofs.Catalogue
import ParameterChain.Proofs.Rows

namespace ParameterChain

variable {source : Source} {options : LoadOptions} {g g' m : Graph} {f h : FileId} {k : Key}
  {ds : Declarations} {done : Commit} {spec : String} {includes : List FileId} {base : Key}
  {limits : Limits} {i j : FileId} {o : Outline}

namespace Graph

/-! ## Graphs that grow -/

/-- `g'` has the files of `g`, and maybe more; the transient file is left aside. -/
structure Extends (g g' : Graph) : Prop where
  size_le : g.files.size ≤ g'.files.size
  names : ∀ h < g.files.size, h ≠ transientFile → g'.nameOf h = g.nameOf h
  includes : ∀ h < g.files.size, h ≠ transientFile → g'.includesOf h = g.includesOf h
  declared : ∀ h < g.files.size, h ≠ transientFile → ∀ k, g'.declared? h k = g.declared? h k

theorem Extends.refl (g : Graph) : g.Extends g :=
  ⟨Nat.le_refl _, fun _ _ _ => rfl, fun _ _ _ => rfl, fun _ _ _ _ => rfl⟩

theorem Extends.trans (h₁ : g.Extends m) (h₂ : m.Extends g') : g.Extends g' where
  size_le := Nat.le_trans h₁.size_le h₂.size_le
  names := fun h hh hne =>
    (h₂.names h (Nat.lt_of_lt_of_le hh h₁.size_le) hne).trans (h₁.names h hh hne)
  includes := fun h hh hne =>
    (h₂.includes h (Nat.lt_of_lt_of_le hh h₁.size_le) hne).trans (h₁.includes h hh hne)
  declared := fun h hh hne k =>
    (h₂.declared h (Nat.lt_of_lt_of_le hh h₁.size_le) hne k).trans (h₁.declared h hh hne k)

theorem Extends.sameBelow (he : g.Extends g') (ho : g.Ordered) (hf : f < g.files.size)
    (hne : f ≠ transientFile) (k : Key) : g.SameBelow g' f k := by
  intro x hb
  have hx := ho.lt_size_of_below hf hb
  have hxne : x ≠ transientFile := by
    rintro rfl
    exact ho.transientFile_not_below hne hb
  exact ⟨he.includes x hx hxne, he.declared x hx hxne k⟩

/-- A file that is added and committed to leaves the others as they are. -/
theorem extends_commit
    (hc : (m.addFile spec includes).commit limits m.files.size ds = .ok done) :
    m.Extends done.graph where
  size_le := by
    rw [size_commit hc, size_addFile]
    exact Nat.le_succ _
  names := by
    intro h hh _
    rw [nameOf_commit hc, nameOf_addFile, if_neg (Nat.ne_of_lt hh)]
  includes := by
    intro h hh _
    rw [includesOf_commit hc, includesOf_addFile, if_neg (Nat.ne_of_lt hh)]
  declared := by
    intro h hh _ k
    rw [declared?_commit_of_ne hc (Nat.ne_of_lt hh), declared?_addFile]

/-! ## Origins -/

/-- How the file `f` of `g` was loaded.  The declarations `ds` were read from the source; they
were committed to `f` as the newest file of `m`, in front of the files they list; and nothing
below `f` has changed since. -/
structure Origin (source : Source) (options : LoadOptions) (g : Graph) (f : FileId)
    (ds : Declarations) (m : Graph) (done : Commit) : Prop where
  coherent : m.Coherent
  newest : m.files.size = f
  known : ∀ i ∈ g.includesOf f, i ≠ transientFile ∧ i < m.files.size
  declarations : source.declarations options.limits (g.nameOf f) = .ok ds
  specs : (g.includesOf f).map g.nameOf = options.includeSpecs (g.nameOf f) ds
  commit : (m.addFile (g.nameOf f) (g.includesOf f)).commit options.limits f ds = .ok done
  same : ∀ k, done.graph.SameBelow g f k

/-- `f` holds the value of a time feature that it describes itself. -/
def Defines (g : Graph) (f : FileId) (base : Key) : Prop :=
  ∃ p, g.declared? f base.ofValue = some p ∧ p.plan = .feature base

/-- Every file but the transient one was loaded from the source, and every time feature is
that of the last file that describes one with its base. -/
structure Sourced (source : Source) (options : LoadOptions) (g : Graph) : Prop where
  origin : ∀ f < g.files.size, f ≠ transientFile →
    ∃ ds m done, g.Origin source options f ds m done
  unfeatured : ∀ base, g.feature? base = none → ∀ f, ¬ g.Defines f base
  featured : ∀ base feature, g.feature? base = some feature →
    ∃ f ds m done, g.Origin source options f ds m done ∧ g.Defines f base ∧
      (done.features.reverse.find? fun x => x.key = base) = some feature ∧
      ∀ h, g.Defines h base → h ≤ f

theorem Origin.ne_transientFile (ho : g.Origin source options f ds m done) :
    f ≠ transientFile := by
  rw [← ho.newest]
  exact Nat.ne_of_gt ho.coherent.ordered.transientFile_lt_size

theorem Origin.extend (ho : g.Origin source options f ds m done) (hg : g.Ordered)
    (he : g.Extends g') (hf : f < g.files.size) : g'.Origin source options f ds m done := by
  have hne := ho.ne_transientFile
  have hname := he.names f hf hne
  have hincludes := he.includes f hf hne
  refine ⟨ho.coherent, ho.newest, ?_, ?_, ?_, ?_, ?_⟩
  · rw [hincludes]
    exact ho.known
  · rw [hname]
    exact ho.declarations
  · rw [hname, hincludes, ← ho.specs]
    refine List.map_congr_left fun i hi => ?_
    exact he.names i (hg.lt_size_of_include hi) (ho.known i hi).1
  · rw [hname, hincludes]
    exact ho.commit
  · exact fun k => (ho.same k).trans (he.sameBelow hg hf hne k)

/-! ## The features of a commit -/

variable {feature : TimeFeature} {d : Declaration} {p : Parameter}

theorem isValueOf_of_draftOf (hat : o.featureAt? d.key = some feature)
    (hvalue : ∃ line, d = feature.valueDeclaration line) (h : g.draftOf limits f o d = .ok p) :
    IsValueOf feature p := by
  obtain ⟨kind, resolved, hkind, hplan, rfl⟩ := draftOf_eq_ok.mp h
  rw [planOf] at hplan
  simp only [hat] at hplan
  cases pure_eq_ok.mp hplan
  obtain ⟨line, rfl⟩ := hvalue
  exact ⟨rfl, feature.key_valueName, (Option.some.inj hkind).symm, rfl, rfl⟩

/-- A file declares the values of the features that it stores; of two features with one base
it is the later one. -/
theorem exists_isValueOf_commit (hds : ds.Distinct) (hf : f < g.files.size)
    (hc : g.commit limits f ds = .ok done)
    (hlast : (done.features.reverse.find? fun x => x.key = base) = some feature) :
    ∃ p, done.graph.declared? f base.ofValue = some p ∧ IsValueOf feature p := by
  obtain ⟨o, drafts, ho, hdraft, hdone⟩ := commit_eq_ok.mp hc
  have hfeatures : done.features = o.features := by rw [← hdone]
  have hparameters : done.parameters = drafts := by rw [← hdone]
  have hat : o.featureAt? base.ofValue = some feature := by
    rw [Outline.featureAt?, ← TimeFeature.find?_base, ← hfeatures]
    exact hlast
  -- The outline has a row for the value, and it is drafted as the value of the feature.
  obtain ⟨d, hd, hkey, hvalue⟩ : ∃ d ∈ o.declarations.rows, d.key = base.ofValue ∧
      ∃ line, d = feature.valueDeclaration line := by
    obtain ⟨ks, ds', rows, -, -, -, rfl⟩ := outline_eq_ok.mp ho
    rw [Outline.featureAt?, ← List.map_reverse, List.find?_map] at hat
    obtain ⟨row, hrow, hfeature⟩ := Option.map_eq_some_iff.mp hat
    have hget := Declarations.get?_foldl_insert ds' rows base.ofValue
    have hrow : (rows.reverse.find? fun row =>
        Key.ofText row.feature.valueName = base.ofValue) = some row := hrow
    rw [hrow, Option.map_some, Option.some_or, hfeature] at hget
    exact ⟨_, mem_of_rowOf? hget, key_of_rowOf? hget, _, rfl⟩
  obtain ⟨p, hp, hresolved⟩ := exists_of_mapM (draft_eq_ok hdraft) hd
  have hvalue := isValueOf_of_draftOf (hkey ▸ hat) hvalue hresolved
  have hbase : feature.key = base := by simpa using List.find?_some hlast
  have hdeclared := declared?_of_mem_parameters hds hf hc (hparameters ▸ hp)
  rw [hvalue.key, hbase] at hdeclared
  exact ⟨p, hdeclared, hvalue⟩

/-- A commit stores a feature just when it declares the value of one with that base. -/
theorem defines_commit (hds : ds.Distinct) (hf : f < g.files.size)
    (hempty : g.declared? f base.ofValue = none) (hc : g.commit limits f ds = .ok done) :
    done.graph.Defines f base ↔
      ∃ feature, (done.features.reverse.find? fun x => x.key = base) = some feature := by
  obtain ⟨o, drafts, ho, hdraft, hdone⟩ := commit_eq_ok.mp hc
  have hfeatures : done.features = o.features := by rw [← hdone]
  have hparameters : done.parameters = drafts := by rw [← hdone]
  constructor
  · rintro ⟨p, hp, hplan⟩
    rcases declared?_commit_cases hc hp with ⟨hmem, -, -⟩ | hp
    · rw [← Option.isSome_iff_exists, List.find?_isSome, hfeatures]
      rw [hparameters] at hmem
      rcases mem_draft_cases hds ho hdraft hmem with ⟨feature, hfeature, hvalue⟩ | ⟨r, hr⟩
      · cases hplan.symm.trans hvalue.plan
        exact ⟨feature, List.mem_reverse.mpr hfeature, by simp⟩
      · have hfits := Resolution.resolve_fits hr.resolve
        rw [hplan] at hfits
        exact hfits.elim
    · rw [hempty] at hp
      cases hp
  · rintro ⟨feature, hfeature⟩
    have hbase : feature.key = base := by simpa using List.find?_some hfeature
    obtain ⟨p, hp, hvalue⟩ := exists_isValueOf_commit hds hf hc hfeature
    exact ⟨p, hp, hvalue.plan.trans (congrArg Plan.feature hbase)⟩

/-! ## Loading one file -/

theorem defines_commit_of_ne (hne : h ≠ m.files.size)
    (hc : (m.addFile spec includes).commit limits m.files.size ds = .ok done) :
    done.graph.Defines h base ↔ m.Defines h base := by
  rw [Defines, Defines, declared?_commit_of_ne hc hne, declared?_addFile]

/-- The step of a load: a file that lists its includes is committed behind them. -/
theorem Sourced.commit (hm : m.Sourced source options) (hb : m.Built)
    (hincludes : ∀ i ∈ includes, i ≠ transientFile ∧ i < m.files.size)
    (hds : source.declarations options.limits spec = .ok ds)
    (hspecs : includes.map m.nameOf = options.includeSpecs spec ds)
    (hc : (m.addFile spec includes).commit options.limits m.files.size ds = .ok done) :
    done.graph.Sourced source options := by
  have he := extends_commit hc
  have hordered := hb.coherent.ordered
  have hsize : done.graph.files.size = m.files.size + 1 := by
    rw [size_commit hc, size_addFile]
  have hne : m.files.size ≠ transientFile := Nat.ne_of_gt hordered.transientFile_lt_size
  have hname : done.graph.nameOf m.files.size = spec := by
    rw [nameOf_commit hc, nameOf_addFile, if_pos rfl]
  have hlisted : done.graph.includesOf m.files.size = includes := by
    rw [includesOf_commit hc, includesOf_addFile, if_pos rfl]
  have horigin : done.graph.Origin source options m.files.size ds m done := by
    refine ⟨hb.coherent, rfl, ?_, ?_, ?_, ?_, fun k _ _ => ⟨rfl, rfl⟩⟩
    · rw [hlisted]
      exact hincludes
    · rw [hname]
      exact hds
    · rw [hname, hlisted, ← hspecs]
      exact List.map_congr_left fun i hi => he.names i (hincludes i hi).2 (hincludes i hi).1
    · rw [hname, hlisted]
      exact hc
  have hdefines : ∀ base, done.graph.Defines m.files.size base ↔ ∃ feature,
      (done.features.reverse.find? fun x => x.key = base) = some feature := by
    intro base
    refine defines_commit (distinct_declarations hds) (by simp) ?_ hc
    rw [declared?_addFile, declared?_eq_none_of_size_le (Nat.le_refl _)]
  have hfeature : ∀ base, done.graph.feature? base =
      (done.features.reverse.find? fun x => x.key = base).or (m.feature? base) :=
    fun base => feature?_commit hc base
  refine ⟨?_, ?_, ?_⟩
  · intro h hh hhne
    by_cases hnew : h = m.files.size
    · subst hnew
      exact ⟨ds, m, done, horigin⟩
    · have hlt : h < m.files.size := by omega
      obtain ⟨ds', m', done', ho⟩ := hm.origin h hlt hhne
      exact ⟨ds', m', done', ho.extend hordered he hlt⟩
  · intro base hnone h hdefined
    rw [hfeature, Option.or_eq_none_iff] at hnone
    by_cases hnew : h = m.files.size
    · subst hnew
      obtain ⟨feature, hfound⟩ := (hdefines base).mp hdefined
      cases hnone.1.symm.trans hfound
    · exact hm.unfeatured base hnone.2 h ((defines_commit_of_ne hnew hc).mp hdefined)
  · intro base feature hfound
    rw [hfeature] at hfound
    cases hnew : done.features.reverse.find? fun x => x.key = base with
    | some feature' =>
      rw [hnew, Option.some_or] at hfound
      cases hfound
      refine ⟨_, ds, m, done, horigin, (hdefines base).mpr ⟨feature, hnew⟩, hnew, ?_⟩
      rintro h ⟨p, hp, -⟩
      have hlt := lt_size_of_declared? hp
      rw [hsize] at hlt
      exact Nat.le_of_lt_succ hlt
    | none =>
      rw [hnew, Option.none_or] at hfound
      obtain ⟨f, ds', m', done', ho, ⟨p, hp, hplan⟩, hlast, hall⟩ :=
        hm.featured base feature hfound
      have hlt := lt_size_of_declared? hp
      refine ⟨f, ds', m', done', ho.extend hordered he hlt, ?_, hlast, ?_⟩
      · exact (defines_commit_of_ne (Nat.ne_of_lt hlt) hc).mpr ⟨p, hp, hplan⟩
      · intro h hdefined
        refine hall h ((defines_commit_of_ne ?_ hc).mp hdefined)
        rintro rfl
        obtain ⟨feature', hfound'⟩ := (hdefines base).mp hdefined
        cases hnew.symm.trans hfound'

end Graph

/-! ## Loading -/

/-- What loading the specs has come to: the files `fs`, and a graph that has grown. -/
structure Sourcing (source : Source) (options : LoadOptions) (specs : List String) (g : Graph)
    (fs : List FileId) (g' : Graph) : Prop where
  built : g'.Built
  sourced : g'.Sourced source options
  grown : g.Extends g'
  loaded : ∀ f ∈ fs, f ≠ transientFile ∧ f < g'.files.size
  names : fs.map g'.nameOf = specs

open ParameterChain.Graph

theorem nameOf_of_fileOf? (hfile : g.fileOf? spec = some f) : g.nameOf f = spec := by
  have hfound : f ≠ transientFile ∧ g.nameOf f = spec := by simpa using List.find?_some hfile
  exact hfound.2

/-- Several files in turn, given what one of them does. -/
theorem sourcing_mapM {load : String → Loader FileId}
    (hload : ∀ spec g f g', g.Built → g.Sourced source options →
      (load spec).run g = .ok (f, g') → Sourcing source options [spec] g [f] g') :
    ∀ {specs : List String} {g : Graph} {fs : List FileId}, g.Built →
      g.Sourced source options → (specs.mapM load).run g = .ok (fs, g') →
        Sourcing source options specs g fs g' := by
  intro specs
  induction specs with
  | nil =>
    intro g fs hb hg hl
    rw [List.mapM_nil, Loader.pure_eq_ok] at hl
    obtain ⟨rfl, rfl⟩ := hl
    exact ⟨hb, hg, .refl g, fun f hf => absurd hf List.not_mem_nil, rfl⟩
  | cons spec specs ih =>
    intro g fs hb hg hl
    simp only [List.mapM_cons, Loader.bind_eq_ok, Loader.pure_eq_ok] at hl
    obtain ⟨f, m, hfirst, fs, g₁, hrest, rfl, rfl⟩ := hl
    have hfirst := hload spec g f m hb hg hfirst
    have hrest := ih hfirst.built hfirst.sourced hrest
    obtain ⟨hne, hlt⟩ := hfirst.loaded f List.mem_cons_self
    refine ⟨hrest.built, hrest.sourced, hfirst.grown.trans hrest.grown, ?_, ?_⟩
    · intro x hx
      rcases List.mem_cons.mp hx with rfl | hx
      · exact ⟨hne, Nat.lt_of_lt_of_le hlt hrest.grown.size_le⟩
      · exact hrest.loaded x hx
    · have hname : m.nameOf f = spec := List.singleton_inj.mp hfirst.names
      rw [List.map_cons, hrest.grown.names f hlt hne, hname, hrest.names]

theorem sourcing_loadFile (fuel : Nat) :
    ∀ path spec g f g', g.Built → g.Sourced source options →
      (source.loadFile options fuel path spec).run g = .ok (f, g') →
        Sourcing source options [spec] g [f] g' := by
  have hfound : ∀ {spec : String} {g : Graph} {f : FileId}, g.Built →
      g.Sourced source options → g.fileOf? spec = some f →
        Sourcing source options [spec] g [f] g := by
    intro spec g f hb hg hfile
    refine ⟨hb, hg, .refl g, ?_, congrArg (fun name => [name]) (nameOf_of_fileOf? hfile)⟩
    exact fun x hx => List.mem_singleton.mp hx ▸ fileOf?_eq_some hfile
  induction fuel with
  | zero =>
    intro path spec g f g' hb hg hl
    rcases loadFile_eq_ok hl with ⟨hfile, rfl⟩ | ⟨n, -, -, -, -, hn, -⟩
    · exact hfound hb hg hfile
    · cases hn
  | succ n ih =>
    intro path spec g f g' hb hg hl
    have hgrown := grown_loadFile (n + 1) path spec g f g' hb hl
    rcases loadFile_eq_ok hl with ⟨hfile, rfl⟩ |
        ⟨n', ds, includes, m, done, hn, -, -, hds, hincludes, hc, rfl, rfl⟩
    · exact hfound hb hg hfile
    · cases hn
      have hm := sourcing_mapM (ih (spec :: path)) hb hg hincludes
      refine ⟨hgrown.built, hm.sourced.commit hm.built hm.loaded hds hm.names hc,
        hm.grown.trans (extends_commit hc), hgrown.loaded, ?_⟩
      have hname : done.graph.nameOf m.files.size = spec := by
        rw [nameOf_commit hc, nameOf_addFile, if_pos rfl]
      exact congrArg (fun name => [name]) hname

theorem sourced_empty : ({} : Graph).Sourced source options where
  origin := by
    intro f hf hne
    exact absurd (Nat.lt_one_iff.mp hf) hne
  unfeatured := by
    rintro base - f ⟨p, hp, -⟩
    cases f <;> cases hp
  featured := by
    intro base feature hfeature
    cases hfeature

/-- In a load that succeeds the top file and all that it includes were loaded from the source,
and the transient file was put in front. -/
theorem sourced_of_load {top : String} (hl : source.load options top = .ok g) :
    g.Sourced source options ∧ ∀ k, g.declared? transientFile k = none := by
  simp only [Source.load, bind_eq_ok, pure_eq_ok] at hl
  obtain ⟨⟨t, m⟩, hload, done, hc, rfl⟩ := hl
  obtain ⟨hb, hm, -, -, -⟩ :=
    sourcing_loadFile options.limits.includeDepth [] top {} t m .empty sourced_empty hload
  have hordered := hb.coherent.ordered
  have hsize := hordered.transientFile_lt_size
  have he : m.Extends done.graph := by
    refine ⟨?_, ?_, ?_, ?_⟩
    · have hsame : done.graph.files.size = m.files.size := by
        rw [size_commit hc, size_setIncludes]
      exact Nat.le_of_eq hsame.symm
    · intro h _ _
      rw [nameOf_commit hc, nameOf_setIncludes]
    · intro h _ hne
      rw [includesOf_commit hc, includesOf_setIncludes _ _ _ _ hsize, if_neg hne]
    · intro h _ _ k
      exact declared?_root hc h k
  have hnone : done.features = [] := by
    obtain ⟨o, drafts, ho, -, rfl⟩ := commit_eq_ok.mp hc
    exact (outline_eq_ok_of_featureless (fun d hd => absurd hd List.not_mem_nil) ho).1
  have hfeature : ∀ base, done.graph.feature? base = m.feature? base := by
    intro base
    rw [feature?_commit hc, hnone]
    rfl
  have hdefines : ∀ h base, done.graph.Defines h base ↔ m.Defines h base := by
    intro h base
    rw [Defines, Defines, declared?_root hc]
  refine ⟨⟨?_, ?_, ?_⟩, ?_⟩
  · intro h hh hne
    have hh : h < m.files.size := by simpa [size_commit hc] using hh
    obtain ⟨ds, m', done', ho⟩ := hm.origin h hh hne
    exact ⟨ds, m', done', ho.extend hordered he hh⟩
  · intro base hfound h
    rw [hdefines]
    exact hm.unfeatured base (hfeature base ▸ hfound) h
  · intro base feature hfound
    rw [hfeature] at hfound
    obtain ⟨f, ds, m', done', ho, hdefined, hlast, hall⟩ := hm.featured base feature hfound
    obtain ⟨p, hp, hplan⟩ := hdefined
    refine ⟨f, ds, m', done', ho.extend hordered he (lt_size_of_declared? hp), ?_, hlast, ?_⟩
    · exact (hdefines f base).mpr ⟨p, hp, hplan⟩
    · exact fun h hh => hall h ((hdefines h base).mp hh)
  · intro k
    rw [declared?_root hc, hb.declared?_transientFile]

namespace Graph

/-! ## A file as it was committed -/

/-- Along a chain that has just been made linear a settled key is found where a walk finds
it. -/
theorem Ordered.find?_linearize (ho : g.Ordered) (hf : f < g.files.size)
    (hsettled : g.Settled f k) : (g.linearize f).find? f k = g.firstFound? f k := by
  have hdeclared : ∀ h, (g.linearize f).declared? h k = g.declared? h k := by
    intro h
    rw [Graph.linearize, declared?_link]
  rw [find?, (ho.chain_linearize hf).1]
  simp only [hdeclared]
  rcases hsettled with hnone | ⟨w, hlead, hw⟩
  · have hno := (ho.firstFound?_eq_none_iff hf).mp hnone
    rw [hnone]
    exact List.findSome?_eq_none_iff.mpr fun h hh => hno h ((ho.mem_linearOrder hf).mp hh)
  · rw [hw]
    refine findSome?_eq_of_followed (nodup_lastPlaces _) (ho.followed_linearOrder hf)
      ((ho.mem_linearOrder hf).mpr hlead.below) hlead.declares fun h hh => ?_
    exact hlead.above h ((ho.mem_linearOrder hf).mp hh)

/-- What has no place in the outline was not declared. -/
theorem get?_eq_none_of_outline (hout : g.outline f ds = .ok o)
    (hk : o.declarations.get? k = none) : ds.get? k = none := by
  refine Option.eq_none_iff_forall_ne_some.mpr fun d hd => ?_
  obtain ⟨d', hd', hkey⟩ := List.mem_map.mp (mem_keys_outline hout (mem_of_rowOf? hd))
  have hkey : d'.key = k := hkey.trans (key_of_rowOf? hd)
  exact List.find?_eq_none.mp hk d' hd' (decide_eq_true hkey)

section Origin

variable (ho : g.Origin source options f ds m done) (hg : g.Coherent)

include ho

theorem Origin.lt_size_addFile : f < (m.addFile (g.nameOf f) (g.includesOf f)).files.size := by
  rw [size_addFile, ho.newest]
  exact Nat.lt_succ_self f

/-- A file declares what was committed to it. -/
theorem Origin.declared?_eq (k : Key) :
    g.declared? f k = rowOf? Parameter.key k done.parameters := by
  have hds := distinct_declarations ho.declarations
  have hf := ho.lt_size_addFile
  rw [(ho.same k f (Below.refl _ _)).2]
  refine Option.ext fun p => ?_
  rw [rowOf?_eq_some (nodup_keys_commit hds ho.commit)]
  constructor
  · intro hp
    rcases declared?_commit_cases ho.commit hp with ⟨hmem, -, hkey⟩ | hp
    · exact ⟨hmem, hkey⟩
    · rw [declared?_addFile, declared?_eq_none_of_size_le (Nat.le_of_eq ho.newest)] at hp
      cases hp
  · rintro ⟨hmem, rfl⟩
    exact declared?_of_mem_parameters hds hf ho.commit hmem

theorem Origin.ordered_addFile : (m.addFile (g.nameOf f) (g.includesOf f)).Ordered :=
  Graph.ordered_addFile ho.coherent.ordered ho.known

theorem Origin.includesOf_addFile :
    (m.addFile (g.nameOf f) (g.includesOf f)).includesOf f = g.includesOf f := by
  rw [Graph.includesOf_addFile, if_pos ho.newest.symm]

/-- Below the includes of the file nothing has changed since it was added. -/
theorem Origin.sameBelow_include (hi : i ∈ g.includesOf f) (k : Key) :
    (m.addFile (g.nameOf f) (g.includesOf f)).SameBelow g i k := by
  have hlt := (ho.known i hi).2
  have hnot := not_below_addFile ho.coherent.ordered hlt (g.nameOf f) (g.includesOf f)
  rw [ho.newest] at hnot
  have hi' : i ∈ done.graph.includesOf f := by
    rw [includesOf_commit ho.commit, ho.includesOf_addFile]
    exact hi
  exact (sameBelow_commit ho.commit hnot k).trans ((ho.same k).include hi')

include hg

theorem Origin.firstFound?_eq (hi : i ∈ g.includesOf f) (k : Key) :
    (m.addFile (g.nameOf f) (g.includesOf f)).firstFound? i k = g.firstFound? i k := by
  have hlt := (ho.known i hi).2
  refine ((ho.sameBelow_include hi k).firstFound?_eq ho.ordered_addFile hg.ordered ?_ ?_).symm
  · rw [size_addFile]
    exact Nat.lt_succ_of_lt hlt
  · exact hg.ordered.lt_size_of_include hi

/-- The file inherits from what its includes show. -/
theorem Origin.ancestors_eq (k : Key) :
    (m.addFile (g.nameOf f) (g.includesOf f)).ancestors f k =
      (g.includesOf f).filterMap (g.firstFound? · k) := by
  rw [ancestors, rootsOf, if_neg ho.ne_transientFile, ho.includesOf_addFile]
  exact List.filterMap_congr fun i hi => ho.firstFound?_eq hg hi k

/-- The includes agree on a key, or the file settles it in absolute terms. -/
theorem Origin.agreeOn
    (hout : (m.addFile (g.nameOf f) (g.includesOf f)).outline f ds = .ok o)
    (hi : i ∈ g.includesOf f) (hj : j ∈ g.includesOf f) (k : Key) :
    g.AgreeOn k i j ∨ k ∈ o.contested ∧ (ds.get? k).isSome := by
  obtain ⟨ks, ds', rows, hks, -, -, rfl⟩ := outline_eq_ok.mp hout
  have hagree := agreeOn_of_contested (k := k) hks (ho.includesOf_addFile ▸ hi)
    (ho.includesOf_addFile ▸ hj)
  refine hagree.imp_left fun hslots p q hp hq => ?_
  rw [← ho.firstFound?_eq hg hi] at hp
  rw [← ho.firstFound?_eq hg hj] at hq
  exact hslots p q hp hq

/-- The includes agree on what the file does not declare. -/
theorem Origin.agreeOn_of_undeclared (hk : g.declared? f k = none) (hi : i ∈ g.includesOf f)
    (hj : j ∈ g.includesOf f) : g.AgreeOn k i j := by
  obtain ⟨o, -, hout, -, -⟩ := commit_eq_ok.mp ho.commit
  refine (ho.agreeOn hg hout hi hj k).resolve_right ?_
  rintro ⟨-, hsome⟩
  obtain ⟨d, hd⟩ := Option.isSome_iff_exists.mp hsome
  have hdeclared := isSome_declared?_commit ho.commit ho.lt_size_addFile (mem_of_rowOf? hd)
  rw [key_of_rowOf? hd, ← (ho.same k f (Below.refl _ _)).2, hk] at hdeclared
  cases hdeclared

/-- While the file is resolved, a key that it does not declare is looked up where its includes
show it. -/
theorem Origin.find?_eq
    (hout : (m.addFile (g.nameOf f) (g.includesOf f)).outline f ds = .ok o)
    (hk : o.declarations.get? k = none) :
    ((m.addFile (g.nameOf f) (g.includesOf f)).linearize f).find? f k =
      (g.includesOf f).findSome? (g.firstFound? · k) := by
  have hnew := ho.ordered_addFile
  have hf := ho.lt_size_addFile
  have hempty : (m.addFile (g.nameOf f) (g.includesOf f)).declared? f k = none := by
    rw [declared?_addFile, declared?_eq_none_of_size_le (Nat.le_of_eq ho.newest)]
  have hundeclared := get?_eq_none_of_outline hout hk
  have hsettled : (m.addFile (g.nameOf f) (g.includesOf f)).Settled f k := by
    refine settled_of_arms hnew (ho.coherent.home.addFile _ _) hf ?_ (Or.inr ?_)
    · intro i hi
      rw [ho.includesOf_addFile] at hi
      have hlt := (ho.known i hi).2
      refine (sameBelow_addFile ho.coherent.ordered hlt _ _ k).settled ho.coherent.ordered hnew
        hlt ?_ (ho.coherent.settled i hlt k)
      rw [size_addFile]
      exact Nat.lt_succ_of_lt hlt
    · intro i hi j hj
      obtain ⟨ks, ds', rows, hks, -, -, rfl⟩ := outline_eq_ok.mp hout
      refine (agreeOn_of_contested hks hi hj).resolve_right ?_
      rintro ⟨-, hsome⟩
      rw [hundeclared] at hsome
      cases hsome
  have hshown : (m.addFile (g.nameOf f) (g.includesOf f)).firstFound? f k =
      (g.includesOf f).findSome? (g.firstFound? · k) := by
    rw [hnew.firstFound?_eq hf, hempty, Option.none_or, ho.includesOf_addFile]
    exact findSome?_congr fun i hi => ho.firstFound?_eq hg hi k
  rw [← hshown, hnew.find?_linearize hf hsettled]

end Origin

end Graph

end ParameterChain
