/-
# The last edit of a name counts

An edit of a name that exists already puts one parameter into the transient file, in place of
the one that stood there under the same key, and leaves everything else as it was
(`Graph.Overwritten`).  The type of that parameter is taken from what the name had, its value
is resolved by looking at the types that names have, and an inherited value comes from above
the transient file.  Edits change none of this (`Graph.TypedAlike`), so that the same
declaration makes the same parameter whether it is the first edit or the second.

Hence an edit is all that is left of two edits of one name, and edits of different names can
be made in either order.

Main statement: `Session.readsAlike_apply`.
-/
import ParameterChain.Proofs.OneType
import ParameterChain.Proofs.Reordered

namespace ParameterChain

/-- The declaration with a kind and a marker. -/
def Declaration.typed (d : Declaration) (type : Kind × Bool) : Declaration :=
  { d with kind := some type.1, changeable := type.2 }

/-- A declaration that is not refused has the type of what it overrides. -/
theorem typed_of_inherit {inTransient : Bool} {d d' : Declaration} {q : Parameter}
    (h : d.inherit inTransient q = .ok d') : d.typed q.type = d' := by
  have hinherits := inherit_eq_ok h
  obtain ⟨hkind, hmarker⟩ := hinherits.agrees q (List.mem_singleton_self q)
  cases hd : d.kind with
  | none =>
    simp only [Declaration.inherit, hd, Except.ok.injEq] at h
    exact h
  | some kind =>
    rw [hinherits.kept (by rw [hd]; rfl)] at hkind hmarker
    rw [hinherits.kept (by rw [hd]; rfl), Declaration.typed, Parameter.type, ← hkind, ← hmarker]

namespace Graph

variable {g g' g'' : Graph} {f : FileId} {k : Key} {ds : Declarations} {d : Declaration}
  {limits : Limits} {o : Outline} {done : Commit} {p q : Parameter}

/-! ## What an edit is made of -/

/-- Every name that is visible in one graph is visible in the other, with the same type, and
above the transient file nothing is different. -/
structure TypedAlike (g g' : Graph) : Prop where
  types : ∀ k, (g'.visible? k).map Parameter.type = (g.visible? k).map Parameter.type
  above : ∀ k, g'.above? transientFile k = g.above? transientFile k

/-- The parameter that a declaration puts into the transient file where it overrides one of
the given type. -/
def overriding (g : Graph) (limits : Limits) (d : Declaration) (type : Kind × Bool) :
    Attempt Parameter := do
  let resolved ← ({ declaration := d.typed type
                    kind := type.1
                    scope := g.scope transientFile { rows := [d.typed type] } d.key
                    maxLength := limits.vectorLength } : Resolution).resolve
  return {
    name := d.name
    kind := type.1
    changeable := type.2
    unit := resolved.unit
    rawValue := d.rawValue
    file := transientFile
    plan := resolved.plan }

theorem overriding_congr (hg : g.TypedAlike g') (limits : Limits) (d : Declaration)
    (type : Kind × Bool) : g'.overriding limits d type = g.overriding limits d type := by
  have hkind : ∀ k, (g'.find? transientFile k).map Parameter.kind =
      (g.find? transientFile k).map Parameter.kind := by
    intro k
    have htypes := congrArg (Option.map Prod.fst) (hg.types k)
    rw [Option.map_map, Option.map_map] at htypes
    exact htypes
  simp only [overriding, scope, hkind, hg.above]

theorem overriding_eq_ok {type : Kind × Bool} (h : g.overriding limits d type = .ok p) :
    p.key = d.key ∧ p.type = type := by
  simp only [overriding, bind_eq_ok, pure_eq_ok] at h
  obtain ⟨resolved, -, rfl⟩ := h
  exact ⟨rfl, rfl⟩

/-- The draft of one declaration is one parameter. -/
theorem draft_of_single {drafts : List Parameter} (hrows : o.declarations.rows = [d])
    (h : g.draft limits f o = .ok drafts) :
    ∃ p, g.draftOf limits f o d = .ok p ∧ drafts = [p] := by
  have hdrafts := draft_eq_ok h
  rw [hrows] at hdrafts
  simp only [List.mapM_cons, List.mapM_nil, bind_eq_ok, pure_eq_ok] at hdrafts
  obtain ⟨p, hp, _, rfl, rfl⟩ := hdrafts
  exact ⟨p, hp, rfl⟩

section Commit

variable (hg : g.Whole) (hds : ds.rows = [d]) (hfree : d.key.featureBase? = none)
  (hq : g.visible? d.key = some q)

include hg hds hfree hq

theorem outline_of_visible (ho : g.outline transientFile ds = .ok o) :
    o.declarations.rows = [d.typed q.type] ∧ o.features = [] := by
  have hancestors : g.ancestors transientFile d.key = [q] := by
    rw [(hg.visible?_eq d.key).1] at hq
    simp [ancestors, rootsOf, hq]
  obtain ⟨ks, kinds, rows, -, hkinds, hrows, rfl⟩ := outline_eq_ok.mp ho
  simp only [inheritKinds, bind_eq_ok, pure_eq_ok, hds, List.mapM_cons, List.mapM_nil, hancestors,
    List.foldlM_cons, List.foldlM_nil] at hkinds
  obtain ⟨_, ⟨_, ⟨d', hinherit, rfl⟩, _, rfl, rfl⟩, rfl⟩ := hkinds
  obtain rfl := typed_of_inherit hinherit
  obtain rfl : rows = [] := by
    refine featureRows_eq_nil (fun d' hd' => ?_) hrows
    cases List.mem_singleton.mp hd'
    exact hfree
  exact ⟨rfl, rfl⟩

/-- A declaration of a name that exists is committed to the transient file as a single
parameter. -/
theorem overriding_of_commit (hc : g.commit limits transientFile ds = .ok done) :
    ∃ p, g.overriding limits d q.type = .ok p ∧ done.parameters = [p] ∧ done.features = [] := by
  obtain ⟨o, drafts, ho, hdraft, rfl⟩ := commit_eq_ok.mp hc
  obtain ⟨hrows, hfeatures⟩ := outline_of_visible hg hds hfree hq ho
  rw [hg.linearize_eq] at hdraft
  obtain ⟨p, hp, rfl⟩ := draft_of_single hrows hdraft
  obtain ⟨kind, resolved, hkind, hplan, rfl⟩ := draftOf_eq_ok.mp hp
  cases hkind
  simp only [planOf, Outline.featureAt?, hfeatures, List.reverse_nil, List.find?_nil, bind_eq_ok]
    at hplan
  obtain ⟨resolved', hresolve, hrest⟩ := hplan
  have hscope : g.scope transientFile o.declarations (d.typed q.type).key =
      g.scope transientFile { rows := [d.typed q.type] } d.key := by
    simp only [scope, Declarations.get?, hrows]
    rfl
  rw [hscope] at hresolve
  have hsame : resolved' = resolved := by
    split at hrest
    · cases hrest
    · exact pure_eq_ok.mp hrest
  subst hsame
  refine ⟨_, ?_, rfl, hfeatures⟩
  simp only [overriding, bind_eq_ok, pure_eq_ok]
  exact ⟨resolved', hresolve, rfl⟩

end Commit

/-! ## One parameter put in place of another -/

/-- The chain starts with the transient file and does not come back to it. -/
theorem Whole.exists_chain (hg : g.Whole) :
    ∃ rest, g.chain transientFile = transientFile :: rest ∧ transientFile ∉ rest := by
  have hsize := hg.ordered.transientFile_lt_size
  obtain ⟨rest, hrest⟩ := hg.ordered.linearOrder_eq_cons hsize
  have hnodup : (transientFile :: rest).Nodup := hrest ▸ nodup_lastPlaces _
  exact ⟨rest, (hg.ordered.chain_eq hsize hg.linked).trans hrest, (List.nodup_cons.mp hnodup).1⟩

/-- `g'` is `g` with `p` in the transient file, in place of what stood there under its key. -/
structure Overwritten (g : Graph) (p : Parameter) (g' : Graph) : Prop where
  size : g'.files.size = g.files.size
  includes : ∀ f, g'.includesOf f = g.includesOf f
  names : ∀ f, g'.nameOf f = g.nameOf f
  parents : ∀ f, g'.parentOf? f = g.parentOf? f
  declared : ∀ f k, g'.declared? f k =
    if f = transientFile ∧ k = p.key then some p else g.declared? f k
  features : g'.features = g.features
  clock : g'.clock = g.clock

theorem overwritten_commit (hg : g.Whole) (hc : g.commit limits transientFile ds = .ok done)
    (hone : done.parameters = [p]) (hnone : done.features = []) :
    g.Overwritten p done.graph where
  size := size_commit hc
  includes := includesOf_commit hc
  names := nameOf_commit hc
  parents := by
    intro f
    rw [parentOf?_commit hc, hg.linearize_eq]
  declared := by
    intro f k
    have hfile : p.file = transientFile :=
      file_of_commit hc (hone ▸ List.mem_singleton_self p)
    by_cases hf : f < g.files.size
    · have hslot : p.slot = ⟨f, k⟩ ↔ f = transientFile ∧ k = p.key := by
        rw [Parameter.slot, Slot.mk.injEq, hfile, eq_comm, @eq_comm _ p.key]
      rw [declared?_commit hc hf, hone, List.reverse_singleton, List.find?_singleton]
      simp only [decide_eq_true_eq, hslot]
      split
      · rfl
      · rfl
    · have hle := Nat.le_of_not_lt hf
      rw [if_neg, declared?_eq_none_of_size_le (size_commit hc ▸ hle),
        declared?_eq_none_of_size_le hle]
      rintro ⟨rfl, -⟩
      exact hf hg.ordered.transientFile_lt_size
  features := by rw [features_commit hc, hnone, List.foldl_nil]
  clock := clock_commit hc

namespace Overwritten

/-- The parameter that is put in place is what reads see. -/
theorem visible?_key (hg : g.Whole) (hc : g.commit limits transientFile ds = .ok done)
    (hp : g.Overwritten p done.graph) : done.graph.visible? p.key = some p := by
  obtain ⟨rest, hrest, -⟩ := hg.exists_chain
  rw [visible?, find?, chain_commit hg hc, hrest]
  simp [hp.declared]

/-- What goes by other names is seen as before. -/
theorem visible?_of_ne (hg : g.Whole) (hc : g.commit limits transientFile ds = .ok done)
    (hone : done.parameters = [p]) (hk : k ≠ p.key) :
    done.graph.visible? k = g.visible? k := by
  have hfresh : ∀ p' ∈ done.parameters, p'.key ≠ k := by
    intro p' hp' hkey
    rw [hone, List.mem_singleton] at hp'
    exact hk (hkey.symm.trans (congrArg Parameter.key hp'))
  rw [visible?, find?_commit_of_fresh hg hc hfresh, visible?]

/-- After the parameter is put in place names have the types they had, if it has the type of
what it overrides. -/
theorem typedAlike_commit (hg : g.Whole) (hc : g.commit limits transientFile ds = .ok done)
    (hp : g.Overwritten p done.graph) (hone : done.parameters = [p])
    (hq : g.visible? p.key = some q) (htype : p.type = q.type) : g.TypedAlike done.graph where
  types := by
    intro k
    by_cases hk : k = p.key
    · rw [hk, hp.visible?_key hg hc, hq, Option.map_some, Option.map_some, htype]
    · rw [visible?_of_ne hg hc hone hk]
  above := above?_commit hg hc transientFile

/-- Of two parameters with one key the second is left. -/
theorem again {p' : Parameter} (h : g.Overwritten p g') (h' : g'.Overwritten p' g'')
    (hkey : p'.key = p.key) : g.Overwritten p' g'' where
  size := h'.size.trans h.size
  includes := fun f => (h'.includes f).trans (h.includes f)
  names := fun f => (h'.names f).trans (h.names f)
  parents := fun f => (h'.parents f).trans (h.parents f)
  declared := by
    intro f k
    rw [h'.declared, h.declared, hkey]
    split
    · rfl
    · rfl
  features := h'.features.trans h.features
  clock := h'.clock.trans h.clock

/-- There is one way to put a parameter in place, but for the order of what a file keeps. -/
theorem reordered (h' : g.Overwritten p g') (h'' : g.Overwritten p g'') : g'.Reordered g'' where
  size := h''.size.trans h'.size.symm
  includes := fun f => (h''.includes f).trans (h'.includes f).symm
  names := fun f => (h''.names f).trans (h'.names f).symm
  parents := fun f => (h''.parents f).trans (h'.parents f).symm
  declared := fun f k => (h''.declared f k).trans (h'.declared f k).symm
  features := by
    intro base
    rw [feature?, feature?, h''.features, h'.features]
  clock := h''.clock.trans h'.clock.symm

/-- Parameters with different keys can be put in place in either order. -/
theorem swap {gp gpq gq gqp : Graph} (hp : g.Overwritten p gp) (hpq : gp.Overwritten q gpq)
    (hq : g.Overwritten q gq) (hqp : gq.Overwritten p gqp) (hne : p.key ≠ q.key) :
    gpq.Reordered gqp where
  size := by rw [hqp.size, hq.size, hpq.size, hp.size]
  includes := by
    intro f
    rw [hqp.includes, hq.includes, hpq.includes, hp.includes]
  names := by
    intro f
    rw [hqp.names, hq.names, hpq.names, hp.names]
  parents := by
    intro f
    rw [hqp.parents, hq.parents, hpq.parents, hp.parents]
  declared := by
    intro f k
    rw [hqp.declared, hq.declared, hpq.declared, hp.declared]
    by_cases hkp : f = transientFile ∧ k = p.key
    · rw [if_pos hkp, if_neg fun hkq => hne (hkp.2.symm.trans hkq.2), if_pos hkp]
    · rw [if_neg hkp, if_neg hkp]
  features := by
    intro base
    rw [feature?, feature?, hqp.features, hq.features, hpq.features, hp.features]
  clock := by rw [hqp.clock, hq.clock, hpq.clock, hp.clock]

end Overwritten

end Graph

/-! ## Sessions -/

namespace Session

variable {s s' s₁ : Session} {c : Change} {ds : Declarations} {d : Declaration} {n : Name}
  {p q : Parameter}

/-- The session with its clock set to `time`. -/
def atTime (s : Session) (time : Float) : Session :=
  { s with graph := { s.graph with clock := time } }

/-- The sessions cannot be told apart by reading.  The same parameters are visible, at any time
every reading of every name gives the same, whoever reads, and the files of the chain show
the same raw values. -/
structure ReadsAlike (s s' : Session) : Prop where
  visible : s'.graph.visible = s.graph.visible
  find : ∀ name, s'.find? name = s.find? name
  get : ∀ time consumer name reading, ((s'.atTime time).get consumer name reading).1 =
    ((s.atTime time).get consumer name reading).1
  chain : ∀ k, s'.valuesInChain k = s.valuesInChain k

/-- Names that are read alike with every expectation are read alike in every way. -/
theorem fst_get_of_fst_read {consumer : Option String} {name : String}
    (hread : ∀ e, (s'.read consumer name e).1 = (s.read consumer name e).1) (reading : Reading) :
    (s'.get consumer name reading).1 = (s.get consumer name reading).1 := by
  cases reading with
  | any => exact hread .any
  | ofKind k => exact hread (.ofKind k)
  | ofCategory k category => exact hread (.ofCategory k category)
  | inUnit unit =>
    simp only [get]
    cases MeasureUnit.ofSymbol? unit with
    | none => rfl
    | some u => exact congrArg (Except.map (Value.inUnits u.factor)) (hread _)
  | ofLength n category =>
    simp only [get]
    rw [hread]

/-- What a reading gives depends on the graph only and on the limits. -/
theorem fst_get_congr (hlimits : s'.limits = s.limits)
    (hreads : s.graph.ReadsAlike s.limits s'.graph) (time : Float) (consumer : Option String)
    (name : String) (reading : Reading) : ((s'.atTime time).get consumer name reading).1 =
      ((s.atTime time).get consumer name reading).1 := by
  refine fst_get_of_fst_read (fun e => ?_) reading
  rw [fst_read, fst_read, atTime, atTime, hlimits]
  exact hreads time name e

theorem readsAlike_of_reordered (hhome : s.graph.AtHome) (hlimits : s'.limits = s.limits)
    (hg : s.graph.Reordered s'.graph) : s.ReadsAlike s' where
  visible := hg.visible_eq
  find := fun name => hg.visible?_eq (Key.ofText name)
  get := fst_get_congr hlimits (hg.readsAlike hhome s.limits)
  chain := by
    intro k
    rw [valuesInChain, valuesInChain, hg.chain_eq]
    simp only [hg.declared, hg.names]

/-- An edit of a name that exists puts the parameter in place that its declaration makes, and
names keep their types. -/
theorem overwritten_apply (hr : s.graph.Rooted) (hc : c.declarations = .ok (ds, d))
    (happly : s.apply c true = (.ok n, s')) (hfree : d.key.featureBase? = none)
    (hq : s.graph.visible? d.key = some q) :
    ∃ p, s.graph.overriding s.limits d q.type = .ok p ∧ s.graph.Overwritten p s'.graph ∧
      s.graph.TypedAlike s'.graph ∧ s'.graph.Rooted ∧ s'.limits = s.limits := by
  have hg := hr.whole
  have hds := rows_of_declarations hc
  obtain ⟨ds', d', done, hc', -, hdone, rfl, -⟩ := edit_eq_ok.mp ((apply_eq_ok hg).mp happly)
  cases hc.symm.trans hc'
  obtain ⟨p, hp, hone, hnone⟩ := Graph.overriding_of_commit hg hds hfree hq hdone
  obtain ⟨hkey, htype⟩ := Graph.overriding_eq_ok hp
  have hover := Graph.overwritten_commit hg hdone hone hnone
  rw [← hkey] at hq
  exact ⟨p, hp, hover, hover.typedAlike_commit hg hdone hone hq htype,
    .edit hr (distinct_of_declarations hc) hdone, rfl⟩

/-- After another edit the same edit puts the same parameter in place. -/
theorem overwritten_apply_of_typedAlike (hr : s.graph.Rooted)
    (hc : c.declarations = .ok (ds, d)) (happly : s.apply c true = (.ok n, s'))
    (hfree : d.key.featureBase? = none) (hlimits : s.limits = s₁.limits)
    (htyped : s₁.graph.TypedAlike s.graph) (hq : s₁.graph.visible? d.key = some q)
    (hp : s₁.graph.overriding s₁.limits d q.type = .ok p) :
    s.graph.Overwritten p s'.graph ∧ s'.graph.Rooted ∧ s'.limits = s.limits := by
  have htypes := htyped.types d.key
  rw [hq, Option.map_some] at htypes
  obtain ⟨q', hq', htype⟩ := Option.map_eq_some_iff.mp htypes
  obtain ⟨p', hp', hover, -, hrooted, hkept⟩ := overwritten_apply hr hc happly hfree hq'
  rw [Graph.overriding_congr htyped, hlimits, htype, hp] at hp'
  cases hp'
  exact ⟨hover, hrooted, hkept⟩

/-- The transient file is a map in which the last write counts.  Let a session have been loaded
and anything have been done to it, and let two edits be made of names that exist and are not
those of time features.

  * If both are of one name then after both of them everything reads as it does after the second
    alone.
  * If they are of different names then after both of them everything reads as it does after
    both in the other order. -/
theorem readsAlike_apply {source : Source} {options : LoadOptions} {top : String}
    (hload : Session.load source options top = .ok s) (steps : List Step) {c₁ c₂ : Change}
    {n₁ n₂ m₂ : Name} {s₁ s₂ s₁₂ : Session}
    (h₁ : (s.run steps).apply c₁ true = (.ok n₁, s₁))
    (h₁₂ : s₁.apply c₂ true = (.ok m₂, s₁₂))
    (h₂ : (s.run steps).apply c₂ true = (.ok n₂, s₂))
    (hhas₁ : (s.run steps).has n₁.text = true) (hhas₂ : (s.run steps).has n₂.text = true)
    (hfree₁ : n₁.key.featureBase? = none) (hfree₂ : n₂.key.featureBase? = none) :
    (n₁.key = n₂.key → s₂.ReadsAlike s₁₂) ∧
      (n₁.key ≠ n₂.key → ∀ m₁ s₂₁, s₂.apply c₁ true = (.ok m₁, s₂₁) → s₁₂.ReadsAlike s₂₁) := by
  have hr := rooted_run (rooted_load hload) steps
  generalize s.run steps = u at h₁ h₂ hhas₁ hhas₂ hr
  obtain ⟨ds₁, d₁, -, hc₁, -, -, -, rfl⟩ := edit_eq_ok.mp ((apply_eq_ok hr.whole).mp h₁)
  obtain ⟨ds₂, d₂, -, hc₂, -, -, -, rfl⟩ := edit_eq_ok.mp ((apply_eq_ok hr.whole).mp h₂)
  rw [has, find?, ← Name.key_eq] at hhas₁ hhas₂
  obtain ⟨q₁, hq₁⟩ := Option.isSome_iff_exists.mp hhas₁
  obtain ⟨q₂, hq₂⟩ := Option.isSome_iff_exists.mp hhas₂
  obtain ⟨p₁, hp₁, hover₁, htyped₁, hr₁, hlimits₁⟩ :=
    overwritten_apply hr hc₁ h₁ hfree₁ hq₁
  obtain ⟨p₂, hp₂, hover₂, htyped₂, hr₂, hlimits₂⟩ :=
    overwritten_apply hr hc₂ h₂ hfree₂ hq₂
  obtain ⟨hover₁₂, hr₁₂, hlimits₁₂⟩ :=
    overwritten_apply_of_typedAlike hr₁ hc₂ h₁₂ hfree₂ hlimits₁ htyped₁ hq₂ hp₂
  have hkey₁ := (Graph.overriding_eq_ok hp₁).1
  have hkey₂ := (Graph.overriding_eq_ok hp₂).1
  constructor
  · intro hsame
    have hkey : p₂.key = p₁.key := hkey₂.trans (hsame.symm.trans hkey₁.symm)
    refine readsAlike_of_reordered hr₂.whole.home ?_ (hover₂.reordered (hover₁.again hover₁₂ hkey))
    rw [hlimits₁₂, hlimits₁, hlimits₂]
  · intro hne m₁ s₂₁ h₂₁
    obtain ⟨hover₂₁, -, hlimits₂₁⟩ :=
      overwritten_apply_of_typedAlike hr₂ hc₁ h₂₁ hfree₁ hlimits₂ htyped₂ hq₁ hp₁
    have hkey : p₁.key ≠ p₂.key := fun heq => hne (hkey₁.symm.trans (heq.trans hkey₂))
    refine readsAlike_of_reordered hr₁₂.whole.home ?_ (hover₁.swap hover₁₂ hover₂ hover₂₁ hkey)
    rw [hlimits₂₁, hlimits₂, hlimits₁₂, hlimits₁]

/-! ### Edits that inherit -/

/-- A text that comes from an include. -/
def suffixed : Source := fun spec =>
  if spec = "base" then .ok "sc:X = \"a\"".toUTF8
  else if spec = "top" then .ok "includeFile = base".toUTF8
  else .error (.cannotOpen spec "no such file")

/-- Edits that add another text and one that joins both, and a reading of it. -/
def joiningEdits : List Step :=
  [.change ⟨"sc:Y", "\"b\"", false⟩, .change ⟨"s:Z", "X + Y", false⟩, .read (some "C") "Z" .any]

/-- The first edit of `X` is given in another case and with a type, the second one inherits,
and the edit of `Y` refers to `X`.  What is read depends on all of them. -/
theorem readsAlike_apply_suffixed :
    let c₁ : Change := ⟨"sc:x", "\"d\"", false⟩
    let c₂ : Change := ⟨"X", "InheritedValue + \"c\"", false⟩
    let c₃ : Change := ⟨"Y", "X + \"b\"", false⟩
    let shows (s : Session) (text : String) : Prop :=
      (s.get none "Z" .any).1.toOption.map Value.display = some text
    ∃ s u s₂ s₁₂ s₂₃ s₃₂, Session.load suffixed { withDefaults := false } "top" = .ok s ∧
      s.run joiningEdits = u ∧ (u.apply c₂ true).2 = s₂ ∧
      ((u.apply c₁ true).2.apply c₂ true).2 = s₁₂ ∧ (s₂.apply c₃ true).2 = s₂₃ ∧
      ((u.apply c₃ true).2.apply c₂ true).2 = s₃₂ ∧
      s₂.ReadsAlike s₁₂ ∧ s₂₃.ReadsAlike s₃₂ ∧
      shows u "\"ab\"" ∧ shows s₁₂ "\"acb\"" ∧ shows s₃₂ "\"acacb\"" := by
  intro c₁ c₂ c₃ shows
  have hok : (Session.load suffixed { withDefaults := false } "top").toOption.any fun s =>
      let u := s.run joiningEdits
      let s₁₂ := ((u.apply c₁ true).2.apply c₂ true).2
      let s₃₂ := ((u.apply c₃ true).2.apply c₂ true).2
      (decide ((u.get none "Z" .any).1.toOption.map Value.display = some "\"ab\"") &&
        decide ((s₁₂.get none "Z" .any).1.toOption.map Value.display = some "\"acb\"") &&
        decide ((s₃₂.get none "Z" .any).1.toOption.map Value.display = some "\"acacb\"")) &&
      ((u.apply c₁ true).1.toOption.any fun n => u.has n.text && n.key == ⟨"x"⟩) &&
      ((u.apply c₂ true).1.toOption.any fun n => u.has n.text && n.key == ⟨"x"⟩) &&
      ((u.apply c₃ true).1.toOption.any fun n => u.has n.text && n.key == ⟨"y"⟩) &&
      ((u.apply c₁ true).2.apply c₂ true).1.toOption.isSome &&
      ((u.apply c₂ true).2.apply c₃ true).1.toOption.isSome &&
      ((u.apply c₃ true).2.apply c₂ true).1.toOption.isSome := by
    decide +kernel
  obtain ⟨s, hs, hok⟩ := (Option.any_eq_true _ _).mp hok
  have hload := toOption_eq_some.mp hs
  simp only [Bool.and_eq_true, decide_eq_true_eq, Option.any_eq_true, beq_iff_eq,
    Option.isSome_iff_exists, toOption_eq_some] at hok
  obtain ⟨⟨⟨⟨⟨⟨⟨⟨hu, h₁₂⟩, h₃₂⟩, n₁, hn₁, hhas₁, hkey₁⟩, n₂, hn₂, hhas₂, hkey₂⟩, n₃, hn₃, hhas₃,
    hkey₃⟩, m₂, hm₂⟩, m₃, hm₃⟩, k₂, hk₂⟩ := hok
  have hfree : ∀ n : Name, n.key = ⟨"x"⟩ ∨ n.key = ⟨"y"⟩ → n.key.featureBase? = none := by
    rintro n (hn | hn)
    · rw [hn]
      decide
    · rw [hn]
      decide
  have hmade : ∀ {x : Attempt Name × Session} {n : Name}, x.1 = .ok n → x = (.ok n, x.2) :=
    fun hn => Prod.ext hn rfl
  have hsame := readsAlike_apply hload joiningEdits (hmade hn₁) (hmade hm₂) (hmade hn₂) hhas₁ hhas₂
    (hfree n₁ (Or.inl hkey₁)) (hfree n₂ (Or.inl hkey₂))
  have hswapped := readsAlike_apply hload joiningEdits (hmade hn₂) (hmade hm₃) (hmade hn₃) hhas₂
    hhas₃ (hfree n₂ (Or.inl hkey₂)) (hfree n₃ (Or.inr hkey₃))
  refine ⟨s, _, _, _, _, _, hload, rfl, rfl, rfl, rfl, rfl, ?_, ?_, hu, h₁₂, h₃₂⟩
  · exact hsame.1 (hkey₁.trans hkey₂.symm)
  · refine hswapped.2 ?_ k₂ _ (hmade hk₂)
    rw [hkey₂, hkey₃]
    decide

end Session

end ParameterChain
