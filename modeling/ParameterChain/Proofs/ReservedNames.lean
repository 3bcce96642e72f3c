/-
# Reserved names are never changeable

The names of some attributes are reserved: whoever reads them takes them to be fixed for the life
of a session.  The list of these names is asked in one place only, where a name is written with a
marker.  A marker has two more sources.  A declaration without a kind takes over the marker of what
it overrides, in the includes of its file or among the edits before it, and the value of a time
feature is changeable as such.

Neither of them marks a reserved name.  What is overridden has the same name, so that a marker
would have to come from somewhere else in the first place; and the name of the value of a feature
ends as no reserved name ends.  So no parameter of a session that has a reserved name is
changeable, whatever is done to the session (`Session.changeable_after`).
-/
import ParameterChain.Proofs.History
import ParameterChain.Proofs.Nameable

namespace ParameterChain

/-! ## Keys -/

namespace Key

/-- A parameter of this key may be marked so: a reserved one has no marker. -/
def Allows (k : Key) (changeable : Bool) : Prop :=
  k.isReserved = true → changeable = false

theorem lastSegment_ofValue (base : Key) : lastSegment base.ofValue.text = "value" := by
  have hreverse : base.ofValue.text.toList.reverse =
      ['e', 'u', 'l', 'a', 'v'] ++ '/' :: base.text.toList.reverse := by
    simp [ofValue]
  have hsegment : ∀ c ∈ ['e', 'u', 'l', 'a', 'v'], decide (c ≠ '/') = true := by simp
  rw [lastSegment, hreverse, List.takeWhile_append_of_pos hsegment,
    List.takeWhile_cons_of_neg (by decide)]
  rfl

/-- The value of a time feature has no reserved name. -/
theorem isReserved_ofValue (base : Key) : base.ofValue.isReserved = false := by
  have hnames : ∀ name ∈ reservedNames, lastSegment name ≠ "value" := by decide
  have hsegments : ∀ segments ∈ reservedSegments, segments.2 ≠ "value" := by decide
  rw [isReserved, Bool.or_eq_false_iff]
  constructor
  · refine Bool.eq_false_iff.mpr fun hname => ?_
    exact hnames _ (List.contains_iff_mem.mp hname) base.lastSegment_ofValue
  · refine Bool.eq_false_iff.mpr fun hsegment => ?_
    exact hsegments _ (List.contains_iff_mem.mp hsegment) base.lastSegment_ofValue

theorem ofValue_allows (base : Key) (changeable : Bool) : base.ofValue.Allows changeable := by
  intro hreserved
  rw [isReserved_ofValue] at hreserved
  cases hreserved

end Key

/-! ## Declarations -/

variable {source : Source} {options : LoadOptions} {limits : Limits} {spec : String} {g : Graph}
  {f : FileId} {ds ds' : Declarations} {d d' : Declaration} {o : Outline} {done : Commit}
  {p : Parameter}

namespace Declarations

/-- No declaration of a reserved name has a marker. -/
def Permitted (ds : Declarations) : Prop :=
  ∀ d ∈ ds.rows, d.key.Allows d.changeable

theorem Permitted.insert (hds : ds.Permitted) (hd : d.key.Allows d.changeable) :
    (ds.insert d).Permitted := by
  intro d' hd'
  rcases mem_of_mem_put hd' with rfl | hold
  · exact hd
  · exact hds d' hold

/-- A marker is refused where the name is reserved. -/
theorem allows_of_declare {name rawValue : String} {line : Nat}
    (hd : ds.declare name rawValue line = .ok d) : d.key.Allows d.changeable := by
  obtain ⟨h, -, hreserved, -, rfl⟩ := declare_eq_ok.mp hd
  intro hname
  have hname : (Name.ofText h.name).key.isReserved = true := hname
  rw [hname, Bool.and_true] at hreserved
  exact hreserved

theorem Permitted.extend {r : Record} (hds : ds.Permitted) (h : ds.extend r = .ok ds') :
    ds'.Permitted := by
  simp only [Declarations.extend, bind_eq_ok, pure_eq_ok, Prod.exists, Declarations.add] at h
  obtain ⟨_, added, hadd, rfl⟩ := h
  split at hadd
  · cases hadd
    exact hds
  split at hadd
  · next hdeclare =>
    cases hadd
    exact hds.insert (allows_of_declare hdeclare)
  · cases hadd

end Declarations

theorem Source.permitted_declarations (hds : source.declarations limits spec = .ok ds) :
    ds.Permitted := by
  obtain ⟨rs, -, hfold⟩ := Source.declarations_eq_ok.mp hds
  refine foldlM_induction (fun _ _ _ _ hds hextend => hds.extend hextend) ?_ hfold
  exact fun d hd => absurd hd List.not_mem_nil

theorem Session.permitted_declarations {c : Change} (hc : c.declarations = .ok (ds, d)) :
    ds.Permitted := by
  obtain ⟨-, hdeclare, rfl⟩ := Session.declarations_eq_ok.mp hc
  exact List.forall_mem_singleton.mpr (Declarations.allows_of_declare hdeclare)

/-! ## Outlines and commits -/

/-- A marker that is inherited is that of a parameter with the same key. -/
theorem allows_of_inherit {inTransient : Bool} {ps : List Parameter}
    (h : ps.foldlM (Declaration.inherit inTransient) d = .ok d') (hd : d.key.Allows d.changeable)
    (hps : ∀ p ∈ ps, d.key.Allows p.changeable) : d'.key.Allows d'.changeable := by
  have hinherits := inherit_foldlM_eq_ok h
  rw [hinherits.key]
  cases ps with
  | nil =>
    rw [List.foldlM_nil, pure_eq_ok] at h
    exact h ▸ hd
  | cons p ps =>
    rw [(hinherits.agrees p List.mem_cons_self).2]
    exact hps p List.mem_cons_self

namespace Graph

section Commit

variable (hds : ds.Permitted) (hancestors : ∀ k, ∀ p ∈ g.ancestors f k, k.Allows p.changeable)

include hds hancestors

theorem permitted_inheritKinds (h : g.inheritKinds f ds = .ok ds') : ds'.Permitted := by
  simp only [inheritKinds, bind_eq_ok, pure_eq_ok] at h
  obtain ⟨rows, hrows, rfl⟩ := h
  intro d' hd'
  obtain ⟨d, hd, hfold⟩ := mem_of_mapM hrows hd'
  exact allows_of_inherit hfold (hds d hd) (hancestors d.key)

theorem permitted_outline (ho : g.outline f ds = .ok o) : o.declarations.Permitted := by
  obtain ⟨ks, ds', rows, -, hkinds, -, rfl⟩ := outline_eq_ok.mp ho
  have hds' := permitted_inheritKinds hds hancestors hkinds
  show (rows.foldl (fun ds row => ds.insert (row.feature.valueDeclaration row.line)) ds').Permitted
  clear hkinds ho
  induction rows generalizing ds' with
  | nil => exact hds'
  | cons row rows ih =>
    refine ih _ (hds'.insert ?_)
    rw [show (row.feature.valueDeclaration row.line).key = row.feature.key.ofValue from
      row.feature.key_valueName]
    exact Key.ofValue_allows _ _

/-- What is committed has no marker if its name is reserved, as long as that is so of what it
may inherit from. -/
theorem allows_of_mem_parameters (hc : g.commit limits f ds = .ok done)
    (hp : p ∈ done.parameters) : p.key.Allows p.changeable := by
  obtain ⟨o, drafts, ho, hdraft, rfl⟩ := commit_eq_ok.mp hc
  obtain ⟨d, hd, hresolved⟩ := mem_of_mapM (draft_eq_ok hdraft) hp
  obtain ⟨kind, resolved, -, -, rfl⟩ := draftOf_eq_ok.mp hresolved
  exact permitted_outline hds hancestors ho d hd

end Commit

/-! ## Graphs -/

/-- No parameter with a reserved name has a marker. -/
def Permitted (g : Graph) : Prop :=
  ∀ h k p, g.declared? h k = some p → k.Allows p.changeable

theorem Permitted.commit (hg : g.Permitted) (hds : ds.Permitted)
    (hc : g.commit limits f ds = .ok done) : done.graph.Permitted := by
  intro h k p hp
  rcases declared?_commit_cases hc hp with ⟨hmem, -, rfl⟩ | hold
  · refine allows_of_mem_parameters hds (fun k q hq => ?_) hc hmem
    obtain ⟨i, hi⟩ := exists_of_mem_ancestors hq
    exact hg i k q hi
  · exact hg h k p hold

/-- In a graph that was loaded a file has its markers from its own records and from the files
below it. -/
theorem Sourced.permitted (hs : g.Sourced source options) (hg : g.Coherent)
    (hempty : ∀ k, g.declared? transientFile k = none) : g.Permitted := by
  have hbelow : ∀ f < g.files.size, ∀ h, g.Below f h → ∀ k p, g.declared? h k = some p →
      k.Allows p.changeable := by
    intro f
    induction f using hg.ordered.induction with
    | step f ih =>
    intro hf h hb k p hp
    rcases below_iff.mp hb with rfl | ⟨i, hi, hb⟩
    · by_cases htransient : f = transientFile
      · rw [htransient, hempty] at hp
        cases hp
      obtain ⟨ds, m, done, ho⟩ := hs.origin f hf htransient
      rw [ho.declared?_eq] at hp
      obtain rfl := key_of_rowOf? hp
      refine allows_of_mem_parameters (Source.permitted_declarations ho.declarations) ?_ ho.commit
        (mem_of_rowOf? hp)
      intro k q hq
      rw [ho.ancestors_eq hg] at hq
      obtain ⟨i, hi, hq⟩ := List.mem_filterMap.mp hq
      have hsize := hg.ordered.lt_size_of_include hi
      obtain ⟨h, hb, hh⟩ := hg.ordered.below_of_firstFound? hsize hq
      exact ih i hi hsize h hb k q hh
    · exact ih i hi (hg.ordered.lt_size_of_include hi) h hb k p hp
  intro h k p hp
  exact hbelow h (lt_size_of_declared? hp) h (Below.refl g h) k p hp

end Graph

/-! ## Sessions -/

namespace Session

variable {s : Session} {top : String}

theorem permitted_load (hload : Session.load source options top = .ok s) : s.graph.Permitted := by
  have hwhole := (rooted_load hload).whole
  obtain ⟨g, hg, rfl⟩ := load_eq_ok.mp hload
  obtain ⟨hsourced, hempty⟩ := sourced_of_load hg
  exact hsourced.permitted hwhole.toCoherent hempty

/-- A call leaves a session as sessions are, whether it succeeds or not. -/
theorem rooted_perform (hs : s.graph.Rooted) (call : Call) : (s.perform call).graph.Rooted := by
  rcases perform_cases hs.whole call with ⟨-, -, t, hgraph⟩ | ⟨c, ds, d, done, hc, hdone, -, hafter⟩
  · rw [hgraph]
    exact .tick t hs
  · rw [hafter]
    exact .edit hs (distinct_of_declarations hc) hdone

/-- A call keeps reserved names without markers. -/
theorem permitted_perform (hwhole : s.graph.Whole) (hs : s.graph.Permitted) (call : Call) :
    (s.perform call).graph.Permitted := by
  rcases perform_cases hwhole call with ⟨-, -, t, hgraph⟩ | ⟨c, ds, d, done, hc, hdone, -, hafter⟩
  · rw [hgraph]
    exact hs
  · rw [hafter]
    exact hs.commit (permitted_declarations hc) hdone

theorem permitted_after (hrooted : s.graph.Rooted) (hs : s.graph.Permitted) (calls : List Call) :
    (s.after calls).graph.Rooted ∧ (s.after calls).graph.Permitted := by
  induction calls generalizing s with
  | nil => exact ⟨hrooted, hs⟩
  | cons call calls ih =>
    exact ih (rooted_perform hrooted call) (permitted_perform hrooted.whole hs call)

/-- Reserved attributes are never changeable.  In a session that was loaded, and on which any calls
were made, edits and clonings among them, whether they succeeded or failed, no parameter that a
file stores under a reserved name is changeable. -/
theorem changeable_after (hload : Session.load source options top = .ok s) (calls : List Call)
    (hp : p ∈ (s.after calls).graph.parametersOf f) (hreserved : p.key.isReserved = true) :
    p.changeable = false := by
  obtain ⟨hrooted, hpermitted⟩ := permitted_after (rooted_load hload) (permitted_load hload) calls
  exact hpermitted f p.key p (hrooted.tabled.declared? hp) hreserved

/-- A reserved name, and a file that overrides it without its kind. -/
def boxType : Source := fun spec =>
  if spec = "box" then .ok "s:Ge/Box/Type = \"G4Box\"".toUTF8
  else if spec = "top" then .ok "includeFile = box\nGe/Box/Type = \"G4Tubs\"".toUTF8
  else .error (.cannotOpen spec "no such file")

/-- A marker that is refused, a new reserved name and an edit that takes over its kind, a clone
with a reserved name, and a time feature. -/
def boxCalls : List Call :=
  [.apply ⟨"sc:Ge/Box/Type", "\"G4Cons\"", true⟩ true, .apply ⟨"d:Ge/World/HLX", "3 m", true⟩ true,
    .apply ⟨"GE/World/HLX", "4 m", true⟩ true, .clone "Ge/Box/Type" "So/Beam/Type",
    .apply ⟨"s:Tf/Turn/Function", "\"Linear mm\"", true⟩ true]

theorem changeable_after_boxCalls :
    ∃ s p q, Session.load boxType { withDefaults := false } "top" = .ok s ∧
      let g := (s.after boxCalls).graph
      (g.parametersOf transientFile).map (fun p => (p.key.text, p.changeable)) =
        [("ge/world/hlx", false), ("so/beam/type", false), ("tf/turn/function", false),
          ("tf/turn/value", true)] ∧
      (p ∈ g.parametersOf 2 ∧ p.key = ⟨"ge/box/type"⟩ ∧ p.key.isReserved = true ∧
        p.changeable = false) ∧
      q ∈ g.parametersOf transientFile ∧ q.key = ⟨"so/beam/type"⟩ ∧ q.key.isReserved = true ∧
        q.changeable = false := by
  have hok : (Session.load boxType { withDefaults := false } "top").toOption.any fun s =>
      let g := (s.after boxCalls).graph
      (g.parametersOf transientFile).map (fun p => (p.key.text, p.changeable)) ==
        [("ge/world/hlx", false), ("so/beam/type", false), ("tf/turn/function", false),
          ("tf/turn/value", true)] &&
      ((g.parametersOf 2).any fun p => p.key == ⟨"ge/box/type"⟩) &&
      (g.parametersOf transientFile).any fun q => q.key == ⟨"so/beam/type"⟩ := by
    decide +kernel
  obtain ⟨s, hs, hrun⟩ := (Option.any_eq_true _ _).mp hok
  have hload := toOption_eq_some.mp hs
  simp only [Bool.and_eq_true, List.any_eq_true, beq_iff_eq] at hrun
  obtain ⟨⟨htransient, p, hp, hpkey⟩, q, hq, hqkey⟩ := hrun
  have hpreserved : p.key.isReserved = true := hpkey ▸ by decide
  have hqreserved : q.key.isReserved = true := hqkey ▸ by decide
  exact ⟨s, p, q, hload, htransient, ⟨hp, hpkey, hpreserved,
    changeable_after hload boxCalls hp hpreserved⟩, hq, hqkey, hqreserved,
    changeable_after hload boxCalls hq hqreserved⟩

end Session

end ParameterChain
