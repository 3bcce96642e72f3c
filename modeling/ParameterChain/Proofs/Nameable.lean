/-
# What every parameter of a session has

Three things hold of all that is stored in the graph of a session, with or without time
features.

  * A parameter has a unit, of the table, exactly if its kind has units.
  * What its plan names is visible: a name is known when the plan is made, and what is declared
    once stays declared.
  * Its name is not empty.  No file declares an empty name, for the record would have none
    before its `=`, and an edit that gives one has no kind and nothing to inherit a kind from.

So every parameter that is visible can be named in the value of another one, with its unit
behind it, as far as its name reads as one token.

Main statements: `Rooted.exists_unit`, `Rooted.exists_visible?_named` and `find?_run_empty`.
-/
import Mathlib.Data.List.TakeDrop
import ParameterChain.Proofs.Categories
import ParameterChain.Proofs.DeclarationOrder
import ParameterChain.Proofs.FeatureNames
import ParameterChain.Proofs.HandedDown
import ParameterChain.Proofs.Overwritten
import ParameterChain.Proofs.Records
import ParameterChain.Proofs.Unambiguous

namespace ParameterChain

/-! ## Units -/

/-- The forms of a kind have a place for a unit exactly if the kind has units. -/
theorem Kind.grammar_unit (k : Kind) : ∀ f ∈ k.grammar, decide (f.unit ≠ .absent) = k.hasUnit := by
  obtain ⟨s, isVector⟩ := k
  cases s <;> cases isVector <;> decide

namespace Resolution

variable {r : Resolution} {res : Resolved}

theorem Placed.isSome {place : UnitPlace} {inner outer : Tokens} {u : Option MeasureUnit}
    (h : r.Placed place inner outer u) : u.isSome = decide (place ≠ .absent) := by
  cases h <;> rfl

/-- A value is resolved with a unit exactly if its kind has units. -/
theorem isSome_unit_of_resolve (h : r.resolve = .ok res) : res.unit.isSome = r.kind.hasUnit := by
  obtain ⟨f, ts, happlies⟩ := resolve_iff_applies.mp h
  rw [← Kind.grammar_unit r.kind f happlies.listed]
  cases happlies.derives with
  | alone hu _ => exact Option.isSome_map.trans hu.isSome
  | joined hu _ _ => exact Option.isSome_map.trans hu.isSome

end Resolution

/-- A time feature has a unit exactly if the kind of its value has units. -/
theorem TimeFeature.DescribedBy.isSome_unit {feature : TimeFeature} {d : Declaration} {base : Key}
    {source : FeatureSource} (h : feature.DescribedBy d base source) :
    feature.unit.isSome = feature.kind.hasUnit := by
  cases source with
  | function =>
    rcases h.closed rfl with ⟨hkind, hunit⟩ | ⟨hkind, hunit⟩
    · rw [hkind, hunit]
      rfl
    · rw [hkind, hunit]
      rfl
  | values =>
    obtain ⟨k, -, -, hkind, hunit⟩ := h.table rfl
    rw [hkind, hunit]
    rfl

namespace Graph

variable {g : Graph} {f h : FileId} {k : Key} {ds : Declarations} {limits : Limits}
  {done : Commit} {p : Parameter} {name : Name}

theorem isSome_unit_of_mem_parameters (hds : ds.Distinct) (hc : g.commit limits f ds = .ok done)
    (hp : p ∈ done.parameters) : p.unit.isSome = p.kind.hasUnit := by
  obtain ⟨o, drafts, ho, hdraft, hdone⟩ := commit_eq_ok.mp hc
  have hparameters : done.parameters = drafts := by rw [← hdone]
  have hfeatures : done.features = o.features := by rw [← hdone]
  rcases mem_draft_cases hds ho hdraft (hparameters ▸ hp) with
    ⟨feature, hfeature, hvalue⟩ | ⟨r, hr⟩
  · obtain ⟨ks, kinds, rows, -, hkinds, -, -⟩ := outline_eq_ok.mp ho
    obtain ⟨d, -, hd⟩ := (mem_features_commit hkinds hc).mp (hfeatures ▸ hfeature)
    obtain ⟨base, source, -, hdescribed⟩ := TimeFeature.ofDeclaration_eq_ok hd
    rw [hvalue.unit, hvalue.kind]
    exact hdescribed.isSome_unit
  · rw [← hr.kind]
    exact Resolution.isSome_unit_of_resolve hr.resolve

/-- A parameter of a kind without units has none, and one of a kind with units has one of the
table. -/
theorem Rooted.exists_unit (hr : g.Rooted) (hp : g.declared? h k = some p) :
    ∃ u : Option MeasureUnit, p.unit = u.map MeasureUnit.symbol ∧ u.isSome = p.kind.hasUnit ∧
      ∀ u' ∈ u, MeasureUnit.ofSymbol? u'.symbol = some u' := by
  have hsome : p.unit.isSome = p.kind.hasUnit :=
    hr.forall_declared (P := fun p => p.unit.isSome = p.kind.hasUnit)
      (fun _ _ _ _ _ hds hc _ hp => isSome_unit_of_mem_parameters hds hc hp) h k p hp
  cases hunit : p.kind.hasUnit with
  | false => exact ⟨none, by simpa [hunit] using hsome, rfl, nofun⟩
  | true =>
    obtain ⟨category, hcategory⟩ := hr.measured hp hunit
    obtain ⟨symbol, hsymbol, hcategory⟩ := Option.bind_eq_some_iff.mp hcategory
    obtain ⟨u, hu, -⟩ := Option.map_eq_some_iff.mp hcategory
    obtain rfl : u.symbol = symbol := by simpa using List.find?_some hu
    refine ⟨some u, hsymbol, rfl, ?_⟩
    rintro _ ⟨⟩
    exact Resolution.ofSymbol?_symbol hu

/-! ## Names in plans -/

/-- What a stored plan names is declared. -/
theorem Rooted.exists_declared?_named (hr : g.Rooted) (hp : g.declared? h k = some p)
    (hname : .named name ∈ p.plan.refs) : ∃ i, (g.declared? i name.key).isSome := by
  induction hr generalizing h k p name with
  | @root g limits top done hb htop hall hc =>
    rw [declared?_root hc] at hp
    obtain ⟨i, q, hq, -⟩ := hb.exists_agreeing hp hname
    exact ⟨i, by rw [declared?_root hc, hq]; rfl⟩
  | @edit g limits ds done hr hds hc ih =>
    rcases declared?_commit_cases hc hp with ⟨hnew, -, -⟩ | hold
    · have hsize := hr.whole.ordered.transientFile_lt_size
      obtain ⟨i, q, hq, -⟩ := Graph.exists_agreeing hds hsize hc hnew hname
      exact ⟨i, by rw [hq]; rfl⟩
    · obtain ⟨i, hi⟩ := ih hold hname
      exact ⟨i, isSome_declared?_of_commit hc hi⟩
  | tick t hr ih => exact ih hp hname

/-- What a stored plan names is visible. -/
theorem Rooted.exists_visible?_named (hr : g.Rooted) (hp : g.Stored p)
    (hname : .named name ∈ p.plan.refs) : ∃ q, g.visible? name.key = some q := by
  obtain ⟨i, hi⟩ := hr.exists_declared?_named hp hname
  obtain ⟨q, hq⟩ := Option.isSome_iff_exists.mp hi
  obtain ⟨seen, hseen, -⟩ := (hr.whole.visible?_eq name.key).2 i q hq
  exact ⟨seen, hseen⟩

end Graph

/-! ## Empty names -/

theorem Key.eq_empty_iff {name : String} : Key.ofText name = ⟨""⟩ ↔ name = "" := by
  constructor
  · intro hkey
    have hlower : Text.lowerFrom [] name.toList = [] := by
      rw [Key.ofText, Key.mk.injEq, Text.lowerCase] at hkey
      simpa using congrArg String.toList hkey
    have hlength := Text.length_lowerFrom [] name.toList
    rw [hlower, List.length_nil] at hlength
    have hnil : name.toList.length = 0 := by omega
    simpa using hnil
  · rintro rfl
    rfl

/-- The heading of an empty name has no kind and is that of an empty text. -/
theorem Heading.of_name_eq_empty {text : String} {h : Heading} (hh : Heading.ofText text = .ok h)
    (hname : h.name = "") : text = "" ∧ h.kind = none := by
  rw [Heading.ofText] at hh
  split at hh
  · split at hh
    · cases hh
    · cases hh
      exact ⟨hname, rfl⟩
  · next code c name _ =>
    split at hh
    · cases hh
    next hne =>
    split at hh
    · cases hh
    split at hh
    · cases hh
    simp only at hh
    split at hh
    · cases hh
      have hnil : name = [] := by simpa using hname
      exact absurd (by rw [hnil]; rfl) hne
    · cases hh

/-- What is declared is the name as written, or what it has behind its first colon. -/
theorem Heading.name_of_ofText {text : String} {h : Heading} (hh : Heading.ofText text = .ok h) :
    h.name = text ∨ ∃ code, ':' ∉ code ∧ text.toList = code ++ ':' :: h.name.toList := by
  rw [Heading.ofText, List.span_eq_takeWhile_dropWhile] at hh
  split at hh
  · split at hh
    · cases hh
    · cases hh
      exact .inl rfl
  · next code colon name hspan =>
    obtain ⟨hcode, hrest⟩ := Prod.mk.inj hspan
    obtain rfl : colon = ':' := by
      have hhead := List.head?_dropWhile_not (fun c => decide (c ≠ ':')) text.toList
      rw [hrest] at hhead
      simpa using hhead
    have hname : h.name = String.ofList name := by
      split at hh
      · cases hh
      split at hh
      · cases hh
      split at hh
      · cases hh
      simp only at hh
      split at hh
      · cases hh
        rfl
      · cases hh
    refine .inr ⟨code, fun hmem => ?_, ?_⟩
    · rw [← hcode] at hmem
      have hcolon := List.mem_takeWhile_imp hmem
      simp at hcolon
    · rw [hname, String.toList_ofList, ← hcode, ← hrest, List.takeWhile_append_dropWhile]

/-- A file declares no empty name. -/
theorem Source.empty_not_mem_keys {source : Source} {limits : Limits} {spec : String}
    {ds : Declarations} (hds : source.declarations limits spec = .ok ds) :
    ⟨""⟩ ∉ ds.rows.map Declaration.key := by
  obtain ⟨rs, ⟨bytes, -, hrs⟩, hfold⟩ := Source.declarations_eq_ok.mp hds
  obtain ⟨ls, -, -, hcheck⟩ := Record.ofBytes_eq_ok.mp hrs
  refine foldlM_induction (P := fun ds : Declarations => ⟨""⟩ ∉ ds.rows.map Declaration.key) ?_
    List.not_mem_nil hfold
  intro ds ds' r hr hnone hextend
  simp only [Declarations.extend, bind_eq_ok, pure_eq_ok, Prod.exists, Declarations.add] at hextend
  obtain ⟨_, added, hadd, rfl⟩ := hextend
  split at hadd
  · cases hadd
    exact hnone
  split at hadd
  · next d hdeclare =>
    cases hadd
    obtain ⟨heading, hheading, -, -, rfl⟩ := Declarations.declare_eq_ok.mp hdeclare
    rw [Declarations.insert, mem_keys_put, not_or]
    refine ⟨fun hkey => ?_, hnone⟩
    have hname := Key.eq_empty_iff.mp (Eq.symm hkey)
    exact (Record.check_eq_ok.mp (hcheck r hr)).1 (Heading.of_name_eq_empty hheading hname).1
  · cases hadd

namespace Graph

variable {g : Graph} {f h : FileId} {k : Key} {ds : Declarations} {limits : Limits}
  {done : Commit} {p : Parameter} {o : Outline} {d : Declaration}

theorem ofValue_ne_empty (base : Key) : base.ofValue ≠ ⟨""⟩ := by
  intro hbase
  simpa [Key.ofValue] using congrArg (fun k => k.text.toList.length) hbase

/-- What is committed has the key of a declaration or is the value of a time feature. -/
theorem key_cases_of_mem_parameters (hds : ds.Distinct) (hc : g.commit limits f ds = .ok done)
    (hp : p ∈ done.parameters) :
    (∃ base : Key, p.key = base.ofValue) ∨ p.key ∈ ds.rows.map Declaration.key := by
  obtain ⟨o, drafts, ho, hdraft, rfl⟩ := commit_eq_ok.mp hc
  obtain ⟨d', hd', hresolved⟩ := mem_of_mapM (draft_eq_ok hdraft) hp
  obtain ⟨kind, resolved, -, -, rfl⟩ := draftOf_eq_ok.mp hresolved
  rcases mem_rows_cases hds ho hd' with ⟨feature, -, -, line, rfl⟩ | ⟨-, d, hd, hinherits⟩
  · exact .inl ⟨feature.key, feature.key_valueName⟩
  · exact .inr (List.mem_map.mpr ⟨d, hd, hinherits.key.symm⟩)

/-! ## Edits of new names -/

theorem featureRows_of_single (hds : ds.rows = [d]) (hfree : d.key.featureBase? = none) :
    ds.featureRows = .ok [] := by
  simp only [Declarations.featureRows, hds, List.mapM_cons, List.mapM_nil,
    TimeFeature.ofDeclaration, hfree]
  rfl

/-- An edit of a name that is new inherits nothing. -/
theorem Rooted.outline_of_new (hr : g.Rooted) (hds : ds.rows = [d])
    (hfree : d.key.featureBase? = none) (hnew : g.visible? d.key = none) :
    g.outline transientFile ds = .ok ⟨ds, [], []⟩ := by
  obtain ⟨top, htop⟩ := hr.exists_includes
  have hancestors : g.ancestors transientFile d.key = [] := by
    rw [(hr.whole.visible?_eq d.key).1] at hnew
    rw [ancestors, rootsOf, if_pos rfl, List.filterMap_cons, hnew]
    rfl
  have hkinds : g.inheritKinds transientFile ds = .ok ds := by
    obtain ⟨rows, includes, redefinable⟩ := ds
    obtain rfl : rows = [d] := hds
    simp only [inheritKinds, List.mapM_cons, List.mapM_nil, hancestors, List.foldlM_nil]
    rfl
  exact outline_eq_ok.mpr
    ⟨[], ds, [], contested_of_single htop ds, hkinds, featureRows_of_single hds hfree, rfl⟩

/-- An edit of a new name that has no kind is refused. -/
theorem Rooted.commit_ne_ok_of_kindless (hr : g.Rooted) (hds : ds.rows = [d])
    (hfree : d.key.featureBase? = none) (hnew : g.visible? d.key = none) (hkind : d.kind = none) :
    g.commit limits transientFile ds ≠ .ok done := by
  intro hc
  obtain ⟨o, drafts, ho, hdraft, -⟩ := commit_eq_ok.mp hc
  cases (hr.outline_of_new hds hfree hnew).symm.trans ho
  obtain ⟨p, hp, -⟩ := draft_of_single hds hdraft
  obtain ⟨kind, resolved, hsome, -⟩ := draftOf_eq_ok.mp hp
  cases hkind.symm.trans hsome

end Graph

namespace Session

variable {s : Session} {c : Change} {d : Declaration} {ds : Declarations}

/-- A change declares what its name says, by itself. -/
theorem declarations_eq_ok : c.declarations = .ok (ds, d) ↔
    Text.sameAscii c.name includeName = false ∧
      ({ redefinable := true } : Declarations).declare c.name c.rawValue 0 = .ok d ∧
        { rows := [d], redefinable := true } = ds := by
  rw [Change.declarations, locate_eq_ok, Declarations.add]
  cases Text.sameAscii c.name includeName with
  | true => simp [bind, Except.bind, throw, throwThe, MonadExceptOf.throw]
  | false =>
    cases ({ redefinable := true } : Declarations).declare c.name c.rawValue 0 with
    | error e => simp [bind, Except.bind]
    | ok d' =>
      simp only [Bool.false_eq_true, if_false, bind, Except.bind, pure_eq_ok, Prod.mk.injEq,
        Declarations.insert, put, true_and, Except.ok.injEq]
      constructor
      · rintro ⟨rfl, rfl⟩
        exact ⟨rfl, rfl⟩
      · rintro ⟨rfl, rfl⟩
        exact ⟨rfl, rfl⟩

theorem kind_of_declarations (hc : c.declarations = .ok (ds, d)) (hkey : d.key = ⟨""⟩) :
    d.kind = none := by
  obtain ⟨-, hdeclare, -⟩ := declarations_eq_ok.mp hc
  obtain ⟨heading, hheading, -, -, rfl⟩ := Declarations.declare_eq_ok.mp hdeclare
  exact (Heading.of_name_eq_empty hheading (Key.eq_empty_iff.mp hkey)).2

/-- The empty name names nothing. -/
theorem find?_run_empty {source : Source} {options : LoadOptions} {top : String}
    (hload : Session.load source options top = .ok s) (steps : List Step) :
    (s.run steps).find? "" = none := by
  have hinvariant : (s.run steps).graph.Rooted ∧
      ∀ h, (s.run steps).graph.declared? h ⟨""⟩ = none := by
    refine run_induction
      (P := fun s => s.graph.Rooted ∧ ∀ h, s.graph.declared? h ⟨""⟩ = none) ?_ ?_ ?_ ?_ steps
    · intro s consumer name e hs
      rw [graph_read]
      exact hs
    · rintro s c ds d done ⟨hr, hnone⟩ hc hdone
      refine ⟨.edit hr (distinct_of_declarations hc) hdone, fun h => ?_⟩
      rw [← hnone h]
      refine Graph.declared?_commit_of_fresh hdone fun p hp hslot => ?_
      have hrows := rows_of_declarations hc
      have hkey : p.key = ⟨""⟩ := congrArg Slot.key hslot
      rcases Graph.key_cases_of_mem_parameters (distinct_of_declarations hc) hdone hp with
        ⟨base, hbase⟩ | hmem
      · exact Graph.ofValue_ne_empty base (hbase.symm.trans hkey)
      · rw [hrows, List.map_singleton, List.mem_singleton, hkey] at hmem
        refine hr.commit_ne_ok_of_kindless hrows ?_ ?_ (kind_of_declarations hc hmem.symm) hdone
        · rw [← hmem]
          decide
        · rw [← hmem]
          exact List.findSome?_eq_none_iff.mpr fun h _ => hnone h
    · intro s t hs
      rw [graph_moveClock]
      exact ⟨.tick t hs.1, hs.2⟩
    · refine ⟨rooted_load hload, fun h => ?_⟩
      obtain ⟨g, hg, rfl⟩ := load_eq_ok.mp hload
      obtain ⟨hsourced, htransient⟩ := sourced_of_load hg
      by_cases hh : h = transientFile
      · rw [hh]
        exact htransient ⟨""⟩
      by_cases hsize : h < g.files.size
      · obtain ⟨ds, m, done, horigin⟩ := hsourced.origin h hsize hh
        have hds := horigin.declarations
        rw [horigin.declared?_eq]
        refine List.find?_eq_none.mpr fun p hp hkey => ?_
        rcases Graph.key_cases_of_mem_parameters (distinct_declarations hds) horigin.commit hp with
          ⟨base, hbase⟩ | hmem
        · exact Graph.ofValue_ne_empty base (hbase.symm.trans (of_decide_eq_true hkey))
        · exact Source.empty_not_mem_keys hds (of_decide_eq_true hkey ▸ hmem)
      · exact Graph.declared?_eq_none_of_size_le (Nat.le_of_not_lt hsize)
  obtain ⟨-, hnone⟩ := hinvariant
  exact List.findSome?_eq_none_iff.mpr fun h _ => hnone h

end Session

end ParameterChain
