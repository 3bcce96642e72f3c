/-
# Queries and look-ups tell of the same declarations

There are four walks of the chain: a look-up stops at the first file that declares a key, the
list of what is visible merges all files, the values of a name in the chain are picked file by
file, and a listing goes once more through the names that were printed, which it folds and
looks up again for every entry of a row.

Main statement: `queriesAgree_reached`.  Whatever has happened to a loaded session, the four
tell of the same declarations.
-/
import ParameterChain.Proofs.Dependencies
import ParameterChain.Proofs.Dialogues
import ParameterChain.Proofs.Shown
import ParameterChain.Proofs.Visible

namespace ParameterChain

/-- The value `v` of `p` as it is shown: in the unit that `p` was declared with. -/
def Parameter.shown (p : Parameter) (v : Value) : String :=
  match p.unit, v.kind.hasUnit with
  | some unit, true => v.displayIn ((MeasureUnit.factor? unit).getD 1) ++ " " ++ unit
  | _, _ => v.display

/-- What `filterMap` keeps are the images of what has one, one by one. -/
theorem forall₂_filterMap {α β : Type} (f : α → Option β) (xs : List α) :
    List.Forall₂ (fun x y => f x = some y) (xs.filter fun x => (f x).isSome)
      (xs.filterMap f) := by
  induction xs with
  | nil => exact .nil
  | cons x xs ih =>
    cases hx : f x with
    | none => simpa [hx] using ih
    | some y => simpa [hx] using ih

namespace Session

/-- The present value of `p` itself, however it is looked up, as a text. -/
def shownValue (s : Session) (p : Parameter) : String :=
  match ((s.graph.valueOf s.limits p).run []).1 with
  | .ok v => p.shown v
  | .error _ => undefinedText

/-- The row that shows `p` itself. -/
def shownRow (s : Session) (p : Parameter) : Row where
  name := p.name.text
  kind := p.kind.marked p.changeable
  value := s.shownValue p
  files := s.valuesInChain p.key

/-- The row of a printed name, which is folded and looked up for every entry anew. -/
def rowNamed (s : Session) (name : String) : Row × Session :=
  let kind :=
    match s.kindOf name with
    | .ok k => k.marked (s.isChangeable name)
    | .error _ => undefinedText
  let (value, s) := s.valueText name
  ({ name, kind, value, files := s.valuesInChain (Key.ofText name) }, s)

/-- The rows of a list of printed names. -/
def rowsNamed (s : Session) : List String → List Row × Session
  | [] => ([], s)
  | name :: names =>
      let (first, s) := s.rowNamed name
      let (rest, s) := s.rowsNamed names
      (first :: rest, s)

/-- What look-ups, lists and listings of a session tell is the same. -/
structure QueriesAgree (s : Session) : Prop where
  /-- The visible parameters are listed in the order of their keys, no key twice. -/
  ascending : s.graph.visible.Pairwise fun p q => p.key.text < q.key.text
  /-- There is one for every key that a file of the chain declares. -/
  listed : ∀ k, (∃ p ∈ s.graph.visible, p.key = k) ↔
    ∃ f ∈ s.graph.chain transientFile, (s.graph.declared? f k).isSome
  /-- It is the one that a look-up finds. -/
  found : ∀ k p, (p ∈ s.graph.visible ∧ p.key = k) ↔ s.graph.visible? k = some p
  /-- A name has values in the chain if there is a parameter of that name. -/
  valued : ∀ name, s.has name = true ↔ s.valuesInChain (Key.ofText name) ≠ []
  /-- The first of them is that of the parameter that a look-up finds, in its file. -/
  nearest : ∀ k p, s.graph.visible? k = some p →
    s.graph.declared? p.file k = some p ∧
      (s.valuesInChain k).head? = some (s.graph.nameOf p.file, p.rawValue)
  /-- There is one for each file of the chain that declares the name, in the order of the
  chain. -/
  inChain : ∀ k, ∃ files, files.Sublist (s.graph.chain transientFile) ∧ files.Nodup ∧
    (∀ f, f ∈ files ↔ f ∈ s.graph.chain transientFile ∧ (s.graph.declared? f k).isSome) ∧
      List.Forall₂ (fun f entry => ∃ p, s.graph.declared? f k = some p ∧
        entry = (s.graph.nameOf f, p.rawValue)) files (s.valuesInChain k)
  /-- A listing has one row for every visible parameter, and shows that parameter. -/
  shown : s.listing.1 = s.graph.visible.map s.shownRow
  /-- It may as well be made of the printed names alone. -/
  renamed : s.rowsNamed s.names = s.listing

variable {s s' : Session} {p : Parameter} {k : Key}

/-! ## Values in the chain -/

/-- The first value of a name in the chain is that of the parameter that a look-up finds. -/
theorem head?_valuesInChain (hg : s.graph.AtHome) (hp : s.graph.visible? k = some p) :
    s.graph.declared? p.file k = some p ∧
      (s.valuesInChain k).head? = some (s.graph.nameOf p.file, p.rawValue) := by
  obtain ⟨before, f, behind, hchain, hdeclared, hnone⟩ := List.findSome?_eq_some_iff.mp hp
  obtain rfl : p.file = f := hg f k p hdeclared
  refine ⟨hdeclared, ?_⟩
  rw [valuesInChain, List.head?_filterMap, List.findSome?_eq_some_iff]
  refine ⟨before, p.file, behind, hchain, ?_, fun h hh => ?_⟩
  · rw [hdeclared, Option.map_some]
  · rw [hnone h hh, Option.map_none]

theorem valuesInChain_ne_nil :
    s.valuesInChain k ≠ [] ↔
      ∃ f ∈ s.graph.chain transientFile, (s.graph.declared? f k).isSome := by
  simp only [valuesInChain, ne_eq, List.filterMap_eq_nil_iff, Option.map_eq_none_iff,
    not_forall, exists_prop, Option.isSome_iff_ne_none]

theorem isSome_visible? :
    (s.graph.visible? k).isSome ↔
      ∃ f ∈ s.graph.chain transientFile, (s.graph.declared? f k).isSome := by
  rw [Graph.visible?, Graph.find?, List.findSome?_isSome_iff]

/-- The values of a name are those of the files that declare it, file by file. -/
theorem forall₂_valuesInChain (s : Session) (k : Key) :
    List.Forall₂ (fun f entry => ∃ p, s.graph.declared? f k = some p ∧
        entry = (s.graph.nameOf f, p.rawValue))
      ((s.graph.chain transientFile).filter fun f => (s.graph.declared? f k).isSome)
      (s.valuesInChain k) := by
  have hentries := forall₂_filterMap
    (fun f => (s.graph.declared? f k).map fun p => (s.graph.nameOf f, p.rawValue))
    (s.graph.chain transientFile)
  simp only [Option.isSome_map] at hentries
  refine hentries.imp ?_
  intro f entry hentry
  obtain ⟨p, hp, rfl⟩ := Option.map_eq_some_iff.mp hentry
  exact ⟨p, hp, rfl⟩

/-! ## Values as they are shown -/

theorem snd_valueText (s : Session) (name : String) :
    (s.valueText name).2 = (s.read none name .any).2 := by
  rw [valueText]
  cases hread : s.read none name .any with
  | mk result s' => cases result <;> rfl

theorem graph_valueText (s : Session) (name : String) :
    (s.valueText name).2.graph = s.graph := by
  rw [snd_valueText, graph_read]

theorem limits_valueText (s : Session) (name : String) :
    (s.valueText name).2.limits = s.limits := by
  rw [snd_valueText, limits_read]

theorem display_of_find? {name : String} (hp : s.find? name = some p) (v : Value) :
    s.display name v = p.shown v := by
  rw [display, hp]
  rfl

theorem find?_name (hp : s.graph.visible? p.key = some p) : s.find? p.name.text = some p := by
  rw [find?, ← p.name.key_eq]
  exact hp

/-- A name is read by evaluating the parameter that a look-up finds. -/
theorem run_read_of_find? {name : String} (hp : s.find? name = some p) (t : Trace) :
    (s.graph.read s.limits name .any).run t = (s.graph.valueOf s.limits p).run t := by
  have hnamed : s.graph.named name = pure p := by
    show Traced.ofOption _ (s.find? name) = pure p
    rw [hp]
    rfl
  rw [Graph.read]
  show (s.graph.named name >>= s.graph.valueOf s.limits).run t = _
  rw [hnamed, pure_bind]

theorem find?_read (s : Session) (consumer : Option String) (name : String) (e : Expectation) :
    (s.read consumer name e).2.find? = s.find? := by
  funext name'
  rw [find?, graph_read, find?]

theorem fst_valueText {name : String} (hp : s.find? name = some p) :
    (s.valueText name).1 = s.shownValue p := by
  have hfind := congrFun (find?_read s none name .any) name
  have hread := fst_read s none name .any
  rw [run_read_of_find? hp] at hread
  rw [valueText, shownValue, ← hread]
  rcases hresult : s.read none name .any with ⟨result, s'⟩
  rw [hresult] at hfind
  cases result with
  | error e => rfl
  | ok v => exact display_of_find? (hfind.trans hp) v

/-! ## Rows -/

theorem shownRow_congr (hgraph : s'.graph = s.graph) (hlimits : s'.limits = s.limits) :
    s'.shownRow = s.shownRow := by
  funext p
  simp only [shownRow, shownValue, valuesInChain, hgraph, hlimits]

theorem fst_row (hp : s.graph.visible? p.key = some p) : (s.row p).1 = s.shownRow p := by
  simp only [row, shownRow, fst_valueText (find?_name hp), valuesInChain, graph_valueText]

theorem fst_rows {ps : List Parameter} (hps : ∀ p ∈ ps, s.graph.visible? p.key = some p) :
    (s.rows ps).1 = ps.map s.shownRow := by
  induction ps generalizing s with
  | nil => rfl
  | cons p ps ih =>
    have hfirst : (s.row p).1 = s.shownRow p := fst_row (hps p List.mem_cons_self)
    have hgraph : (s.row p).2.graph = s.graph := graph_valueText s p.name.text
    have hlimits : (s.row p).2.limits = s.limits := limits_valueText s p.name.text
    have hrest : ((s.row p).2.rows ps).1 = ps.map (s.row p).2.shownRow :=
      ih fun q hq => hgraph ▸ hps q (List.mem_cons_of_mem p hq)
    show (s.row p).1 :: ((s.row p).2.rows ps).1 = _
    rw [hfirst, hrest, shownRow_congr hgraph hlimits, List.map_cons]

/-- The row of a parameter is that of its name. -/
theorem rowNamed_name (hp : s.graph.visible? p.key = some p) :
    s.rowNamed p.name.text = s.row p := by
  have hfind := find?_name hp
  have hkind : s.kindOf p.name.text = .ok p.kind := by
    rw [kindOf, find, hfind]
    rfl
  have hmarker : s.isChangeable p.name.text = p.changeable := by
    rw [isChangeable, hfind]
    rfl
  rw [rowNamed, row, hkind, hmarker, ← p.name.key_eq]
  rfl

theorem rowsNamed_names {ps : List Parameter}
    (hps : ∀ p ∈ ps, s.graph.visible? p.key = some p) :
    s.rowsNamed (ps.map fun p => p.name.text) = s.rows ps := by
  induction ps generalizing s with
  | nil => rfl
  | cons p ps ih =>
    have hgraph : (s.row p).2.graph = s.graph := graph_valueText s p.name.text
    have hrest := ih (s := (s.row p).2) fun q hq => hgraph ▸ hps q (List.mem_cons_of_mem p hq)
    rw [List.map_cons, rowsNamed, rows, rowNamed_name (hps p List.mem_cons_self)]
    simp only [hrest]

/-! ## All queries -/

/-- On a chain that meets every file once all queries agree. -/
theorem queriesAgree_of_whole (hg : s.graph.Whole) : s.QueriesAgree := by
  have hfile : transientFile < s.graph.files.size := hg.ordered.transientFile_lt_size
  have hnodup : (s.graph.chain transientFile).Nodup := by
    rw [hg.ordered.chain_eq hfile hg.linked]
    exact Graph.nodup_lastPlaces _
  have hfound : ∀ k p, (p ∈ s.graph.visible ∧ p.key = k) ↔ s.graph.visible? k = some p := by
    intro k p
    constructor
    · rintro ⟨hp, rfl⟩
      exact Graph.mem_visible.mp hp
    · intro hp
      have hkey := Graph.key_of_visible? hp
      exact ⟨Graph.mem_visible.mpr (hkey ▸ hp), hkey⟩
  have hvisible : ∀ p ∈ s.graph.visible, s.graph.visible? p.key = some p :=
    fun p hp => Graph.mem_visible.mp hp
  refine ⟨Graph.pairwise_firstIn _ _, fun k => ?_, hfound, fun name => ?_, fun k p hp => ?_,
    fun k => ?_, fst_rows hvisible, ?_⟩
  · rw [← isSome_visible?, Option.isSome_iff_exists]
    exact exists_congr fun p => hfound k p
  · rw [valuesInChain_ne_nil, ← isSome_visible?]
    rfl
  · exact head?_valuesInChain hg.home hp
  · exact ⟨_, List.filter_sublist, hnodup.filter _, fun f => List.mem_filter,
      s.forall₂_valuesInChain k⟩
  · have hnames : s.names = s.graph.visible.map fun p => p.name.text := by
      rw [names, namesWhere, List.filter_true]
    rw [hnames, listing, rowsNamed_names hvisible]

/-- Whatever has been asked of a loaded session, whatever has been edited and however the
clock has moved, its look-ups, lists and listings tell of the same declarations.  Dialogues
with listeners go through such sessions only. -/
theorem queriesAgree_reached {source : Source} {options : LoadOptions} {top : String}
    {s s' : Session} (hload : Session.load source options top = .ok s) (hreach : s.Reaches s') :
    s'.QueriesAgree :=
  queriesAgree_of_whole (hreach.rooted (rooted_load hload)).whole

/-- Two arms that share a file, after an edit of the shared name: its values in the chain are
those of the edit, of the top file, of one arm and of the shared file. -/
theorem queriesAgree_reached_sharedArms :
    ∃ s, Session.load sharedArms { withDefaults := false } "top" = .ok s ∧
      s.Reaches (s.run sharedEdits) ∧
      (s.run sharedEdits).valuesInChain ⟨"x"⟩ =
        [(transientName, "7"), ("top", "5"), ("left", "2"), ("base", "1")] ∧
      (s.run sharedEdits).QueriesAgree := by
  have hok : ((Session.load sharedArms { withDefaults := false } "top").toOption.any
      fun s => (s.run sharedEdits).valuesInChain ⟨"x"⟩ ==
        [(transientName, "7"), ("top", "5"), ("left", "2"), ("base", "1")]) = true := by
    decide +kernel
  obtain ⟨s, hs, hvalues⟩ := (Option.any_eq_true _ _).mp hok
  have hload := toOption_eq_some.mp hs
  have hreach : s.Reaches (s.run sharedEdits) := ⟨sharedEdits, rfl⟩
  exact ⟨s, hload, hreach, eq_of_beq hvalues, queriesAgree_reached hload hreach⟩

end Session

end ParameterChain
