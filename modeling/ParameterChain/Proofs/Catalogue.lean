/-
# The chain of a loaded session

Loading keeps a catalogue of specs: a spec that has been loaded stands for one file ever
after, and a spec that is being loaded stays out of the catalogue until its includes are
in.  So no two files have one name, and only the built-in defaults can be without includes
where files without includes include them.

Main statement: `isLinearization_chain`.  Whenever a graph is made linear below a file, the chain of
that file is the linear order of all that is below it; and the chain that a load leaves,
which no later reading, edit or move of the clock changes, goes from the transient file
through the top file to the built-in defaults and meets every file once.
-/
import ParameterChain.Proofs.Edited
import ParameterChain.Proofs.Linearization
import ParameterChain.Proofs.Visible

namespace ParameterChain

open ParameterChain.Graph (size_commit nameOf_commit includesOf_commit)

variable {source : Source} {options : LoadOptions} {g m g' : Graph} {f h : FileId}
  {fs : List FileId} {spec : String}

/-! ## Look-up of loaded files -/

namespace Graph

theorem fileOf?_congr (hsize : g'.files.size = g.files.size)
    (hname : ∀ h, g'.nameOf h = g.nameOf h) (spec : String) :
    g'.fileOf? spec = g.fileOf? spec := by
  simp only [fileOf?, hsize, hname]

/-- A new file is found under its name if none was found before. -/
theorem fileOf?_addFile (hsize : 0 < g.files.size) (name : String) (includes : List FileId)
    (spec : String) :
    (g.addFile name includes).fileOf? spec =
      (g.fileOf? spec).or (if name = spec then some g.files.size else none) := by
  have hold : (List.range g.files.size).find?
        (fun f => f ≠ transientFile && (g.addFile name includes).nameOf f = spec) =
      g.fileOf? spec := by
    rw [fileOf?, ← List.head?_filter, ← List.head?_filter]
    congr 1
    refine List.filter_congr ?_
    intro f hf
    rw [nameOf_addFile, if_neg (Nat.ne_of_lt (List.mem_range.mp hf))]
  have hne : g.files.size ≠ transientFile := Nat.ne_of_gt hsize
  rw [fileOf?, size_addFile, List.range_succ, List.find?_append, hold]
  simp [nameOf_addFile, hne]

theorem Built.nameOf_transientFile (hb : g.Built) : g.nameOf transientFile = transientName := by
  induction hb with
  | empty => rfl
  | @file g limits name includes ds done hb _ _ hc ih =>
    have hne : transientFile ≠ g.files.size := Nat.ne_of_lt hb.coherent.ordered.nonempty
    rw [nameOf_commit hc, nameOf_addFile, if_neg hne, ih]

/-- The file in front of all others has a name of its own. -/
theorem Rooted.nameOf_transientFile (hr : g.Rooted) : g.nameOf transientFile = transientName := by
  induction hr with
  | root hb _ _ hc => rw [nameOf_commit hc, nameOf_setIncludes, hb.nameOf_transientFile]
  | edit _ _ hc ih => rw [nameOf_commit hc, ih]
  | tick _ _ ih => exact ih

end Graph

/-! ## The catalogue -/

/-- Every file is found under its name, and where files without includes include the
built-in defaults, only these are without includes. -/
structure Catalogued (options : LoadOptions) (g : Graph) : Prop where
  found : ∀ h < g.files.size, h ≠ transientFile → g.fileOf? (g.nameOf h) = some h
  leaf : options.withDefaults → ∀ h < g.files.size, h ≠ transientFile →
    g.includesOf h = [] → g.nameOf h = builtInDefaults

theorem Catalogued.congr (hsize : g'.files.size = g.files.size)
    (hname : ∀ h, g'.nameOf h = g.nameOf h)
    (hincludes : ∀ h ≠ transientFile, g'.includesOf h = g.includesOf h)
    (hg : Catalogued options g) : Catalogued options g' where
  found := by
    intro h hh hne
    rw [hname, Graph.fileOf?_congr hsize hname]
    exact hg.found h (hsize ▸ hh) hne
  leaf := by
    intro hdefaults h hh hne hnil
    rw [hname]
    exact hg.leaf hdefaults h (hsize ▸ hh) hne (hincludes h hne ▸ hnil)

theorem catalogued_empty : Catalogued options {} where
  found := by
    intro h hh hne
    exact absurd (Nat.lt_one_iff.mp hh) hne
  leaf := by
    intro _ h hh hne
    exact absurd (Nat.lt_one_iff.mp hh) hne

/-- A file that is new by name keeps the catalogue, if it includes what its declarations
say. -/
theorem Catalogued.addFile {ds : Declarations} {includes : List FileId}
    (hg : Catalogued options g) (hsize : 0 < g.files.size) (hnew : g.fileOf? spec = none)
    (hlength : includes.length = (options.includeSpecs spec ds).length) :
    Catalogued options (g.addFile spec includes) where
  found := by
    intro h hh hne
    rw [Graph.nameOf_addFile, Graph.fileOf?_addFile hsize]
    rw [Graph.size_addFile] at hh
    split
    · next heq => rw [hnew, Option.none_or, if_pos rfl, heq]
    · next hlast =>
      have hlt : h < g.files.size := Nat.lt_of_le_of_ne (Nat.le_of_lt_succ hh) hlast
      rw [hg.found h hlt hne, Option.some_or]
  leaf := by
    intro hdefaults h hh hne hnil
    rw [Graph.size_addFile] at hh
    rw [Graph.includesOf_addFile] at hnil
    rw [Graph.nameOf_addFile]
    split at hnil
    · next heq =>
      rw [if_pos heq]
      have hspecs : options.includeSpecs spec ds = [] := by
        rw [← List.length_eq_zero_iff, ← hlength, hnil, List.length_nil]
      rw [LoadOptions.includeSpecs, hdefaults] at hspecs
      split at hspecs
      · cases hspecs
      · next hcond => simpa [hspecs] using hcond
    · next hlast =>
      have hlt : h < g.files.size := Nat.lt_of_le_of_ne (Nat.le_of_lt_succ hh) hlast
      rw [if_neg hlast]
      exact hg.leaf hdefaults h hlt hne hnil

/-- What a load keeps of the catalogue while the specs of `path` wait for their includes,
and what it adds. -/
structure Entered (options : LoadOptions) (path : List String) (g g' : Graph) : Prop where
  built : g'.Built
  catalogued : Catalogued options g'
  waiting : ∀ x ∈ path, g.fileOf? x = none → g'.fileOf? x = none

/-- Several files in turn, given what one of them does. -/
theorem entered_mapM (path : List String) {load : String → Loader FileId}
    (hload : ∀ spec g f g', g.Built → Catalogued options g → (load spec).run g = .ok (f, g') →
      Entered options path g g') :
    ∀ {specs : List String} {g : Graph} {fs : List FileId}, g.Built → Catalogued options g →
      (specs.mapM load).run g = .ok (fs, g') →
        Entered options path g g' ∧ fs.length = specs.length := by
  intro specs
  induction specs with
  | nil =>
    intro g fs hb hg hl
    rw [List.mapM_nil, Loader.pure_eq_ok] at hl
    obtain ⟨rfl, rfl⟩ := hl
    exact ⟨⟨hb, hg, fun x _ hx => hx⟩, rfl⟩
  | cons spec specs ih =>
    intro g fs hb hg hl
    simp only [List.mapM_cons, Loader.bind_eq_ok, Loader.pure_eq_ok] at hl
    obtain ⟨f, m, hfirst, fs, g₁, hrest, rfl, rfl⟩ := hl
    have hfirst := hload spec g f m hb hg hfirst
    obtain ⟨hrest, hlength⟩ := ih hfirst.built hfirst.catalogued hrest
    refine ⟨⟨hrest.built, hrest.catalogued, ?_⟩, congrArg Nat.succ hlength⟩
    intro x hx hnone
    exact hrest.waiting x hx (hfirst.waiting x hx hnone)

/-- A load enters the spec it was asked for, and none that is waiting. -/
theorem entered_loadFile (fuel : Nat) :
    ∀ path spec g f g', g.Built → Catalogued options g →
      (source.loadFile options fuel path spec).run g = .ok (f, g') →
        Entered options path g g' ∧ g'.fileOf? spec = some f := by
  induction fuel with
  | zero =>
    intro path spec g f g' hb hg hl
    rcases loadFile_eq_ok hl with ⟨hfile, rfl⟩ | ⟨n, -, -, -, -, hn, -⟩
    · exact ⟨⟨hb, hg, fun x _ hx => hx⟩, hfile⟩
    · cases hn
  | succ n ih =>
    intro path spec g f g' hb hg hl
    have hgrown := grown_loadFile (n + 1) path spec g f g' hb hl
    rcases loadFile_eq_ok hl with ⟨hfile, rfl⟩ |
        ⟨n', ds, includes, m, done, hn, hnone, hpath, hds, hincludes, hc, rfl, rfl⟩
    · exact ⟨⟨hb, hg, fun x _ hx => hx⟩, hfile⟩
    cases hn
    -- While its includes are loaded the spec itself waits with those of the path.
    obtain ⟨hm, hlength⟩ := entered_mapM (spec :: path)
      (fun x g f g' hb hg hl => (ih (spec :: path) x g f g' hb hg hl).1) hb hg hincludes
    have hnew : m.fileOf? spec = none := hm.waiting spec List.mem_cons_self hnone
    have hsize : 0 < m.files.size := hm.built.coherent.ordered.nonempty
    have hadded : Catalogued options (m.addFile spec includes) :=
      hm.catalogued.addFile hsize hnew hlength
    have hfile : ∀ x, done.graph.fileOf? x =
        (m.fileOf? x).or (if spec = x then some m.files.size else none) := by
      intro x
      rw [Graph.fileOf?_congr (size_commit hc) (nameOf_commit hc), Graph.fileOf?_addFile hsize]
    refine ⟨⟨hgrown.built, ?_, ?_⟩, ?_⟩
    · exact hadded.congr (size_commit hc) (nameOf_commit hc) fun h _ => includesOf_commit hc h
    · intro x hx hnone
      have hne : spec ≠ x := fun heq => hpath (heq ▸ hx)
      rw [hfile, hm.waiting x (List.mem_cons_of_mem spec hx) hnone, if_neg hne, Option.or_none]
    · rw [hfile, hnew, if_pos rfl, Option.none_or]

/-! ## The top file -/

/-- The transient file stands in front of `t`, the file of the spec `top`. -/
structure TopFile (options : LoadOptions) (top : String) (t : FileId) (g : Graph) : Prop where
  catalogued : Catalogued options g
  title : g.fileOf? top = some t
  front : g.includesOf transientFile = [t]

variable {top : String} {t : FileId}

theorem TopFile.congr (hsize : g'.files.size = g.files.size)
    (hname : ∀ h, g'.nameOf h = g.nameOf h) (hincludes : ∀ h, g'.includesOf h = g.includesOf h)
    (hg : TopFile options top t g) : TopFile options top t g' where
  catalogued := hg.catalogued.congr hsize hname fun h _ => hincludes h
  title := (Graph.fileOf?_congr hsize hname top).trans hg.title
  front := (hincludes transientFile).trans hg.front

theorem topFile_of_load (hl : source.load options top = .ok g) :
    ∃ t, TopFile options top t g := by
  simp only [Source.load, bind_eq_ok, pure_eq_ok] at hl
  obtain ⟨⟨t, m⟩, hload, done, hc, rfl⟩ := hl
  obtain ⟨hentered, htitle⟩ :=
    entered_loadFile options.limits.includeDepth [] top {} t m .empty catalogued_empty hload
  have hsize : 0 < m.files.size := hentered.built.coherent.ordered.nonempty
  have hincludes : ∀ h, (m.setIncludes transientFile [t]).includesOf h =
      if h = transientFile then [t] else m.includesOf h := by
    intro h
    exact Graph.includesOf_setIncludes m transientFile [t] h hsize
  have hname : ∀ h, (m.setIncludes transientFile [t]).nameOf h = m.nameOf h := by
    intro h
    exact Graph.nameOf_setIncludes m transientFile [t] h
  have hcount := Graph.size_setIncludes m transientFile [t]
  have hfront : TopFile options top t (m.setIncludes transientFile [t]) := by
    refine ⟨hentered.catalogued.congr hcount hname ?_, ?_, ?_⟩
    · intro h hne
      rw [hincludes, if_neg hne]
    · rw [Graph.fileOf?_congr hcount hname, htitle]
    · rw [hincludes, if_pos rfl]
  exact ⟨t, hfront.congr (size_commit hc) (nameOf_commit hc) (includesOf_commit hc)⟩

/-- The top file stays where it is, whatever is done to a session. -/
theorem Session.topFile_run {s : Session} (hs : TopFile options top t s.graph)
    (steps : List Session.Step) : TopFile options top t (s.run steps).graph := by
  refine run_induction (P := fun s => TopFile options top t s.graph) ?_ ?_ ?_ hs steps
  · intro s consumer name e hs
    rw [graph_read]
    exact hs
  · intro s c ds d done hs hc hdone
    exact hs.congr (size_commit hdone) (nameOf_commit hdone) (includesOf_commit hdone)
  · intro s time hs
    rw [graph_moveClock]
    refine hs.congr ?_ ?_ ?_
    · rfl
    · exact fun h => rfl
    · exact fun h => rfl

/-! ## The chain of the transient file -/

/-- What is to be said of the chain from the transient file up, in a graph that was loaded
from the spec `top`. -/
structure IsWholeChain (options : LoadOptions) (top : String) (g : Graph) : Prop where
  /-- It starts with the transient file and the top file. -/
  starts : ∃ t rest, g.chain transientFile = transientFile :: t :: rest ∧ g.fileOf? top = some t
  /-- It meets every file once. -/
  nodup : (g.chain transientFile).Nodup
  covers : ∀ h, h ∈ g.chain transientFile ↔ h < g.files.size
  /-- It ends with the built-in defaults, if these are in use. -/
  ends : options.withDefaults → ∃ d, g.fileOf? builtInDefaults = some d ∧
    (g.chain transientFile).getLast? = some d
  /-- Making the graph linear once more changes no parent. -/
  stable : ∀ h, (g.linearize transientFile).parentOf? h = g.parentOf? h

/-- A file that includes one other stands in front of the linear order of that one. -/
theorem Graph.Ordered.linearOrder_of_single (ho : g.Ordered) (hf : f < g.files.size)
    (hsingle : g.includesOf f = [h]) : g.linearOrder f = f :: g.linearOrder h := by
  have hmem : h ∈ g.includesOf f := by
    rw [hsingle]
    exact List.mem_singleton_self h
  have hnot : f ∉ g.walk g.files.size h := by
    intro hf
    exact ho.not_below_of_include hmem ((ho.mem_walk (ho.lt_size_of_include hmem)).mp hf)
  rw [Graph.linearOrder, ho.walk_eq hf, hsingle, List.flatMap_singleton, Graph.lastPlaces,
    if_neg fun hc => hnot (List.contains_iff_mem.mp hc), Graph.linearOrder]

theorem Graph.Whole.isWholeChain (hg : g.Whole) (htop : TopFile options top t g) :
    IsWholeChain options top g := by
  have ho := hg.ordered
  have hfile : transientFile < g.files.size := ho.transientFile_lt_size
  have hchain := ho.chain_eq hfile hg.linked
  have hlinear := ho.isLinearization hfile
  have hfollowed := ho.followed_linearOrder hfile
  obtain ⟨rest, hrest⟩ : ∃ rest, g.linearOrder t = t :: rest := by
    refine ho.linearOrder_eq_cons (ho.lt_size_of_include (f := transientFile) ?_)
    rw [htop.front]
    exact List.mem_singleton_self t
  have hstart : g.linearOrder transientFile = transientFile :: t :: rest := by
    rw [ho.linearOrder_of_single hfile htop.front, hrest]
  have hcovers : ∀ h, h ∈ g.chain transientFile ↔ h < g.files.size := by
    intro h
    rw [hchain, hlinear.mem_iff]
    exact ⟨ho.lt_size_of_below hfile, hg.below h⟩
  refine ⟨⟨t, rest, hchain.trans hstart, htop.title⟩, hchain ▸ hlinear.nodup, hcovers, ?_, ?_⟩
  · intro hdefaults
    obtain ⟨d, hd⟩ := Option.isSome_iff_exists.mp
      (List.getLast?_isSome.mpr (List.cons_ne_nil t rest))
    have hlast : (g.chain transientFile).getLast? = some d := by
      rw [hchain, hstart, List.getLast?_cons_cons, hd]
    -- The last file of the chain has no includes, so it can be the defaults only.
    have hleaf : g.includesOf d = [] := hfollowed.includesOf_getLast? (hchain ▸ hlast)
    have hsize : d < g.files.size := (hcovers d).mp (List.mem_of_getLast? hlast)
    have hne : d ≠ transientFile := by
      rintro rfl
      exact (List.nodup_cons.mp (hstart ▸ hlinear.nodup)).1 (List.mem_of_getLast? hd)
    have hname := htop.catalogued.leaf hdefaults d hsize hne hleaf
    exact ⟨d, hname ▸ htop.catalogued.found d hsize hne, hlast⟩
  · intro h
    exact ho.parentOf?_linearize hfile hg.linked h

/-- Right after a graph has been made linear below a file, the parents from that file up run
through the linear order of what is below it; one backward pass over the walk does the same.
In a loaded session, whatever is done to it, the chain from the transient file up goes
through the top file to the built-in defaults and meets every file once. -/
theorem isLinearization_chain :
    (∀ g : Graph, g.Laid → ∀ f < g.files.size,
      g.IsLinearization f ((g.linearize f).chain f) ∧
        (g.linearize f).Linked ((g.linearize f).chain f) ∧
        g.linkBackwards f = g.linearize f) ∧
    ∀ (source : Source) (options : LoadOptions) (top : String) (s : Session),
      Session.load source options top = .ok s → ∀ steps : List Session.Step,
        IsWholeChain options top (s.run steps).graph := by
  constructor
  · intro g hg f hf
    have ho := hg.ordered
    obtain ⟨hchain, hlinked⟩ := ho.chain_linearize hf
    exact ⟨hchain ▸ ho.isLinearization hf, hlinked, ho.linkBackwards_eq hf⟩
  · intro source options top s hload steps
    have hrooted : (s.run steps).graph.Rooted :=
      Session.rooted_run (Session.rooted_load hload) steps
    simp only [Session.load, bind_eq_ok, pure_eq_ok] at hload
    obtain ⟨g, hg, rfl⟩ := hload
    obtain ⟨t, htop⟩ := topFile_of_load hg
    exact hrooted.whole.isWholeChain (Session.topFile_run htop steps)

/-- The chain of two files that include a third, before and after two edits. -/
theorem isLinearization_chain_sharedArms :
    ∃ s, Session.load Session.sharedArms { withDefaults := false } "top" = .ok s ∧
      s.graph.files.size = 5 ∧
      (let g := s.graph
       g.IsLinearization transientFile ((g.linearize transientFile).chain transientFile) ∧
        (g.linearize transientFile).Linked ((g.linearize transientFile).chain transientFile) ∧
        g.linkBackwards transientFile = g.linearize transientFile) ∧
      IsWholeChain { withDefaults := false } "top" (s.run Session.sharedEdits).graph := by
  have hok : ((Session.load Session.sharedArms { withDefaults := false } "top").toOption.any
      fun s => s.graph.files.size == 5) = true := by
    decide +kernel
  obtain ⟨s, hs, hsize⟩ := (Option.any_eq_true _ _).mp hok
  have hload := toOption_eq_some.mp hs
  have hsize : s.graph.files.size = 5 := by simpa using hsize
  have hlaid : s.graph.Laid := .rooted (Session.rooted_load hload)
  have hfile : transientFile < s.graph.files.size := hlaid.ordered.transientFile_lt_size
  refine ⟨s, hload, hsize, ?_, ?_⟩
  · exact isLinearization_chain.1 s.graph hlaid transientFile hfile
  · exact isLinearization_chain.2 Session.sharedArms _ "top" s hload Session.sharedEdits

end ParameterChain
