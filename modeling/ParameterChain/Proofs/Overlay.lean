/-
# An edit is a file in front

An edit goes to the transient file, which is never read from a source, inherits from itself
and has its declarations replaced.  In a session without edits all this makes no
difference: the edit does what its declaration would do in a new file that includes the top
file, with the transient file, left empty, in front of it.  The one succeeds when the other
does, and after that every reading gives the same in both graphs, at any time.

The two graphs have the same files in other places.  Up to `Graph.overlaid`, which moves
what is in the transient file to the new file, the one mirrors the other before the
declaration is drafted, so that both drafts are the same, and again once the drafts are
stored, so that both are read in the same way.

Main statement: `edit_iff_overlay`.
-/
import ParameterChain.Proofs.Attempts
import ParameterChain.Proofs.Catalogue
import ParameterChain.Proofs.Clock
import ParameterChain.Proofs.Moved

namespace ParameterChain

variable {source : Source} {options : LoadOptions} {g g' : Graph} {f h t : FileId} {k : Key}
  {limits : Limits} {ds : Declarations} {o : Outline} {done : Commit}

/-! ## Graphs without edits -/

namespace Graph

/-- A graph whose transient file is empty and stands in front of the file `t` only. -/
structure Unedited (g : Graph) (t : FileId) : Prop extends Whole g where
  front : g.includesOf transientFile = [t]
  empty : ∀ k, g.declared? transientFile k = none

/-- The graph with the declarations `ds` in a new file that includes the file `top` and is
put behind the empty transient file. -/
def overlay (g : Graph) (limits : Limits) (name : String) (top : FileId) (ds : Declarations) :
    Attempt Graph := do
  let laid ← (g.addFile name [top]).commit limits g.files.size ds
  let rooted ← (laid.graph.setIncludes transientFile [g.files.size]).commit limits transientFile
    { redefinable := true }
  return rooted.graph

/-- Where the files of `g` are once what is in the transient file has become a file behind
it. -/
def overlaid (g : Graph) (f : FileId) : FileId :=
  if f = transientFile then g.files.size else f

/-- No two files are put in one place. -/
theorem overlaid_inj (hf : f < g.files.size) (hh : h < g.files.size) :
    g.overlaid f = g.overlaid h ↔ f = h := by
  have hne : ∀ x < g.files.size, x ≠ g.files.size := fun x hx => Nat.ne_of_lt hx
  rw [overlaid, overlaid]
  split <;> split
  · next hf0 hh0 => exact iff_of_true rfl (hf0.trans hh0.symm)
  · next hf0 hh0 =>
    exact iff_of_false (hne h hh).symm fun heq => hh0 (heq ▸ hf0)
  · next hf0 hh0 =>
    exact iff_of_false (hne f hf) fun heq => hf0 (heq ▸ hh0)
  · exact Iff.rfl

theorem unedited_of_load {top : String} (hl : source.load options top = .ok g)
    (htop : TopFile options top t g) : g.Unedited t := by
  have hwhole : g.Whole := (rooted_of_load hl).whole
  obtain ⟨b, f, done, hb, -, -, hc, rfl⟩ := exists_built_of_load hl
  refine ⟨hwhole, htop.front, ?_⟩
  intro k
  rw [declared?_root hc, hb.declared?_transientFile]

/-! ## Linear orders -/

/-- Where two graphs are the same below a file, they have the same linear order there. -/
theorem SameBelow.linearOrder_eq (ho : g.Ordered) (ho' : g'.Ordered) (hf : f < g.files.size)
    (hf' : f < g'.files.size) (hsame : g.SameBelow g' f k) :
    g'.linearOrder f = g.linearOrder f := by
  have hwalk : g'.walk g'.files.size f = g.walk g.files.size f := by
    induction f using ho.induction with
    | step f ih =>
    obtain ⟨hincludes, -⟩ := hsame f (Below.refl g f)
    rw [ho'.walk_eq hf', ho.walk_eq hf, hincludes]
    refine congrArg (f :: ·) (List.flatMap_congr ?_)
    intro i hi
    exact ih i hi (ho.lt_size_of_include hi) (ho'.lt_size_of_include (hincludes ▸ hi))
      (hsame.include hi)
  rw [linearOrder, linearOrder, hwalk]

/-- Put in front of a file, the transient file leads its linear order. -/
theorem Ordered.linearOrder_setIncludes (ho : g.Ordered) (hne : f ≠ transientFile)
    (hf : f < g.files.size) :
    (g.setIncludes transientFile [f]).linearOrder transientFile =
      transientFile :: g.linearOrder f := by
  have ho' := ordered_setIncludes ho ⟨hne, hf⟩
  have hsingle : (g.setIncludes transientFile [f]).includesOf transientFile = [f] := by
    rw [includesOf_setIncludes _ _ _ _ ho.transientFile_lt_size, if_pos rfl]
  have hf' : f < (g.setIncludes transientFile [f]).files.size := by rwa [size_setIncludes]
  rw [ho'.linearOrder_of_single ho'.transientFile_lt_size hsingle,
    (sameBelow_setIncludes ho hne [f] ⟨""⟩).linearOrder_eq ho ho' hf hf']

/-! ## Outlines -/

/-- One include contests nothing. -/
theorem contested_of_single (hsingle : g.includesOf f = [t]) (ds : Declarations) :
    g.contested f ds = .ok [] := by
  have hname : ∀ p, g.contestedName f ds t [] [] p = .ok none := by
    intro p
    rw [contestedName]
    by_cases hselector : p.key.isSelector = true
    · rw [if_pos hselector]
      rfl
    · rw [if_neg hselector]
      rfl
  have hnames : ∀ ps : List Parameter,
      ps.mapM (g.contestedName f ds t [] []) = .ok (ps.map fun _ => none) := by
    intro ps
    induction ps with
    | nil => rfl
    | cons p ps ih =>
      rw [List.mapM_cons, hname, ih]
      rfl
  have hothers : [t].filter (· ≠ t) = [] := by simp
  have hnone : ∀ ps : List Parameter, (ps.map fun _ => (none : Option Key)).reduceOption = [] := by
    intro ps
    induction ps with
    | nil => rfl
    | cons p ps ih => exact ih
  rw [contested, hsingle, contestedFrom, hsingle]
  simp only [hothers, hnames]
  show (.ok ((List.map _ _).reduceOption ++ []) : Attempt (List Key)) = .ok []
  rw [hnone, List.append_nil]

/-- The transient file and other files refuse the same declarations, if for reasons that
are worded differently. -/
theorem inherit_eq_ok_iff {d d' : Declaration} (b b' : Bool) (p : Parameter) :
    d.inherit b p = .ok d' ↔ d.inherit b' p = .ok d' := by
  rw [Declaration.inherit, Declaration.inherit]
  split
  · exact Iff.rfl
  · split
    · exact Iff.rfl
    · split
      · simp
      · exact Iff.rfl

theorem inheritKinds_congr (hancestors : ∀ k, g'.ancestors h k = g.ancestors f k)
    {ds' : Declarations} : g'.inheritKinds h ds = .ok ds' ↔ g.inheritKinds f ds = .ok ds' := by
  have hfold : ∀ (ps : List Parameter) (d d' : Declaration),
      ps.foldlM (Declaration.inherit (h == transientFile)) d = .ok d' ↔
        ps.foldlM (Declaration.inherit (f == transientFile)) d = .ok d' := by
    intro ps
    induction ps with
    | nil => exact fun d d' => Iff.rfl
    | cons p ps ih =>
      intro d d'
      rw [List.foldlM_cons, List.foldlM_cons, bind_eq_ok, bind_eq_ok]
      refine exists_congr fun middle => ?_
      rw [inherit_eq_ok_iff (h == transientFile) (f == transientFile), ih]
  have hrows : ∀ rows rows' : List Declaration,
      (rows.mapM fun d =>
          (g'.ancestors h d.key).foldlM (Declaration.inherit (h == transientFile)) d) =
          .ok rows' ↔
        (rows.mapM fun d =>
          (g.ancestors f d.key).foldlM (Declaration.inherit (f == transientFile)) d) =
          .ok rows' := by
    intro rows
    induction rows with
    | nil => exact fun rows' => Iff.rfl
    | cons d rows ih =>
      intro rows'
      simp only [List.mapM_cons, bind_eq_ok, pure_eq_ok, hancestors, hfold] at ih ⊢
      simp only [ih]
  simp only [inheritKinds, bind_eq_ok, hrows]

/-- Outlines do not depend on anything but what is contested and what is inherited. -/
theorem outline_congr (hcontested : g'.contested h ds = g.contested f ds)
    (hancestors : ∀ k, g'.ancestors h k = g.ancestors f k) :
    g'.outline h ds = .ok o ↔ g.outline f ds = .ok o := by
  rw [outline_eq_ok, outline_eq_ok, hcontested]
  simp only [inheritKinds_congr hancestors]

/-! ## Tables with the same rows -/

theorem rows_foldl_insert {ds ds' : Declarations} (hrows : ds'.rows = ds.rows)
    (added : List Declarations.FeatureRow) :
    (added.foldl (fun ds row => ds.insert (row.feature.valueDeclaration row.line)) ds').rows =
      (added.foldl (fun ds row => ds.insert (row.feature.valueDeclaration row.line)) ds).rows := by
  induction added generalizing ds ds' with
  | nil => exact hrows
  | cons row added ih =>
    refine ih ?_
    exact congrArg (put Declaration.key (row.feature.valueDeclaration row.line)) hrows

/-- A draft depends on the rows of an outline only, and on what it says of them. -/
theorem draft_congr {o' : Outline} (hrows : o'.declarations.rows = o.declarations.rows)
    (hfeatures : o'.features = o.features) (hcontested : o'.contested = o.contested) :
    g.draft limits f o' = g.draft limits f o := by
  have hplan : g.planOf limits f o' = g.planOf limits f o := by
    funext d k
    simp only [planOf, Outline.featureAt?, scope, Declarations.get?, hrows, hfeatures, hcontested]
  have hdraft : g.draftOf limits f o' = g.draftOf limits f o := by
    funext d
    simp only [draftOf, hplan]
  rw [draft, draft, hrows, hdraft]

/-- Behind one include it makes no difference to a commit in which table its rows
stand. -/
theorem commit_of_rows {ds' : Declarations} (hsingle : g.includesOf f = [t])
    (hrows : ds'.rows = ds.rows) (hc : g.commit limits f ds = .ok done) :
    g.commit limits f ds' = .ok done := by
  obtain ⟨o, drafts, ho, hdrafts, rfl⟩ := commit_eq_ok.mp hc
  obtain ⟨ks, kinds, added, hks, hkinds, hadded, rfl⟩ := outline_eq_ok.mp ho
  simp only [inheritKinds, bind_eq_ok, pure_eq_ok] at hkinds
  obtain ⟨rows, hmapped, rfl⟩ := hkinds
  have hkinds' : g.inheritKinds f ds' = .ok { ds' with rows } := by
    simp only [inheritKinds, hrows, hmapped]
    rfl
  have hks' : g.contested f ds' = .ok ks := by
    rw [contested_of_single hsingle] at hks ⊢
    exact hks
  have ho' := outline_eq_ok.mpr ⟨ks, _, added, hks', hkinds', hadded, rfl⟩
  refine commit_eq_ok.mpr ⟨_, drafts, ho', ?_, rfl⟩
  rw [← hdrafts]
  refine draft_congr (rows_foldl_insert ?_ added) rfl rfl
  rfl

/-! ## Before the declaration is drafted -/

section Unedited

variable (hu : g.Unedited t) (name : String)

include hu

theorem Unedited.top : t ≠ transientFile ∧ t < g.files.size := by
  have hmem : t ∈ g.includesOf transientFile := hu.front ▸ List.mem_singleton_self t
  exact ⟨(hu.ordered.lower _ _ hmem).1, hu.ordered.lt_size_of_include hmem⟩

theorem Unedited.linearOrder_eq :
    g.linearOrder transientFile = transientFile :: g.linearOrder t :=
  hu.ordered.linearOrder_of_single hu.ordered.transientFile_lt_size hu.front

theorem Unedited.transientFile_not_mem : transientFile ∉ g.linearOrder t := by
  have hnodup : (g.linearOrder transientFile).Nodup := nodup_lastPlaces _
  rw [hu.linearOrder_eq] at hnodup
  exact (List.nodup_cons.mp hnodup).1

theorem Unedited.map_overlaid :
    (g.linearOrder transientFile).map g.overlaid = g.files.size :: g.linearOrder t := by
  rw [hu.linearOrder_eq, List.map_cons, overlaid, if_pos rfl]
  refine congrArg (g.files.size :: ·) ?_
  refine (List.map_congr_left ?_).trans (List.map_id _)
  intro f hf
  rw [overlaid, if_neg, id]
  rintro rfl
  exact hu.transientFile_not_mem hf

theorem Unedited.ordered_addFile : (g.addFile name [t]).Ordered :=
  Graph.ordered_addFile hu.ordered fun _ hi => List.mem_singleton.mp hi ▸ hu.top

/-- The linear order of the new file. -/
theorem Unedited.linearOrder_addFile :
    (g.addFile name [t]).linearOrder g.files.size = g.files.size :: g.linearOrder t := by
  have ho := hu.ordered_addFile name
  have hsize : g.files.size < (g.addFile name [t]).files.size := by simp
  have hsingle : (g.addFile name [t]).includesOf g.files.size = [t] := by
    rw [includesOf_addFile, if_pos rfl]
  have hsame := sameBelow_addFile hu.ordered hu.top.2 name [t] ⟨""⟩
  rw [ho.linearOrder_of_single hsize hsingle,
    hsame.linearOrder_eq hu.ordered ho hu.top.2 (Nat.lt_trans hu.top.2 hsize)]

/-- The new file has the same outline as the transient file. -/
theorem Unedited.outline_iff :
    (g.addFile name [t]).outline g.files.size ds = .ok o ↔
      g.outline transientFile ds = .ok o := by
  have ho := hu.ordered_addFile name
  have hsize : g.files.size < (g.addFile name [t]).files.size := by simp
  have hsingle : (g.addFile name [t]).includesOf g.files.size = [t] := by
    rw [includesOf_addFile, if_pos rfl]
  refine outline_congr ?_ ?_
  · rw [contested_of_single hsingle, contested_of_single hu.front]
  · -- The transient file inherits from itself, but as long as it is empty this comes to what
    -- its only include shows.
    intro k
    have hfile := hu.ordered.transientFile_lt_size
    have htop : (g.addFile name [t]).firstFound? t k = g.firstFound? t k :=
      (sameBelow_addFile hu.ordered hu.top.2 name [t] k).firstFound?_eq hu.ordered ho hu.top.2
        (Nat.lt_trans hu.top.2 hsize)
    have hfound : g.firstFound? transientFile k = g.firstFound? t k := by
      rw [hu.ordered.firstFound?_eq hfile, hu.empty, hu.front]
      simp
    rw [ancestors, ancestors, rootsOf, rootsOf, if_neg (Nat.ne_of_gt hfile), if_pos rfl, hsingle]
    simp only [List.filterMap_cons, List.filterMap_nil, htop, hfound]

/-- A parameter that is not in the transient file is not moved. -/
theorem Unedited.moved_eq {p : Parameter} (hp : g.declared? f k = some p) :
    p.moved g.overlaid = p := by
  have hfile : p.file ≠ transientFile := by
    intro hfile
    rw [← hu.home f k p hp, hfile, hu.empty] at hp
    cases hp
  rw [Parameter.moved, overlaid, if_neg hfile]

theorem Unedited.declared?_overlaid (f : FileId) (k : Key) :
    g.declared? (g.overlaid f) k = (g.declared? f k).map (Parameter.moved g.overlaid) := by
  rw [overlaid]
  split
  · next hf =>
    rw [hf, hu.empty, declared?_eq_none_of_size_le (Nat.le_refl _)]
    rfl
  · cases hp : g.declared? f k with
    | none => rfl
    | some p => rw [Option.map_some, hu.moved_eq hp]

/-- Once its includes are laid in a chain, the new file sees what the transient file
sees. -/
theorem Unedited.mirrors_addFile :
    g.Mirrors g.overlaid ((g.addFile name [t]).linearize g.files.size) := by
  have ho := hu.ordered_addFile name
  have hsize : g.files.size < (g.addFile name [t]).files.size := by simp
  have hfile := hu.ordered.transientFile_lt_size
  have horder := hu.linearOrder_addFile name
  rw [← hu.map_overlaid] at horder
  have hlength := ho.length_linearOrder_le hsize
  have hlinked := ho.linked_linearize hsize
  have hnodup : ((g.addFile name [t]).linearOrder g.files.size).Nodup := nodup_lastPlaces _
  rw [horder] at hlength hlinked hnodup
  refine mirrors_of_linked [] hu.home ?_ (nodup_lastPlaces _)
    (hu.ordered.length_linearOrder_le hfile) hu.linked hnodup ?_ hlinked ?_
  · intro f hf
    exact (hu.ordered.mem_linearOrder hfile).mpr (hu.below f hf)
  · rw [linearize, size_link]
    exact hlength
  · intro f _ k
    rw [linearize, declared?_link, declared?_addFile]
    exact hu.declared?_overlaid f k

/-! ## Both commits -/

/-- What is committed to the new file is what is committed to the transient file, moved. -/
theorem Unedited.commit_addFile {laid : Commit} :
    (g.addFile name [t]).commit limits g.files.size ds = .ok laid ↔
      ∃ done, g.commit limits transientFile ds = .ok done ∧
        (⟨((g.addFile name [t]).linearize g.files.size).storeAll
            (done.parameters.map (Parameter.moved g.overlaid)) done.features,
          done.parameters.map (Parameter.moved g.overlaid), done.features⟩ : Commit) = laid := by
  have hdraft := (hu.mirrors_addFile name).draft_eq limits hu.ordered.transientFile_lt_size
  rw [overlaid, if_pos rfl] at hdraft
  simp only [commit_eq_ok, hu.toWhole.linearize_eq]
  constructor
  · rintro ⟨o, drafts', ho, hdrafts, rfl⟩
    rw [hdraft, map_eq_ok] at hdrafts
    obtain ⟨drafts, hdrafts, rfl⟩ := hdrafts
    exact ⟨_, ⟨o, drafts, (hu.outline_iff name).mp ho, hdrafts, rfl⟩, rfl⟩
  · rintro ⟨_, ⟨o, drafts, ho, hdrafts, rfl⟩, rfl⟩
    refine ⟨o, _, (hu.outline_iff name).mpr ho, ?_, rfl⟩
    rw [hdraft, hdrafts]
    rfl

end Unedited

/-- The transient file can always be put, empty, in front of one file. -/
theorem exists_root_commit (limits : Limits) (hsingle : g.includesOf transientFile = [t]) :
    ∃ rooted, g.commit limits transientFile { redefinable := true } = .ok rooted ∧
      rooted.features = [] := by
  have houtline : g.outline transientFile { redefinable := true } =
      .ok ⟨{ redefinable := true }, [], []⟩ := by
    have hnone := contested_of_single hsingle { redefinable := true }
    exact outline_eq_ok.mpr ⟨[], { redefinable := true }, [], hnone, rfl, rfl, rfl⟩
  exact ⟨_, commit_eq_ok.mpr ⟨_, [], houtline, rfl, rfl⟩, rfl⟩

/-! ## After the declaration is stored -/

section Overlaid

variable (hu : g.Unedited t) (name : String) {laid rooted : Commit}
  (hl : (g.addFile name [t]).commit limits g.files.size ds = .ok laid)

include hu hl

theorem Unedited.ordered_laid : laid.graph.Ordered ∧ g.files.size < laid.graph.files.size ∧
    (laid.graph.setIncludes transientFile [g.files.size]).Ordered := by
  have hlaid := ordered_commit (hu.ordered_addFile name) hl
  have hne : g.files.size ≠ transientFile := Nat.ne_of_gt hu.ordered.transientFile_lt_size
  have hsize : g.files.size < laid.graph.files.size := by
    rw [size_commit hl, size_addFile]
    exact Nat.lt_succ_self _
  exact ⟨hlaid, hsize, ordered_setIncludes hlaid ⟨hne, hsize⟩⟩

/-- The new file is all that the transient file is put in front of. -/
theorem Unedited.includesOf_laid :
    (laid.graph.setIncludes transientFile [g.files.size]).includesOf transientFile =
      [g.files.size] := by
  obtain ⟨hlaid, -, -⟩ := hu.ordered_laid name hl
  rw [includesOf_setIncludes _ _ _ _ hlaid.transientFile_lt_size, if_pos rfl]

variable (hr : (laid.graph.setIncludes transientFile [g.files.size]).commit limits transientFile
    { redefinable := true } = .ok rooted)

include hr

/-- The chain of the overlay: the transient file, then the files of the graph, moved. -/
theorem Unedited.linearOrder_overlay :
    rooted.graph.linearOrder transientFile =
      transientFile :: (g.linearOrder transientFile).map g.overlaid := by
  obtain ⟨hlaid, hsize, -⟩ := hu.ordered_laid name hl
  have hne : g.files.size ≠ transientFile := Nat.ne_of_gt hu.ordered.transientFile_lt_size
  rw [linearOrder_congr (size_commit hr) (includesOf_commit hr),
    hlaid.linearOrder_setIncludes hne hsize,
    linearOrder_congr (size_commit hl) (includesOf_commit hl), hu.linearOrder_addFile name,
    hu.map_overlaid]

theorem Unedited.linked_overlay :
    (transientFile :: (g.linearOrder transientFile).map g.overlaid).Nodup ∧
      (transientFile :: (g.linearOrder transientFile).map g.overlaid).length ≤
        rooted.graph.files.size ∧
      rooted.graph.Linked (transientFile :: (g.linearOrder transientFile).map g.overlaid) := by
  obtain ⟨-, -, hrooted⟩ := hu.ordered_laid name hl
  have hfile := hrooted.transientFile_lt_size
  rw [← hu.linearOrder_overlay name hl hr]
  refine ⟨nodup_lastPlaces _, ?_, linked_commit hrooted hfile hr⟩
  exact (ordered_commit hrooted hr).length_linearOrder_le (size_commit hr ▸ hfile)

/-- The transient file is empty again. -/
theorem Unedited.declared?_overlay_transientFile (k : Key) :
    rooted.graph.declared? transientFile k = none := by
  have hne : transientFile ≠ g.files.size := Nat.ne_of_lt hu.ordered.transientFile_lt_size
  rw [declared?_root hr, declared?_commit_of_ne hl hne, declared?_addFile, hu.empty]

/-- Every file declares in the overlay what it declares after the edit. -/
theorem Unedited.declared?_overlay (hc : g.commit limits transientFile ds = .ok done)
    (hf : f < g.files.size) (k : Key) :
    rooted.graph.declared? (g.overlaid f) k =
      (done.graph.declared? f k).map (Parameter.moved g.overlaid) := by
  -- What was laid is what was committed, moved, and so are the slots it went to.
  obtain ⟨done', hdone, rfl⟩ := (hu.commit_addFile name).mp hl
  cases hc.symm.trans hdone
  have hsize : g.overlaid f < (g.addFile name [t]).files.size := by
    rw [size_addFile, overlaid]
    split
    · exact Nat.lt_succ_self _
    · exact Nat.lt_succ_of_lt hf
  have hslot : ∀ p ∈ done.parameters.reverse,
      (p.moved g.overlaid).slot = ⟨g.overlaid f, k⟩ ↔ p.slot = ⟨f, k⟩ := by
    intro p hp
    have hfile : p.file < g.files.size := by
      rw [file_of_commit hc (List.mem_reverse.mp hp)]
      exact hu.ordered.transientFile_lt_size
    rw [Parameter.slot, Parameter.slot, Slot.mk.injEq, Slot.mk.injEq]
    exact and_congr_left' (overlaid_inj hfile hf)
  have hfind : ((done.parameters.map (Parameter.moved g.overlaid)).reverse.find? fun p =>
        p.slot = ⟨g.overlaid f, k⟩) =
      (done.parameters.reverse.find? fun p => p.slot = ⟨f, k⟩).map
        (Parameter.moved g.overlaid) := by
    rw [← List.map_reverse, List.find?_map]
    rw [← List.head?_filter, ← List.head?_filter, List.filter_congr]
    intro p hp
    simp only [Function.comp_apply, hslot p hp]
  rw [declared?_root hr, declared?_commit hl hsize, declared?_commit hc hf, Option.map_or, hfind,
    declared?_addFile, hu.declared?_overlaid]

/-- After the edit the overlay still sees the same, only in other files. -/
theorem Unedited.mirrors_overlay (hc : g.commit limits transientFile ds = .ok done) :
    done.graph.Mirrors g.overlaid rooted.graph := by
  have hfile := hu.ordered.transientFile_lt_size
  obtain ⟨hnodup, hlength, hlinked⟩ := hu.linked_overlay name hl hr
  have hlinked₀ := linked_commit hu.ordered hfile hc
  rw [linearOrder_congr (size_commit hc) (includesOf_commit hc)] at hlinked₀
  refine mirrors_of_linked [transientFile] (atHome_commit hu.home hc) ?_ (nodup_lastPlaces _) ?_
    hlinked₀ hnodup hlength hlinked ?_
  · intro f hf
    exact (hu.ordered.mem_linearOrder hfile).mpr (hu.below f (size_commit hc ▸ hf))
  · rw [size_commit hc]
    exact hu.ordered.length_linearOrder_le hfile
  · intro f hf k
    have hf := hu.ordered.lt_size_of_below hfile ((hu.ordered.mem_linearOrder hfile).mp hf)
    exact hu.declared?_overlay name hl hr hc hf k

/-- The empty transient file hides nothing of the new file. -/
theorem Unedited.visible?_overlay (k : Key) :
    rooted.graph.visible? k = rooted.graph.find? g.files.size k := by
  obtain ⟨hnodup, hlength, hlinked⟩ := hu.linked_overlay name hl hr
  rw [hu.map_overlaid] at hnodup hlength hlinked
  obtain ⟨hfind, -⟩ := hlinked.look_up [] hnodup hlength k
  obtain ⟨hbehind, -⟩ := hlinked.look_up [transientFile] hnodup hlength k
  rw [visible?, hfind, hbehind, List.findSome?_cons,
    hu.declared?_overlay_transientFile name hl hr]

theorem Unedited.reenacts_overlay (hc : g.commit limits transientFile ds = .ok done) :
    done.graph.Reenacts g.overlaid rooted.graph := by
  have hm := hu.mirrors_overlay name hl hr hc
  obtain ⟨rooted', hr', hnone⟩ := exists_root_commit limits (hu.includesOf_laid name hl)
  cases hr.symm.trans hr'
  obtain ⟨done', hdone, rfl⟩ := (hu.commit_addFile name).mp hl
  cases hc.symm.trans hdone
  refine ⟨hm, ?_, ?_, ?_⟩
  · intro k
    have hfound := hm.found transientFile (size_commit hc ▸ hu.ordered.transientFile_lt_size) k
    rw [overlaid, if_pos rfl] at hfound
    rw [hu.visible?_overlay name hl hr, hfound, visible?]
  · intro base
    have hkept := feature?_commit hl base
    rw [feature?_commit hr, hnone]
    exact hkept.trans (feature?_commit hc base).symm
  · exact (clock_commit hr).trans ((clock_commit hl).trans (clock_commit hc).symm)

end Overlaid

/-! ## The edit and the overlay -/

/-- At any time, every reading gives the same in both graphs. -/
def ReadsAlike (limits : Limits) (g g' : Graph) : Prop :=
  ∀ (time : Float) (name : String) (e : Expectation),
    ((({ g' with clock := time } : Graph).read limits name e).run []).1 =
      ((({ g with clock := time } : Graph).read limits name e).run []).1

theorem Reenacts.tick {move : FileId → FileId} (hg : g.Reenacts move g') (time : Float) :
    ({ g with clock := time } : Graph).Reenacts move { g' with clock := time } where
  home := hg.home
  found := by
    intro f hf k
    rw [find?_tick g', find?_tick g]
    exact hg.found f hf k
  above := by
    intro f hf k
    rw [above?_tick g', above?_tick g]
    exact hg.above f hf k
  visible := by
    intro k
    rw [visible?, visible?, find?_tick g', find?_tick g]
    exact hg.visible k
  feature := hg.feature
  clock := rfl

theorem Reenacts.readsAlike {move : FileId → FileId} (hg : g.Reenacts move g') (limits : Limits) :
    g.ReadsAlike limits g' :=
  fun time name e => (hg.tick time).fst_run_read limits name e

/-- The edit can be committed when the overlay can be made, and both read alike. -/
theorem Unedited.commit_iff_overlay (hu : g.Unedited t) (limits : Limits) (name : String)
    {ds' : Declarations} (hrows : ds'.rows = ds.rows) :
    ((∃ done, g.commit limits transientFile ds = .ok done) ↔
        ∃ stacked, g.overlay limits name t ds' = .ok stacked) ∧
      ∀ done stacked, g.commit limits transientFile ds = .ok done →
        g.overlay limits name t ds' = .ok stacked → done.graph.ReadsAlike limits stacked := by
  have hsingle : (g.addFile name [t]).includesOf g.files.size = [t] := by
    rw [includesOf_addFile, if_pos rfl]
  simp only [overlay, bind_eq_ok, pure_eq_ok]
  refine ⟨⟨?_, ?_⟩, ?_⟩
  · rintro ⟨done, hc⟩
    have hl := commit_of_rows hsingle hrows ((hu.commit_addFile name).mpr ⟨done, hc, rfl⟩)
    obtain ⟨rooted, hr, -⟩ := exists_root_commit limits (hu.includesOf_laid name hl)
    exact ⟨_, _, hl, rooted, hr, rfl⟩
  · rintro ⟨_, laid, hl, -⟩
    have hl := commit_of_rows hsingle hrows.symm hl
    obtain ⟨done, hc, -⟩ := (hu.commit_addFile name).mp hl
    exact ⟨done, hc⟩
  · rintro done _ hc ⟨laid, hl, rooted, hr, rfl⟩
    have hl := commit_of_rows hsingle hrows.symm hl
    exact (hu.reenacts_overlay name hl hr hc).readsAlike limits

theorem Unedited.tick (hu : g.Unedited t) (time : Float) :
    ({ g with clock := time } : Graph).Unedited t :=
  ⟨hu.toWhole.tick time, hu.front, hu.empty⟩

end Graph

/-! ## Sessions without edits -/

namespace Session

variable {s s' : Session} {top : String}

/-- The step asks for an edit. -/
def Step.isEdit : Step → Bool
  | .read .. | .moveClock _ => false
  | .change _ | .clone .. => true

/-- Without edits a session stays unedited. -/
theorem unedited_run (hu : s.graph.Unedited t) {steps : List Step}
    (hsteps : ∀ step ∈ steps, step.isEdit = false) : (s.run steps).graph.Unedited t := by
  induction steps generalizing s with
  | nil => exact hu
  | cons step steps ih =>
    obtain ⟨hstep, hsteps⟩ := List.forall_mem_cons.mp hsteps
    refine ih ?_ hsteps
    cases step with
    | read consumer name e => exact (graph_read s consumer name e).symm ▸ hu
    | moveClock time => exact (graph_moveClock s time).symm ▸ hu.tick time
    | change c => cases hstep
    | clone name copy => cases hstep

/-- In a session that was loaded and not edited since, an edit does what its declaration does
in a new file that includes the top file, behind an empty transient file.  It can be
processed when that can; a permissive edit can be made when that can; and then, at any
time, every reading gives the same in both graphs.

The table of the new file has the same rows.  Unlike that of an edit it need not be
redefinable. -/
theorem edit_iff_overlay (hload : Session.load source options top = .ok s) {steps : List Step}
    (hsteps : ∀ step ∈ steps, step.isEdit = false) (hrun : s.run steps = s') :
    ∃ t, s'.graph.fileOf? top = some t ∧ s'.graph.includesOf transientFile = [t] ∧
      ∀ (name : String) (limits : Limits) (c : Change) (ds ds' : Declarations) (d : Declaration),
        c.declarations = .ok (ds, d) → ds'.rows = ds.rows →
          ((∃ done g, s'.graph.process limits transientFile ds true = (.ok done, g)) ↔
            ∃ stacked, s'.graph.overlay limits name t ds' = .ok stacked) ∧
          (∀ done g stacked, s'.graph.process limits transientFile ds true = (.ok done, g) →
            s'.graph.overlay limits name t ds' = .ok stacked → g.ReadsAlike limits stacked) ∧
          (c.permissive = true →
            ((∃ n s₁, s'.apply c true = (.ok n, s₁)) ↔
              ∃ stacked, s'.graph.overlay s'.limits name t ds' = .ok stacked)) ∧
          ∀ n s₁ stacked, s'.apply c true = (.ok n, s₁) →
            s'.graph.overlay s'.limits name t ds' = .ok stacked →
              s₁.graph.ReadsAlike s'.limits stacked := by
  obtain ⟨g, hg, rfl⟩ := load_eq_ok.mp hload
  obtain ⟨t, htop⟩ := topFile_of_load hg
  have hu : s'.graph.Unedited t := hrun ▸ unedited_run (Graph.unedited_of_load hg htop) hsteps
  have htop : TopFile options top t s'.graph := hrun ▸ topFile_run htop steps
  refine ⟨t, htop.title, htop.front, ?_⟩
  intro name limits c ds ds' d hc hrows
  obtain ⟨hprocess, hreads⟩ := hu.commit_iff_overlay limits name hrows
  obtain ⟨happly, hreads'⟩ := hu.commit_iff_overlay s'.limits name hrows
  simp only [hu.process_eq_ok, exists_eq_right', apply_eq_ok hu.toWhole, edit_eq_ok]
  refine ⟨hprocess, ?_, ?_, ?_⟩
  · rintro done _ stacked ⟨hdone, rfl⟩ hstacked
    exact hreads done stacked hdone hstacked
  · intro hpermissive
    rw [← happly]
    constructor
    · rintro ⟨-, -, ds₁, d₁, done, hc₁, -, hdone, -, -⟩
      cases hc.symm.trans hc₁
      exact ⟨done, hdone⟩
    · rintro ⟨done, hdone⟩
      exact ⟨_, _, ds, d, done, hc, requireChangeable_of_permissive hpermissive s' d, hdone, rfl,
        rfl⟩
  · rintro _ _ stacked ⟨ds₁, d₁, done, hc₁, -, hdone, rfl, rfl⟩ hstacked
    cases hc.symm.trans hc₁
    exact hreads' done stacked hdone hstacked

/-! ### Twice what was there -/

/-- A reading and a move of the clock, neither of which is an edit. -/
def sharedLooks : List Step :=
  [.read (some "C") "X" .any, .moveClock 3]

/-- The shared name is set to twice what the top file gives it, once from the transient file
and once from a file that includes the top file. -/
theorem edit_iff_overlay_sharedArms :
    ∃ s s' ds d stacked done g n s₁, load sharedArms { withDefaults := false } "top" = .ok s ∧
      s.run sharedLooks = s' ∧ s'.graph.fileOf? "top" = some 4 ∧
      (⟨"X", "X * 2", true⟩ : Change).declarations = .ok (ds, d) ∧
      s'.graph.overlay s'.limits "front" 4 ds = .ok stacked ∧
      s'.graph.process s'.limits transientFile ds true = (.ok done, g) ∧
      g.ReadsAlike s'.limits stacked ∧ s'.apply ⟨"X", "X * 2", true⟩ true = (.ok n, s₁) ∧
      s₁.graph.ReadsAlike s'.limits stacked := by
  have hok : (load sharedArms { withDefaults := false } "top").toOption.any fun s =>
      let s' := s.run sharedLooks
      s'.graph.fileOf? "top" == some 4 &&
        (⟨"X", "X * 2", true⟩ : Change).declarations.toOption.any fun made =>
          (s'.graph.overlay s'.limits "front" 4 made.1).toOption.isSome := by
    decide +kernel
  obtain ⟨s, hs, hrest⟩ := (Option.any_eq_true _ _).mp hok
  simp only [Bool.and_eq_true, beq_iff_eq] at hrest
  obtain ⟨hfile, hrest⟩ := hrest
  obtain ⟨⟨ds, d⟩, hmade, hrest⟩ := (Option.any_eq_true _ _).mp hrest
  obtain ⟨stacked, hstacked⟩ := Option.isSome_iff_exists.mp hrest
  have hload := toOption_eq_some.mp hs
  have hmade := toOption_eq_some.mp hmade
  have hstacked := toOption_eq_some.mp hstacked
  generalize hrun : s.run sharedLooks = s' at hfile hstacked
  have hlooks : ∀ step ∈ sharedLooks, step.isEdit = false := by decide
  obtain ⟨t, htitle, -, hall⟩ := edit_iff_overlay hload hlooks hrun
  cases hfile.symm.trans htitle
  obtain ⟨hprocesses, hreads, hmakes, hreads'⟩ := hall "front" s'.limits _ ds ds d hmade rfl
  obtain ⟨done, g, hprocess⟩ := hprocesses.mpr ⟨stacked, hstacked⟩
  obtain ⟨n, s₁, happly⟩ := (hmakes rfl).mpr ⟨stacked, hstacked⟩
  exact ⟨s, s', ds, d, stacked, done, g, n, s₁, hload, hrun, hfile, hmade, hstacked, hprocess,
    hreads done g stacked hprocess hstacked, happly, hreads' n s₁ stacked happly hstacked⟩

end Session

end ParameterChain
