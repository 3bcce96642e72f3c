/-
# One backward pass makes a graph linear

The linear order of a file is described twice.  `Graph.linearize` keeps each file at its
last place in the pre-order list of the walk and links the files along what is left.  The
pass described here (`linkBackwards`) never builds that order: it goes through the same
list once from the end and links every file that has no parent yet to the file it linked
last.  A file met again has a parent by then, so it is passed over; the very last one has
none and never gets one, and has to be told apart by itself.

Main statements: `Ordered.linkBackwards_eq`, the two are the same on every ordered graph,
whatever parents earlier passes have left in it, and `Laid.isLinearization`, which says what
the chain of a file is after either of them.
-/
import ParameterChain.Proofs.Load

namespace ParameterChain.Graph

variable {g : Graph} {a b f h : FileId} {order : List FileId}

/-! ## Orders of files -/

/-- `a` stands before `b` in a list. -/
def Precedes (fs : List FileId) (a b : FileId) : Prop :=
  [a, b].Sublist fs

/-- The last place of `a` in a list is before the last place of `b`. -/
def LastBefore (fs : List FileId) (a b : FileId) : Prop :=
  ∃ before after, fs = before ++ a :: after ∧ a ∉ after ∧ b ∈ after

theorem LastBefore.cons {fs : List FileId} (hab : LastBefore fs a b) (f : FileId) :
    LastBefore (f :: fs) a b := by
  obtain ⟨before, after, rfl, ha, hb⟩ := hab
  exact ⟨f :: before, after, rfl, ha, hb⟩

/-- The files that are left when each is kept at its last place come in the order of these
places. -/
theorem pairwise_lastPlaces (fs : List FileId) :
    (lastPlaces fs).Pairwise (LastBefore fs) := by
  induction fs with
  | nil => exact .nil
  | cons f fs ih =>
    have ih : (lastPlaces fs).Pairwise (LastBefore (f :: fs)) := by
      refine ih.imp ?_
      intro a b hab
      exact hab.cons f
    simp only [lastPlaces, List.contains_iff_mem]
    split
    · exact ih
    · next hf =>
      refine List.pairwise_cons.mpr ⟨?_, ih⟩
      intro b hb
      exact ⟨[], fs, rfl, hf, mem_lastPlaces.mp hb⟩

/-- Where every file is followed by its includes, it stands before all files below it. -/
theorem Followed.precedes (hfs : g.Followed order) (ha : a ∈ order) (hne : a ≠ b)
    (hb : g.Below a b) : Precedes order a b := by
  induction order with
  | nil => exact absurd ha List.not_mem_nil
  | cons f fs ih =>
    rcases List.mem_cons.mp ha with rfl | ha
    · obtain ⟨i, hi, hb⟩ := (below_iff.mp hb).resolve_left hne
      have hmem : b ∈ fs := hfs.2.mem_of_below (hfs.1 i hi) hb
      exact (List.singleton_sublist.mpr hmem).cons_cons a
    · exact (ih hfs.2 ha).cons f

/-- The last file of a list in which every file is followed by its includes has none. -/
theorem Followed.includesOf_getLast? (hfs : g.Followed order) (hlast : order.getLast? = some f) :
    g.includesOf f = [] := by
  obtain ⟨before, rfl⟩ := List.getLast?_eq_some_iff.mp hlast
  induction before with
  | nil =>
    refine List.eq_nil_iff_forall_not_mem.mpr ?_
    intro i hi
    exact List.not_mem_nil (hfs.1 i hi)
  | cons h before ih => exact ih hfs.2 (List.getLast?_concat ..)

/-- `order` is the linear order of the files below `f`. -/
structure IsLinearization (g : Graph) (f : FileId) (order : List FileId) : Prop where
  /-- Each file once. -/
  nodup : order.Nodup
  /-- The files that can be reached from `f` through includes, and no others. -/
  mem_iff : ∀ h, h ∈ order ↔ g.Below f h
  /-- The walk lists a file and then, in turn, what the walks of its includes list; this is
  the recursion of a pre-order list, of which the bound of the walk cuts nothing off. -/
  walk : ∀ h, g.Below f h →
    g.walk g.files.size h = h :: (g.includesOf h).flatMap (g.walk g.files.size)
  /-- The files come in the order of their last places in the walk. -/
  placed : order.Pairwise (LastBefore (g.walk g.files.size f))
  /-- Every file stands before all that it includes, directly or through others. -/
  precedes : ∀ a b, g.Below f a → g.Below a b → a ≠ b → Precedes order a b

theorem Ordered.isLinearization (ho : g.Ordered) (hf : f < g.files.size) :
    g.IsLinearization f (g.linearOrder f) where
  nodup := nodup_lastPlaces _
  mem_iff := fun h => ho.mem_linearOrder hf
  walk := fun h hb => ho.walk_eq (ho.lt_size_of_below hf hb)
  placed := pairwise_lastPlaces _
  precedes := by
    intro a b ha hb hne
    exact (ho.followed_linearOrder hf).precedes ((ho.mem_linearOrder hf).mpr ha) hne hb

theorem Linked.congr {g' : Graph} (hparent : ∀ h, g'.parentOf? h = g.parentOf? h)
    (hlinked : g.Linked order) : g'.Linked order := by
  intro h hh
  rw [hparent, hlinked h hh]

/-- Right after a graph has been made linear below `f`, the parents from `f` up run through
the linear order of `f` and end with it. -/
theorem Ordered.chain_linearize (ho : g.Ordered) (hf : f < g.files.size) :
    (g.linearize f).chain f = g.linearOrder f ∧
      (g.linearize f).Linked ((g.linearize f).chain f) := by
  have hlinked := ho.linked_linearize hf
  have hchain : (g.linearize f).chain f = g.linearOrder f := by
    obtain ⟨rest, hrest⟩ := ho.linearOrder_eq_cons hf
    have hnodup := nodup_lastPlaces (g.walk g.files.size f)
    have hlength := ho.length_linearOrder_le hf
    rw [← linearOrder, hrest] at hnodup
    rw [hrest] at hlinked hlength ⊢
    refine parentsFrom_of_linked hnodup hlinked ?_
    rw [linearize, size_link]
    exact hlength
  exact ⟨hchain, hchain.symm ▸ hlinked⟩

/-! ## The backward pass -/

/-- Give the file `f` a parent, or none. -/
def setParent (g : Graph) (f : FileId) (parent : Option FileId) : Graph :=
  { g with files := g.files.modify f fun file => { file with parent } }

/-- One step of the pass, at the file `current` of a list that ends with `first`: link it to
the file linked last, unless it has a parent or is the end of the chain. -/
def linkStep (first current : FileId) : Graph × FileId → Graph × FileId
  | (g, previous) =>
      if current ≠ first && (g.parentOf? current).isNone then
        (g.setParent current (some previous), current)
      else (g, previous)

/-- Forget the parents of some files. -/
def clearParents (g : Graph) (fs : List FileId) : Graph :=
  fs.foldl (fun g f => g.setParent f none) g

/-- Make the graph linear below `f` by one pass through the walk from `f`, from its end. -/
def linkBackwards (g : Graph) (f : FileId) : Graph :=
  let places := g.walk g.files.size f
  let cleared := g.clearParents places
  match places.getLast? with
  | none => cleared
  | some first => (places.foldr (linkStep first) (cleared, first)).1

/-- Graphs with the same files one by one, the same features and the same clock are the
same. -/
theorem eq_of_files {g g' : Graph} (hfiles : ∀ h : FileId, g.files[h]? = g'.files[h]?)
    (hfeatures : g.features = g'.features) (hclock : g.clock = g'.clock) : g = g' := by
  have hfiles : g.files = g'.files := Array.ext_getElem? hfiles
  cases g
  cases g'
  simp only at hfiles hfeatures hclock
  rw [hfiles, hfeatures, hclock]

theorem getElem?_setParent (g : Graph) (f : FileId) (parent : Option FileId) (h : FileId) :
    (g.setParent f parent).files[h]? =
      g.files[h]?.map fun file => if f = h then { file with parent } else file := by
  rw [setParent, Array.getElem?_modify]
  by_cases heq : f = h
  · simp only [if_pos heq]
  · simp only [if_neg heq, Option.map_id']

theorem getElem?_clearParents (fs : List FileId) (h : FileId) :
    ∀ g : Graph, (g.clearParents fs).files[h]? =
      g.files[h]?.map fun file => if h ∈ fs then { file with parent := none } else file := by
  induction fs with
  | nil =>
    intro g
    simp [clearParents]
  | cons f fs ih =>
    intro g
    rw [clearParents, List.foldl_cons, ← clearParents, ih, getElem?_setParent, Option.map_map]
    congr 1
    funext file
    by_cases hf : f = h
    · simp [hf]
    · have hf' : h ≠ f := Ne.symm hf
      simp [hf, hf']

theorem parentOf?_clearParents {fs : List FileId} (hh : h ∈ fs) :
    (g.clearParents fs).parentOf? h = none := by
  rw [parentOf?, getElem?_clearParents]
  cases g.files[h]? with
  | none => rfl
  | some file => simp [hh]

theorem size_clearParents (g : Graph) (fs : List FileId) :
    (g.clearParents fs).files.size = g.files.size := by
  induction fs generalizing g with
  | nil => rfl
  | cons f fs ih =>
    rw [clearParents, List.foldl_cons, ← clearParents, ih, setParent, Array.size_modify]

theorem clearParents_kept (g : Graph) (fs : List FileId) :
    (g.clearParents fs).features = g.features ∧ (g.clearParents fs).clock = g.clock := by
  induction fs generalizing g with
  | nil => exact ⟨rfl, rfl⟩
  | cons f fs ih => exact ih (g.setParent f none)

/-- Links along an order do not depend on the parents that its files had. -/
theorem link_clearParents {fs : List FileId} (hmem : ∀ h, h ∈ order ↔ h ∈ fs) :
    (g.clearParents fs).link order = g.link order := by
  obtain ⟨hfeatures, hclock⟩ := clearParents_kept g fs
  refine eq_of_files ?_ hfeatures hclock
  intro h
  rw [getElem?_link, getElem?_link, getElem?_clearParents, Option.map_map]
  congr 1
  funext file
  by_cases hh : h ∈ fs <;> simp [hmem, hh]

/-! ## How far the pass has come -/

/-- Of the files of a list, the last one alone is followed by nothing. -/
theorem after?_eq_none_iff (hnodup : order.Nodup) (hlast : order.getLast? = some f)
    (hh : h ∈ order) : after? h order = none ↔ h = f := by
  induction order with
  | nil => exact absurd hh List.not_mem_nil
  | cons a rest ih =>
    obtain ⟨ha, hrest⟩ := List.nodup_cons.mp hnodup
    cases rest with
    | nil =>
      have hf : a = f := Option.some.inj hlast
      exact ⟨fun _ => (List.mem_singleton.mp hh).trans hf, fun _ => rfl⟩
    | cons b rest =>
      rw [List.getLast?_cons_cons] at hlast
      have hmem : f ∈ b :: rest := List.mem_of_getLast? hlast
      rcases List.mem_cons.mp hh with rfl | htail
      · have hne : h ≠ f := fun heq => ha (heq ▸ hmem)
        simp [after?, hne]
      · have hne : h ≠ a := by
          rintro rfl
          exact ha htail
        rw [after?_cons_of_ne hne]
        exact ih hrest hlast htail

/-- A list ends with the same file when each file is kept at its last place. -/
theorem getLast?_lastPlaces (fs : List FileId) : (lastPlaces fs).getLast? = fs.getLast? := by
  induction fs with
  | nil => rfl
  | cons a fs ih =>
    cases fs with
    | nil => rfl
    | cons b fs =>
      have hmem : b ∈ lastPlaces (b :: fs) := mem_lastPlaces.mpr List.mem_cons_self
      rw [lastPlaces, List.getLast?_cons_cons, ← ih]
      split
      · rfl
      · obtain ⟨c, rest, hrest⟩ := List.exists_cons_of_ne_nil (List.ne_nil_of_mem hmem)
        rw [hrest, List.getLast?_cons_cons]

/-- One more file in front of an order is one more link. -/
theorem setParent_link (g : Graph) (a b : FileId) (order : List FileId) :
    (g.link (b :: order)).setParent a (some b) = g.link (a :: b :: order) := by
  refine eq_of_files ?_ rfl rfl
  intro h
  rw [getElem?_setParent, getElem?_link, getElem?_link, Option.map_map]
  congr 1
  funext file
  by_cases heq : a = h
  · subst heq
    simp [after?]
  · have hne : h ≠ a := Ne.symm heq
    simp only [Function.comp_apply, if_neg heq, List.mem_cons, hne, false_or,
      after?_cons_of_ne hne]

/-- When the pass has come to the front of `places`, the files there are linked along their
last places, and the file linked last is the first of these. -/
theorem foldr_linkStep {places : List FileId} (hlast : places.getLast? = some f)
    (hclear : ∀ h ∈ places, g.parentOf? h = none) (hsize : ∀ h ∈ places, h < g.files.size) :
    ∃ previous rest, lastPlaces places = previous :: rest ∧
      places.foldr (linkStep f) (g, f) = (g.link (previous :: rest), previous) := by
  induction places with
  | nil => cases hlast
  | cons a places ih =>
    cases hplaces : places with
    | nil =>
      subst hplaces
      obtain rfl : a = f := Option.some.inj hlast
      have hself : g.link [a] = g := by
        refine eq_of_files ?_ rfl rfl
        intro h
        rw [getElem?_link]
        have hparent := hclear a List.mem_cons_self
        rw [parentOf?] at hparent
        by_cases heq : h = a
        · subst heq
          cases hfile : g.files[h]? with
          | none => rfl
          | some file =>
            rw [hfile] at hparent
            have hparent : file.parent = none := hparent
            simp only [Option.map_some, List.mem_singleton, if_true, after?, ← hparent]
        · simp [heq]
      exact ⟨a, [], rfl, by simp [linkStep, hself]⟩
    | cons b tail =>
      rw [hplaces, List.getLast?_cons_cons, ← hplaces] at hlast
      obtain ⟨previous, rest, horder, hfold⟩ := ih hlast
        (fun h hh => hclear h (List.mem_cons_of_mem a hh))
        (fun h hh => hsize h (List.mem_cons_of_mem a hh))
      rw [← hplaces, List.foldr_cons, hfold, lastPlaces]
      simp only [List.contains_iff_mem, linkStep]
      have hmem : ∀ h, h ∈ previous :: rest ↔ h ∈ places := by
        intro h
        rw [← horder, mem_lastPlaces]
      by_cases ha : a ∈ places
      · -- Met again: it is linked already, or it is the end of the chain.
        have hafter : after? a (previous :: rest) = none ↔ a = f := by
          refine after?_eq_none_iff (horder ▸ nodup_lastPlaces places) ?_ ((hmem a).mpr ha)
          rw [← horder, getLast?_lastPlaces, hlast]
        rw [if_pos ha, parentOf?_link_of_mem ((hmem a).mpr ha)
          (hsize a List.mem_cons_self), if_neg]
        · exact ⟨previous, rest, horder, rfl⟩
        · simp only [Bool.and_eq_true, decide_eq_true_eq, Option.isNone_iff_eq_none, hafter]
          exact fun hboth => hboth.1 hboth.2
      · have hnot : a ∉ previous :: rest := fun hh => ha ((hmem a).mp hh)
        have hne : a ≠ f := fun heq => ha (heq ▸ List.mem_of_getLast? hlast)
        rw [if_neg ha, parentOf?_link_of_not_mem hnot, hclear a List.mem_cons_self, if_pos]
        · exact ⟨a, previous :: rest, by rw [horder], by rw [setParent_link]⟩
        · simp [hne]

/-- The backward pass makes the graph linear below `f`. -/
theorem Ordered.linkBackwards_eq (ho : g.Ordered) (hf : f < g.files.size) :
    g.linkBackwards f = g.linearize f := by
  have hmem : ∀ h, h ∈ g.linearOrder f ↔ h ∈ g.walk g.files.size f := by
    intro h
    rw [ho.mem_linearOrder hf, ho.mem_walk hf]
  have hsize : ∀ h ∈ g.walk g.files.size f,
      h < (g.clearParents (g.walk g.files.size f)).files.size := by
    intro h hh
    rw [size_clearParents]
    exact ho.lt_size_of_below hf ((ho.mem_walk hf).mp hh)
  rw [linkBackwards]
  cases hlast : (g.walk g.files.size f).getLast? with
  | none =>
    rw [List.getLast?_eq_none_iff, ho.walk_eq hf] at hlast
    cases hlast
  | some first =>
    obtain ⟨previous, rest, horder, hfold⟩ := foldr_linkStep hlast
      (fun h hh => parentOf?_clearParents hh) hsize
    simp only [hfold]
    rw [← horder, ← linearOrder, link_clearParents hmem, linearize]

/-! ## Graphs that are made linear -/

/-- The graphs that are made linear: while a file is loaded, when the transient file is put
in front, and at every edit. -/
inductive Laid : Graph → Prop
  | built {g : Graph} : Built g → Laid g
  | behind {g : Graph} {name : String} {includes : List FileId} :
      Built g → (∀ i ∈ includes, i ≠ transientFile ∧ i < g.files.size) →
      Laid (g.addFile name includes)
  | front {g : Graph} {top : FileId} :
      Built g → top ≠ transientFile ∧ top < g.files.size →
      Laid (g.setIncludes transientFile [top])
  | rooted {g : Graph} : Rooted g → Laid g
  | linear {g : Graph} {f : FileId} : Laid g → f < g.files.size → Laid (g.linearize f)

theorem Ordered.linearize (ho : g.Ordered) (f : FileId) : (g.linearize f).Ordered := by
  refine ⟨?_, ?_⟩
  · rw [Graph.linearize, size_link]
    exact ho.nonempty
  · intro h i hi
    rw [Graph.linearize, includesOf_link] at hi
    rw [rank, Graph.linearize, size_link, ← rank]
    exact ho.lower h i hi

theorem Laid.ordered (hg : g.Laid) : g.Ordered := by
  induction hg with
  | built hb => exact hb.coherent.ordered
  | behind hb hincludes => exact ordered_addFile hb.coherent.ordered hincludes
  | front hb htop => exact ordered_setIncludes hb.coherent.ordered htop
  | rooted hr => exact hr.whole.ordered
  | linear _ _ ih => exact ih.linearize _

end ParameterChain.Graph
