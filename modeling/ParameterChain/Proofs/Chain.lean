/-
# The chain of a file

The include graph below a file is made linear by keeping each file at its last place
in the pre-order list of the walk.  In that list every file is followed by each of
its includes (`Followed`), keeping last places does not change this, and so every
file stands before all files below it.

A file *leads* for a key when it declares the key and is above all others that do.
Main statements: the look-up along the parents of a graph that is linear below a file
finds the declaration of the file that leads (`Ordered.find?_eq_of_leads`), and making
such a graph linear once more changes no parent (`Ordered.parentOf?_linearize`).
-/
import Mathlib.Data.List.Perm.Subperm
import Mathlib.Data.List.Dedup
import ParameterChain.Proofs.Includes

namespace ParameterChain.Graph

variable {g : Graph} {f h i w : FileId} {k : Key} {order : List FileId}

/-! ## Last places -/

@[simp] theorem mem_lastPlaces {fs : List FileId} : f ∈ lastPlaces fs ↔ f ∈ fs := by
  induction fs with
  | nil => exact Iff.rfl
  | cons a fs ih =>
    simp only [lastPlaces, List.contains_iff_mem]
    split
    · next ha =>
      rw [ih, List.mem_cons]
      exact ⟨Or.inr, fun hf => hf.elim (fun heq => heq ▸ ha) id⟩
    · rw [List.mem_cons, List.mem_cons, ih]

theorem nodup_lastPlaces (fs : List FileId) : (lastPlaces fs).Nodup := by
  induction fs with
  | nil => exact List.nodup_nil
  | cons a fs ih =>
    simp only [lastPlaces, List.contains_iff_mem]
    split
    · exact ih
    · next ha => exact List.nodup_cons.mpr ⟨fun hmem => ha (mem_lastPlaces.mp hmem), ih⟩

/-- Every file of a list is followed by each file that it includes. -/
def Followed (g : Graph) : List FileId → Prop
  | [] => True
  | f :: fs => (∀ i ∈ g.includesOf f, i ∈ fs) ∧ g.Followed fs

theorem Followed.append {fs hs : List FileId} (hfs : g.Followed fs) (hhs : g.Followed hs) :
    g.Followed (fs ++ hs) := by
  induction fs with
  | nil => exact hhs
  | cons f fs ih =>
    exact ⟨fun i hi => List.mem_append_left hs (hfs.1 i hi), ih hfs.2⟩

theorem Followed.flatMap {fs : List FileId} {walk : FileId → List FileId}
    (hwalk : ∀ f ∈ fs, g.Followed (walk f)) : g.Followed (fs.flatMap walk) := by
  induction fs with
  | nil => trivial
  | cons f fs ih =>
    rw [List.flatMap_cons]
    exact (hwalk f List.mem_cons_self).append
      (ih fun x hx => hwalk x (List.mem_cons_of_mem f hx))

theorem Followed.lastPlaces {fs : List FileId} (hfs : g.Followed fs) :
    g.Followed (lastPlaces fs) := by
  induction fs with
  | nil => trivial
  | cons f fs ih =>
    rw [Graph.lastPlaces]
    split
    · exact ih hfs.2
    · exact ⟨fun i hi => mem_lastPlaces.mpr (hfs.1 i hi), ih hfs.2⟩

/-- A list in which every file is followed by its includes holds with a file all
files below it. -/
theorem Followed.mem_of_below {fs : List FileId} (hfs : g.Followed fs) (hf : f ∈ fs)
    (hb : g.Below f h) : h ∈ fs := by
  induction hb with
  | refl => exact hf
  | tail _ hstep ih =>
    clear hf
    induction fs with
    | nil => exact absurd ih List.not_mem_nil
    | cons a fs ihfs =>
      rcases List.mem_cons.mp ih with rfl | hmem
      · exact List.mem_cons_of_mem _ (hfs.1 _ hstep)
      · exact List.mem_cons_of_mem _ (ihfs hfs.2 hmem)

/-! ## The linear order -/

namespace Ordered

variable (ho : g.Ordered)

include ho

theorem mem_walk (hf : f < g.files.size) : h ∈ g.walk g.files.size f ↔ g.Below f h := by
  induction f using ho.induction with
  | step f ih =>
  rw [ho.walk_eq hf, List.mem_cons, List.mem_flatMap, below_iff]
  refine or_congr ⟨Eq.symm, Eq.symm⟩ (exists_congr fun i => and_congr_right fun hi => ?_)
  exact ih i hi (ho.lt_size_of_include hi)

theorem followed_walk (hf : f < g.files.size) : g.Followed (g.walk g.files.size f) := by
  induction f using ho.induction with
  | step f ih =>
  rw [ho.walk_eq hf]
  refine ⟨?_, Followed.flatMap fun i hi => ih i hi (ho.lt_size_of_include hi)⟩
  intro i hi
  have hself := (ho.mem_walk (ho.lt_size_of_include hi)).mpr (Below.refl g i)
  exact List.mem_flatMap.mpr ⟨i, hi, hself⟩

theorem mem_linearOrder (hf : f < g.files.size) : h ∈ g.linearOrder f ↔ g.Below f h := by
  rw [linearOrder, mem_lastPlaces, ho.mem_walk hf]

theorem followed_linearOrder (hf : f < g.files.size) : g.Followed (g.linearOrder f) :=
  (ho.followed_walk hf).lastPlaces

/-- A file stands first in the linear order of what is below it. -/
theorem linearOrder_eq_cons (hf : f < g.files.size) :
    ∃ rest, g.linearOrder f = f :: rest := by
  rw [linearOrder, ho.walk_eq hf, lastPlaces]
  have hnot : f ∉ (g.includesOf f).flatMap (g.walk g.files.size) := by
    intro hmem
    obtain ⟨i, hi, hmem⟩ := List.mem_flatMap.mp hmem
    exact ho.not_below_of_include hi ((ho.mem_walk (ho.lt_size_of_include hi)).mp hmem)
  rw [if_neg fun hc => hnot (List.contains_iff_mem.mp hc)]
  exact ⟨_, rfl⟩

theorem length_linearOrder_le (hf : f < g.files.size) :
    (g.linearOrder f).length ≤ g.files.size := by
  have hsub : g.linearOrder f ⊆ List.range g.files.size := fun h hh =>
    List.mem_range.mpr (ho.lt_size_of_below hf ((ho.mem_linearOrder hf).mp hh))
  have hperm := List.subperm_of_subset (nodup_lastPlaces _) hsub
  have hle := hperm.length_le
  rwa [List.length_range] at hle

end Ordered

/-! ## Parents along an order -/

/-- The parents of the files of `order` lead from each to the next. -/
def Linked (g : Graph) (order : List FileId) : Prop :=
  ∀ h ∈ order, g.parentOf? h = after? h order

theorem after?_cons_of_ne {a : FileId} {rest : List FileId} (ha : h ≠ a) :
    after? h (a :: rest) = after? h rest := by
  cases rest with
  | nil => rfl
  | cons b rest => rw [after?, if_neg (Ne.symm ha)]

theorem Linked.tail {rest : List FileId} (hnodup : (f :: rest).Nodup)
    (hlinked : g.Linked (f :: rest)) : g.Linked rest := by
  intro h hh
  rw [hlinked h (List.mem_cons_of_mem f hh)]
  refine after?_cons_of_ne ?_
  rintro rfl
  exact (List.nodup_cons.mp hnodup).1 hh

theorem parentsFrom_of_linked {rest : List FileId} (hnodup : (f :: rest).Nodup)
    (hlinked : g.Linked (f :: rest)) :
    ∀ {n}, (f :: rest).length ≤ n → g.parentsFrom n f = f :: rest := by
  induction rest generalizing f with
  | nil =>
    intro n hn
    obtain ⟨n, rfl⟩ := Nat.exists_eq_add_of_lt hn
    have hparent : g.parentOf? f = none := hlinked f List.mem_cons_self
    simp [parentsFrom, hparent]
  | cons a rest ih =>
    intro n hn
    rw [List.length_cons] at hn
    obtain ⟨n, rfl⟩ := Nat.exists_eq_add_of_lt (Nat.lt_of_lt_of_le (Nat.succ_pos _) hn)
    have hparent : g.parentOf? f = some a := by
      rw [hlinked f List.mem_cons_self, after?, if_pos rfl]
    rw [Nat.zero_add, parentsFrom, hparent]
    simp only
    rw [ih (List.nodup_cons.mp hnodup).2 (hlinked.tail hnodup) (by omega)]

theorem Ordered.chain_eq (ho : g.Ordered) (hf : f < g.files.size)
    (hlinked : g.Linked (g.linearOrder f)) : g.chain f = g.linearOrder f := by
  obtain ⟨rest, hrest⟩ := ho.linearOrder_eq_cons hf
  have hnodup := nodup_lastPlaces (g.walk g.files.size f)
  have hlength := ho.length_linearOrder_le hf
  rw [← linearOrder, hrest] at hnodup
  rw [hrest] at hlinked hlength ⊢
  exact parentsFrom_of_linked hnodup hlinked hlength

/-! ## Links -/

theorem size_link (g : Graph) (order : List FileId) :
    (g.link order).files.size = g.files.size := by
  simp [link]

theorem getElem?_link (g : Graph) (order : List FileId) (h : FileId) :
    (g.link order).files[h]? = g.files[h]?.map fun file =>
      { file with parent := if h ∈ order then after? h order else file.parent } := by
  simp only [link, Array.getElem?_mapIdx, List.contains_iff_mem]
  by_cases hh : h ∈ order
  · simp only [if_pos hh]
  · simp only [if_neg hh]

@[simp] theorem includesOf_link (g : Graph) (order : List FileId) (h : FileId) :
    (g.link order).includesOf h = g.includesOf h := by
  rw [includesOf, includesOf, getElem?_link]
  cases g.files[h]? <;> rfl

@[simp] theorem parametersOf_link (g : Graph) (order : List FileId) (h : FileId) :
    (g.link order).parametersOf h = g.parametersOf h := by
  rw [parametersOf, parametersOf, getElem?_link]
  cases g.files[h]? <;> rfl

@[simp] theorem nameOf_link (g : Graph) (order : List FileId) (h : FileId) :
    (g.link order).nameOf h = g.nameOf h := by
  rw [nameOf, nameOf, getElem?_link]
  cases g.files[h]? <;> rfl

@[simp] theorem declared?_link (g : Graph) (order : List FileId) (h : FileId) (k : Key) :
    (g.link order).declared? h k = g.declared? h k := by
  rw [declared?, declared?, parametersOf_link]

theorem parentOf?_link_of_mem (hh : h ∈ order) (hsize : h < g.files.size) :
    (g.link order).parentOf? h = after? h order := by
  rw [parentOf?, getElem?_link, Array.getElem?_eq_getElem hsize]
  exact if_pos hh

theorem parentOf?_link_of_not_mem (hh : h ∉ order) :
    (g.link order).parentOf? h = g.parentOf? h := by
  rw [parentOf?, parentOf?, getElem?_link]
  cases g.files[h]? with
  | none => rfl
  | some file => exact if_neg hh

theorem Ordered.linked_linearize (ho : g.Ordered) (hf : f < g.files.size) :
    (g.linearize f).Linked (g.linearOrder f) := by
  intro h hh
  exact parentOf?_link_of_mem hh (ho.lt_size_of_below hf ((ho.mem_linearOrder hf).mp hh))

/-- A graph that is linear below `f` keeps all its parents when it is made linear
below `f` once more. -/
theorem Ordered.parentOf?_linearize (ho : g.Ordered) (hf : f < g.files.size)
    (hlinked : g.Linked (g.linearOrder f)) (h : FileId) :
    (g.linearize f).parentOf? h = g.parentOf? h := by
  by_cases hh : h ∈ g.linearOrder f
  · rw [ho.linked_linearize hf h hh, hlinked h hh]
  · exact parentOf?_link_of_not_mem hh

/-- If a file below `f` other than `f` declares `k`, then what is above `f` when the graph is
linear below `f` is declared by such a file. -/
theorem Ordered.exists_above?_linearize (ho : g.Ordered) (hf : f < g.files.size)
    (hb : g.Below f h) (hne : h ≠ f) (hk : (g.declared? h k).isSome) :
    ∃ i p, (g.linearize f).above? f k = some p ∧ g.Below f i ∧ i ≠ f ∧
      g.declared? i k = some p := by
  obtain ⟨rest, hrest⟩ := ho.linearOrder_eq_cons hf
  have hlinked := ho.linked_linearize hf
  have hnodup : (g.linearOrder f).Nodup := nodup_lastPlaces _
  have hlength := ho.length_linearOrder_le hf
  have hmem := (ho.mem_linearOrder hf).mpr hb
  rw [hrest] at hlinked hnodup hlength hmem
  have hh : h ∈ rest := (List.mem_cons.mp hmem).resolve_left hne
  have habove : (g.linearize f).above? f k = rest.findSome? (g.declared? · k) := by
    cases rest with
    | nil => exact absurd hh List.not_mem_nil
    | cons a rest =>
      have hparent : (g.linearize f).parentOf? f = some a := by
        rw [hlinked f List.mem_cons_self, after?, if_pos rfl]
      have hsize : (a :: rest).length ≤ (g.linearize f).files.size := by
        rw [linearize, size_link]
        exact Nat.le_of_succ_le hlength
      rw [above?, hparent, Option.bind_some, find?, chain,
        parentsFrom_of_linked (List.nodup_cons.mp hnodup).2 (hlinked.tail hnodup) hsize]
      simp only [linearize, declared?_link]
  have hsome : (rest.findSome? (g.declared? · k)).isSome :=
    List.findSome?_isSome_iff.mpr ⟨h, hh, hk⟩
  obtain ⟨p, hp⟩ := Option.isSome_iff_exists.mp hsome
  obtain ⟨i, hi, hdecl⟩ := List.exists_of_findSome?_eq_some hp
  refine ⟨i, p, habove.trans hp, ?_, ?_, hdecl⟩
  · rw [← ho.mem_linearOrder hf, hrest]
    exact List.mem_cons_of_mem f hi
  · rintro rfl
    exact (List.nodup_cons.mp hnodup).1 hi

/-! ## Leading files -/

/-- Of the files below `f`, `w` declares `k` and all others that do are below `w`. -/
structure Leads (g : Graph) (f : FileId) (k : Key) (w : FileId) : Prop where
  below : g.Below f w
  declares : (g.declared? w k).isSome
  above : ∀ h, g.Below f h → (g.declared? h k).isSome → g.Below w h

/-- In a list in which every file stands before its includes, a file that is above
all others that declare `k` is the first to declare it. -/
theorem findSome?_eq_of_followed (hnodup : order.Nodup) (hfollowed : g.Followed order)
    (hw : w ∈ order) (hdeclares : (g.declared? w k).isSome)
    (habove : ∀ h ∈ order, (g.declared? h k).isSome → g.Below w h) :
    order.findSome? (g.declared? · k) = g.declared? w k := by
  induction order with
  | nil => exact absurd hw List.not_mem_nil
  | cons a rest ih =>
    obtain ⟨ha, hrest⟩ := List.nodup_cons.mp hnodup
    rw [List.findSome?_cons]
    cases hdecl : g.declared? a k with
    | some p =>
      have hb : g.Below w a := habove a List.mem_cons_self (by simp [hdecl])
      rcases List.mem_cons.mp hw with rfl | hw
      · exact hdecl.symm
      · exact absurd (hfollowed.2.mem_of_below hw hb) ha
    | none =>
      have hw : w ∈ rest := by
        rcases List.mem_cons.mp hw with rfl | hw
        · exact absurd hdeclares (by simp [hdecl])
        · exact hw
      exact ih hrest hfollowed.2 hw fun h hh => habove h (List.mem_cons_of_mem a hh)

/-- Along the parents of a graph that is linear below `f`, a key for which a file
leads is found in that file. -/
theorem Ordered.find?_eq_of_leads (ho : g.Ordered) (hf : f < g.files.size)
    (hlinked : g.Linked (g.linearOrder f)) (hlead : g.Leads f k w) :
    g.find? f k = g.declared? w k := by
  rw [find?, ho.chain_eq hf hlinked]
  refine findSome?_eq_of_followed (nodup_lastPlaces _) (ho.followed_linearOrder hf)
    ((ho.mem_linearOrder hf).mpr hlead.below) hlead.declares fun h hh => ?_
  exact hlead.above h ((ho.mem_linearOrder hf).mp hh)

/-- Along those parents a key that no file below `f` declares is not found. -/
theorem Ordered.find?_eq_none (ho : g.Ordered) (hf : f < g.files.size)
    (hlinked : g.Linked (g.linearOrder f)) (hnone : ∀ h, g.Below f h → g.declared? h k = none) :
    g.find? f k = none := by
  rw [find?, ho.chain_eq hf hlinked]
  exact List.findSome?_eq_none_iff.mpr fun h hh => hnone h ((ho.mem_linearOrder hf).mp hh)

end ParameterChain.Graph
