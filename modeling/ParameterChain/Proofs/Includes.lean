/-
# What lies below a file

The files *below* a file are the file itself and all that it includes, directly or
through others.  In every graph that is built by loading, a file stands behind the
files it includes and the transient file is included by none; `Ordered` says so, and
from it come the two facts the rest of the theory needs:

  * induction along the includes (`Ordered.induction`);
  * the walks of `ParameterChain.Graph` and `ParameterChain.Graph.Linear`, which are
    bounded by the number of files, are never cut by that bound (`walk_eq`,
    `visit_eq`).

Main statement: `firstFound?_eq`.  A pre-order walk that skips the files already
seen finds for each key what a plain recursion over the includes finds, whatever
the shape of the include graph.
-/
import Mathlib.Data.List.Basic
import Mathlib.Logic.Relation
import ParameterChain.Graph.Linear

namespace ParameterChain.Graph

variable {g : Graph} {f h i : FileId} {k : Key}

/-- `b` is named among the includes of `a`. -/
def Includes (g : Graph) (a b : FileId) : Prop :=
  b ∈ g.includesOf a

/-- `b` is `a` or is included from it, directly or through others. -/
def Below (g : Graph) (a b : FileId) : Prop :=
  Relation.ReflTransGen g.Includes a b

/-- A number above those of all files that `f` includes.  The transient file has
the highest, for it is put in front of all others. -/
def rank (g : Graph) (f : FileId) : Nat :=
  if f = transientFile then g.files.size else f

/-- Every file includes loaded files of lower rank only. -/
structure Ordered (g : Graph) : Prop where
  nonempty : 0 < g.files.size
  lower : ∀ f i, i ∈ g.includesOf f → i ≠ transientFile ∧ i < g.rank f

theorem findSome?_congr {α β : Type} {u v : α → Option β} {xs : List α}
    (h : ∀ x ∈ xs, u x = v x) : xs.findSome? u = xs.findSome? v := by
  rw [← List.head?_filterMap, ← List.head?_filterMap, List.filterMap_congr h]

/-! ## Reaching files -/

theorem Below.refl (g : Graph) (f : FileId) : g.Below f f :=
  Relation.ReflTransGen.refl

theorem Below.head (hi : i ∈ g.includesOf f) (hb : g.Below i h) : g.Below f h :=
  Relation.ReflTransGen.head hi hb

theorem Below.trans {a b c : FileId} (hab : g.Below a b) (hbc : g.Below b c) : g.Below a c :=
  Relation.ReflTransGen.trans hab hbc

theorem below_iff :
    g.Below f h ↔ f = h ∨ ∃ i ∈ g.includesOf f, g.Below i h := by
  constructor
  · intro hb
    rcases Relation.ReflTransGen.cases_head hb with rfl | ⟨i, hi, hb⟩
    · exact Or.inl rfl
    · exact Or.inr ⟨i, hi, hb⟩
  · rintro (rfl | ⟨i, hi, hb⟩)
    · exact Below.refl g f
    · exact hb.head hi

/-- Reachability depends on the includes only. -/
theorem Below.congr {g g' : Graph} (hg : ∀ f, g'.includesOf f = g.includesOf f) :
    g'.Below f h ↔ g.Below f h := by
  have hrel : g'.Includes = g.Includes := by
    funext a b
    simp only [Includes, hg a]
  rw [Below, Below, hrel]

theorem includesOf_of_size_le (hf : g.files.size ≤ f) : g.includesOf f = [] := by
  simp [includesOf, Array.getElem?_eq_none hf]

theorem rank_le_size (hf : f < g.files.size) : g.rank f ≤ g.files.size := by
  rw [rank]
  split
  · exact Nat.le_refl _
  · exact Nat.le_of_lt hf

namespace Ordered

variable (ho : g.Ordered)

include ho

theorem transientFile_lt_size : transientFile < g.files.size :=
  ho.nonempty

theorem rank_of_include (hi : i ∈ g.includesOf f) : g.rank i < g.rank f := by
  obtain ⟨hne, hlt⟩ := ho.lower f i hi
  rw [rank, if_neg hne]
  exact hlt

theorem lt_size_of_include (hi : i ∈ g.includesOf f) : i < g.files.size := by
  obtain ⟨-, hlt⟩ := ho.lower f i hi
  have hf : f < g.files.size := by
    refine Nat.lt_of_not_le ?_
    intro hge
    rw [includesOf_of_size_le hge] at hi
    exact absurd hi List.not_mem_nil
  rw [rank] at hlt
  split at hlt
  · exact hlt
  · exact Nat.lt_trans hlt hf

/-- Induction along the includes: a statement that holds of a file whenever it holds
of its includes holds of all files. -/
theorem induction {P : FileId → Prop}
    (step : ∀ f, (∀ i ∈ g.includesOf f, P i) → P f) (f : FileId) : P f := by
  induction hr : g.rank f using Nat.strongRecOn generalizing f with
  | ind r ih =>
    refine step f ?_
    intro i hi
    exact ih (g.rank i) (hr ▸ ho.rank_of_include hi) i rfl

theorem rank_le_of_below (hb : g.Below f h) : g.rank h ≤ g.rank f := by
  induction hb with
  | refl => exact Nat.le_refl _
  | tail _ hstep ih => exact Nat.le_trans (Nat.le_of_lt (ho.rank_of_include hstep)) ih

/-- No file is below one of its includes. -/
theorem not_below_of_include (hi : i ∈ g.includesOf f) : ¬ g.Below i f := by
  intro hb
  have hle := ho.rank_le_of_below hb
  have hlt := ho.rank_of_include hi
  omega

theorem lt_size_of_below (hf : f < g.files.size) (hb : g.Below f h) : h < g.files.size := by
  induction hb with
  | refl => exact hf
  | tail _ hstep _ => exact ho.lt_size_of_include hstep

theorem transientFile_not_below (hf : f ≠ transientFile) : ¬ g.Below f transientFile := by
  intro hb
  rcases Relation.ReflTransGen.cases_tail hb with heq | ⟨c, -, hstep⟩
  · exact hf heq.symm
  · exact (ho.lower c transientFile hstep).1 rfl

theorem rank_pos (f : FileId) : 0 < g.rank f := by
  rw [rank]
  split
  · exact ho.nonempty
  · next hf => exact Nat.pos_of_ne_zero hf

/-! ## The bound of a walk is never reached -/

theorem walk_stable (f : FileId) :
    ∀ n m, g.rank f ≤ n → g.rank f ≤ m → g.walk n f = g.walk m f := by
  induction f using ho.induction with
  | step f ih =>
  intro n m hn hm
  have hpos := ho.rank_pos f
  obtain ⟨n, rfl⟩ := Nat.exists_eq_add_of_lt (Nat.lt_of_lt_of_le hpos hn)
  obtain ⟨m, rfl⟩ := Nat.exists_eq_add_of_lt (Nat.lt_of_lt_of_le hpos hm)
  simp only [Nat.zero_add, walk, List.flatMap]
  congr 2
  refine List.map_congr_left ?_
  intro i hi
  have hlt := ho.rank_of_include hi
  exact ih i hi n m (by omega) (by omega)

theorem visit_stable (f : FileId) :
    ∀ n m seen, g.rank f ≤ n → g.rank f ≤ m → g.visit n seen f = g.visit m seen f := by
  induction f using ho.induction with
  | step f ih =>
  intro n m seen hn hm
  have hpos := ho.rank_pos f
  obtain ⟨n, rfl⟩ := Nat.exists_eq_add_of_lt (Nat.lt_of_lt_of_le hpos hn)
  obtain ⟨m, rfl⟩ := Nat.exists_eq_add_of_lt (Nat.lt_of_lt_of_le hpos hm)
  simp only [Nat.zero_add, visit]
  congr 1
  refine List.foldl_ext _ _ _ ?_
  intro seen i hi
  have hlt := ho.rank_of_include hi
  exact ih i hi n m seen (by omega) (by omega)

theorem walk_eq (hf : f < g.files.size) :
    g.walk g.files.size f = f :: (g.includesOf f).flatMap (g.walk g.files.size) := by
  have hle := rank_le_size hf
  rw [ho.walk_stable f g.files.size (g.files.size + 1) hle (by omega), walk]

theorem visit_eq (hf : f < g.files.size) (seen : List FileId) :
    g.visit g.files.size seen f =
      if seen.contains f then seen
      else (g.includesOf f).foldl (g.visit g.files.size) (seen ++ [f]) := by
  have hle := rank_le_size hf
  rw [ho.visit_stable f g.files.size (g.files.size + 1) seen hle (by omega), visit]

/-! ## What a visit adds

A visit never loses sight of what was seen before it, and it comes back from a file
only when everything that the file includes has been seen. -/

end Ordered

/-- All includes of `s` are among the files seen. -/
def Explored (g : Graph) (seen : List FileId) (s : FileId) : Prop :=
  ∀ i ∈ g.includesOf s, i ∈ seen

theorem Explored.mono {seen seen' : List FileId} (hsub : seen ⊆ seen')
    (he : g.Explored seen f) : g.Explored seen' f :=
  fun i hi => hsub (he i hi)

/-- `result` is what is seen when the files `fs` have been visited after `seen`. -/
structure Visited (g : Graph) (seen fs result : List FileId) : Prop where
  kept : seen <+: result
  reached : ∀ f ∈ fs, f ∈ result
  explored : ∀ s ∈ result, s ∈ seen ∨ g.Explored result s
  below : ∀ s ∈ result, s ∈ seen ∨ ∃ f ∈ fs, g.Below f s

theorem Visited.nil (g : Graph) (seen : List FileId) : g.Visited seen [] seen where
  kept := List.prefix_refl seen
  reached := fun _ hf => absurd hf List.not_mem_nil
  explored := fun _ hs => Or.inl hs
  below := fun _ hs => Or.inl hs

theorem Visited.cons {seen middle result fs : List FileId} (hfirst : g.Visited seen [f] middle)
    (hrest : g.Visited middle fs result) : g.Visited seen (f :: fs) result where
  kept := hfirst.kept.trans hrest.kept
  reached := by
    intro x hx
    rcases List.mem_cons.mp hx with rfl | hx
    · exact hrest.kept.subset (hfirst.reached x List.mem_cons_self)
    · exact hrest.reached x hx
  explored := by
    intro s hs
    rcases hrest.explored s hs with hs | hs
    · rcases hfirst.explored s hs with hs | hs
      · exact Or.inl hs
      · exact Or.inr (hs.mono hrest.kept.subset)
    · exact Or.inr hs
  below := by
    intro s hs
    rcases hrest.below s hs with hs | ⟨x, hx, hb⟩
    · rcases hfirst.below s hs with hs | ⟨x, hx, hb⟩
      · exact Or.inl hs
      · exact Or.inr ⟨x, List.mem_cons.mpr (Or.inl (List.mem_singleton.mp hx)), hb⟩
    · exact Or.inr ⟨x, List.mem_cons_of_mem f hx, hb⟩

theorem visited_foldl {fs : List FileId}
    (hvisit : ∀ f ∈ fs, ∀ seen, g.Visited seen [f] (g.visit g.files.size seen f)) :
    ∀ seen, g.Visited seen fs (fs.foldl (g.visit g.files.size) seen) := by
  induction fs with
  | nil => exact fun seen => .nil g seen
  | cons f fs ih =>
    intro seen
    exact (hvisit f List.mem_cons_self seen).cons
      (ih (fun x hx => hvisit x (List.mem_cons_of_mem f hx)) _)

namespace Ordered

variable (ho : g.Ordered)

include ho

theorem visited_visit (hf : f < g.files.size) :
    ∀ seen, g.Visited seen [f] (g.visit g.files.size seen f) := by
  induction f using ho.induction with
  | step f ih =>
  intro seen
  rw [ho.visit_eq hf]
  split
  · next hseen =>
    have hmem : f ∈ seen := List.contains_iff_mem.mp hseen
    exact ⟨List.prefix_refl seen, fun x hx => List.mem_singleton.mp hx ▸ hmem,
      fun _ hs => Or.inl hs, fun _ hs => Or.inl hs⟩
  · have hall := visited_foldl (fun i hi => ih i hi (ho.lt_size_of_include hi)) (seen ++ [f])
    have hself := hall.kept.subset (List.mem_append_right seen List.mem_cons_self)
    refine ⟨(List.prefix_append seen [f]).trans hall.kept, ?_, ?_, ?_⟩
    · intro x hx
      exact List.mem_singleton.mp hx ▸ hself
    · intro s hs
      rcases hall.explored s hs with hs | hs
      · rcases List.mem_append.mp hs with hs | hs
        · exact Or.inl hs
        · exact Or.inr (List.mem_singleton.mp hs ▸ hall.reached)
      · exact Or.inr hs
    · intro s hs
      rcases hall.below s hs with hs | ⟨i, hi, hb⟩
      · rcases List.mem_append.mp hs with hs | hs
        · exact Or.inl hs
        · exact Or.inr ⟨f, List.mem_cons_self, List.mem_singleton.mp hs ▸ Below.refl g s⟩
      · exact Or.inr ⟨f, List.mem_cons_self, hb.head hi⟩

end Ordered

/-! ## The first declaration on a visit -/

/-- A visit that starts after `seen` is not misled by it: of the files seen, those
below `f` have been left behind for good, and none declares `k`. -/
structure Fresh (g : Graph) (k : Key) (f : FileId) (seen : List FileId) : Prop where
  silent : ∀ s ∈ seen, g.declared? s k = none
  explored : ∀ s ∈ seen, g.Below f s → g.Explored seen s

theorem Fresh.nil (g : Graph) (k : Key) (f : FileId) : g.Fresh k f [] where
  silent := fun _ hs => absurd hs List.not_mem_nil
  explored := fun _ hs => absurd hs List.not_mem_nil

/-- Once a file has been left behind, so have all files below it. -/
theorem Fresh.mem_of_below {seen : List FileId} (hfresh : g.Fresh k f seen) (hf : f ∈ seen)
    (hb : g.Below f h) : h ∈ seen := by
  induction hb with
  | refl => exact hf
  | tail hb hstep ih => exact hfresh.explored _ ih hb _ hstep

namespace Ordered

variable (ho : g.Ordered)

include ho

/-- The visits of several files in turn find what the first of them to find
anything finds. -/
theorem findSome?_foldl {fs : List FileId} (hsize : ∀ i ∈ fs, i < g.files.size)
    (ih : ∀ i ∈ fs, ∀ seen, g.Fresh k i seen →
      (g.visit g.files.size seen i).findSome? (g.declared? · k) = g.firstFound? i k) :
    ∀ seen, (∀ s ∈ seen, g.declared? s k = none) → (∀ i ∈ fs, g.Fresh k i seen) →
      (fs.foldl (g.visit g.files.size) seen).findSome? (g.declared? · k) =
        fs.findSome? (g.firstFound? · k) := by
  induction fs with
  | nil => exact fun seen hsilent _ => List.findSome?_eq_none_iff.mpr hsilent
  | cons i fs ihfs =>
    intro seen hsilent hfresh
    have hhere := ih i List.mem_cons_self seen (hfresh i List.mem_cons_self)
    have hvisit := ho.visited_visit (hsize i List.mem_cons_self) seen
    rw [List.foldl_cons, List.findSome?_cons]
    cases hfirst : g.firstFound? i k with
    | some p =>
      refine List.IsPrefix.findSome?_eq_some ?_ (hhere.trans hfirst)
      exact (visited_foldl (fun x hx =>
        ho.visited_visit (hsize x (List.mem_cons_of_mem i hx))) _).kept
    | none =>
      have hnone := List.findSome?_eq_none_iff.mp (hhere.trans hfirst)
      refine ihfs (fun x hx => hsize x (List.mem_cons_of_mem i hx))
        (fun x hx => ih x (List.mem_cons_of_mem i hx)) _ hnone fun x hx => ⟨hnone, ?_⟩
      intro s hs hb
      rcases hvisit.explored s hs with hs | hs
      · exact ((hfresh x (List.mem_cons_of_mem i hx)).explored s hs hb).mono hvisit.kept.subset
      · exact hs

theorem fresh_include {seen : List FileId} (hfresh : g.Fresh k f seen)
    (hnone : g.declared? f k = none) (hi : i ∈ g.includesOf f) :
    g.Fresh k i (seen ++ [f]) where
  silent := by
    intro s hs
    rcases List.mem_append.mp hs with hs | hs
    · exact hfresh.silent s hs
    · exact List.mem_singleton.mp hs ▸ hnone
  explored := by
    intro s hs hb
    rcases List.mem_append.mp hs with hs | hs
    · exact (hfresh.explored s hs (hb.head hi)).mono (List.subset_append_left seen [f])
    · exact absurd (List.mem_singleton.mp hs ▸ hb) (ho.not_below_of_include hi)

/-- What a visit finds does not depend on what was seen before it. -/
theorem findSome?_visit (hf : f < g.files.size) :
    ∀ seen, g.Fresh k f seen →
      (g.visit g.files.size seen f).findSome? (g.declared? · k) = g.firstFound? f k := by
  induction f using ho.induction with
  | step f ih =>
  intro seen hfresh
  have hsize : ∀ i ∈ g.includesOf f, i < g.files.size := fun i hi => ho.lt_size_of_include hi
  have ih := fun i hi => ih i hi (hsize i hi)
  by_cases hseen : f ∈ seen
  · -- Everything below `f` has been seen, and none of it declares `k`.
    rw [ho.visit_eq hf, if_pos (List.contains_iff_mem.mpr hseen),
      List.findSome?_eq_none_iff.mpr hfresh.silent]
    refine (List.findSome?_eq_none_iff.mpr fun s hs => ?_).symm
    rcases (ho.visited_visit hf []).below s hs with hs | ⟨x, hx, hb⟩
    · exact absurd hs List.not_mem_nil
    · exact hfresh.silent s (hfresh.mem_of_below hseen (List.mem_singleton.mp hx ▸ hb))
  · rw [firstFound?, preorder, ho.visit_eq hf, ho.visit_eq hf,
      if_neg (fun hc => hseen (List.contains_iff_mem.mp hc)), if_neg (by simp)]
    cases hdecl : g.declared? f k with
    | some p =>
      have hkept : ∀ before, before ++ [f] <+:
          (g.includesOf f).foldl (g.visit g.files.size) (before ++ [f]) := fun before =>
        (visited_foldl (fun i hi => ho.visited_visit (hsize i hi)) (before ++ [f])).kept
      rw [(hkept seen).findSome?_eq_some (b := p), (hkept []).findSome?_eq_some (b := p)]
      · simp [hdecl]
      · rw [List.findSome?_append, List.findSome?_eq_none_iff.mpr hfresh.silent]
        simp [hdecl]
    | none =>
      have hempty := Fresh.nil g k f
      rw [ho.findSome?_foldl hsize ih _ _ fun i hi => ho.fresh_include hfresh hdecl hi,
        ho.findSome?_foldl hsize ih _ _ fun i hi => ho.fresh_include hempty hdecl hi]
      · simp [hdecl]
      · intro s hs
        rcases List.mem_append.mp hs with hs | hs
        · exact hfresh.silent s hs
        · exact List.mem_singleton.mp hs ▸ hdecl

/-- The first declaration of a key on a pre-order walk from `f` is that of `f`, or
else the first that one of its includes finds, asked in turn. -/
theorem firstFound?_eq (hf : f < g.files.size) (k : Key) :
    g.firstFound? f k =
      (g.declared? f k).or ((g.includesOf f).findSome? (g.firstFound? · k)) := by
  have hsize : ∀ i ∈ g.includesOf f, i < g.files.size := fun i hi => ho.lt_size_of_include hi
  have hvisit := fun i hi => ho.findSome?_visit (k := k) (hsize i hi)
  rw [firstFound?, preorder, ho.visit_eq hf, if_neg (by simp), List.nil_append]
  cases hdecl : g.declared? f k with
  | some p =>
    have hkept := (visited_foldl (fun i hi => ho.visited_visit (hsize i hi)) [f]).kept
    rw [hkept.findSome?_eq_some (b := p) (by simp [hdecl]), Option.some_or]
  | none =>
    rw [Option.none_or]
    refine ho.findSome?_foldl hsize hvisit [f] ?_ fun i hi => ?_
    · exact fun s hs => List.mem_singleton.mp hs ▸ hdecl
    · exact ho.fresh_include (Fresh.nil g k f) hdecl hi

end Ordered

end ParameterChain.Graph
