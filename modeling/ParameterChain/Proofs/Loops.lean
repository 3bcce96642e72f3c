/-
# Loops over an arena

The chain of a file, a look-up along it, the pre-order walk of the includes and the list of all
places of that walk are loops that take what the files of an arena say as it comes: nothing
bounds them, and a file or place that does not exist stops them for good.  The rules here are
what these loops do, step by step; each step requires that the file it looks at exists, so a run
that can be put together from them comes to an end and asks for nothing out of range.  At each
point one rule applies at most.

On graphs the same walks are bounded by the number of files.  Main statement: `Sound.safe`.  From
every file of a sound arena each loop has a run, and its result is that of the bounded walk, so
the bound is never what ends it.
-/
import Mathlib.Data.Finset.Card
import ParameterChain.Proofs.Arena

namespace ParameterChain.Arena

variable {a : Arena} {f h p : FileId} {fs order seen stack : List FileId} {k : Key}
  {r : Option ParameterId}

/-- From `f` the loop goes up the parents by the files `fs`. -/
inductive Climbs (a : Arena) : FileId → List FileId → Prop where
  | last {f : FileId} : f < a.files.size → a.parentOf? f = none → Climbs a f [f]
  | next {f p : FileId} {fs : List FileId} : f < a.files.size → a.parentOf? f = some p →
      Climbs a p fs → Climbs a f (f :: fs)

/-- From `f` up the parents the loop finds `k` at the place `r`, or nowhere. -/
inductive Finds (a : Arena) (k : Key) : FileId → Option ParameterId → Prop where
  | here {f : FileId} {id : ParameterId} : f < a.files.size → a.idOf? f k = some id →
      Finds a k f (some id)
  | nowhere {f : FileId} : f < a.files.size → a.idOf? f k = none → a.parentOf? f = none →
      Finds a k f none
  | above {f p : FileId} {r : Option ParameterId} : f < a.files.size → a.idOf? f k = none →
      a.parentOf? f = some p → Finds a k p r → Finds a k f r

/-- With the files of `stack` still to be visited, the first one first, and those of `seen`
visited before, the loop visits the files in the order `order`. -/
inductive Visits (a : Arena) : List FileId → List FileId → List FileId → Prop where
  | done {seen : List FileId} : Visits a [] seen seen
  | again {f : FileId} {stack seen order : List FileId} : f ∈ seen → Visits a stack seen order →
      Visits a (f :: stack) seen order
  | first {f : FileId} {stack seen order : List FileId} : f ∉ seen → f < a.files.size →
      Visits a (a.includesOf f ++ stack) (seen ++ [f]) order → Visits a (f :: stack) seen order

/-- The recursion lists the files `fs`, each followed by what it lists of the includes. -/
inductive Places (a : Arena) : List FileId → List FileId → Prop where
  | nil : Places a [] []
  | cons {f : FileId} {fs below after : List FileId} : f < a.files.size →
      Places a (a.includesOf f) below → Places a fs after → Places a (f :: fs) (f :: below ++ after)

/-! ## Up the parents -/

theorem Climbs.lt_size (hc : a.Climbs f fs) : ∀ h ∈ fs, h < a.files.size := by
  induction hc with
  | last hf _ => exact fun h hh => List.mem_singleton.mp hh ▸ hf
  | next hf _ _ ih =>
    intro h hh
    rcases List.mem_cons.mp hh with rfl | hh
    · exact hf
    · exact ih h hh

/-- What is passed on the way up is above the start. -/
theorem Climbs.above (hc : a.Climbs f fs) : ∀ h ∈ fs, Relation.ReflTransGen a.Above h f := by
  induction hc with
  | last _ _ => exact fun h hh => List.mem_singleton.mp hh ▸ .refl
  | next _ hp _ ih =>
    intro h hh
    rcases List.mem_cons.mp hh with rfl | hh
    · exact .refl
    · exact (ih h hh).tail hp

theorem Climbs.nodup (ha : a.Connected) (hc : a.Climbs f fs) : fs.Nodup := by
  induction hc with
  | last _ _ => exact List.nodup_singleton _
  | @next f p fs _ hp hc ih =>
    refine List.nodup_cons.mpr ⟨fun hmem => ?_, ih⟩
    exact ha.not_above f (.tail' (hc.above f hmem) hp)

/-- No more files are passed than there are. -/
theorem Climbs.length_le (ha : a.Connected) (hc : a.Climbs f fs) : fs.length ≤ a.files.size := by
  have hsub : fs ⊆ List.range a.files.size := fun h hh => List.mem_range.mpr (hc.lt_size h hh)
  have hle := ((hc.nodup ha).subperm hsub).length_le
  rwa [List.length_range] at hle

/-- A climb that passes at most `n` files is not cut by a bound of `n`. -/
theorem Climbs.parentsFrom_eq (hc : a.Climbs f fs) :
    ∀ {n}, fs.length ≤ n → a.graph.parentsFrom n f = fs := by
  induction hc with
  | last _ hnone =>
    intro n hn
    obtain ⟨n, rfl⟩ := Nat.exists_eq_add_of_le' hn
    simp [Graph.parentsFrom, hnone]
  | next _ hp _ ih =>
    intro n hn
    rw [List.length_cons] at hn
    obtain ⟨m, rfl⟩ := Nat.exists_eq_add_of_lt (Nat.lt_of_lt_of_le (Nat.succ_pos _) hn)
    rw [Nat.zero_add, Graph.parentsFrom, parentOf?_graph, hp]
    simp only
    rw [ih (by omega)]

theorem Connected.climbs (ha : a.Connected) (hf : f < a.files.size) :
    a.Climbs f (a.graph.chain f) := by
  have hex : ∃ fs, a.Climbs f fs := by
    induction f using ha.climbable.induction with
    | h f ih =>
    cases hp : a.parentOf? f with
    | none => exact ⟨[f], .last hf hp⟩
    | some p =>
      obtain ⟨fs, hfs⟩ := ih p hp (ha.parents f p hp)
      exact ⟨f :: fs, .next hf hp hfs⟩
  obtain ⟨fs, hfs⟩ := hex
  rw [Graph.chain, size_graph, hfs.parentsFrom_eq (hfs.length_le ha)]
  exact hfs

/-- The look-up stops at the first file of the climb that declares the key. -/
theorem Climbs.finds (ha : a.Filed) (hc : a.Climbs f fs) (k : Key) :
    ∃ r, a.Finds k f r ∧
      r.map (a.parameters[·]?) = (fs.findSome? (a.graph.declared? · k)).map some := by
  induction hc with
  | @last f hf hp =>
    rcases ha.declared?_cases f k with ⟨id, p, hid, hplace, hdecl⟩ | ⟨hid, hdecl⟩
    · exact ⟨some id, .here hf hid, by simp [hplace, hdecl]⟩
    · exact ⟨none, .nowhere hf hid hp, by simp [hdecl]⟩
  | @next f p fs hf hp _ ih =>
    rcases ha.declared?_cases f k with ⟨id, q, hid, hplace, hdecl⟩ | ⟨hid, hdecl⟩
    · exact ⟨some id, .here hf hid, by simp [hplace, hdecl]⟩
    · obtain ⟨r, hr, heq⟩ := ih
      refine ⟨r, .above hf hid hp hr, ?_⟩
      rw [heq, List.findSome?_cons, hdecl]

/-! ## Down the includes -/

/-- The files `fs`, in front of what else is to be visited, are visited in turn. -/
theorem visits_append
    (hvisit : ∀ f ∈ fs, ∀ stack seen order,
      a.Visits stack (a.graph.visit a.files.size seen f) order → a.Visits (f :: stack) seen order)
    (hrest : a.Visits stack (fs.foldl (a.graph.visit a.files.size) seen) order) :
    a.Visits (fs ++ stack) seen order := by
  induction fs generalizing seen with
  | nil => exact hrest
  | cons f fs ih =>
    refine hvisit f List.mem_cons_self _ _ _ ?_
    exact ih (fun h hh => hvisit h (List.mem_cons_of_mem _ hh)) hrest

/-- The loop goes on after a file as the recursion does. -/
theorem Connected.visits_cons (ha : a.Connected) (hf : f < a.files.size) :
    ∀ stack seen order, a.Visits stack (a.graph.visit a.files.size seen f) order →
      a.Visits (f :: stack) seen order := by
  have ho := ha.ordered
  induction f using ho.induction with
  | step f ih =>
  intro stack seen order hrest
  rw [← size_graph, ho.visit_eq (by rwa [size_graph]), size_graph] at hrest
  split at hrest
  · next hseen => exact .again (List.contains_iff_mem.mp hseen) hrest
  · next hseen =>
    refine .first (fun hmem => hseen (List.contains_iff_mem.mpr hmem)) hf ?_
    rw [includesOf_graph] at hrest
    refine visits_append ?_ hrest
    intro i hi
    exact ih i (includesOf_graph a f ▸ hi) (ha.includes f i hi).2.1

theorem Connected.visits (ha : a.Connected) (hf : f < a.files.size) :
    a.Visits [f] [] (a.graph.preorder f) := by
  refine ha.visits_cons hf _ _ _ ?_
  rw [Graph.preorder, size_graph]
  exact .done

/-- The recursion lists the files `fs` as the walks from them do. -/
theorem places_flatMap
    (hplace : ∀ f ∈ fs, ∀ hs after, a.Places hs after →
      a.Places (f :: hs) (a.graph.walk a.files.size f ++ after)) :
    a.Places fs (fs.flatMap (a.graph.walk a.files.size)) := by
  induction fs with
  | nil => exact .nil
  | cons f fs ih =>
    rw [List.flatMap_cons]
    exact hplace f List.mem_cons_self _ _ (ih fun h hh => hplace h (List.mem_cons_of_mem _ hh))

theorem Connected.places_cons (ha : a.Connected) (hf : f < a.files.size) :
    ∀ hs after, a.Places hs after →
      a.Places (f :: hs) (a.graph.walk a.files.size f ++ after) := by
  have ho := ha.ordered
  induction f using ho.induction with
  | step f ih =>
  intro hs after hafter
  rw [← size_graph, ho.walk_eq (by rwa [size_graph]), size_graph, includesOf_graph]
  refine .cons hf (places_flatMap ?_) hafter
  intro i hi
  exact ih i (includesOf_graph a f ▸ hi) (ha.includes f i hi).2.1

theorem Connected.places (ha : a.Connected) (hf : f < a.files.size) :
    a.Places [f] (a.graph.walk a.files.size f) := by
  have hplaces := ha.places_cons hf [] [] .nil
  rwa [List.append_nil] at hplaces

/-! ## Safe arenas -/

/-- From `f` all loops come to an end, asking for nothing out of range, with the results of the
bounded walks. -/
structure Ends (a : Arena) (f : FileId) : Prop where
  climbs : a.Climbs f (a.graph.chain f)
  finds : ∀ k, ∃ r, a.Finds k f r ∧
    r.map (a.parameters[·]?) = (a.graph.find? f k).map some
  visits : a.Visits [f] [] (a.graph.preorder f)
  places : a.Places [f] (a.graph.walk a.files.size f)

/-- A sound arena, in which no two keys or files share a place, no file is above itself and all
loops come to an end. -/
structure Safe (a : Arena) : Prop extends Sound a where
  apart : ∀ f k f' k' id, a.idOf? f k = some id → a.idOf? f' k' = some id → f = f' ∧ k = k'
  loopless : ∀ f, ¬ Relation.TransGen a.Above f f
  ends : ∀ f < a.files.size, a.Ends f

theorem Sound.safe (ha : a.Sound) : a.Safe where
  toSound := ha
  apart := fun _ _ _ _ _ => ha.toFiled.slot_unique
  loopless := ha.not_above
  ends := by
    intro f hf
    have hclimbs := ha.climbs hf
    exact ⟨hclimbs, hclimbs.finds ha.toFiled, ha.visits hf, ha.places hf⟩

end ParameterChain.Arena
