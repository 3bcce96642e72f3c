/-
# One parameter for each key

What a list of files shows is, for each key that any of them declares, the declaration
that is found first.  The arms of a file are compared by what they show, and every listing
of names goes through what the chain shows; both are one list, sorted by key.

Main statements: `mem_firstIn`, a parameter is listed exactly if a look-up of its key finds
it, and `pairwise_firstIn`, the list is strictly ascending.
-/
import ParameterChain.Proofs.Arms

namespace ParameterChain

variable {g : Graph} {f : FileId} {k : Key} {p q : Parameter} {ps : List Parameter}
  {files : List FileId}

/-! ## The first row of each key -/

namespace Graph

theorem mem_firstPerKey : p ∈ firstPerKey ps ↔ rowOf? Parameter.key p.key ps = some p := by
  constructor
  · intro hp
    induction ps with
    | nil => exact absurd hp List.not_mem_nil
    | cons a ps ih =>
      rcases List.mem_cons.mp hp with rfl | hp
      · simp [rowOf?]
      · obtain ⟨hp, hne⟩ := List.mem_filter.mp hp
        have hne : ¬ a.key = p.key := fun heq => of_decide_eq_true hne heq.symm
        have hrest : rowOf? Parameter.key p.key (a :: ps) = rowOf? Parameter.key p.key ps := by
          simp [rowOf?, hne]
        rw [hrest, ih hp]
  · exact mem_firstPerKey_of_rowOf?

theorem pairwise_firstPerKey (ps : List Parameter) :
    (firstPerKey ps).Pairwise fun p q => p.key ≠ q.key := by
  induction ps with
  | nil => exact .nil
  | cons p ps ih =>
    refine List.pairwise_cons.mpr ⟨?_, ih.filter _⟩
    intro q hq heq
    exact of_decide_eq_true (List.mem_filter.mp hq).2 heq.symm

end Graph

/-! ## Sorted rows -/

theorem Key.text_lt_of_le {j k : Key} (hle : j.le k) (hne : j ≠ k) : j.text < k.text := by
  have hle : j.text ≤ k.text := of_decide_eq_true (p := j.text ≤ k.text) hle
  refine Std.lt_of_le_of_ne hle ?_
  intro heq
  cases j
  cases k
  cases heq
  exact hne rfl

/-- Rows with distinct keys are sorted in strictly ascending order. -/
theorem pairwise_sortedByKey {α : Type} {key : α → Key} {rows : List α}
    (hrows : rows.Pairwise fun x y => key x ≠ key y) :
    (sortedByKey key rows).Pairwise fun x y => (key x).text < (key y).text := by
  have htrans : ∀ x y z : α, (key x).le (key y) → (key y).le (key z) → (key x).le (key z) := by
    intro x y z hxy hyz
    simp only [Key.le, decide_eq_true_eq] at hxy hyz ⊢
    exact String.le_trans hxy hyz
  have htotal : ∀ x y : α, ((key x).le (key y) || (key y).le (key x)) = true := by
    intro x y
    simp only [Key.le, Bool.or_eq_true, decide_eq_true_eq]
    exact String.le_total _ _
  have hsorted := List.pairwise_mergeSort htrans htotal rows
  have hne : (sortedByKey key rows).Pairwise fun x y => key x ≠ key y :=
    ((List.mergeSort_perm rows _).pairwise_iff fun h => Ne.symm h).mpr hrows
  exact (hsorted.and hne).imp fun h => Key.text_lt_of_le h.1 h.2

/-! ## What files show -/

namespace Graph

/-- Listed is what a look-up through the files finds. -/
theorem mem_firstIn :
    p ∈ g.firstIn files ↔ files.findSome? (g.declared? · p.key) = some p := by
  rw [firstIn, sortedByKey, List.mem_mergeSort, mem_firstPerKey, rowOf?_flatMap]

theorem pairwise_firstIn (g : Graph) (files : List FileId) :
    (g.firstIn files).Pairwise fun p q => p.key.text < q.key.text :=
  pairwise_sortedByKey (pairwise_firstPerKey _)

theorem mem_shownBy_iff : p ∈ g.shownBy f ↔ g.firstFound? f p.key = some p :=
  mem_firstIn

theorem mem_visible : p ∈ g.visible ↔ g.visible? p.key = some p :=
  mem_firstIn

end Graph

end ParameterChain
