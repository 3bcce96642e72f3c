/-
# Bisection

A question with the answers yes and no is asked of the positions of a table.  When
every yes stands before every no, the position behind the last yes splits the table,
and halving finds it with few questions: the middle of the part that is left is
asked, and a yes moves the start of that part to the middle.

Halving answers for a table in any order too, and then what it answers depends on
which positions it asks.  Such tables occur where the question is about numbers and
an entry is none (every comparison with it is a no), so the positions asked are part
of what `bisect` means.  Main statement: `countPassed_eq_length_takeWhile`.
-/

namespace ParameterChain

/-- The position behind the last yes among the `size` positions from `base` on.  The
middle of an even part is the first position of its second half; that of an odd part
is its central position, and a no keeps it in the part. -/
def bisect (yes : Nat → Bool) (base size : Nat) : Nat :=
  if 1 < size then
    if yes (base + size / 2) then bisect yes (base + size / 2) (size - size / 2)
    else bisect yes base (size - size / 2)
  else if yes base then base + 1
  else base
termination_by size

/-- The number of entries before the place at which halving splits a table into
those that pass and those that do not. -/
def countPassed {α : Type} (passes : α → Bool) (entries : List α) : Nat :=
  let table := entries.toArray
  bisect (fun i => table[i]?.any passes) 0 table.size

/-! ## Ordered tables -/

/-- When the yes answers are exactly those of the first `k` positions, halving finds
the position behind them. -/
theorem bisect_eq {yes : Nat → Bool} {base size k : Nat} (hsize : 0 < size) (hk : k ≤ size)
    (h : ∀ i, i < size → (yes (base + i) = true ↔ i < k)) : bisect yes base size = base + k := by
  fun_induction bisect yes base size generalizing k with
  | case1 base size hlt hyes ih =>
    have hmiddle := (h (size / 2) (by omega)).1 hyes
    rw [ih (k := k - size / 2) (by omega) (by omega)]
    · omega
    · intro i hi
      have hnext := h (size / 2 + i) (by omega)
      rw [← Nat.add_assoc] at hnext
      rw [hnext]
      omega
  | case2 base size hlt hno ih =>
    have hmiddle : ¬ size / 2 < k := fun hlt => hno ((h (size / 2) (by omega)).2 hlt)
    exact ih (by omega) (by omega) fun i hi => h i (by omega)
  | case3 base size hlt hyes =>
    have hfirst := (h 0 hsize).1 hyes
    omega
  | case4 base size hlt hno =>
    have hfirst : ¬ 0 < k := fun hlt => hno ((h 0 hsize).2 hlt)
    omega

/-- In a table whose passing entries all stand first, an entry passes exactly if it
stands in the longest start of passing entries. -/
theorem passes_iff_lt_length_takeWhile {α : Type} {passes : α → Bool} {entries : List α}
    (h : entries.Pairwise fun a b => passes b = true → passes a = true) {i : Nat}
    (hi : i < entries.length) :
    passes entries[i] = true ↔ i < (entries.takeWhile passes).length := by
  induction entries generalizing i with
  | nil => simp at hi
  | cons a entries ih =>
    obtain ⟨hhead, htail⟩ := List.pairwise_cons.1 h
    by_cases ha : passes a = true
    · rw [List.takeWhile_cons_of_pos ha]
      cases i with
      | zero => simp [ha]
      | succ i => simpa using ih htail (i := i) (by simpa using hi)
    · rw [List.takeWhile_cons_of_neg ha]
      cases i with
      | zero => simp [ha]
      | succ i =>
        have hmem := List.getElem_mem (l := entries) (n := i) (by simpa using hi)
        simpa using fun hpasses => ha (hhead _ hmem hpasses)

/-- In a table whose passing entries all stand first, halving counts them. -/
theorem countPassed_eq_length_takeWhile {α : Type} {passes : α → Bool} {entries : List α}
    (h : entries.Pairwise fun a b => passes b = true → passes a = true) :
    countPassed passes entries = (entries.takeWhile passes).length := by
  cases entries with
  | nil => simp [countPassed, bisect]
  | cons a entries =>
    rw [countPassed]
    refine (bisect_eq (k := ((a :: entries).takeWhile passes).length) ?_ ?_ ?_).trans
      (Nat.zero_add _)
    · simp
    · simpa using (List.takeWhile_sublist passes (l := a :: entries)).length_le
    · intro i hi
      have hi : i < (a :: entries).length := by simpa using hi
      rw [← passes_iff_lt_length_takeWhile h hi]
      simp only [Nat.zero_add, List.getElem?_toArray, List.getElem?_eq_getElem hi,
        Option.any_some]

end ParameterChain
