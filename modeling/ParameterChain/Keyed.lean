/-
# Lists of rows with a key

A table is a list of rows, each with a key of its own.  Rows stay in the order
in which their keys were first put in: `put` replaces the row of a key where
it stands and puts the row of a new key at the end.  Declarations, parameters,
time features, listeners and edits are all kept this way.

Main statements: a look-up after `put` finds the new row under its key and
the old rows under all others, and the keys stay pairwise distinct.
-/

namespace ParameterChain

variable {α κ : Type} [DecidableEq κ]

/-- The row with key `k`. -/
def rowOf? (key : α → κ) (k : κ) (rows : List α) : Option α :=
  rows.find? fun x => key x = k

/-- Put `x` in place of the row with its key, or at the end if there is none. -/
def put (key : α → κ) (x : α) : List α → List α
  | [] => [x]
  | y :: ys => if key y = key x then x :: ys else y :: put key x ys

theorem key_of_rowOf? {key : α → κ} {k : κ} {x : α} {rows : List α}
    (h : rowOf? key k rows = some x) : key x = k := by
  simpa using List.find?_some h

theorem mem_of_rowOf? {key : α → κ} {k : κ} {x : α} {rows : List α}
    (h : rowOf? key k rows = some x) : x ∈ rows :=
  List.mem_of_find?_eq_some h

theorem rowOf?_put (key : α → κ) (x : α) (k : κ) (rows : List α) :
    rowOf? key k (put key x rows) = if key x = k then some x else rowOf? key k rows := by
  induction rows with
  | nil => by_cases h : key x = k <;> simp [put, rowOf?, h]
  | cons y ys ih =>
    simp only [put]
    by_cases hy : key y = key x
    · by_cases hx : key x = k
      · simp [rowOf?, hy, hx]
      · have : ¬ key y = k := fun h => hx (hy ▸ h)
        simp [rowOf?, hy, hx]
    · rw [if_neg hy]
      by_cases hk : key y = k
      · have : ¬ key x = k := fun h => hy (hk.trans h.symm)
        simp [rowOf?, hk, this]
      · have step : rowOf? key k (y :: put key x ys) = rowOf? key k (put key x ys) := by
          simp [rowOf?, hk]
        have rest : rowOf? key k (y :: ys) = rowOf? key k ys := by simp [rowOf?, hk]
        rw [step, rest, ih]

/-- The keys after `put`: the new key, if it is new, comes last. -/
theorem keys_put (key : α → κ) (x : α) (rows : List α) :
    (put key x rows).map key =
      if key x ∈ rows.map key then rows.map key else rows.map key ++ [key x] := by
  induction rows with
  | nil => simp [put]
  | cons y ys ih =>
    by_cases hy : key y = key x
    · simp [put, hy]
    · have hne : ¬ key x = key y := fun h => hy h.symm
      simp only [put, if_neg hy, List.map_cons, List.mem_cons, ih, hne, false_or]
      split <;> simp

theorem mem_keys_put {key : α → κ} {x : α} {k : κ} {rows : List α} :
    k ∈ (put key x rows).map key ↔ k = key x ∨ k ∈ rows.map key := by
  rw [keys_put]
  split
  · next hx => exact ⟨Or.inr, fun h => h.elim (fun heq => heq ▸ hx) id⟩
  · rw [List.mem_append, List.mem_singleton, or_comm]

theorem nodup_keys_put (key : α → κ) (x : α) {rows : List α} (h : (rows.map key).Nodup) :
    ((put key x rows).map key).Nodup := by
  rw [keys_put]
  split
  · exact h
  · next hx =>
    refine List.nodup_append.2 ⟨h, by simp, ?_⟩
    intro a ha b hb
    rcases List.mem_singleton.1 hb with rfl
    exact fun e => hx (e ▸ ha)

/-- Where the keys are distinct every row is found under its key. -/
theorem rowOf?_key {key : α → κ} {x : α} {rows : List α} (hrows : (rows.map key).Nodup)
    (hx : x ∈ rows) : rowOf? key (key x) rows = some x := by
  induction rows with
  | nil => exact absurd hx List.not_mem_nil
  | cons y ys ih =>
    obtain ⟨hy, hys⟩ := List.nodup_cons.1 hrows
    rcases List.mem_cons.1 hx with rfl | hx
    · simp [rowOf?]
    · have hne : key y ≠ key x := fun h => hy (h ▸ List.mem_map.2 ⟨x, hx, rfl⟩)
      have hrest : rowOf? key (key x) (y :: ys) = rowOf? key (key x) ys := by
        simp [rowOf?, hne]
      rw [hrest, ih hys hx]

end ParameterChain
