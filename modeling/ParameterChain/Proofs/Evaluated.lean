/-
# What an evaluation gives

The kind of the value that a parameter evaluates to is that of the parameter, whatever its plan
gives.  The length of a vector is not lost on the way: conversions keep it, and an operator on
vectors gives a vector that is as long as each of them.

Main statements: `kind_of_evaluate`, `size_of_combine` and `length_of_run_mapM`.
-/
import ParameterChain.Proofs.Kinds
import ParameterChain.Proofs.Traced

namespace ParameterChain

variable {α β : Type}

/-! ## Sizes -/

namespace Value

theorem size_of_coerce? {v w : Value} {k : Kind} (h : v.coerce? k = some w) : w.size = v.size := by
  rw [coerce?] at h
  split at h
  · cases h
    rfl
  split at h
  · obtain ⟨convert, -, rfl⟩ := Option.map_eq_some_iff.mp h
    exact Shape.size_map _ _
  · cases h

/-- Of two shapes that are joined, one that is a list has as many elements as the result. -/
theorem size_of_zipWith {γ : Type} {f : α → β → γ} {a : Shape α} {b : Shape β} {c : Shape γ}
    (h : a.zipWith f b = .ok c) :
    (a.isMany → c.isMany ∧ c.size = a.size) ∧ (b.isMany → c.isMany ∧ c.size = b.size) := by
  cases a with
  | one x =>
    cases b with
    | one y =>
      cases h
      refine ⟨?_, ?_⟩ <;> rintro ⟨⟩
    | many ys =>
      cases h
      exact ⟨fun hone => absurd hone Bool.false_ne_true, fun _ => ⟨rfl, List.length_map _⟩⟩
  | many xs =>
    cases b with
    | one y =>
      cases h
      exact ⟨fun _ => ⟨rfl, List.length_map _⟩, fun hone => absurd hone Bool.false_ne_true⟩
    | many ys =>
      rw [Shape.zipWith] at h
      split at h
      · next hlength =>
        cases h
        have hleft : (List.zipWith f xs ys).length = xs.length := by
          rw [List.length_zipWith, hlength, Nat.min_self]
        exact ⟨fun _ => ⟨rfl, hleft⟩, fun _ => ⟨rfl, hleft.trans hlength⟩⟩
      · cases h

theorem size_of_combineShapes {k : Kind} {op : Operator} {name : String} {f : α → α → α}
    {convert : α → k.scalar.Carrier} {a b : Shape α} {v : Value}
    (h : combineShapes k op name f convert a b = .ok v) :
    (a.isMany → v.size = a.size) ∧ (b.isMany → v.size = b.size) := by
  rw [combineShapes] at h
  split at h
  · cases h
  next s hzip =>
  split at h
  · next s' hfit =>
    cases h
    -- A list is fitted as it is, or not at all.
    have hsame : s.isMany → s'.size = s.size := by
      intro hmany
      cases s with
      | one x => cases hmany
      | many xs =>
        rw [Shape.fit] at hfit
        split at hfit
        · cases hfit
          rfl
        · cases hfit
    obtain ⟨hleft, hright⟩ := size_of_zipWith hzip
    have hsize : Value.size ⟨k.scalar, s'.map convert⟩ = s'.size := Shape.size_map _ _
    constructor
    · intro hmany
      rw [hsize, hsame (hleft hmany).1, (hleft hmany).2]
    · intro hmany
      rw [hsize, hsame (hright hmany).1, (hright hmany).2]
  · cases h

/-- A view of a value has its shape. -/
theorem isMany_of_view {v : Value} {f : Option (v.scalar.Carrier → α)} {s : Shape α}
    (h : f.map v.shape.map = some s) : s.isMany = v.kind.isVector ∧ s.size = v.size := by
  obtain ⟨read, -, rfl⟩ := Option.map_eq_some_iff.mp h
  exact ⟨Shape.isMany_map _ _, Shape.size_map _ _⟩

theorem isMany_of_integers? {v : Value} {s : Shape Int64} (h : v.integers? = some s) :
    s.isMany = v.kind.isVector ∧ s.size = v.size := by
  obtain ⟨sort, shape⟩ := v
  cases sort with
  | integer =>
    cases h
    exact ⟨rfl, rfl⟩
  | _ => cases h

theorem size_of_combineNumbers {k : Kind} {a b v : Value} {op : Operator} {name : String}
    {convert : Float → k.scalar.Carrier} (h : combineNumbers k op name convert a b = .ok v) :
    (a.kind.isVector → v.size = a.size) ∧ (b.kind.isVector → v.size = b.size) := by
  rw [combineNumbers] at h
  split at h
  · next x y hx hy =>
    obtain ⟨hmany, hsize⟩ := isMany_of_view hx
    obtain ⟨hmany', hsize'⟩ := isMany_of_view hy
    rw [← hmany, ← hsize, ← hmany', ← hsize']
    exact size_of_combineShapes h
  · cases h

/-- What an operator makes of a vector is as long as the vector. -/
theorem size_of_combine {k : Kind} {a b v : Value} {op : Operator} {name : String}
    (h : combine k a op b name = .ok v) :
    (a.kind.isVector → v.size = a.size) ∧ (b.kind.isVector → v.size = b.size) := by
  obtain ⟨sort, isVector⟩ := k
  cases sort with
  | boolean =>
    simp only [combine] at h
    split at h
    · refine ⟨?_, ?_⟩ <;> rintro ⟨⟩
    · cases h
  | text =>
    simp only [combine] at h
    split at h
    · next x y hx hy =>
      obtain ⟨hmany, hsize⟩ := isMany_of_view hx
      obtain ⟨hmany', hsize'⟩ := isMany_of_view hy
      rw [← hmany, ← hsize, ← hmany', ← hsize']
      exact size_of_combineShapes h
    · cases h
  | integer =>
    simp only [combine] at h
    split at h
    · next x y hx hy =>
      obtain ⟨hmany, hsize⟩ := isMany_of_integers? hx
      obtain ⟨hmany', hsize'⟩ := isMany_of_integers? hy
      rw [← hmany, ← hsize, ← hmany', ← hsize']
      exact size_of_combineShapes h
    · exact size_of_combineNumbers h
  | unitless => exact size_of_combineNumbers h
  | dimensioned => exact size_of_combineNumbers h

end Value

/-! ## Runs -/

namespace Graph

variable {g : Graph} {q : Parameter} {limit fuel : Nat} {t t' : Trace} {v : Value}

/-- What a parameter evaluates to is what its plan gives, read as a value of its kind. -/
theorem exists_of_evaluate (h : (g.evaluate limit fuel q).run t = (.ok v, t')) :
    ∃ rest m w, fuel = rest + 1 ∧
      (g.evalPlan (g.evaluate limit rest) q).run (t.visit q.slot) = (.ok w, m) ∧
      w.coerce? q.kind = some v := by
  cases fuel with
  | zero => cases h
  | succ rest =>
    rw [evaluate, evalWith, Traced.run_bind_ok (Traced.run_visit q.slot t)] at h
    obtain ⟨w, m, hplan, h⟩ := Traced.run_bind_eq_ok.mp h
    refine ⟨rest, m, w, rfl, hplan, ?_⟩
    cases hcoerce : w.coerce? q.kind with
    | none =>
      rw [hcoerce] at h
      cases h
    | some u =>
      rw [hcoerce] at h
      cases h
      rfl

theorem kind_of_evaluate (h : (g.evaluate limit fuel q).run t = (.ok v, t')) :
    v.kind = q.kind := by
  obtain ⟨rest, m, w, -, -, hcoerce⟩ := exists_of_evaluate h
  exact Value.kind_of_coerce? hcoerce

end Graph

theorem Traced.length_of_run_mapM {f : α → Traced β} {xs : List α} {ys : List β} {t t' : Trace}
    (h : (xs.mapM f).run t = (.ok ys, t')) : ys.length = xs.length := by
  induction xs generalizing ys t with
  | nil =>
    rw [List.mapM_nil] at h
    cases h
    rfl
  | cons x xs ih =>
    rw [List.mapM_cons] at h
    obtain ⟨y, m, -, h⟩ := Traced.run_bind_eq_ok.mp h
    obtain ⟨rest, m', hrest, h⟩ := Traced.run_bind_eq_ok.mp h
    cases h
    rw [List.length_cons, List.length_cons, ih hrest]

end ParameterChain
