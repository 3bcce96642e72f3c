/-
# Kinds of converted and combined values

Whether a value can be read as one of another kind depends on its kind alone, and so
does whether two values can be joined by an operator, except that two vectors may turn
out to have different lengths.

The rules, as far as kinds go:

    a is read as k     both scalars or both vectors, and the sorts convert
    a op b gives k     `k` is a vector kind, or both sides are scalars; and
                         booleans   two single booleans, `*`, for a single boolean
                         texts      texts and integers, `+`
                         numbers    numbers of any sort

Main statements: `coerce?_of_converts` and `combine_of_combines`.
-/
import ParameterChain.Value.Combine

namespace ParameterChain

/-! ## Conversion -/

/-- Values of kind `a` can be read as values of kind `k`. -/
def Kind.Converts (a k : Kind) : Prop :=
  a.isVector = k.isVector ∧ (a.scalar.convert? k.scalar).isSome

instance (a k : Kind) : Decidable (a.Converts k) :=
  inferInstanceAs (Decidable (_ ∧ _))

theorem Kind.Converts.refl (k : Kind) : k.Converts k := by
  refine ⟨rfl, ?_⟩
  cases k.scalar <;> rfl

namespace Value

theorem coerce?_of_converts {v : Value} {k : Kind} (h : v.kind.Converts k) :
    ∃ w, v.coerce? k = some w ∧ w.kind = k := by
  obtain ⟨sort, shape⟩ := v
  obtain ⟨target, isVector⟩ := k
  obtain ⟨hshape, hsort⟩ := h
  have hshape : shape.isMany = isVector := hshape
  have hsort : (sort.convert? target).isSome := hsort
  rw [coerce?]
  by_cases hk : kind ⟨sort, shape⟩ = ⟨target, isVector⟩
  · exact ⟨_, if_pos hk, hk⟩
  · obtain ⟨convert, hconvert⟩ := Option.isSome_iff_exists.mp hsort
    refine ⟨⟨target, shape.map convert⟩, ?_, ?_⟩
    · simp only [if_neg hk, hshape, if_true, convert?, hconvert, Option.map_some]
    · simp only [kind, Shape.isMany_map, hshape]

/-- A single value is read as a scalar of every sort that its own converts to. -/
theorem scalarAs?_of_converts {v : Value} {s : Scalar} (h : v.kind.Converts (Kind.one s)) :
    ∃ x, v.scalarAs? s = some x := by
  obtain ⟨hshape, hsort⟩ := h
  obtain ⟨sort, shape⟩ := v
  cases shape with
  | many as => cases hshape
  | one a =>
    obtain ⟨convert, hconvert⟩ := Option.isSome_iff_exists.mp hsort
    have hconvert : sort.convert? s = some convert := hconvert
    refine ⟨convert a, ?_⟩
    rw [scalarAs?]
    simp only [hconvert]
    rfl

theorem kind_of_coerce? {v w : Value} {k : Kind} (h : v.coerce? k = some w) : w.kind = k := by
  rw [coerce?] at h
  split at h
  · next hk =>
    cases h
    exact hk
  · split at h
    · next hshape =>
      obtain ⟨convert, -, rfl⟩ := Option.map_eq_some_iff.mp h
      rw [kind, Shape.isMany_map, hshape]
    · cases h

/-- A vector is not read as a scalar. -/
theorem scalarAs?_of_isVector {v : Value} (h : v.kind.isVector) (s : Scalar) :
    v.scalarAs? s = none := by
  obtain ⟨sort, shape⟩ := v
  cases shape with
  | one a => cases h
  | many as =>
    rw [scalarAs?]
    exact Option.bind_eq_none_iff.mpr fun _ _ => rfl

end Value

/-! ## Combination -/

/-- The sorts whose scalars can be joined as texts. -/
def Scalar.isTextual : Scalar → Bool
  | .text | .integer => true
  | .boolean | .unitless | .dimensioned => false

/-- Values of the kinds `a` and `b` can be joined by `op` to a value of kind `k`,
unless they are vectors of different lengths. -/
def Kind.combines (k a : Kind) (op : Operator) (b : Kind) : Bool :=
  (k.isVector || !a.isVector && !b.isVector) &&
    match k.scalar with
    | .boolean => !k.isVector && op == .multiply && a.scalar == .boolean && b.scalar == .boolean
    | .text => op == .add && a.scalar.isTextual && b.scalar.isTextual
    | .integer | .unitless | .dimensioned => a.isNumeric && b.isNumeric

namespace Value

/-- `r` is a value of kind `k` or says that two lengths differ. -/
def OfKind (k : Kind) (r : Except Cause Value) : Prop :=
  match r with
  | .ok v => v.kind = k
  | .error c => ∃ name expected found, c = .lengthMismatch name expected found

theorem combineShapes_ofKind {α : Type} {k : Kind} {op : Operator} {name : String}
    {f : α → α → α} {convert : α → k.scalar.Carrier} {a b : Shape α}
    (hshape : k.isVector || !a.isMany && !b.isMany) :
    OfKind k (combineShapes k op name f convert a b) := by
  obtain ⟨sort, isVector⟩ := k
  rw [combineShapes]
  cases a with
  | one x =>
    cases b with
    | one y => cases isVector <;> rfl
    | many bs =>
      cases isVector with
      | true => rfl
      | false => cases hshape
  | many as =>
    cases isVector with
    | false => cases hshape
    | true =>
      cases b with
      | one y => rfl
      | many bs =>
        rw [Shape.zipWith]
        by_cases hlength : as.length = bs.length
        · rw [if_pos hlength]
          rfl
        · rw [if_neg hlength]
          exact ⟨name, as.length, bs.length, rfl⟩

theorem numbers?_of_isNumeric {v : Value} (h : v.kind.isNumeric) :
    ∃ x, v.numbers? = some x ∧ x.isMany = v.kind.isVector := by
  obtain ⟨sort, shape⟩ := v
  cases sort with
  | boolean => cases h
  | text => cases h
  | integer => exact ⟨_, rfl, Shape.isMany_map _ _⟩
  | unitless => exact ⟨_, rfl, Shape.isMany_map _ _⟩
  | dimensioned => exact ⟨_, rfl, Shape.isMany_map _ _⟩

theorem texts?_of_isTextual {v : Value} (h : v.scalar.isTextual) :
    ∃ x, v.texts? = some x ∧ x.isMany = v.kind.isVector := by
  obtain ⟨sort, shape⟩ := v
  cases sort with
  | text => exact ⟨_, rfl, Shape.isMany_map _ _⟩
  | integer => exact ⟨_, rfl, Shape.isMany_map _ _⟩
  | boolean => cases h
  | unitless => cases h
  | dimensioned => cases h

theorem combineNumbers_ofKind {k : Kind} {op : Operator} {name : String}
    {convert : Float → k.scalar.Carrier} {a b : Value}
    (hshape : k.isVector || !a.kind.isVector && !b.kind.isVector)
    (ha : a.kind.isNumeric) (hb : b.kind.isNumeric) :
    OfKind k (combineNumbers k op name convert a b) := by
  obtain ⟨x, hx, hxa⟩ := numbers?_of_isNumeric ha
  obtain ⟨y, hy, hyb⟩ := numbers?_of_isNumeric hb
  rw [combineNumbers, hx, hy]
  exact combineShapes_ofKind (by rw [hxa, hyb]; exact hshape)

/-- What may be combined according to its kinds is combined, to a value of the kind
that is asked for, unless two lengths differ. -/
theorem combine_of_combines {k : Kind} {a b : Value} {op : Operator} {name : String}
    (h : k.combines a.kind op b.kind) : OfKind k (combine k a op b name) := by
  obtain ⟨sort, isVector⟩ := k
  obtain ⟨hshape, hsort⟩ := Bool.and_eq_true_iff.mp h
  cases sort with
  | boolean =>
    simp only [Bool.and_eq_true, Bool.not_eq_true', beq_iff_eq] at hsort
    obtain ⟨⟨⟨rfl, rfl⟩, ha⟩, hb⟩ := hsort
    obtain ⟨sa, xa⟩ := a
    obtain ⟨sb, xb⟩ := b
    cases (show sa = .boolean from ha)
    cases (show sb = .boolean from hb)
    cases xa with
    | many as => cases hshape
    | one x =>
      cases xb with
      | many bs => cases hshape
      | one y => rfl
  | text =>
    simp only [Bool.and_eq_true, beq_iff_eq] at hsort
    obtain ⟨⟨rfl, ha⟩, hb⟩ := hsort
    obtain ⟨x, hx, hxa⟩ := texts?_of_isTextual ha
    obtain ⟨y, hy, hyb⟩ := texts?_of_isTextual hb
    simp only [combine, hx, hy]
    exact combineShapes_ofKind (by rw [hxa, hyb]; exact hshape)
  | integer =>
    obtain ⟨ha, hb⟩ := Bool.and_eq_true_iff.mp hsort
    rw [combine]
    split
    · next x y hx hy =>
      obtain ⟨sa, xa⟩ := a
      obtain ⟨sb, xb⟩ := b
      cases sa <;> cases hx
      cases sb <;> cases hy
      exact combineShapes_ofKind hshape
    · exact combineNumbers_ofKind hshape ha hb
  | unitless =>
    obtain ⟨ha, hb⟩ := Bool.and_eq_true_iff.mp hsort
    exact combineNumbers_ofKind hshape ha hb
  | dimensioned =>
    obtain ⟨ha, hb⟩ := Bool.and_eq_true_iff.mp hsort
    exact combineNumbers_ofKind hshape ha hb

end Value

end ParameterChain
