/-
# Combining values

An operator on values is the operator on scalars, element by element.  A scalar
beside a vector stands for itself at every place, and two vectors must have the
same length.

What the operator does depends on the kind of the result: booleans are joined by
`*` (and), texts by `+` (one after the other), integers modulo `2 ^ 64` as long as
both sides are integers, and everything else as doubles.  A scalar result for a
vector kind is a vector of one element.
-/
import ParameterChain.Failure
import ParameterChain.Value

namespace ParameterChain

namespace Shape

variable {α β γ : Type}

/-- Apply `f` place by place, a single value standing at every place.  The error
holds the two lengths that differ. -/
def zipWith (f : α → β → γ) : Shape α → Shape β → Except (Nat × Nat) (Shape γ)
  | .one a, .one b => .ok (.one (f a b))
  | .one a, .many bs => .ok (.many (bs.map (f a)))
  | .many as, .one b => .ok (.many (as.map (f · b)))
  | .many as, .many bs =>
      if as.length = bs.length then .ok (.many (List.zipWith f as bs))
      else .error (as.length, bs.length)

/-- The shape as one of a scalar or vector kind: a single value makes a vector of
one, but a vector makes no single value. -/
def fit (isVector : Bool) : Shape α → Option (Shape α)
  | .one a => some (if isVector then .many [a] else .one a)
  | .many as => if isVector then some (.many as) else none

end Shape

namespace Value

/-- `zipWith`, then the result as a value of kind `k`.  `name` is the operand that
is named when the lengths differ. -/
def combineShapes {α : Type} (k : Kind) (op : Operator) (name : String) (f : α → α → α)
    (convert : α → k.scalar.Carrier) (a b : Shape α) : Except Cause Value :=
  match a.zipWith f b with
  | .error (expected, found) => .error (.lengthMismatch name expected found)
  | .ok s =>
      match s.fit k.isVector with
      | some s => .ok ⟨k.scalar, s.map convert⟩
      | none => .error (.incompatibleOperands op)

/-- The doubles of both operands combined, then read as scalars of kind `k`. -/
def combineNumbers (k : Kind) (op : Operator) (name : String)
    (convert : Float → k.scalar.Carrier) (a b : Value) : Except Cause Value :=
  match a.numbers?, b.numbers? with
  | some x, some y => combineShapes k op name op.onNumbers convert x y
  | _, _ => .error (.incompatibleOperands op)

/-- The value of kind `k` that `a op b` is.  `name` is the operand that is named
when the lengths differ. -/
def combine (k : Kind) (a : Value) (op : Operator) (b : Value) (name : String) :
    Except Cause Value :=
  match k with
  | ⟨.boolean, isVector⟩ =>
      match isVector, op, a, b with
      | false, .multiply, ⟨.boolean, .one x⟩, ⟨.boolean, .one y⟩ => .ok (boolean (x && y))
      | _, _, _, _ => .error (.incompatibleOperands op)
  | ⟨.text, isVector⟩ =>
      match op, a.texts?, b.texts? with
      | .add, some x, some y => combineShapes ⟨.text, isVector⟩ op name (· ++ ·) id x y
      | _, _, _ => .error (.incompatibleOperands op)
  | ⟨.integer, isVector⟩ =>
      match a.integers?, b.integers? with
      | some x, some y => combineShapes ⟨.integer, isVector⟩ op name op.onIntegers id x y
      | _, _ => combineNumbers ⟨.integer, isVector⟩ op name Float.toInt64 a b
  | ⟨.unitless, isVector⟩ => combineNumbers ⟨.unitless, isVector⟩ op name id a b
  | ⟨.dimensioned, isVector⟩ => combineNumbers ⟨.dimensioned, isVector⟩ op name id a b

end Value

end ParameterChain
