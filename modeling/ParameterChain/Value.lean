/-
# Values

A value is a sort of scalar together with one scalar of that sort or a list of
them.  Its kind is read off the two parts, so a value cannot disagree with its
own kind, and every operation on vectors is the operation on scalars mapped over
the shape.

Dimensioned values are in internal units; the unit a parameter was declared with
belongs to the parameter and not to its value.
-/
import ParameterChain.Kind
import ParameterChain.Number.Shortest

namespace ParameterChain

/-! ## Shapes -/

/-- One `α` or a list of them. -/
inductive Shape (α : Type) where
  | one (a : α)
  | many (as : List α)
  deriving DecidableEq, Repr

namespace Shape

variable {α β : Type}

def isMany : Shape α → Bool
  | .one _ => false
  | .many _ => true

def map (f : α → β) : Shape α → Shape β
  | .one a => .one (f a)
  | .many as => .many (as.map f)

def one? : Shape α → Option α
  | .one a => some a
  | .many _ => none

def many? : Shape α → Option (List α)
  | .one _ => none
  | .many as => some as

/-- The number of elements; a single one counts as one. -/
def size : Shape α → Nat
  | .one _ => 1
  | .many as => as.length

/-- The element at position `i` of a list; a single `α` has no positions. -/
def at? (s : Shape α) (i : Nat) : Option α :=
  match s with
  | .one _ => none
  | .many as => as[i]?

@[simp] theorem isMany_map (f : α → β) (s : Shape α) : (s.map f).isMany = s.isMany := by
  cases s <;> rfl

@[simp] theorem size_map (f : α → β) (s : Shape α) : (s.map f).size = s.size := by
  cases s <;> simp [map, size]

end Shape

/-! ## Scalars of a sort -/

/-- The scalars of a sort. -/
abbrev Scalar.Carrier : Scalar → Type
  | .boolean => Bool
  | .integer => Int64
  | .unitless => Float
  | .dimensioned => Float
  | .text => String

instance Scalar.decEqCarrier : (s : Scalar) → DecidableEq s.Carrier
  | .boolean => inferInstanceAs (DecidableEq Bool)
  | .integer => inferInstanceAs (DecidableEq Int64)
  | .unitless => inferInstanceAs (DecidableEq Float)
  | .dimensioned => inferInstanceAs (DecidableEq Float)
  | .text => inferInstanceAs (DecidableEq String)

/-- A number as it is written in a value: without an exponent, and a zero
without a sign. -/
def showNumber (x : Float) : String :=
  if x == 0 then "0" else Number.plain x

def showBoolean (b : Bool) : String :=
  if b then "True" else "False"

def showInteger (n : Int64) : String :=
  Int.repr n.toInt

/-- A scalar as it is written in a value. -/
def Scalar.display : (s : Scalar) → s.Carrier → String
  | .boolean, b => "\"" ++ showBoolean b ++ "\""
  | .integer, n => showInteger n
  | .unitless, x => showNumber x
  | .dimensioned, x => showNumber x
  | .text, t => "\"" ++ t ++ "\""

/-- Equality of scalars as values: numbers by size, so that the two zeros are the
same and a NaN is not the same as anything. -/
def Scalar.same : (s : Scalar) → s.Carrier → s.Carrier → Bool
  | .boolean, a, b => a == b
  | .integer, a, b => a == b
  | .unitless, a, b => a == b
  | .dimensioned, a, b => a == b
  | .text, a, b => a == b

/-- The real number that a numeric scalar is. -/
def Scalar.number? : (s : Scalar) → Option (s.Carrier → Float)
  | .integer => some Int64.toFloat
  | .unitless => some id
  | .dimensioned => some id
  | .boolean | .text => none

/-- The text that a scalar is when texts are joined: integers are spelled out. -/
def Scalar.text? : (s : Scalar) → Option (s.Carrier → String)
  | .text => some id
  | .integer => some showInteger
  | .boolean | .unitless | .dimensioned => none

/-- How scalars of one sort are read as scalars of another: an integer widens to
a unitless number, a unitless number is cut to an integer (toward zero, and at
the ends of the 64-bit range), and an integer is spelled out as a text. -/
def Scalar.convert? : (s t : Scalar) → Option (s.Carrier → t.Carrier)
  | .boolean, .boolean => some id
  | .integer, .integer => some id
  | .unitless, .unitless => some id
  | .dimensioned, .dimensioned => some id
  | .text, .text => some id
  | .integer, .unitless => some Int64.toFloat
  | .unitless, .integer => some Float.toInt64
  | .integer, .text => some showInteger
  | _, _ => none

/-! ## Values -/

/-- A scalar of some sort, or a list of scalars of that sort. -/
structure Value where
  scalar : Scalar
  shape : Shape scalar.Carrier
  deriving DecidableEq

namespace Value

def boolean (b : Bool) : Value := ⟨.boolean, .one b⟩
def integer (n : Int64) : Value := ⟨.integer, .one n⟩
def unitless (x : Float) : Value := ⟨.unitless, .one x⟩
def dimensioned (x : Float) : Value := ⟨.dimensioned, .one x⟩
def text (t : String) : Value := ⟨.text, .one t⟩

def kind (v : Value) : Kind :=
  ⟨v.scalar, v.shape.isMany⟩

/-- The number of elements; a scalar has one. -/
def size (v : Value) : Nat :=
  v.shape.size

/-- The element at position `i` of a vector, as a value. -/
def element? (v : Value) (i : Nat) : Option Value :=
  (v.shape.at? i).map fun a => ⟨v.scalar, .one a⟩

/-! ## Views -/

/-- The value as real numbers. -/
def numbers? (v : Value) : Option (Shape Float) :=
  v.scalar.number?.map v.shape.map

/-- The value as texts. -/
def texts? (v : Value) : Option (Shape String) :=
  v.scalar.text?.map v.shape.map

/-- The value of an integer kind. -/
def integers? : Value → Option (Shape Int64)
  | ⟨.integer, s⟩ => some s
  | _ => none

/-- The value of a boolean kind. -/
def booleans? : Value → Option (Shape Bool)
  | ⟨.boolean, s⟩ => some s
  | _ => none

/-- The value of a text kind. -/
def strings? : Value → Option (Shape String)
  | ⟨.text, s⟩ => some s
  | _ => none

/-! ## Conversion -/

/-- The value read as a scalar or vector of sort `t`, element by element. -/
def convert? (v : Value) (t : Scalar) : Option Value :=
  (v.scalar.convert? t).map fun f => ⟨t, v.shape.map f⟩

/-- The value read as one of kind `k`. -/
def coerce? (v : Value) (k : Kind) : Option Value :=
  if v.kind = k then some v
  else if v.shape.isMany = k.isVector then v.convert? k.scalar
  else none

/-- The single scalar of sort `t` that the value is read as. -/
def scalarAs? (v : Value) (t : Scalar) : Option t.Carrier :=
  (v.scalar.convert? t).bind fun f => v.shape.one?.map f

/-! ## Comparison and display -/

/-- Equality as values (see `Scalar.same`): the same kind, the same number of
elements and the same elements. -/
def same (v w : Value) : Bool :=
  if h : v.scalar = w.scalar then
    match v.shape, h ▸ w.shape with
    | .one a, .one b => v.scalar.same a b
    | .many as, .many bs =>
        as.length == bs.length && (as.zip bs).all fun (a, b) => v.scalar.same a b
    | _, _ => false
  else false

/-- The value as it is written in a file: a vector starts with its length. -/
def display (v : Value) : String :=
  match v.shape with
  | .one a => v.scalar.display a
  | .many as => " ".intercalate (Nat.repr as.length :: as.map v.scalar.display)

/-- The value with its dimensioned numbers as multiples of a unit of size
`factor`. -/
def inUnits (factor : Float) : Value → Value
  | ⟨.dimensioned, s⟩ => ⟨.dimensioned, s.map (· / factor)⟩
  | v => v

/-- The value as it is written with numbers in a unit of size `factor`. -/
def displayIn (factor : Float) (v : Value) : String :=
  (v.inUnits factor).display

end Value

end ParameterChain
