/-
# Kinds of values

A parameter holds one of five sorts of scalar or a vector of them.  A *kind* is
the pair, and its *code* is what stands before the colon of a declaration: one
letter for the sort and a `v` for a vector (`d`, `uv`, …).
-/
import ParameterChain.Text.LowerCase

namespace ParameterChain

/-- The sorts of scalars.  A dimensioned scalar is a real number with a unit, a
unitless one a real number without. -/
inductive Scalar where
  | boolean
  | integer
  | unitless
  | dimensioned
  | text
  deriving DecidableEq, Repr

/-- What a parameter holds: a scalar or a vector of scalars of one sort. -/
structure Kind where
  scalar : Scalar
  isVector : Bool
  deriving DecidableEq, Repr

/-- The letter of a sort. -/
def Scalar.letter : Scalar → String
  | .boolean => "b"
  | .integer => "i"
  | .unitless => "u"
  | .dimensioned => "d"
  | .text => "s"

/-- The sorts whose values are numbers. -/
def Scalar.isNumeric : Scalar → Bool
  | .integer | .unitless | .dimensioned => true
  | .boolean | .text => false

namespace Kind

/-- The kind of single values of a sort. -/
def one (s : Scalar) : Kind := ⟨s, false⟩

/-- The kind of vectors of a sort. -/
def many (s : Scalar) : Kind := ⟨s, true⟩

/-- The ten kinds, scalars first. -/
def all : List Kind :=
  [one .boolean, one .integer, one .unitless, one .dimensioned, one .text,
    many .boolean, many .integer, many .unitless, many .dimensioned, many .text]

theorem mem_all (k : Kind) : k ∈ all := by
  obtain ⟨s, v⟩ := k
  cases s <;> cases v <;> decide

/-- The code before the colon of a declaration. -/
def code (k : Kind) : String :=
  k.scalar.letter ++ (if k.isVector then "v" else "")

/-- The kind with a given code, in either case. -/
def ofCode? (code : String) : Option Kind :=
  all.find? fun k => k.code == Text.asciiLower code

/-- The kind of the elements of a vector; a scalar kind is its own. -/
def element (k : Kind) : Kind := one k.scalar

/-- The kind of vectors of a scalar kind; a vector kind is its own. -/
def vector (k : Kind) : Kind := many k.scalar

/-- Whether values of this kind carry a unit. -/
def hasUnit (k : Kind) : Bool := k.scalar == .dimensioned

/-- Whether values of this kind are made of numbers. -/
def isNumeric (k : Kind) : Bool := k.scalar.isNumeric

/-- The code of a parameter's kind, with a `c` if the parameter is changeable. -/
def marked (k : Kind) (changeable : Bool) : String :=
  k.code ++ (if changeable then "c" else "")

end Kind

end ParameterChain
