/-
# Operators

A value may join two operands by one of three operators, written as a token of
its own.
-/

namespace ParameterChain

inductive Operator where
  | add
  | subtract
  | multiply
  deriving DecidableEq, Repr

namespace Operator

def symbol : Operator → Char
  | .add => '+'
  | .subtract => '-'
  | .multiply => '*'

/-- The operator that a token stands for. -/
def ofToken? : String → Option Operator
  | "+" => some .add
  | "-" => some .subtract
  | "*" => some .multiply
  | _ => none

/-- The operator on 64-bit integers, modulo `2 ^ 64`. -/
def onIntegers : Operator → Int64 → Int64 → Int64
  | .add, a, b => a + b
  | .subtract, a, b => a - b
  | .multiply, a, b => a * b

/-- The operator on doubles. -/
def onNumbers : Operator → Float → Float → Float
  | .add, a, b => a + b
  | .subtract, a, b => a - b
  | .multiply, a, b => a * b

end Operator

end ParameterChain
