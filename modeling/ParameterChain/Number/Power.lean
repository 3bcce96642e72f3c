/-
# Powers of two and of ten

Doubles are multiples of powers of two and their written forms of powers of ten.
-/

namespace ParameterChain.Number

/-- Two to the power of `n`. -/
def twoTo (n : Nat) : Nat := Nat.pow 2 n

/-- Ten to the power of `n`. -/
def tenTo (n : Nat) : Nat := Nat.pow 10 n

@[simp] theorem twoTo_zero : twoTo 0 = 1 := rfl

@[simp] theorem tenTo_zero : tenTo 0 = 1 := rfl

end ParameterChain.Number
