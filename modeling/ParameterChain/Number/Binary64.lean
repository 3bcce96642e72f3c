/-
# Doubles, exactly

A finite double is `± m * 2 ^ e` for a natural number `m` below `2 ^ 53` and an
exponent `e`.  `decode` reads the three parts off the bits, and everything here
that core does not compute (the remainder of a division, the total order) is
integer arithmetic on them.
-/
import ParameterChain.Number.Power

namespace ParameterChain.Number

/-- The number `± mantissa * 2 ^ exponent`. -/
structure Dyadic where
  negative : Bool
  mantissa : Nat
  exponent : Int
  deriving DecidableEq, Repr

/-- The parts of a finite double.  Subnormal numbers share the exponent of the
smallest normal ones and lack the leading bit. -/
def decode (x : Float) : Dyadic :=
  let bits := x.toBits.toNat
  let fraction := bits % twoTo 52
  let biased := bits / twoTo 52 % twoTo 11
  { negative := bits / twoTo 63 % 2 == 1
    mantissa := if biased = 0 then fraction else fraction + twoTo 52
    exponent := (max biased 1 : Nat) - 1075 }

/-- The sign bit, also of a zero. -/
def isNegative (x : Float) : Bool :=
  (decode x).negative

def infinity : Float :=
  Float.ofBits 0x7FF0000000000000

/-- The double `2 ^ e`, for an exponent at which it is representable. -/
def powerOfTwo (e : Int) : Float :=
  if -1022 ≤ e then Float.ofBits ((e + 1023).toNat * twoTo 52).toUInt64
  else Float.ofBits (twoTo (e + 1074).toNat).toUInt64

/-! ## Remainder -/

/-- What is left of `x` after the largest whole multiple of `period` at or below
it, for `0 < period ≤ x`.  It is exact: the remainder is a multiple of the unit
in the last place of `period` and smaller than `period`.  An infinite `x` leaves
no number. -/
def remainder (x period : Float) : Float :=
  if x.isFinite then
    let a := decode x
    let b := decode period
    let left := a.mantissa * twoTo (a.exponent - b.exponent).toNat % b.mantissa
    left.toFloat * powerOfTwo b.exponent
  else x - x

/-! ## The total order -/

/-- The order in which doubles are sorted: a NaN before every number, then the
numbers by size, with the negative zero before the positive one.

On finite doubles and the infinities this is the order of the bit patterns with
their signs.  It differs from that order on a NaN: there a NaN with a negative sign
comes first and one with a positive sign last, behind infinity.  Core has one NaN
and no sign on it, so it cannot stand in two places here; what depends on where a
positive NaN is sorted is not described by this order. -/
def totalLe (x y : Float) : Bool :=
  if x.isNaN then true
  else if y.isNaN then false
  else x < y || (x == y && (isNegative x || !isNegative y))

end ParameterChain.Number
