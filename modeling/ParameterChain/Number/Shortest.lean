/-
# The shortest decimal that reads back

A finite double is written with the fewest decimal digits that still read back
to the same double and, among the decimals of that length, with the one nearest
to its exact value (the larger of two equally near ones).

The decimals that read back are those inside the rounding interval: half the gap
to each neighbour, the ends included exactly when the mantissa is even.  On the
grid of the multiples of `10 ^ g` only the two neighbours of the exact value have
to be tried, for if any point of the grid lies in the interval so does one of
them.  The grids are tried from the coarsest to the finest; seventeen digits are
always enough.

All comparisons are between natural numbers.
-/
import ParameterChain.Number.Binary64

namespace ParameterChain.Number

/-- The number `digits * 10 ^ exponent`. -/
structure Decimal where
  digits : Nat
  exponent : Int
  deriving DecidableEq, Repr

/-- The exponent of the leading decimal digit of `m * 2 ^ q`, for `0 < m`. -/
def leadingExponent (m : Nat) (q : Int) : Int :=
  let atLeast (k : Int) : Bool :=
    tenTo k.toNat * twoTo (-q).toNat ≤ m * twoTo q.toNat * tenTo (-k).toNat
  let guess := ((Nat.log2 m : Int) + q) * 30103 / 100000
  if atLeast (guess + 1) then guess + 1
  else if atLeast guess then guess
  else guess - 1

/-- The neighbour of `m * 2 ^ q` on the grid of multiples of `10 ^ g` that reads
back to it, if one of the two does. -/
def onGrid (m : Nat) (q g : Int) : Option Decimal :=
  -- In units of `10 ^ g` the value is `m * unit / whole`.
  let unit := twoTo q.toNat * tenTo (-g).toNat
  let whole := twoTo (-q).toNat * tenTo g.toNat
  let below := m * unit / whole
  -- Below a power of two the gap is half as wide.
  let low := if m = twoTo 52 && -1074 < q then 4 * m - 1 else 4 * m - 2
  let high := 4 * m + 2
  let readsBack (c : Nat) : Bool :=
    if m % 2 = 0 then low * unit ≤ 4 * c * whole && 4 * c * whole ≤ high * unit
    else low * unit < 4 * c * whole && 4 * c * whole < high * unit
  let nearerAbove : Bool := whole ≤ 2 * (m * unit - below * whole)
  if readsBack below && !(readsBack (below + 1) && nearerAbove) then some ⟨below, g⟩
  else if readsBack (below + 1) then some ⟨below + 1, g⟩
  else none

/-- Trailing zeros of the digits moved into the exponent, at most `fuel` of them. -/
def Decimal.shorten : Nat → Decimal → Decimal
  | 0, d => d
  | fuel + 1, d =>
      if d.digits % 10 = 0 then shorten fuel ⟨d.digits / 10, d.exponent + 1⟩ else d

/-- The shortest decimal that reads back to `m * 2 ^ q`, for `0 < m`. -/
def shortest (m : Nat) (q : Int) : Decimal :=
  let k := leadingExponent m q
  match (List.range 17).findSome? fun n : Nat => onGrid m q (k - n) with
  | some d => d.shorten 17
  | none => ⟨0, 0⟩

/-! ## Written forms -/

/-- The written form of `x`: fixed texts for what is not a number and for the
infinities, a sign, and `body` of the shortest decimal (of zero for a zero). -/
def written (body : Decimal → String) (x : Float) : String :=
  if x.isNaN then "NaN"
  else
    let d := decode x
    let magnitude :=
      if x.isInf then "inf"
      else if d.mantissa = 0 then body ⟨0, 0⟩
      else body (shortest d.mantissa d.exponent)
    if d.negative then "-" ++ magnitude else magnitude

/-- All digits in place, without an exponent; a whole number has no point. -/
def Decimal.plain (d : Decimal) : String :=
  let ds := Nat.repr d.digits
  if 0 ≤ d.exponent then
    if d.digits = 0 then ds else ds ++ String.ofList (List.replicate d.exponent.toNat '0')
  else
    let places := d.exponent.natAbs
    let padded := List.replicate (places + 1 - ds.length) '0' ++ ds.toList
    let cut := padded.length - places
    String.ofList (padded.take cut ++ '.' :: padded.drop cut)

/-- One digit before the point, the rest after it, and the exponent. -/
def Decimal.scientific (d : Decimal) : String :=
  match (Nat.repr d.digits).toList with
  | [] => ""
  | lead :: rest =>
      let exponent := d.exponent + rest.length
      let mantissa := if rest.isEmpty then [lead] else lead :: '.' :: rest
      String.ofList mantissa ++ "e" ++ Int.repr exponent

/-- `x` without an exponent: `0.0001`, `250`, `-inf`. -/
def plain (x : Float) : String :=
  written Decimal.plain x

/-- `x` in scientific notation: `1e-4`, `2.5e2`, `-inf`. -/
def scientific (x : Float) : String :=
  written Decimal.scientific x

end ParameterChain.Number
