/-
# Written numbers

A real literal is an optional sign, decimal digits with at most one point among
them (it may stand first or last, but one digit there must be), and optionally an
`e` or `E` with an optional sign and one to seven digits.  An integer literal is
an optional sign and one to thirty-two digits.  Nothing else is a number: not
`inf`, not a digit outside ASCII, not a point alone.

`RealLiteral.ofChars?` both classifies a text and takes it apart, so what counts as a
number and what its value is cannot drift apart.
-/
import ParameterChain.Number.Binary64

namespace ParameterChain.Number

/-! ## Digits -/

/-- The natural number written by a list of decimal digits. -/
def natOfDigits (ds : List Char) : Nat :=
  ds.foldl (fun n c => 10 * n + (c.toNat - '0'.toNat)) 0

/-- A leading sign, true for minus, and the rest. -/
def splitSign : List Char → Bool × List Char
  | '+' :: cs => (false, cs)
  | '-' :: cs => (true, cs)
  | cs => (false, cs)

/-- The leading decimal digits and the rest. -/
def splitDigits (cs : List Char) : List Char × List Char :=
  (cs.takeWhile Char.isDigit, cs.dropWhile Char.isDigit)

/-! ## Real literals -/

/-- The number `± digits * 10 ^ exponent` as it was written. -/
structure RealLiteral where
  negative : Bool
  digits : List Char
  exponent : Int
  deriving DecidableEq, Repr

/-- The exponent part of a real literal: nothing, or `e`, a sign and one to seven
digits, up to the end of the text. -/
def exponentOfChars? : List Char → Option Int
  | [] => some 0
  | c :: cs =>
      if c = 'e' || c = 'E' then
        let (negative, cs) := splitSign cs
        let (ds, rest) := splitDigits cs
        if rest.isEmpty && 1 ≤ ds.length && ds.length ≤ 7 then
          some (if negative then -(natOfDigits ds : Int) else natOfDigits ds)
        else none
      else none

/-- The digits after a leading point, if there is one, and the rest. -/
def splitFraction : List Char → List Char × List Char
  | '.' :: cs => splitDigits cs
  | cs => ([], cs)

/-- The real literal `cs`, or `none` if it is not one. -/
def RealLiteral.ofChars? (cs : List Char) : Option RealLiteral :=
  let (negative, cs) := splitSign cs
  let (whole, cs) := splitDigits cs
  let (fraction, cs) := splitFraction cs
  if whole.isEmpty && fraction.isEmpty then none
  else (exponentOfChars? cs).map fun e => ⟨negative, whole ++ fraction, e - fraction.length⟩

/-- The double nearest to `m * 10 ^ e`, a tie going to the even neighbour.  The
two early answers keep the powers of ten within reach: below them every value
rounds to zero, and above them to infinity. -/
def nearest (m : Nat) (e : Int) : Float :=
  if m = 0 then 0
  else
    let leading := (Nat.repr m).length + e
    if 311 < leading then infinity
    else if leading < -330 then 0
    else Float.ofScientific m (e < 0) e.natAbs

/-- The double nearest to a real literal. -/
def RealLiteral.toFloat (r : RealLiteral) : Float :=
  let x := nearest (natOfDigits r.digits) r.exponent
  if r.negative then -x else x

/-- Whether `s` is a real literal. -/
def isReal (s : String) : Bool :=
  (RealLiteral.ofChars? s.toList).isSome

/-- The double nearest to the real literal `s`. -/
def realOf? (s : String) : Option Float :=
  (RealLiteral.ofChars? s.toList).map RealLiteral.toFloat

/-! ## Integer literals -/

/-- The integer literal `cs`, or `none` if it is not one. -/
def intOfChars? (cs : List Char) : Option Int :=
  let (negative, ds) := splitSign cs
  if 1 ≤ ds.length && ds.length ≤ 32 && ds.all Char.isDigit then
    some (if negative then -(natOfDigits ds : Int) else natOfDigits ds)
  else none

/-- Whether `s` is an integer literal. -/
def isInteger (s : String) : Bool :=
  (intOfChars? s.toList).isSome

/-- The value of the integer literal `s` if it fits in 64 bits. -/
def integerOf? (s : String) : Option Int64 :=
  (intOfChars? s.toList).bind fun n =>
    if Int64.minValue.toInt ≤ n && n ≤ Int64.maxValue.toInt then some (Int64.ofInt n) else none

end ParameterChain.Number
