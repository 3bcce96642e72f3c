/-
# Lower case

The full lower-case form of a text.  Almost every character is mapped by itself
(`lowerChar`); two are not letters mapped to one letter:

  * the dotted capital I (U+0130) becomes a small i followed by a combining dot;
  * a capital sigma becomes the final form `ς` at the end of a word and `σ`
    elsewhere.  It stands at the end of a word when, case-ignorable characters
    apart, a character with a case comes before it and none follows.

Two names are the same name exactly when their lower-case forms are the same
text, so this module is what "without regard to case" means in the library.
-/
import ParameterChain.Text.CaseTable

namespace ParameterChain.Text

/-! ## ASCII -/

/-- `s` with the letters `A` to `Z` in lower case and all else as it is. -/
def asciiLower (s : String) : String :=
  String.ofList (s.toList.map Char.toLower)

/-- Equality up to the case of the letters `A` to `Z`. -/
def sameAscii (s t : String) : Bool :=
  asciiLower s == asciiLower t

/-! ## Character properties -/

def CodeRange.contains (r : CodeRange) (n : Nat) : Bool :=
  r.first ≤ n && n ≤ r.last

/-- A character that takes part in upper and lower case. -/
def isCased (c : Char) : Bool :=
  casedRanges.any (·.contains c.toNat)

/-- A character that the search for a neighbour with a case looks through. -/
def isCaseIgnorable (c : Char) : Bool :=
  ignorableRanges.any (·.contains c.toNat)

def LowerRun.contains (r : LowerRun) (n : Nat) : Bool :=
  r.first ≤ n && n ≤ r.last && (n - r.first) % r.step == 0

/-- The lower-case letter of a character that has one of a single character. -/
def lowerChar (c : Char) : Char :=
  if c.toNat < 0x80 then c.toLower
  else
    match lowerRuns.find? (·.contains c.toNat) with
    | some r => Char.ofNat (Int.toNat (c.toNat + r.distance))
    | none => c

/-! ## Texts -/

/-- Whether the first character of `cs` that is not case-ignorable has a case. -/
def casedNext (cs : List Char) : Bool :=
  match cs.dropWhile isCaseIgnorable with
  | [] => false
  | c :: _ => isCased c

/-- The lower case of a text, with `before` the characters already passed, the
nearest first. -/
def lowerFrom (before : List Char) : List Char → List Char
  | [] => []
  | c :: cs =>
      let here :=
        if c = 'Σ' then
          if casedNext before && !casedNext cs then ['ς'] else ['σ']
        else if c = 'İ' then ['i', '\u0307']
        else [lowerChar c]
      here ++ lowerFrom (c :: before) cs

/-- The lower-case form of `s`. -/
def lowerCase (s : String) : String :=
  String.ofList (lowerFrom [] s.toList)

end ParameterChain.Text
