/-
# Blank characters

A character is *blank* when Unicode gives it the property `White_Space`.  The
set is larger than the ASCII blanks (it has NEL, the no-break space, the line
and paragraph separators, the ideographic space) and leaves out some characters
that are only invisible: the four information separators, the zero-width space
and the byte-order mark.

Names, values and lines are trimmed with it, and values are cut into tokens at
it, so one definition serves every module that asks where a text begins or ends.
The functions work on lists of characters; the `String` versions at the end are
the same functions through `String.toList`.
-/

namespace ParameterChain.Text

/-- A character with the Unicode property `White_Space`. -/
def isBlank (c : Char) : Bool :=
  let n := c.toNat
  (9 ≤ n && n ≤ 13) || n == 0x20 || n == 0x85 || n == 0xA0 || n == 0x1680 ||
    (0x2000 ≤ n && n ≤ 0x200A) || n == 0x2028 || n == 0x2029 || n == 0x202F ||
    n == 0x205F || n == 0x3000

/-! ## Trimming -/

/-- The text without its leading blanks. -/
def dropBlanks (cs : List Char) : List Char :=
  cs.dropWhile isBlank

/-- The text without its trailing blanks. -/
def dropTrailingBlanks (cs : List Char) : List Char :=
  (cs.reverse.dropWhile isBlank).reverse

/-- The text without blanks at either end. -/
def trimmed (cs : List Char) : List Char :=
  dropTrailingBlanks (dropBlanks cs)

/-! ## Words -/

/-- The blank-free runs of `cs`, with `word` the run read so far (reversed). -/
def wordsFrom (word : List Char) : List Char → List (List Char)
  | [] => if word.isEmpty then [] else [word.reverse]
  | c :: cs =>
      if isBlank c then
        if word.isEmpty then wordsFrom [] cs else word.reverse :: wordsFrom [] cs
      else wordsFrom (c :: word) cs

/-- The maximal runs of non-blank characters, in order. -/
def words (cs : List Char) : List (List Char) :=
  wordsFrom [] cs

/-! ## On strings -/

/-- `s` without blanks at either end. -/
def trim (s : String) : String :=
  String.ofList (trimmed s.toList)

/-- `s` without its trailing blanks. -/
def trimEnd (s : String) : String :=
  String.ofList (dropTrailingBlanks s.toList)

/-- The blank-separated words of `s`. -/
def split (s : String) : List String :=
  (words s.toList).map String.ofList

end ParameterChain.Text
