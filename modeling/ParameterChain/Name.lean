/-
# Names

A parameter name is a path of segments joined by slashes.  Names are compared
without regard to case: two names are the same when their *keys*, their
lower-case forms, are the same text.  The key is computed once and kept beside
the name as written, which is what people are shown.

Keys are ordered by code points, which is the order of every listing by name.
-/
import ParameterChain.Text.LowerCase

namespace ParameterChain

/-- The lower-case form of a name. -/
structure Key where
  text : String
  deriving DecidableEq, Repr

namespace Key

/-- The key of a name as written. -/
def ofText (name : String) : Key :=
  ⟨Text.lowerCase name⟩

def startsWith (k : Key) (start : String) : Bool :=
  start.toList.isPrefixOf k.text.toList

def endsWith (k : Key) (tail : String) : Bool :=
  tail.toList.isSuffixOf k.text.toList

/-- The key without a given ending. -/
def dropEnd? (k : Key) (tail : String) : Option Key :=
  if k.endsWith tail then
    some ⟨String.ofList (k.text.toList.take (k.text.length - tail.length))⟩
  else none

/-- Code point order. -/
def le (j k : Key) : Bool :=
  decide (j.text ≤ k.text)

end Key

/-- Rows in the order of their keys. -/
def sortedByKey {α : Type} (key : α → Key) (rows : List α) : List α :=
  rows.mergeSort fun x y => (key x).le (key y)

/-- A name as written, with its key. -/
structure Name where
  text : String
  key : Key
  key_eq : key = Key.ofText text
  deriving DecidableEq, Repr

/-- The name written `text`. -/
def Name.ofText (text : String) : Name :=
  ⟨text, Key.ofText text, rfl⟩

/-! ## Segments -/

/-- Everything after the last slash, or the whole name. -/
def lastSegment (name : String) : String :=
  String.ofList (name.toList.reverse.takeWhile (· ≠ '/')).reverse

/-- Everything before the first slash, or the whole name. -/
def firstSegment (name : String) : String :=
  String.ofList (name.toList.takeWhile (· ≠ '/'))

/-- Everything up to and including the last slash, or nothing. -/
def family (name : String) : String :=
  String.ofList (name.toList.reverse.dropWhile (· ≠ '/')).reverse

end ParameterChain
