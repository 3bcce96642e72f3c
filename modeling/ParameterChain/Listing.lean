/-
# Listings

A listing shows parameters one to a row: the name, the kind with its marker, the
present value, and every file of the chain that declares the name with the raw
value it has there, the nearest file first.

The text form is a table.  A column is as wide as its widest entry in bytes, and
an entry is filled up with spaces to as many characters, so entries beyond ASCII
leave a wider gap.  Line feeds within raw values become spaces.
-/
import ParameterChain.Text.Blank

namespace ParameterChain

/-- One parameter of a listing. -/
structure Row where
  name : String
  /-- The code of the kind, with a `c` for a changeable parameter. -/
  kind : String
  value : String
  /-- Files and raw values, the nearest file first. -/
  files : List (String × String)
  deriving DecidableEq, Repr

namespace Listing

/-- `s` with every line feed replaced by a space. -/
def onOneLine (s : String) : String :=
  String.ofList (s.toList.map fun c => if c = '\n' then ' ' else c)

/-- `s` followed by spaces up to `width` characters. -/
def fill (width : Nat) (s : String) : String :=
  s ++ String.ofList (List.replicate (width - s.length) ' ')

/-- The width of a column: that of its widest entry, its title included. -/
def columnWidth (title : String) (entries : List String) : Nat :=
  (entries.map String.utf8ByteSize).foldl max title.utf8ByteSize

/-- The widths of the three columns before the last. -/
structure Widths where
  name : Nat
  kind : Nat
  value : Nat

def Widths.ofRows (rows : List Row) : Widths where
  name := columnWidth "Parameter" (rows.map Row.name)
  kind := columnWidth "Type" (rows.map Row.kind)
  value := columnWidth "Value" (rows.map Row.value)

/-- One line of the table. -/
def Widths.line (w : Widths) (name kind value files : String) : String :=
  "  ".intercalate [fill w.name name, fill w.kind kind, fill w.value value, files]

/-- The files of a row with their raw values. -/
def filesEntry (row : Row) : String :=
  "; ".intercalate (row.files.map fun (file, raw) => file ++ " = " ++ onOneLine raw)

/-- The line of a row, without blanks at its end. -/
def rowLine (w : Widths) (row : Row) : String :=
  Text.trimEnd (w.line row.name row.kind row.value (filesEntry row))

/-- The rows as a table with a line of titles. -/
def table (rows : List Row) : String :=
  let w := Widths.ofRows rows
  String.join
    ((w.line "Parameter" "Type" "Value" "Set in" :: rows.map (rowLine w)).map (· ++ "\n"))

end Listing

end ParameterChain
