/-
# Listings as JSON

The rows as an array of objects, indented by two spaces for each level.  Within
strings the double quote, the backslash and the control characters below the
space are escaped, the latter by their short forms where JSON has one.
-/
import ParameterChain.Listing

namespace ParameterChain.Listing

/-! ## Strings -/

/-- A character as it stands within a JSON string. -/
def jsonChar (c : Char) : List Char :=
  match c with
  | '"' => ['\\', '"']
  | '\\' => ['\\', '\\']
  | '\n' => ['\\', 'n']
  | '\r' => ['\\', 'r']
  | '\t' => ['\\', 't']
  | '\x08' => ['\\', 'b']
  | '\x0c' => ['\\', 'f']
  | c =>
      if c.toNat < 0x20 then
        ['\\', 'u', '0', '0', Nat.digitChar (c.toNat / 16), Nat.digitChar (c.toNat % 16)]
      else [c]

/-- A text as a JSON string, in its quotes. -/
def jsonString (s : String) : String :=
  "\"" ++ String.ofList (s.toList.flatMap jsonChar) ++ "\""

/-! ## Layout -/

def jsonIndent (level : Nat) : String :=
  String.ofList (List.replicate (2 * level) ' ')

/-- The items of an array or object that starts at `level`, one to a line; an
empty one stays on its line. -/
def jsonBlock (level : Nat) (opening closing : String) (items : List String) : String :=
  if items.isEmpty then opening ++ closing
  else
    let lines := items.map fun item => jsonIndent (level + 1) ++ item
    opening ++ "\n" ++ ",\n".intercalate lines ++ "\n" ++ jsonIndent level ++ closing

def jsonArray (level : Nat) (items : List String) : String :=
  jsonBlock level "[" "]" items

def jsonObject (level : Nat) (fields : List (String × String)) : String :=
  jsonBlock level "\x7b" "\x7d" (fields.map fun (name, value) => jsonString name ++ ": " ++ value)

/-! ## Rows -/

/-- A row as an object that starts at `level`. -/
def rowJson (level : Nat) (row : Row) : String :=
  let pair := fun (file, raw) => jsonArray (level + 2) [jsonString file, jsonString raw]
  jsonObject level [
    ("name", jsonString row.name),
    ("kind", jsonString row.kind),
    ("value", jsonString row.value),
    ("files", jsonArray (level + 1) (row.files.map pair))]

/-- The rows as a JSON array. -/
def json (rows : List Row) : String :=
  jsonArray 0 (rows.map (rowJson 1))

end ParameterChain.Listing
