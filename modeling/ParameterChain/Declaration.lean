/-
# Declarations

A record becomes a declaration when its name is taken apart: `dc:Ge/Box/HLX` is
the dimensioned, changeable parameter `Ge/Box/HLX`.  A name without a colon has
no kind of its own; it takes the kind of the parameter of the same name in an
included file.

The declarations of a file are a table keyed by name.  Declaring a name a second
time is refused, except for one family of names that is generated in bulk and
where redefinition is allowed; a second declaration that is accepted takes the
place of the first.  The pseudo-name `includeFile` is no parameter: its value
lists the files that this one includes.
-/
import ParameterChain.Failure
import ParameterChain.Keyed
import ParameterChain.Name
import ParameterChain.Text.Blank

namespace ParameterChain

/-- The pseudo-name whose value lists included files, in lower case. -/
def includeName : String := "includefile"

/-- The spec of the built-in defaults.  They are included without being named, so
naming them adds nothing. -/
def builtInDefaults : String := "TOPAS_Built_In_Defaults"

/-- The start of the names that may be declared more than once. -/
def bulkFamily : String := "ma/patienttissue"

/-! ## Reserved names -/

/-- First and last segments of names that are fixed for the life of a session. -/
def reservedSegments : List (String × String) := [
  ("ge", "type"), ("sc", "quantity"), ("sc", "component"), ("so", "type"),
  ("so", "phasespacemultipleuse"), ("gr", "type"), ("ph", "modules"), ("ph", "listname"),
  ("vr", "usevariancereduction"), ("vr", "component")]

/-- Whole names that are fixed for the life of a session. -/
def reservedNames : List String :=
  ["ge/world/hlx", "ge/world/hly", "ge/world/hlz"]

/-- Whether a name may never be declared changeable. -/
def Key.isReserved (k : Key) : Bool :=
  reservedNames.contains k.text ||
    reservedSegments.contains (firstSegment k.text, lastSegment k.text)

/-! ## One declaration -/

/-- A declaration before its value is looked at. -/
structure Declaration where
  name : Name
  /-- The kind before the colon, or found out later from an included file. -/
  kind : Option Kind
  rawValue : String
  changeable : Bool
  line : Nat
  deriving DecidableEq, Repr

namespace Declaration

def key (d : Declaration) : Key := d.name.key

/-- The name with its kind, as it is shown in failures (`dc:Ge/Box/HLX`). -/
def qualified (d : Declaration) : String :=
  match d.kind with
  | some k => k.marked d.changeable ++ ":" ++ d.name.text
  | none => d.name.text

/-- Add to a failure what is known about the declaration it arose in. -/
def locate (d : Declaration) (f : Failure) : Failure :=
  ((f.about d.qualified).withValue d.rawValue).atLine d.line

end Declaration

/-- A name with its kind and marker taken off. -/
structure Heading where
  kind : Option Kind
  changeable : Bool
  name : String
  deriving DecidableEq, Repr

/-- A type code without its marker, and whether it had one. -/
def splitMarker (code : List Char) : List Char × Bool :=
  match code.reverse with
  | c :: rest => if c = 'c' || c = 'C' then (rest.reverse, true) else (code, false)
  | [] => ([], false)

/-- Take a name as written apart at its first colon. -/
def Heading.ofText (text : String) : Except Cause Heading :=
  match text.toList.span (· ≠ ':') with
  | (cs, []) =>
      if cs.head? = some '/' then .error .leadingSlash
      else .ok ⟨none, false, text⟩
  | (code, _ :: name) =>
      if name.isEmpty then .error .noNameAfterColon
      else if code.isEmpty then .error .nothingBeforeColon
      else if name.head? = some '/' then .error .leadingSlash
      else
        let (letters, changeable) := splitMarker code
        match Kind.ofCode? (String.ofList letters) with
        | some k => .ok ⟨some k, changeable, String.ofList name⟩
        | none => .error (.badTypeCode (String.ofList code))

/-! ## The declarations of a file -/

/-- The declarations and the include specs of one file, both in file order. -/
structure Declarations where
  rows : List Declaration := []
  includes : List String := []
  /-- Whether every name may be declared again. -/
  redefinable : Bool := false
  deriving Repr

namespace Declarations

/-- The declaration of a name. -/
def get? (ds : Declarations) (k : Key) : Option Declaration :=
  rowOf? Declaration.key k ds.rows

/-- Put a declaration in place of the one of the same name, or at the end. -/
def insert (ds : Declarations) (d : Declaration) : Declarations :=
  { ds with rows := put Declaration.key d ds.rows }

/-- Whether a name that is already declared may be declared again. -/
def allowsAgain (ds : Declarations) (k : Key) : Bool :=
  ds.redefinable || k.startsWith bulkFamily

/-- The declaration that a name as written and a raw value make, if the name is
well formed and neither reserved nor taken. -/
def declare (ds : Declarations) (nameAsWritten rawValue : String) (line : Nat) :
    Except Cause Declaration := do
  let h ← Heading.ofText nameAsWritten
  let name := Name.ofText h.name
  if h.changeable && name.key.isReserved then
    throw .reservedAttribute
  if (ds.get? name.key).isSome && !ds.allowsAgain name.key then
    throw .duplicateInFile
  return ⟨name, h.kind, rawValue, h.changeable, line⟩

/-- Add one record.  The result has no declaration for `includeFile`. -/
def add (ds : Declarations) (nameAsWritten rawValue : String) (line : Nat) :
    Attempt (Declarations × Option Declaration) :=
  if Text.sameAscii nameAsWritten includeName then
    let specs := (Text.split rawValue).filter (· ≠ builtInDefaults)
    .ok ({ ds with includes := ds.includes ++ specs }, none)
  else
    match ds.declare nameAsWritten rawValue line with
    | .ok d => .ok (ds.insert d, some d)
    | .error c =>
        .error (((c.failure.atLine line).about nameAsWritten).withValue rawValue)

end Declarations

end ParameterChain
