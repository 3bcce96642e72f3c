/-
# Failures

A failure is a cause and the context in which it arose: the file, the line, the
parameter and the value concerned, and a piece of advice.  A failure passes
through the callers of the function that raised it, and each adds what it knows.
The innermost knowledge is kept, because the function nearest to the fault knows
best; only advice is replaced by later advice.

A line of `0` stands for a declaration that was never in a file.  It is recorded
but not shown.
-/
import ParameterChain.Failure.Cause

namespace ParameterChain

/-- Where a failure arose. -/
structure Context where
  file : Option String := none
  line : Option Nat := none
  parameter : Option String := none
  value : Option String := none
  hint : Option String := none
  deriving DecidableEq, Repr

namespace Context

def inFile (c : Context) (file : String) : Context :=
  { c with file := c.file.or (some file) }

def atLine (c : Context) (line : Nat) : Context :=
  { c with line := c.line.or (some line) }

def about (c : Context) (parameter : String) : Context :=
  { c with parameter := c.parameter.or (some parameter) }

def withValue (c : Context) (value : String) : Context :=
  { c with value := c.value.or (some value) }

def advising (c : Context) (hint : String) : Context :=
  { c with hint := some hint }

/-- One line: the kind of a failure and its message. -/
def headline (kind : FailureKind) (message : String) : String :=
  kind.title ++ ": " ++ message

/-- The full account of a failure, several lines without a final line feed. -/
def report (c : Context) (kind : FailureKind) (message : String) : String :=
  let place :=
    match c.file with
    | none => "Parameter resolution failed\n"
    | some file =>
        let line :=
          match c.line with
          | some (n + 1) => " (line " ++ Nat.repr (n + 1) ++ ")"
          | _ => ""
        "Parameter resolution failed in file: " ++ file ++ line ++ "\n"
  let parameter :=
    match c.parameter with
    | some p => "Parameter name: " ++ p ++ "\n"
    | none => ""
  let value :=
    match c.value with
    | some v => "has unsupported value: " ++ v ++ "\n"
    | none => ""
  let hint :=
    match c.hint with
    | some h => "\n" ++ h
    | none => ""
  place ++ parameter ++ value ++ headline kind message ++ hint

end Context

/-- A cause in its context. -/
structure Failure where
  cause : Cause
  context : Context := {}
  deriving DecidableEq, Repr

/-- A cause with its own advice and no other context. -/
def Cause.failure (c : Cause) : Failure :=
  ⟨c, { hint := c.hint? }⟩

namespace Failure

def kind (f : Failure) : FailureKind := f.cause.kind

def message (f : Failure) : String := f.cause.message

def inFile (f : Failure) (file : String) : Failure :=
  { f with context := f.context.inFile file }

def atLine (f : Failure) (line : Nat) : Failure :=
  { f with context := f.context.atLine line }

def about (f : Failure) (parameter : String) : Failure :=
  { f with context := f.context.about parameter }

def withValue (f : Failure) (value : String) : Failure :=
  { f with context := f.context.withValue value }

def advising (f : Failure) (hint : String) : Failure :=
  { f with context := f.context.advising hint }

/-- The full account of the failure. -/
def report (f : Failure) : String :=
  f.context.report f.kind f.message

end Failure

/-- The failure to open the file `spec`, before it is told where it arose. -/
def Failure.cannotOpen (spec detail : String) : Failure :=
  (Cause.cannotOpen spec detail).failure

/-- The result of an operation that may fail. -/
abbrev Attempt := Except Failure

/-- Raise `c` without any context. -/
def Cause.raise {α : Type} (c : Cause) : Attempt α :=
  .error c.failure

/-- Let `f` add to the context of the failure of `a`, if it is one. -/
def Attempt.locate {α : Type} (f : Failure → Failure) (a : Attempt α) : Attempt α :=
  a.mapError f

end ParameterChain
