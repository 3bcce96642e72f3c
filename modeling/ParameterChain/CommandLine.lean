/-
# Commands

Every command loads one file with its includes, the built-in defaults among them,
and writes what it finds out.  The result is what goes to the two outputs and the
exit code: `0` when all went well, `1` when the command failed, `2` when the
arguments could not be read.

The size of the top file is checked before it is read; the same limit holds for
every file that is loaded.
-/
import ParameterChain.CommandLine.Arguments
import ParameterChain.Disk
import ParameterChain.Listing.Json

namespace ParameterChain.CommandLine

/-- What a run writes and how it ends. -/
structure Outcome where
  code : Nat
  output : String
  errors : String
  deriving DecidableEq, Repr

/-! ## Errors -/

/-- Why a command fails. -/
inductive CommandError where
  | unreadable (path : String) (fault : DiskFault)
  | tooLarge (path : String) (size limit : Nat)
  | unresolved (f : Failure)
  | unknownFormat (format : String)

def CommandError.message : CommandError → String
  | unreadable path fault => "I/O error for '" ++ path ++ "': " ++ fault.text
  | tooLarge path size limit =>
      "File '" ++ path ++ "' is too large (" ++ Nat.repr size ++ " bytes). Maximum allowed: " ++
        Nat.repr limit ++ " bytes (" ++ Nat.repr (limit / (1024 * 1024)) ++ " MB)"
  | unresolved f => f.report
  | unknownFormat format =>
      "Invalid input: unknown format '" ++ format ++ "', expected 'text' or 'json'"

abbrev Result := Except CommandError

def ofAttempt {α : Type} (a : Attempt α) : Result α :=
  a.mapError .unresolved

/-! ## Loading -/

/-- The limit on the size of files that a setting stands for: a count of bytes of at
most 64 bits.  Any other setting is ignored. -/
def sizeLimit (setting : Option String) : Nat :=
  let digits := setting.map fun s =>
    match s.toList with
    | '+' :: cs => cs
    | cs => cs
  match digits with
  | none => ({} : Limits).fileSize
  | some cs =>
      let n := Number.natOfDigits cs
      if !cs.isEmpty && cs.all Char.isDigit && n ≤ Limits.unbounded then n
      else ({} : Limits).fileSize

/-- The options that files are loaded with. -/
def loadOptions (limit : Nat) : LoadOptions where
  limits := { fileSize := limit }

/-- The session of a file whose size is within the limit. -/
def load (d : Disk) (limit : Nat) (path : String) : Result Session := do
  let entry ← (d.lookup (DiskPath.ofText path)).mapError (.unreadable path)
  if limit < entry.size then
    throw (.tooLarge path entry.size limit)
  ofAttempt (Session.open d (loadOptions limit) path)

/-! ## Commands -/

def lines (ls : List String) : String :=
  String.join (ls.map (· ++ "\n"))

/-- A line that says how a check of a file or a change came out. -/
def verdict (good : Bool) (subject : String) : String :=
  (if good then "✓ " else "✗ ") ++ subject

/-- A number and what it counts. -/
def tally (what : String) (n : Nat) : String :=
  "  " ++ what ++ ": " ++ Nat.repr n

/-- The summary of a file that resolves. -/
def summary (s : Session) : List String :=
  [tally "Files" s.chainFiles.length, tally "Parameters" s.names.length,
    tally "Changeable" s.changeableNames.length, tally "Time features" s.featureNames.length]

/-- The present value of a parameter that can be evaluated. -/
def valueText (s : Session) (name : String) : Result String :=
  match s.read none name .any with
  | (.error f, _) => .error (.unresolved f)
  | (.ok v, s) => .ok (s.display name v)

/-- What `get` writes: the value in its own unit, or the bare number in another. -/
def get (s : Session) (name : String) : Option String → Result String
  | none => valueText s name
  | some unit => do
      match (← ofAttempt (s.get none name (.inUnit unit)).1).numbers? with
      | some (.one x) => return Number.plain x
      | _ => return ""

/-- A name as written without all that stands before its last colon. -/
def bareName (name : String) : String :=
  String.ofList (name.toList.reverse.takeWhile (· ≠ ':')).reverse

/-- What `set` writes: the name and its new value. -/
def set (s : Session) (c : Change) : Result (List String) := do
  let (s, notices) ← ofAttempt (s.change c)
  let name := bareName c.name
  return [name ++ " = " ++ (← valueText s name), tally "Notified" notices.length]

/-- What `set` writes about a change that is only tried. -/
def trySet (s : Session) (c : Change) : Result (List String) := do
  ofAttempt (s.tryEdit c)
  return [verdict true (c.name ++ " = " ++ c.rawValue ++ " (not applied)")]

/-- The listing that `dump` writes. -/
def dump (s : Session) (format : String) (start : Option String) : Result String :=
  let rows :=
    match start with
    | some start => (s.listingOf start).1
    | none => s.listing.1
  match format with
  | "text" => .ok (Listing.table rows)
  | "json" => .ok (Listing.json rows ++ "\n")
  | _ => .error (.unknownFormat format)

/-- Read every one of some names. -/
def readAll (s : Session) : List String → Result Session
  | [] => .ok s
  | name :: names =>
      match s.read none name .any with
      | (.error f, _) => .error (.unresolved f)
      | (.ok _, s) => readAll s names

/-- The names that are not used once all names with one of the starts have been
read. -/
def unused (s : Session) (starts : List String) : Result (List String) := do
  let s ← starts.foldlM (fun s start => readAll s (s.namesStartingWith start)) s
  return s.unusedNames

/-- The files of the chain with their positions, which are three digits wide. -/
def chain (s : Session) : List String :=
  s.chainFiles.zipIdx.map fun (file, i) =>
    let position := Nat.repr i
    String.ofList (List.replicate (3 - position.length) ' ') ++ position ++ "  " ++ file

/-- The top file of a command. -/
def Command.file : Command → String
  | .validate file | .get file _ _ | .set file _ _ | .dump file _ _ | .unused file _
  | .chain file => file

/-- What a command writes. -/
def Command.output (d : Disk) (limit : Nat) : Command → Result String
  | .validate file => do
      let s ← load d limit file
      return lines (verdict true file :: summary s)
  | .get file name unit => do
      return lines [← CommandLine.get (← load d limit file) name unit]
  | .set file c testOnly => do
      let s ← load d limit file
      return lines (← if testOnly then trySet s c else CommandLine.set s c)
  | .dump file format start => do
      CommandLine.dump (← load d limit file) format start
  | .unused file starts => do
      return lines (← CommandLine.unused (← load d limit file) starts)
  | .chain file => do
      return lines (CommandLine.chain (← load d limit file))

/-- What a failing command has written by then. -/
def Command.outputBefore : Command → String
  | .validate file => lines [verdict false file]
  | _ => ""

/-- Run a command. -/
def Command.run (d : Disk) (limit : Nat) (c : Command) : Outcome :=
  match c.output d limit with
  | .ok output => ⟨0, output, ""⟩
  | .error e => ⟨1, c.outputBefore, lines ["Error: " ++ e.message]⟩

/-- The name and the version of the program. -/
def versionLine : String := "pcl 1.0.0"

/-- Run the program with some arguments, given the setting of the size limit. -/
def run (d : Disk) (setting : Option String) (arguments : List String) : Outcome :=
  match Command.ofArguments arguments with
  | .ok c => c.run d (sizeLimit setting)
  | .error .help => ⟨0, usageText, ""⟩
  | .error .version => ⟨0, lines [versionLine], ""⟩
  | .error .misuse => ⟨2, "", usageText⟩

end ParameterChain.CommandLine
