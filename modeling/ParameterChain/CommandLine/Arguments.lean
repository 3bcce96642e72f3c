/-
# Arguments of the command line

    pcl [SWITCHES] COMMAND [SWITCHES] [PLACES]

A *switch* has a long form (`--unit`) and may have a short one (`-u`).  One that
takes a value takes it from the same argument (`--unit=cm`, `-ucm`, `-u=cm`) or from
the next one, which then may not begin with a hyphen.  Short forms may be run
together.  A switch is given once, unless it collects values.  Every other argument
fills the next *place* of the command, and after `--` every argument does.

An argument that begins with a hyphen fills a place only if it is `-`, or if the
place is free (the new value of `set`, so that `-3` can be written there) and the
argument is not made of known switches.

Arguments are judged from left to right, and the first that asks for help or for
the version, or that fits nowhere, decides.
-/
import ParameterChain.Session.Edit

namespace ParameterChain.CommandLine

/-! ## Tables -/

structure Switch where
  long : String
  short : Option Char := none
  takesValue : Bool := false
  /-- Whether it may be given again. -/
  collects : Bool := false
  deriving DecidableEq, Repr

/-- What a command accepts. -/
structure Usage where
  /-- The names of its places. -/
  places : List String := []
  /-- Whether the last place may be filled by an argument that begins with a
  hyphen. -/
  lastIsFree : Bool := false
  switches : List Switch := []

def verbose : Switch := { long := "verbose", short := some 'v' }
def help : Switch := { long := "help", short := some 'h' }
def version : Switch := { long := "version", short := some 'V' }

/-- The command names with what each accepts. -/
def commands : List (String × Usage) := [
  ("validate", { places := ["FILE"] }),
  ("get", {
    places := ["FILE", "NAME"]
    switches := [{ long := "unit", short := some 'u', takesValue := true }] }),
  ("set", {
    places := ["FILE", "NAME", "VALUE"]
    lastIsFree := true
    switches := [
      { long := "test-only", short := some 't' }, { long := "permissive", short := some 'p' }] }),
  ("dump", {
    places := ["FILE"]
    switches := [
      { long := "format", short := some 'f', takesValue := true },
      { long := "prefix", takesValue := true }] }),
  ("unused", {
    places := ["FILE"]
    switches := [{ long := "prefix", takesValue := true, collects := true }] }),
  ("chain", { places := ["FILE"] })]

/-- The command that explains the others. -/
def helpCommand : String := "help"

def isCommand (name : String) : Bool :=
  name == helpCommand || commands.any fun (command, _) => command == name

/-- What is accepted in front of the command. -/
def frontUsage : Usage where
  switches := [verbose, help, version]

/-- What is accepted after the command. -/
def Usage.withCommon (u : Usage) : Usage :=
  { u with switches := u.switches ++ [verbose, help] }

namespace Usage

def ofLong? (u : Usage) (long : String) : Option Switch :=
  u.switches.find? fun s => s.long == long

def ofShort? (u : Usage) (short : Char) : Option Switch :=
  u.switches.find? fun s => s.short == some short

end Usage

/-! ## The usage text -/

/-- A switch as it may be written. -/
def Switch.pattern (s : Switch) : String :=
  "[--" ++ s.long ++ (if s.takesValue then " VALUE]" else "]") ++
    (if s.collects then "..." else "")

/-- One line of the usage text. -/
def Usage.line (name : String) (u : Usage) : String :=
  " ".intercalate ("  pcl" :: name :: u.places ++ u.switches.map Switch.pattern) ++ "\n"

/-- How the program is called. -/
def usageText : String :=
  "Usage:\n" ++ String.join (commands.map fun (name, u) => u.line name)

/-! ## Reading arguments -/

/-- Why the arguments are not read on. -/
inductive Stop where
  | help
  | version
  | misuse
  deriving DecidableEq, Repr

/-- What the arguments so far have given. -/
structure Given where
  places : List String := []
  /-- The switches given, by their long forms, with their values. -/
  values : List (String × String) := []
  /-- A switch whose value must be the next argument. -/
  pending : Option Switch := none
  /-- Whether `--` has been read. -/
  placesOnly : Bool := false

namespace Given

/-- The values that a switch was given. -/
def all (g : Given) (long : String) : List String :=
  (g.values.filter fun (name, _) => name == long).map Prod.snd

def isOn (g : Given) (long : String) : Bool :=
  !(g.all long).isEmpty

def value? (g : Given) (long : String) : Option String :=
  (g.all long).head?

/-- Whether the next place may be filled by an argument that begins with a
hyphen. -/
def isFree (u : Usage) (g : Given) : Bool :=
  u.lastIsFree && g.places.length + 1 == u.places.length

def fill (u : Usage) (g : Given) (argument : String) : Except Stop Given :=
  if g.places.length < u.places.length then .ok { g with places := g.places ++ [argument] }
  else .error .misuse

/-- Give a switch.  A switch without values has the empty text as its value. -/
def give (g : Given) (s : Switch) (value : String) : Except Stop Given :=
  if s == CommandLine.help then .error .help
  else if s == CommandLine.version then .error .version
  else if g.isOn s.long && !s.collects then .error .misuse
  else .ok { g with values := g.values ++ [(s.long, value)], pending := none }

/-- A long form, with the value after its `=`, if it has one. -/
def long (u : Usage) (g : Given) (argument name : String) (value : Option String) :
    Except Stop Given :=
  match u.ofLong? name, value with
  | some s, some v => if s.takesValue then g.give s v else .error .misuse
  | some s, none => if s.takesValue then .ok { g with pending := some s } else g.give s ""
  | none, _ => if g.isFree u then g.fill u argument else .error .misuse

/-- Short forms run together.  What follows one that takes a value is the value. -/
def short (u : Usage) (g : Given) : List Char → Except Stop Given
  | [] => .ok g
  | c :: rest =>
      match u.ofShort? c with
      | none => .error .misuse
      | some s =>
          if s.takesValue then
            match rest with
            | [] => .ok { g with pending := some s }
            | '=' :: value => g.give s (String.ofList value)
            | value => g.give s (String.ofList value)
          else do
            short u (← g.give s "") rest

/-- One more argument. -/
def read (u : Usage) (g : Given) (argument : String) : Except Stop Given :=
  match g.pending, argument.toList with
  | some s, cs =>
      if cs.head? = some '-' && cs ≠ ['-'] then .error .misuse else g.give s argument
  | none, '-' :: '-' :: cs =>
      if g.placesOnly then g.fill u argument
      else if cs.isEmpty then .ok { g with placesOnly := true }
      else
        match cs.span (· ≠ '=') with
        | (name, []) => g.long u argument (String.ofList name) none
        | (name, _ :: value) => g.long u argument (String.ofList name) (String.ofList value)
  | none, '-' :: c :: cs =>
      if g.placesOnly then g.fill u argument
      else if g.isFree u && (c :: cs).any fun c => (u.ofShort? c).isNone then g.fill u argument
      else g.short u (c :: cs)
  | none, _ => g.fill u argument

/-- What a list of arguments gives; no switch may lack its value. -/
def ofArguments (u : Usage) (arguments : List String) : Except Stop Given := do
  let g ← arguments.foldlM (Given.read u) {}
  if g.pending.isSome then .error .misuse else .ok g

end Given

/-! ## Commands -/

/-- What is to be done. -/
inductive Command where
  | validate (file : String)
  | get (file name : String) (unit : Option String)
  | set (file : String) (change : Change) (testOnly : Bool)
  | dump (file format : String) (start : Option String)
  | unused (file : String) (starts : List String)
  | chain (file : String)
  deriving DecidableEq, Repr

/-- The command of a name with what it was given. -/
def Command.ofGiven (name : String) (g : Given) : Except Stop Command :=
  match name, g.places with
  | "validate", [file] => .ok (.validate file)
  | "get", [file, parameter] => .ok (.get file parameter (g.value? "unit"))
  | "set", [file, parameter, value] =>
      .ok (.set file { name := parameter, rawValue := value, permissive := g.isOn "permissive" }
        (g.isOn "test-only"))
  | "dump", [file] => .ok (.dump file ((g.value? "format").getD "text") (g.value? "prefix"))
  | "unused", [file] => .ok (.unused file (g.all "prefix"))
  | "chain", [file] => .ok (.chain file)
  | _, _ => .error .misuse

/-- The command behind its name and all that follows it. -/
def Command.ofNamed (name : String) (arguments : List String) : Except Stop Command :=
  if name = helpCommand then
    match arguments with
    | [] => .error .help
    | [topic] => .error (if isCommand topic then .help else .misuse)
    | _ => .error .misuse
  else
    match commands.lookup name with
    | none => .error .misuse
    | some u => do Command.ofGiven name (← Given.ofArguments u.withCommon arguments)

/-- The command that the arguments ask for. -/
def Command.ofArguments (arguments : List String) : Except Stop Command :=
  match arguments.span fun a => !isCommand a with
  | (front, rest) => do
      let g ← Given.ofArguments frontUsage front
      match rest with
      | [] => .error .misuse
      | name :: arguments =>
          if g.placesOnly then .error .misuse else Command.ofNamed name arguments

end ParameterChain.CommandLine
