/-
# Records

A parameter file is read as a list of records `name = value`.

  * Lines end with LF, CR LF or a lone CR.  Typographic quotes and dashes are
    turned into their ASCII forms as the lines are cut.
  * A line with an `=` before its first `#` starts a record: the name is what
    stands before that `=`, the value what stands after it, both trimmed and
    without the comment.
  * The lines below it continue the value, one line feed and one trimmed piece
    for each line that has something before its comment.  The value ends at a
    line of nothing but blanks, which is used up, or before a line with an `=` of
    its own.  Lines that hold a comment only are passed over.
  * Lines outside records carry nothing.

Some characters may not stand in a name or in a value.  The first record that
breaks a rule ends the reading.
-/
import ParameterChain.Failure
import ParameterChain.Limits
import ParameterChain.Text.Blank

namespace ParameterChain

/-- One `name = value`, as it stands in a file. -/
structure Record where
  /-- What stands before the `=`, the type code included. -/
  name : String
  /-- What stands after it, continued lines joined by line feeds. -/
  value : String
  /-- The number of the line with the `=`, counted from one. -/
  line : Nat
  deriving DecidableEq, Repr

namespace Record

/-! ## Lines -/

/-- Typographic quotes become double quotes, and typographic hyphens and dashes
become a minus. -/
def normalize (c : Char) : Char :=
  let n := c.toNat
  if n = 0x2018 || n = 0x2019 || n = 0x201C || n = 0x201D then '"'
  else if 0x2010 ≤ n && n ≤ 0x2015 then '-'
  else c

/-- The lines of a text, with `line` the line read so far (reversed). -/
def linesFrom (line : List Char) : List Char → List (List Char)
  | [] => [line.reverse]
  | '\r' :: '\n' :: cs => line.reverse :: linesFrom [] cs
  | c :: cs =>
      if c = '\n' || c = '\r' then line.reverse :: linesFrom [] cs
      else linesFrom (normalize c :: line) cs

/-- The lines of a text, without their ends.  A text of `n` line ends has `n + 1`
lines. -/
def lines (cs : List Char) : List (List Char) :=
  linesFrom [] cs

/-- A line with its number. -/
structure Line where
  number : Nat
  chars : List Char
  deriving DecidableEq, Repr

/-- The lines of a text, numbered from one. -/
def numberedLines (cs : List Char) : List Line :=
  (lines cs).zipIdx.map fun (l, i) => ⟨i + 1, l⟩

/-- The number of bytes of a text in UTF-8. -/
def byteLength (cs : List Char) : Nat :=
  cs.foldr (fun c n => c.utf8Size + n) 0

/-- Refuses the first line longer than `limit` bytes. -/
def checkLengths (limit : Nat) (ls : List Line) : Attempt Unit :=
  match ls.find? fun l => limit < byteLength l.chars with
  | some l => .error ((Cause.lineTooLong limit).failure.atLine l.number)
  | none => .ok ()

/-- The part of a line before its comment. -/
def beforeComment (cs : List Char) : List Char :=
  cs.takeWhile (· ≠ '#')

/-- A line of blanks only, which ends a value. -/
def endsValue (cs : List Char) : Bool :=
  cs.all Text.isBlank

/-- A line with nothing before its comment. -/
def isComment (cs : List Char) : Bool :=
  (Text.dropBlanks cs).head? == some '#'

/-! ## Continued values -/

/-- The pieces by which the lines below a record continue its value, and the
lines that are left. -/
def continuation : List Line → List (List Char) × List Line
  | [] => ([], [])
  | l :: ls =>
      if endsValue l.chars then ([], ls)
      else if isComment l.chars then continuation ls
      else
        let content := beforeComment l.chars
        if content.contains '=' then ([], l :: ls)
        else
          let (pieces, rest) := continuation ls
          let piece := Text.trimmed content
          (if piece.isEmpty then pieces else piece :: pieces, rest)

theorem length_continuation_le (ls : List Line) : (continuation ls).2.length ≤ ls.length := by
  induction ls with
  | nil => simp [continuation]
  | cons l ls ih =>
    simp only [continuation]
    split
    · simp
    · split
      · simp only [List.length_cons]; omega
      · split
        · simp
        · simp only [List.length_cons]; omega

/-! ## Checks -/

/-- Characters that a name may not contain. -/
def forbiddenInName : List Char :=
  ['=', '+', '-', '*', '"', '\x27', '\x60', '#', ' ', '\t', '\n', '\r']

/-- Characters that a value may not contain. -/
def forbiddenInValue : List Char :=
  ['=', '\x27', '\x60', '#', '\r']

/-- Refuses a record with an empty name or a forbidden character, the name being
judged first. -/
def check (r : Record) : Attempt Unit :=
  if r.name.isEmpty then .error (Cause.missingName.failure.atLine r.line)
  else
    match r.name.toList.find? forbiddenInName.contains with
    | some c => .error (((Cause.forbiddenInName c).failure.atLine r.line).about r.name)
    | none =>
        match r.value.toList.find? forbiddenInValue.contains with
        | some c =>
            .error ((((Cause.forbiddenInValue c).failure.atLine r.line).about
              r.name).withValue r.value)
        | none => .ok ()

/-! ## Records -/

/-- The record that starts with line `l`, where `name` and `start` are the parts
of the line around its `=`, continued by `pieces`. -/
def assemble (l : Line) (name start : List Char) (pieces : List (List Char)) : Record :=
  { name := String.ofList (Text.trimmed name)
    value := String.ofList (['\n'].intercalate (Text.trimmed start :: pieces))
    line := l.number }

/-- The records of a list of lines. -/
def ofLines : List Line → Attempt (List Record)
  | [] => .ok []
  | l :: ls =>
      match (beforeComment l.chars).span (· ≠ '=') with
      | (_, []) => ofLines ls
      | (name, _ :: start) => do
          let r := assemble l name start (continuation ls).1
          check r
          let rs ← ofLines (continuation ls).2
          return r :: rs
termination_by ls => ls.length
decreasing_by
  · simp
  · have := length_continuation_le ls
    simp only [List.length_cons]
    omega

/-- The records of a text. -/
def ofText (limits : Limits) (text : String) : Attempt (List Record) := do
  let ls := numberedLines text.toList
  checkLengths limits.lineLength ls
  ofLines ls

/-- The records of a file.  A byte-order mark at its start is not part of the
text. -/
def ofBytes (limits : Limits) (bytes : ByteArray) : Attempt (List Record) := do
  if limits.fileSize < bytes.size then
    (Cause.fileTooLarge limits.fileSize).raise
  match String.fromUTF8? bytes with
  | none => Cause.notUtf8.raise
  | some text =>
      match text.toList with
      | '\uFEFF' :: cs => ofText limits (String.ofList cs)
      | _ => ofText limits text

end Record

end ParameterChain
