/-
# Sessions

A session is a loaded graph that is read and edited.  Beside the graph it keeps

  * which parameters have been used, that is, come by in any evaluation since they
    were stored;
  * what consumers depend on: a consumer that reads a name successfully depends on
    every changeable parameter that the evaluation came by;
  * the value that each time feature had when the clock last moved;
  * the edits made so far.

Reading changes the first two only.  The queries that follow look at the session
and change nothing, except those that show values, for showing a value is reading
it.

Left out, of sessions and of all that they are made of, is what no result shows: the
log that a program may keep of its work, locks, for one party at a time uses a
session, and memory, which never runs out.
-/
import ParameterChain.Evaluation
import ParameterChain.Listing
import ParameterChain.Load

namespace ParameterChain

/-- A consumer read `direct`, and the evaluation came by the changeable parameter
`base`. -/
structure Dependency where
  base : Name
  consumer : String
  direct : Name
  deriving DecidableEq, Repr

/-- What tells dependencies apart. -/
def Dependency.id (d : Dependency) : Key × String × Key :=
  (d.base.key, d.consumer, d.direct.key)

/-- The order of dependencies: by base, then by consumer, then by the name read. -/
def Dependency.le (c d : Dependency) : Bool :=
  ((compare c.base.key.text d.base.key.text).then
    ((compare c.consumer d.consumer).then
      (compare c.direct.key.text d.direct.key.text))).isLE

/-- A declaration made after loading, as it was given. -/
structure Edit where
  key : Key
  name : String
  rawValue : String
  deriving DecidableEq, Repr

/-- The value of a time feature when the clock last moved. -/
structure Sighting where
  base : Key
  value : Value

structure Session where
  graph : Graph
  limits : Limits
  used : List Slot := []
  dependencies : List Dependency := []
  sightings : List Sighting := []
  edits : List Edit := []

/-- The session that starts with the file `top`. -/
def Session.load (source : Source) (options : LoadOptions) (top : String) : Attempt Session := do
  return { graph := ← source.load options top, limits := options.limits }

/-! ## Readings -/

/-- What a reader takes for granted about the parameter it names. -/
inductive Expectation where
  | any
  | ofKind (k : Kind)
  /-- Kind `k` with a unit of a category. -/
  | ofCategory (k : Kind) (category : String)
  deriving DecidableEq, Repr

/-- The value of the parameter `name`, which must be as expected. -/
def Graph.read (g : Graph) (limits : Limits) (name : String) (e : Expectation) : Traced Value := do
  let p ←
    match e with
    | .any => g.named name
    | .ofKind k => g.namedOfKind name k
    | .ofCategory k category => g.namedOfCategory name k category
  g.valueOf limits p

namespace Session

/-- Count the parameters of a trace as used. -/
def markUsed (s : Session) (t : Trace) : Session :=
  { s with used := t.filter (fun slot => !s.used.contains slot) ++ s.used }

/-- Add a dependency unless there is one with the same parts. -/
def depend (s : Session) (d : Dependency) : Session :=
  if (rowOf? Dependency.id d.id s.dependencies).isSome then s
  else { s with dependencies := s.dependencies ++ [d] }

/-- The changeable parameters of a trace, the first visited first. -/
def touched (s : Session) (t : Trace) : List Parameter :=
  (t.reverse.filterMap fun slot => s.graph.declared? slot.file slot.key).filter
    Parameter.changeable

/-- Record that `consumer` read `direct` and the evaluation left the trace `t`. -/
def dependOn (s : Session) (consumer : String) (direct : Name) (t : Trace) : Session :=
  (s.touched t).foldl (fun s p => s.depend ⟨p.name, consumer, direct⟩) s

/-- Read `name`, for a consumer or for nobody in particular.  What was visited
counts as used even if the reading fails; a dependency comes of a successful
reading only. -/
def read (s : Session) (consumer : Option String) (name : String) (e : Expectation) :
    Attempt Value × Session :=
  let (result, t) := (s.graph.read s.limits name e).run []
  let s := s.markUsed t
  match consumer, result with
  | some c, .ok _ => (result, s.dependOn c (Name.ofText name) t)
  | _, _ => (result, s)

end Session

/-- The ways to read a parameter. -/
inductive Reading where
  | any
  | ofKind (k : Kind)
  | ofCategory (k : Kind) (category : String)
  /-- A dimensioned scalar, as a number of the given units. -/
  | inUnit (unit : String)
  /-- A dimensioned vector of the given length. -/
  | ofLength (n : Nat) (category : String)
  deriving DecidableEq, Repr

namespace Session

/-- Read `name` in one of the ways. -/
def get (s : Session) (consumer : Option String) (name : String) :
    Reading → Attempt Value × Session
  | .any => s.read consumer name .any
  | .ofKind k => s.read consumer name (.ofKind k)
  | .ofCategory k category => s.read consumer name (.ofCategory k category)
  | .inUnit unit =>
      match MeasureUnit.ofSymbol? unit with
      | none => ((Cause.unrecognizedUnit unit).raise, s)
      | some u =>
          let (result, s) :=
            s.read consumer name (.ofCategory (Kind.one .dimensioned) u.category)
          (result.map (Value.inUnits u.factor), s)
  | .ofLength n category =>
      let (result, s) := s.read consumer name (.ofCategory (Kind.many .dimensioned) category)
      (result.bind fun v =>
        if v.size = n then .ok v else (Cause.wrongLength name n v.size).raise, s)

/-! ## Queries -/

/-- The parameter that reads of `name` see. -/
def find? (s : Session) (name : String) : Option Parameter :=
  s.graph.visible? (Key.ofText name)

/-- The parameter that reads of `name` see, which must exist. -/
def find (s : Session) (name : String) : Attempt Parameter :=
  match s.find? name with
  | some p => .ok p
  | none => (Cause.undefined name).raise

def has (s : Session) (name : String) : Bool :=
  (s.find? name).isSome

def isChangeable (s : Session) (name : String) : Bool :=
  (s.find? name).any Parameter.changeable

def kindOf (s : Session) (name : String) : Attempt Kind := do
  return (← s.find name).kind

def unitOf (s : Session) (name : String) : Attempt (Option String) := do
  return (← s.find name).unit

/-- The names as written of the visible parameters that satisfy a test, in the
order of their keys. -/
def namesWhere (s : Session) (test : Parameter → Bool) : List String :=
  (s.graph.visible.filter test).map fun p => p.name.text

def names (s : Session) : List String :=
  s.namesWhere fun _ => true

def changeableNames (s : Session) : List String :=
  s.namesWhere Parameter.changeable

/-- The names of the visible parameters that have not been used. -/
def unusedNames (s : Session) : List String :=
  s.namesWhere fun p => !s.used.contains p.slot

/-- The names that begin with `start`, in any case, and are longer. -/
def namesStartingWith (s : Session) (start : String) : List String :=
  let start := Text.lowerCase start
  s.namesWhere fun p =>
    start.utf8ByteSize < p.key.text.utf8ByteSize && p.key.startsWith start

/-- The names that begin with `start` and end with `tail`, in any case, with
something in between. -/
def namesBetween (s : Session) (start tail : String) : List String :=
  let start := Text.lowerCase start
  let tail := Text.lowerCase tail
  s.namesWhere fun p =>
    start.utf8ByteSize + tail.utf8ByteSize < p.key.text.utf8ByteSize &&
      p.key.startsWith start && p.key.endsWith tail

/-- The names of the values of the time features, in the order of their bases. -/
def featureNames (s : Session) : List String :=
  s.graph.sortedFeatures.map TimeFeature.valueName

/-- The names of the files of the chain, the transient file first. -/
def chainFiles (s : Session) : List String :=
  (s.graph.chain transientFile).map s.graph.nameOf

/-- The files of the chain that declare a key, with their raw values, the nearest
first. -/
def valuesInChain (s : Session) (k : Key) : List (String × String) :=
  (s.graph.chain transientFile).filterMap fun f =>
    (s.graph.declared? f k).map fun p => (s.graph.nameOf f, p.rawValue)

/-- The dependencies in the order of their parts. -/
def sortedDependencies (s : Session) : List Dependency :=
  s.dependencies.mergeSort Dependency.le

/-! ## Showing values -/

/-- What is shown of a value that cannot be computed. -/
def undefinedText : String := "Undefined"

/-- The length of the vector `name`. -/
def lengthOf (s : Session) (name : String) : Attempt Nat × Session :=
  match s.kindOf name with
  | .error f => (.error f, s)
  | .ok k =>
      if k.isVector then
        let (result, s) := s.read none name .any
        (result.map Value.size, s)
      else ((Cause.wrongKind name k.vector k).raise, s)

/-- The value `v` of the parameter `name` in the unit it was declared with. -/
def display (s : Session) (name : String) (v : Value) : String :=
  match (s.find? name).bind Parameter.unit, v.kind.hasUnit with
  | some unit, true => v.displayIn ((MeasureUnit.factor? unit).getD 1) ++ " " ++ unit
  | _, _ => v.display

/-- The present value of `name` as a text. -/
def valueText (s : Session) (name : String) : String × Session :=
  match s.read none name .any with
  | (.ok v, s) => (s.display name v, s)
  | (.error _, s) => (undefinedText, s)

/-- The row of a parameter. -/
def row (s : Session) (p : Parameter) : Row × Session :=
  let (value, s) := s.valueText p.name.text
  ({ name := p.name.text
     kind := p.kind.marked p.changeable
     value := value
     files := s.valuesInChain p.key }, s)

/-- The rows of a list of parameters. -/
def rows (s : Session) : List Parameter → List Row × Session
  | [] => ([], s)
  | p :: ps =>
      let (first, s) := s.row p
      let (rest, s) := s.rows ps
      (first :: rest, s)

/-- The rows of all visible parameters. -/
def listing (s : Session) : List Row × Session :=
  s.rows s.graph.visible

/-- The rows of the visible parameters whose names begin with `start`, in any
case. -/
def listingOf (s : Session) (start : String) : List Row × Session :=
  s.rows (s.graph.visible.filter fun p => p.key.startsWith (Text.lowerCase start))

end Session

end ParameterChain
