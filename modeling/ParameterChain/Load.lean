/-
# Loading

Loading starts at a top file and follows the includes depth first.  A spec stands
for one file wherever it is written: it is read once, and it gets its place in the
graph after all the files that it includes.  A file that names no includes
includes the built-in defaults.

A path of includes may not meet a spec twice and has a bounded length, which is
also the measure on which the recursion goes down.  When the top file is done the
transient file is put in front of it.

A failure names the file whose loading was asked for when it arose, unless the source
has named one already.
-/
import ParameterChain.Defaults
import ParameterChain.Graph.Commit
import ParameterChain.Record

namespace ParameterChain

/-- Where files come from: the bytes of the file that a spec names.  A source that has
none fails, and may say itself in which file. -/
abbrev Source := String → Attempt ByteArray

structure LoadOptions where
  limits : Limits := {}
  /-- Whether files without includes include the built-in defaults. -/
  withDefaults : Bool := true

namespace Source

/-- The bytes of the file that a spec names, the built-in defaults among them. -/
def contents (source : Source) (spec : String) : Attempt ByteArray :=
  if spec = builtInDefaults then .ok defaultText.toUTF8 else source spec

/-- The declarations of the file that a spec names. -/
def declarations (source : Source) (limits : Limits) (spec : String) : Attempt Declarations :=
  Attempt.locate (Failure.inFile · spec) do
    let bytes ← source.contents spec
    let records ← Record.ofBytes limits bytes
    records.foldlM (fun ds r => do return (← ds.add r.name r.value r.line).1) {}

end Source

/-- The specs that the file `spec` with declarations `ds` includes. -/
def LoadOptions.includeSpecs (options : LoadOptions) (spec : String) (ds : Declarations) :
    List String :=
  if ds.includes.isEmpty && spec ≠ builtInDefaults && options.withDefaults then
    [builtInDefaults]
  else ds.includes

namespace Graph

/-- The loaded file of a spec. -/
def fileOf? (g : Graph) (spec : String) : Option FileId :=
  (List.range g.files.size).find? fun f => f ≠ transientFile && g.nameOf f = spec

/-- The number of files besides the transient one. -/
def loadedCount (g : Graph) : Nat :=
  g.files.size - 1

end Graph

/-- A step of loading, with the files loaded so far. -/
abbrev Loader := StateT Graph Attempt

/-- Fail while the file `spec` is being loaded. -/
def Loader.fail {α : Type} (spec : String) (c : Cause) : Loader α :=
  throw (c.failure.inFile spec)

/-- Load the file `spec`, which was reached along the includes of `path`, unless it
is loaded already; the path may take up `fuel` more files. -/
def Source.loadFile (source : Source) (options : LoadOptions) :
    Nat → List String → String → Loader FileId
  | fuel, path, spec => do
      let limits := options.limits
      if let some f := (← get).fileOf? spec then
        return f
      if path.contains spec then
        Loader.fail spec (.includeCycle spec)
      match fuel with
      | 0 => Loader.fail spec (.includeTooDeep limits.includeDepth)
      | fuel + 1 =>
          if limits.files ≤ (← get).loadedCount + path.length then
            Loader.fail spec (.tooManyFiles limits.files)
          let ds ← source.declarations limits spec
          let includes ←
            (options.includeSpecs spec ds).mapM (source.loadFile options fuel (spec :: path))
          let g ← get
          let f := g.files.size
          let done ← (g.addFile spec includes).commit limits f ds
          set done.graph
          return f

/-- The graph of the file `top` and all that it includes. -/
def Source.load (source : Source) (options : LoadOptions) (top : String) : Attempt Graph := do
  let (f, g) ← (source.loadFile options options.limits.includeDepth [] top).run {}
  let rooted := g.setIncludes transientFile [f]
  let done ← rooted.commit options.limits transientFile { redefinable := true }
  return done.graph

end ParameterChain
