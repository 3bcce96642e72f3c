/-
# The graph of files

A graph holds the loaded files with the parameters resolved from each, the time
features, and the clock.  A file knows its includes, in the order written, and,
once its include graph has been made linear, its *parent*: the next file of the
chain.  File `0` is the transient file: it is at the root of every look-up and
holds the edits made after the load.

There are two ways to look a name up from a file:

  * `find?` walks up the parents, the way parameters are read;
  * `firstFound?` walks the includes in pre-order, the way files are checked
    against one another while they are loaded.

Walks are bounded by the number of files.  A chain of parents and a path of
includes never repeat a file, so the bound is never what ends them.
-/
import ParameterChain.Keyed
import ParameterChain.Parameter
import ParameterChain.TimeFeature

namespace ParameterChain

/-- The file that edits are stored in. -/
def transientFile : FileId := 0

/-- The name under which the transient file is shown. -/
def transientName : String := "TransientParameters"

/-- One file and the parameters resolved from it. -/
structure SourceFile where
  name : String
  /-- The next file of the chain, once there is a chain. -/
  parent : Option FileId := none
  includes : List FileId := []
  parameters : List Parameter := []

structure Graph where
  files : Array SourceFile := #[{ name := transientName }]
  features : List TimeFeature := []
  clock : Float := 0

namespace Graph

/-! ## Files -/

def includesOf (g : Graph) (f : FileId) : List FileId :=
  match g.files[f]? with
  | some file => file.includes
  | none => []

def parentOf? (g : Graph) (f : FileId) : Option FileId :=
  g.files[f]?.bind SourceFile.parent

def parametersOf (g : Graph) (f : FileId) : List Parameter :=
  match g.files[f]? with
  | some file => file.parameters
  | none => []

def nameOf (g : Graph) (f : FileId) : String :=
  match g.files[f]? with
  | some file => file.name
  | none => ""

/-- The parameter that file `f` itself declares under key `k`. -/
def declared? (g : Graph) (f : FileId) (k : Key) : Option Parameter :=
  rowOf? Parameter.key k (g.parametersOf f)

/-- Add a file; its position is the number of files before. -/
def addFile (g : Graph) (name : String) (includes : List FileId) : Graph :=
  { g with files := g.files.push { name, includes } }

def setIncludes (g : Graph) (f : FileId) (includes : List FileId) : Graph :=
  { g with files := g.files.modify f fun file => { file with includes } }

/-- Store a parameter in the file that declares it, in place of an earlier one of
the same name. -/
def store (g : Graph) (p : Parameter) : Graph :=
  { g with
    files := g.files.modify p.file fun file =>
      { file with parameters := put Parameter.key p file.parameters } }

/-- Store a time feature, in place of an earlier one of the same base. -/
def storeFeature (g : Graph) (f : TimeFeature) : Graph :=
  { g with features := put TimeFeature.key f g.features }

def feature? (g : Graph) (base : Key) : Option TimeFeature :=
  rowOf? TimeFeature.key base g.features

/-- The time features in the order of their bases. -/
def sortedFeatures (g : Graph) : List TimeFeature :=
  sortedByKey TimeFeature.key g.features

/-! ## The chain of parents -/

/-- At most `fuel` files from `f` up the parents. -/
def parentsFrom (g : Graph) : Nat → FileId → List FileId
  | 0, _ => []
  | fuel + 1, f =>
      match g.parentOf? f with
      | some parent => f :: g.parentsFrom fuel parent
      | none => [f]

/-- The files from `f` up the parents, the nearest first. -/
def chain (g : Graph) (f : FileId) : List FileId :=
  g.parentsFrom g.files.size f

/-- The nearest declaration of `k` from `f` up the parents. -/
def find? (g : Graph) (f : FileId) (k : Key) : Option Parameter :=
  (g.chain f).findSome? fun file => g.declared? file k

/-- The declaration of `k` that reads see. -/
def visible? (g : Graph) (k : Key) : Option Parameter :=
  g.find? transientFile k

/-- The declaration of the key of `p` above the file that declares `p`. -/
def above? (g : Graph) (f : FileId) (k : Key) : Option Parameter :=
  (g.parentOf? f).bind fun parent => g.find? parent k

/-! ## Walks of the includes -/

/-- The files of `seen`, followed by those below `f` that are not among them, in
pre-order; paths of more than `fuel` files are cut. -/
def visit (g : Graph) : Nat → List FileId → FileId → List FileId
  | 0, seen, _ => seen
  | fuel + 1, seen, f =>
      if seen.contains f then seen
      else (g.includesOf f).foldl (g.visit fuel) (seen ++ [f])

/-- The files below `f`, itself included, in pre-order and each once. -/
def preorder (g : Graph) (f : FileId) : List FileId :=
  g.visit g.files.size [] f

/-- The first declaration of `k` in a pre-order walk of the includes of `f`. -/
def firstFound? (g : Graph) (f : FileId) (k : Key) : Option Parameter :=
  (g.preorder f).findSome? fun file => g.declared? file k

/-- The names of the files below `f`, in pre-order. -/
def namesBelow (g : Graph) (f : FileId) : List String :=
  (g.preorder f).map g.nameOf

/-! ## One parameter per key -/

/-- The first row of each key, in the order of the rows. -/
def firstPerKey : List Parameter → List Parameter
  | [] => []
  | p :: ps => p :: (firstPerKey ps).filter fun q => q.key ≠ p.key

/-- The first declaration of each key in a list of files, in the order of the
keys. -/
def firstIn (g : Graph) (files : List FileId) : List Parameter :=
  sortedByKey Parameter.key (firstPerKey (files.flatMap g.parametersOf))

/-- What the includes of `f` show of each key, first found first. -/
def shownBy (g : Graph) (f : FileId) : List Parameter :=
  g.firstIn (g.preorder f)

/-- The parameters that reads see, in the order of their keys. -/
def visible (g : Graph) : List Parameter :=
  g.firstIn (g.chain transientFile)

end Graph

end ParameterChain
