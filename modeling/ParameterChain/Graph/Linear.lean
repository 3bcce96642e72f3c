/-
# Making an include graph linear

The include graph below a file is flattened to one chain.  Walk it in pre-order
and list a file every time it is met; then a file that is included more than once
sits at its *last* place in that list.  So every file comes before all the files
that it includes, directly or through others, whichever of its includers is
looked at: a file that several arms share is behind all of them.

The chain is stored as parent links along that order.  Files that the walk does
not meet keep the links they have.
-/
import ParameterChain.Graph

namespace ParameterChain.Graph

/-- The files met on a pre-order walk of the includes from `f`, repeats kept;
paths of more than `fuel` files are cut. -/
def walk (g : Graph) : Nat → FileId → List FileId
  | 0, _ => []
  | fuel + 1, f => f :: (g.includesOf f).flatMap (g.walk fuel)

/-- Each file of a list once, at its last place. -/
def lastPlaces : List FileId → List FileId
  | [] => []
  | f :: fs => if fs.contains f then lastPlaces fs else f :: lastPlaces fs

/-- The linear order of the files below `f`. -/
def linearOrder (g : Graph) (f : FileId) : List FileId :=
  lastPlaces (g.walk g.files.size f)

/-- What follows `f` in a list. -/
def after? (f : FileId) : List FileId → Option FileId
  | a :: b :: rest => if a = f then some b else after? f (b :: rest)
  | _ => none

/-- Link the files of `order` to one another, the last one to nothing. -/
def link (g : Graph) (order : List FileId) : Graph :=
  { g with
    files := g.files.mapIdx fun f file =>
      if order.contains f then { file with parent := after? f order } else file }

/-- Make the include graph below `f` linear. -/
def linearize (g : Graph) (f : FileId) : Graph :=
  g.link (g.linearOrder f)

end ParameterChain.Graph
