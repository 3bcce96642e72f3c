/-
# Agreement of the arms of a file

The includes of a file are its *arms*.  A file is refused when its arms say
different things and nothing tells which of them counts:

  * a name that two arms show from different places is *contested*.  The file
    itself must declare it, and in absolute terms, which is checked once its value
    is known;
  * a *selector* (such as `Ge/Box/Type`) tells what the names of its family
    configure.  An arm that shows a selector must show every name of the family
    that another arm shows, and from the same place.

What an arm shows of a name is the first declaration that a pre-order walk from
that include meets.
-/
import ParameterChain.Graph

namespace ParameterChain

/-- Start and end of the names that select what the names beside them configure. -/
def selectorForms : List (String × String) := [
  ("ma/", "/components"), ("ge/", "/type"), ("so/", "/type"), ("sc/", "/quantity"),
  ("tf/", "/function"), ("gr/", "/type"), ("ph/", "/type"), ("vr/", "/type")]

/-- Whether a name selects what its family configures. -/
def Key.isSelector (k : Key) : Bool :=
  selectorForms.any fun (start, tail) => k.startsWith start && k.endsWith tail

namespace Graph

/-- The first of the arms `others` that shows the name of `p` from another place. -/
def disagreeing? (g : Graph) (p : Parameter) (others : List FileId) : Option FileId :=
  others.find? fun arm => (g.firstFound? arm p.key).any fun q => q.slot ≠ p.slot

/-- The first name in the family of the selector `p` that one of the arms `others`
shows and `arm` does not show from the same place; with it, the arm that shows
it. -/
def modifier? (g : Graph) (arm : FileId) (p : Parameter) (others : List FileId) :
    Option (Parameter × FileId) :=
  others.findSome? fun other =>
    let found := (g.shownBy other).find? fun q =>
      family q.key.text = family p.key.text &&
        (g.firstFound? arm q.key).map Parameter.slot ≠ some q.slot
    found.map fun q => (q, other)

/-- Judges one name that `arm` shows against the arms `later` that come after it
and against all `others`.  The result is the name itself if it is contested and
declared by the file. -/
def contestedName (g : Graph) (f : FileId) (ds : Declarations) (arm : FileId)
    (later others : List FileId) (p : Parameter) : Attempt (Option Key) := do
  let contested := g.disagreeing? p later
  if let some other := contested then
    if (ds.get? p.key).isNone then
      throw ((Cause.ambiguousChain (g.nameOf f) (g.namesBelow arm)
        (g.namesBelow other)).failure.about p.name.text)
  if p.key.isSelector then
    if let some (q, other) := g.modifier? arm p others then
      throw ((Cause.differentArms (g.namesBelow arm) q.name.text
        (g.namesBelow other)).failure.about p.name.text)
  return contested.map fun _ => p.key

/-- The contested names among those that a list of arms shows, the later arms
being judged against the earlier ones. -/
def contestedFrom (g : Graph) (f : FileId) (ds : Declarations) :
    List FileId → Attempt (List Key)
  | [] => .ok []
  | arm :: later => do
      let others := (g.includesOf f).filter (· ≠ arm)
      let here ← (g.shownBy arm).mapM (g.contestedName f ds arm later others)
      return here.reduceOption ++ (← g.contestedFrom f ds later)

/-- The names that the arms of `f` contest, all of which `ds` declares. -/
def contested (g : Graph) (f : FileId) (ds : Declarations) : Attempt (List Key) :=
  g.contestedFrom f ds (g.includesOf f)

end Graph

end ParameterChain
