/-
# Committing declarations

Declarations are committed to a file in three steps: their outline, their draft
along the linear chain of the file, and storing what was drafted.  Nothing is
stored unless every step succeeds.  A *trial* goes through the first two steps
only, along the chain as it stands, and leaves no trace.

A session has one graph only, and its edits go through these steps on that very
graph (`process`): the chain is made linear before any value is resolved, and
whatever has been done when a step fails stays done.

Every failure names the file.
-/
import ParameterChain.Draft
import ParameterChain.Graph.Linear

namespace ParameterChain

/-- What a commit put into a graph. -/
structure Commit where
  graph : Graph
  parameters : List Parameter
  features : List TimeFeature

namespace Graph

/-- Store the parameters of a draft and the features of its outline. -/
def storeAll (g : Graph) (parameters : List Parameter) (features : List TimeFeature) : Graph :=
  features.foldl storeFeature (parameters.foldl store g)

/-- Commit the declarations `ds` to the file `f`. -/
def commit (g : Graph) (limits : Limits) (f : FileId) (ds : Declarations) : Attempt Commit :=
  Attempt.locate (Failure.inFile · (g.nameOf f)) do
    let o ← g.outline f ds
    let linear := g.linearize f
    let drafts ← linear.draft limits f o
    return ⟨linear.storeAll drafts o.features, drafts, o.features⟩

/-- Whether the declarations `ds` could be committed to the file `f`. -/
def trial (g : Graph) (limits : Limits) (f : FileId) (ds : Declarations) : Attempt Unit :=
  Attempt.locate (Failure.inFile · (g.nameOf f)) do
    let o ← g.outline f ds
    let _ ← g.draft limits f o

/-- Process the declarations `ds` of the file `f` on the graph itself.  The second part
of the result is the graph as the last step that was taken left it.  Unless the
declarations are to be kept, the chain is taken as it stands and nothing is stored. -/
def process (g : Graph) (limits : Limits) (f : FileId) (ds : Declarations) (keeps : Bool) :
    Attempt Commit × Graph :=
  let located {α : Type} : Attempt α → Attempt α :=
    Attempt.locate (Failure.inFile · (g.nameOf f))
  match located (g.outline f ds) with
  | .error e => (.error e, g)
  | .ok o =>
      let g := if keeps then g.linearize f else g
      match located (g.draft limits f o) with
      | .error e => (.error e, g)
      | .ok drafts =>
          let g := if keeps then g.storeAll drafts o.features else g
          (.ok ⟨g, drafts, o.features⟩, g)

end Graph

end ParameterChain
