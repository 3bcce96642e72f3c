/-
# Edits

An edit is one more declaration, made after loading.  It goes to the transient
file, in front of the whole chain, where a later edit of the same name takes its
place.  Unless the edit is permissive, a parameter that is visible already must be
changeable; names of the bulk family are exempt.

An edit that fails leaves the session as it was.  One that succeeds makes the new
parameter unused, forgets what was last seen of the time features that it may
have to do with, and makes the readings of every consumer out of date that came
by a parameter of that name.
-/
import ParameterChain.Session

namespace ParameterChain

/-- A consumer is told that what it read as `direct` may be out of date. -/
structure Notice where
  consumer : String
  direct : Name
  deriving DecidableEq, Repr

/-- The order of notices: by consumer, then by the name read. -/
def Notice.le (m n : Notice) : Bool :=
  ((compare m.consumer n.consumer).then (compare m.direct.key.text n.direct.key.text)).isLE

/-- An edit that is asked for: a name as written, with or without a kind, and a raw
value. -/
structure Change where
  name : String
  rawValue : String
  /-- Whether a visible parameter that is not changeable may be edited. -/
  permissive : Bool := false
  deriving DecidableEq, Repr

namespace Change

/-- The declaration that a change makes, alone in its table. -/
def declarations (c : Change) : Attempt (Declarations × Declaration) :=
  Attempt.locate (Failure.inFile · transientName) do
    match ← ({ redefinable := true } : Declarations).add c.name c.rawValue 0 with
    | (ds, some d) => return (ds, d)
    | (_, none) => throw (Cause.includeAfterLoad.failure.about c.name)

/-- Whether a declaration may be edited although the parameter it hides is not
changeable. -/
def exempts (c : Change) (d : Declaration) : Bool :=
  c.permissive || d.key.startsWith bulkFamily

end Change

/-- Whether an edit of `k` may change the value of the feature with that base: `k`
lies below the base. -/
def Key.isBelow (k base : Key) : Bool :=
  k.startsWith (base.text ++ "/")

namespace Session

/-- The notices that a change of `name` gives rise to, each once. -/
def notices (s : Session) (name : String) : List Notice :=
  ((s.dependencies.filter fun d => d.base.key = Key.ofText name).map fun d =>
    Notice.mk d.consumer d.direct).mergeSort Notice.le

/-- Refuses the edit of a visible parameter that is not changeable. -/
def requireChangeable (s : Session) (c : Change) (d : Declaration) : Attempt Unit :=
  if !c.exempts d && (s.graph.visible? d.key).any fun p => !p.changeable then
    .error ((((Cause.notChangeable d.name.text).failure.about c.name).withValue
      c.rawValue).inFile transientName)
  else .ok ()

/-- The session after a commit to the transient file that was made for the change
`c` with the declaration `d`. -/
def committed (s : Session) (c : Change) (d : Declaration) (done : Commit) : Session :=
  { s with
    graph := done.graph
    used := s.used.filter fun slot => !(done.parameters.map Parameter.slot).contains slot
    sightings := s.sightings.filter fun seen =>
      !d.key.isBelow seen.base && !(done.features.map TimeFeature.key).contains seen.base
    edits := put Edit.key ⟨d.key, c.name, c.rawValue⟩ s.edits }

/-- Make an edit.  The result is the session after it and the name that was
declared. -/
def edit (s : Session) (c : Change) : Attempt (Session × Name) := do
  let (ds, d) ← c.declarations
  s.requireChangeable c d
  let done ← s.graph.commit s.limits transientFile ds
  return (s.committed c d done, d.name)

/-- Whether an edit could be made, were it permissive. -/
def tryEdit (s : Session) (c : Change) : Attempt Unit := do
  let (ds, _) ← c.declarations
  s.graph.trial s.limits transientFile ds

/-- Make an edit on the session itself, or only try it.  The second part of the result is
the session as the attempt left it, whether it succeeded or not. -/
def apply (s : Session) (c : Change) (keeps : Bool) : Attempt Name × Session :=
  match c.declarations with
  | .error e => (.error e, s)
  | .ok (ds, d) =>
      match if keeps then s.requireChangeable c d else .ok () with
      | .error e => (.error e, s)
      | .ok () =>
          match s.graph.process s.limits transientFile ds keeps with
          | (.error e, g) => (.error e, { s with graph := g })
          | (.ok done, g) =>
              (.ok d.name, if keeps then s.committed c d done else { s with graph := g })

/-- Make an edit and tell who is concerned. -/
def change (s : Session) (c : Change) : Attempt (Session × List Notice) := do
  let (s, name) ← s.edit c
  return (s, s.notices name.text)

/-- The change that makes `copy` a new name for the value of `name`. -/
def cloning (s : Session) (name copy : String) : Attempt Change := do
  let p ← s.find name
  let rawValue :=
    match p.unit with
    | some unit => name ++ " " ++ unit
    | none => name
  return { name := p.kind.code ++ ":" ++ copy, rawValue }

end Session

end ParameterChain
