/-
# Moving the clock

When the clock moves, the time features are evaluated one after the other, in the
order of their bases.  A feature has changed if its value differs from the one it
had at the last move, or if there is none to compare with; then the new value is
kept for the next move.

A feature that fails ends the move with its failure.  The clock stays where it was
moved to and the features before it keep their new values.
-/
import ParameterChain.Session.Edit

namespace ParameterChain.Session

/-- The value that a feature had when the clock last moved. -/
def lastSeen? (s : Session) (f : TimeFeature) : Option Value :=
  (rowOf? Sighting.base f.key s.sightings).map Sighting.value

/-- Whether a value of `f` differs from the one last seen. -/
def isNews (s : Session) (f : TimeFeature) (v : Value) : Bool :=
  !(s.lastSeen? f).any v.same

/-- Keep a value of `f` for the next move. -/
def see (s : Session) (f : TimeFeature) (v : Value) : Session :=
  { s with sightings := put Sighting.base ⟨f.key, v⟩ s.sightings }

/-- Evaluate the features in turn.  The result is the names of the values that have
changed. -/
def observe (s : Session) : List TimeFeature → Attempt (List String) × Session
  | [] => (.ok [], s)
  | f :: fs =>
      let (result, t) := (s.graph.featureValue s.limits f).run []
      let s := s.markUsed t
      match result with
      | .error e => (.error e, s)
      | .ok v =>
          if s.isNews f v then
            let (rest, s) := (s.see f v).observe fs
            (rest.map (f.valueName :: ·), s)
          else s.observe fs

/-- Move the clock to `t`.  The result is the names of the values that have
changed. -/
def moveClock (s : Session) (t : Float) : Attempt (List String) × Session :=
  { s with graph := { s.graph with clock := t } }.observe s.graph.sortedFeatures

/-- Move the clock and tell who is concerned, feature by feature. -/
def updateTime (s : Session) (t : Float) : Attempt (List Notice) × Session :=
  let (changed, s) := s.moveClock t
  (changed.map fun names => names.flatMap s.notices, s)

end ParameterChain.Session
