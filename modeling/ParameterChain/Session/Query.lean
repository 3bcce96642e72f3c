/-
# Queries and their answers

Everything that can be asked of a session without editing it or moving its clock,
as data, and what it answers.
-/
import ParameterChain.Session.Edit

namespace ParameterChain

/-- A question to a session. -/
inductive Query where
  | value (consumer : Option String) (name : String) (reading : Reading)
  | isDeclared (name : String)
  | isChangeable (name : String)
  | kind (name : String)
  | unit (name : String)
  | length (name : String)
  | text (name : String)
  | namesStartingWith (start : String)
  | namesBetween (start tail : String)
  | featureNames
  | chainFiles
  | names
  | changeableNames
  | unusedNames
  | valuesInChain (name : String)
  | edits
  | dependencies
  | notices (name : String)
  | time
  | listing
  | listingOf (start : String)
  | table
  deriving DecidableEq, Repr

/-- The answer to a question or a request. -/
inductive Answer where
  | value (v : Attempt Value)
  | kind (k : Attempt Kind)
  | unit (u : Attempt (Option String))
  | length (n : Attempt Nat)
  | notices (ns : Attempt (List Notice))
  | done (r : Attempt Unit)
  | boolean (b : Bool)
  | text (t : String)
  | texts (ts : List String)
  | pairs (ps : List (String × String))
  | dependencies (ds : List Dependency)
  | time (t : Float)
  | rows (rs : List Row)

/-- Answer a question.  Only questions about values change the session. -/
def Session.answer (s : Session) : Query → Answer × Session
  | .value consumer name reading =>
      let (v, s) := s.get consumer name reading
      (.value v, s)
  | .isDeclared name => (.boolean (s.has name), s)
  | .isChangeable name => (.boolean (s.isChangeable name), s)
  | .kind name => (.kind (s.kindOf name), s)
  | .unit name => (.unit (s.unitOf name), s)
  | .length name =>
      let (n, s) := s.lengthOf name
      (.length n, s)
  | .text name =>
      let (t, s) := s.valueText name
      (.text t, s)
  | .namesStartingWith start => (.texts (s.namesStartingWith start), s)
  | .namesBetween start tail => (.texts (s.namesBetween start tail), s)
  | .featureNames => (.texts s.featureNames, s)
  | .chainFiles => (.texts s.chainFiles, s)
  | .names => (.texts s.names, s)
  | .changeableNames => (.texts s.changeableNames, s)
  | .unusedNames => (.texts s.unusedNames, s)
  | .valuesInChain name => (.pairs (s.valuesInChain (Key.ofText name)), s)
  | .edits => (.pairs (s.edits.map fun e => (e.name, e.rawValue)), s)
  | .dependencies => (.dependencies s.sortedDependencies, s)
  | .notices name => (.notices (.ok (s.notices name)), s)
  | .time => (.time s.graph.clock, s)
  | .listing =>
      let (rows, s) := s.listing
      (.rows rows, s)
  | .listingOf start =>
      let (rows, s) := s.listingOf start
      (.rows rows, s)
  | .table =>
      let (rows, s) := s.listing
      (.text (Listing.table rows), s)

end ParameterChain
