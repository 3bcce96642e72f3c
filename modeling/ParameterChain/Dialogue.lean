/-
# Dialogues

In a dialogue a session is shared by consumers that *listen*: a consumer registers
a list of requests, and whenever it is notified that a name it read may be out of
date, it makes these requests in turn, up to a given number of notifications.
The requests of a listener may edit the session and so notify listeners in the
midst of the edit that notified them.

Notices are delivered one at a time after the edit or the move of the clock that
gave rise to them, in their order.  Everything that happens to listeners is logged
as it happens, so the events of a nested delivery stand before the answer to the
request that caused it.

A delivery uses up one of the notifications that its listener answers to, and a
listener that registers another only passes on requests that it holds itself.  So
the requests that are still to be made are bounded (`Dialogue.budget`), and the
bound is the measure on which nested deliveries recurse.
-/
import ParameterChain.Session.Clock
import ParameterChain.Session.Query

namespace ParameterChain

/-- A request to a session. -/
inductive Request where
  | ask (q : Query)
  | change (c : Change)
  /-- Find out whether an edit could be made. -/
  | tryEdit (c : Change)
  | clone (name copy : String)
  | moveClock (t : Float)
  /-- Let a consumer answer to its next `limit` notices with `actions`. -/
  | listen (consumer : String) (actions : List Request) (limit : Nat)

/-- A registered consumer. -/
structure Listener where
  consumer : String
  actions : List Request
  /-- How many more notices it answers to. -/
  remaining : Nat

/-- What happens to listeners. -/
inductive Event where
  | notified (consumer : String) (direct : Name)
  | acted (consumer : String) (action : Request) (answer : Answer)

structure Dialogue where
  session : Session
  listeners : List Listener := []
  /-- What has happened, the latest first. -/
  log : List Event := []

/-! ## Bounds -/

mutual

/-- A bound on the notices that a request can make listeners answer to, beyond
those that they answer to already. -/
def Request.weight : Request → Nat
  | .listen _ actions limit => 1 + limit * (1 + weights actions)
  | _ => 1

/-- The sum of the weights of some requests. -/
def weights : List Request → Nat
  | [] => 0
  | r :: rs => r.weight + weights rs

end

def Listener.weight (l : Listener) : Nat :=
  l.remaining * (1 + weights l.actions)

namespace Dialogue

/-- A bound on how deeply deliveries can be nested while a request is performed. -/
def budget (d : Dialogue) (r : Request) : Nat :=
  d.listeners.foldr (fun l n => l.weight + n) 0 + r.weight

/-! ## Steps -/

def listener? (d : Dialogue) (consumer : String) : Option Listener :=
  rowOf? Listener.consumer consumer d.listeners

def register (d : Dialogue) (l : Listener) : Dialogue :=
  { d with listeners := put Listener.consumer l d.listeners }

def record (d : Dialogue) (e : Event) : Dialogue :=
  { d with log := e :: d.log }

/-- Change the session and keep the answer. -/
def inSession {α : Type} (d : Dialogue) (f : Session → α × Session) : α × Dialogue :=
  let (a, s) := f d.session
  (a, { d with session := s })

/-- Perform the requests of `consumer` in turn, given how one is performed. -/
def act (perform : Dialogue → Request → Answer × Dialogue) (consumer : String) :
    Dialogue → List Request → Dialogue
  | d, [] => d
  | d, r :: rs =>
      let (answer, d) := perform d r
      act perform consumer (d.record (.acted consumer r answer)) rs

/-- Deliver one notice, given how requests are performed. -/
def deliver (perform : Dialogue → Request → Answer × Dialogue) (d : Dialogue) (n : Notice) :
    Dialogue :=
  match d.listener? n.consumer with
  | none => d
  | some l =>
      let d := d.record (.notified n.consumer n.direct)
      match l.remaining with
      | 0 => d
      | remaining + 1 => act perform n.consumer (d.register { l with remaining }) l.actions

/-- Deliver the notices that a change of `name` gives rise to. -/
def announce (perform : Dialogue → Request → Answer × Dialogue) (d : Dialogue) (name : String) :
    List Notice × Dialogue :=
  let notices := d.session.notices name
  (notices, notices.foldl (deliver perform) d)

/-- Deliver the notices of several changes, those of one name after those of the
name before have been dealt with. -/
def announceAll (perform : Dialogue → Request → Answer × Dialogue) (d : Dialogue) :
    List String → List Notice × Dialogue
  | [] => ([], d)
  | name :: names =>
      let (first, d) := d.announce perform name
      let (rest, d) := d.announceAll perform names
      (first ++ rest, d)

/-- Make an edit and deliver its notices. -/
def change (perform : Dialogue → Request → Answer × Dialogue) (d : Dialogue) (c : Change) :
    Attempt (List Notice) × Dialogue :=
  let (result, d) := d.inSession (Session.apply · c true)
  match result with
  | .error f => (.error f, d)
  | .ok name =>
      let (notices, d) := d.announce perform name.text
      (.ok notices, d)

/-- Perform one request, given how the requests of notified listeners are
performed. -/
def performWith (perform : Dialogue → Request → Answer × Dialogue) (d : Dialogue) :
    Request → Answer × Dialogue
  | .ask q => d.inSession (Session.answer · q)
  | .change c =>
      let (notices, d) := d.change perform c
      (.notices notices, d)
  | .tryEdit c =>
      let (result, d) := d.inSession (Session.apply · c false)
      (.notices (result.map fun _ => []), d)
  | .clone name copy =>
      match d.session.cloning name copy with
      | .error f => (.done (.error f), d)
      | .ok c =>
          let (notices, d) := d.change perform c
          (.done (notices.map fun _ => ()), d)
  | .moveClock t =>
      let (changed, d) := d.inSession (Session.moveClock · t)
      match changed with
      | .error f => (.notices (.error f), d)
      | .ok names =>
          let (notices, d) := d.announceAll perform names
          (.notices (.ok notices), d)
  | .listen consumer actions limit =>
      (.done (.ok ()), d.register ⟨consumer, actions, limit⟩)

/-- Perform a request with deliveries nested at most `fuel` deep. -/
def performWithin : Nat → Dialogue → Request → Answer × Dialogue
  | 0, d, r => d.performWith (fun d _ => (.done (.ok ()), d)) r
  | fuel + 1, d, r => d.performWith (performWithin fuel) r

/-- Perform a request. -/
def perform (d : Dialogue) (r : Request) : Answer × Dialogue :=
  performWithin (d.budget r) d r

/-- Perform a request.  The log of the result holds what happened meanwhile. -/
def step (d : Dialogue) (r : Request) : Answer × Dialogue :=
  { d with log := [] }.perform r

/-- The events since the last step, the first first. -/
def events (d : Dialogue) : List Event :=
  d.log.reverse

end Dialogue

end ParameterChain
