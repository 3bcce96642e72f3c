/-
# Dialogues are runs

Listeners act in the midst of the edits and moves of the clock that notify them, and
their requests may notify listeners again.  However deliveries are nested, what happens
to a loaded session is a sequence of readings, edits, clones and moves of the clock.  So
what holds after every run holds at every moment of a dialogue.

Main statements: `step_reaches`, and `exists_run_of_load` for whole dialogues.
-/
import ParameterChain.Dialogue
import ParameterChain.Proofs.Attempts

namespace ParameterChain

/-- Some steps lead from `s` to `s'`. -/
def Session.Reaches (s s' : Session) : Prop :=
  ∃ steps, s.run steps = s'

namespace Session

variable {s s' s'' : Session}

theorem Reaches.refl (s : Session) : s.Reaches s :=
  ⟨[], rfl⟩

theorem Reaches.trans (h : s.Reaches s') (h' : s'.Reaches s'') : s.Reaches s'' := by
  obtain ⟨steps, rfl⟩ := h
  obtain ⟨later, rfl⟩ := h'
  exact ⟨steps ++ later, run_append s steps later⟩

theorem Reaches.rooted (h : s.Reaches s') (hs : s.graph.Rooted) : s'.graph.Rooted := by
  obtain ⟨steps, rfl⟩ := h
  exact rooted_run hs steps

theorem reaches_next (s : Session) (step : Step) : s.Reaches (s.next step) :=
  ⟨[step], rfl⟩

/-! ## Questions -/

theorem reaches_read (s : Session) (consumer : Option String) (name : String)
    (e : Expectation) : s.Reaches (s.read consumer name e).2 :=
  s.reaches_next (.read consumer name e)

theorem reaches_get (s : Session) (consumer : Option String) (name : String)
    (reading : Reading) : s.Reaches (s.get consumer name reading).2 := by
  cases reading with
  | any => exact reaches_read s consumer name .any
  | ofKind k => exact reaches_read s consumer name (.ofKind k)
  | ofCategory k category => exact reaches_read s consumer name (.ofCategory k category)
  | inUnit unit =>
    simp only [get]
    split
    · exact .refl s
    · next u _ => exact reaches_read s consumer name (.ofCategory _ u.category)
  | ofLength n category => exact reaches_read s consumer name (.ofCategory _ category)

theorem reaches_valueText (s : Session) (name : String) :
    s.Reaches (s.valueText name).2 := by
  have hread := reaches_read s none name .any
  rw [valueText]
  rcases hresult : s.read none name .any with ⟨result, s'⟩
  rw [hresult] at hread
  cases result with
  | ok v => exact hread
  | error e => exact hread

theorem reaches_lengthOf (s : Session) (name : String) : s.Reaches (s.lengthOf name).2 := by
  rw [lengthOf]
  cases s.kindOf name with
  | error e => exact .refl s
  | ok k =>
    simp only
    split
    · exact reaches_read s none name .any
    · exact .refl s

theorem reaches_rows (s : Session) (ps : List Parameter) : s.Reaches (s.rows ps).2 := by
  induction ps generalizing s with
  | nil => exact .refl s
  | cons p ps ih => exact (reaches_valueText s p.name.text).trans (ih _)

theorem reaches_answer (s : Session) (q : Query) : s.Reaches (s.answer q).2 := by
  cases q with
  | value consumer name reading => exact reaches_get s consumer name reading
  | length name => exact reaches_lengthOf s name
  | text name => exact reaches_valueText s name
  | listing => exact reaches_rows s _
  | listingOf start => exact reaches_rows s _
  | table => exact reaches_rows s _
  | _ => exact .refl s

/-! ## Edits -/

theorem reaches_edit {c : Change} {n : Name} (h : s.edit c = .ok (s', n)) :
    s.Reaches s' := by
  refine ⟨[.change c], ?_⟩
  show s.afterEdit c = s'
  rw [afterEdit, h]

/-- Edits that are made or tried on the session itself are steps of a run. -/
theorem reaches_apply (hs : s.graph.Rooted) (c : Change) (keeps : Bool) :
    s.Reaches (s.apply c keeps).2 := by
  cases keeps with
  | false =>
    rw [(apply_false s c).2]
    exact .refl s
  | true =>
    rw [apply_of_whole hs.whole]
    cases hedit : s.edit c with
    | error e => exact .refl s
    | ok made => exact reaches_edit hedit

end Session

open Session

namespace Dialogue

variable {perform : Dialogue → Request → Answer × Dialogue}

section Deliveries

variable (hperform : ∀ (d : Dialogue) (r : Request), d.session.graph.Rooted →
  d.session.Reaches (perform d r).2.session)

include hperform

theorem act_reaches (consumer : String) {d : Dialogue} (hd : d.session.graph.Rooted)
    (rs : List Request) : d.session.Reaches (act perform consumer d rs).session := by
  induction rs generalizing d with
  | nil => exact .refl d.session
  | cons r rs ih =>
    have hfirst := hperform d r hd
    have hrest := ih (d := (perform d r).2.record (.acted consumer r (perform d r).1))
      (hfirst.rooted hd)
    exact hfirst.trans hrest

theorem deliver_reaches {d : Dialogue} (hd : d.session.graph.Rooted) (n : Notice) :
    d.session.Reaches (deliver perform d n).session := by
  rw [deliver]
  cases d.listener? n.consumer with
  | none => exact .refl d.session
  | some l =>
    simp only
    cases l.remaining with
    | zero => exact .refl d.session
    | succ remaining =>
      exact act_reaches hperform n.consumer
        (d := (d.record (.notified n.consumer n.direct)).register { l with remaining }) hd
        l.actions

theorem deliverAll_reaches {d : Dialogue} (hd : d.session.graph.Rooted) (ns : List Notice) :
    d.session.Reaches (ns.foldl (deliver perform) d).session := by
  induction ns generalizing d with
  | nil => exact .refl d.session
  | cons n ns ih =>
    have hfirst := deliver_reaches hperform hd n
    exact hfirst.trans (ih (hfirst.rooted hd))

theorem announceAll_reaches {d : Dialogue} (hd : d.session.graph.Rooted)
    (names : List String) : d.session.Reaches (d.announceAll perform names).2.session := by
  induction names generalizing d with
  | nil => exact .refl d.session
  | cons name names ih =>
    have hfirst := deliverAll_reaches hperform hd (d.session.notices name)
    exact hfirst.trans (ih (hfirst.rooted hd))

theorem change_reaches {d : Dialogue} (hd : d.session.graph.Rooted) (c : Change) :
    d.session.Reaches (d.change perform c).2.session := by
  have happly : d.session.Reaches (d.session.apply c true).2 := reaches_apply hd c true
  rw [change, inSession]
  rcases hresult : d.session.apply c true with ⟨result, s⟩
  rw [hresult] at happly
  cases result with
  | error f => exact happly
  | ok name =>
    exact happly.trans
      (deliverAll_reaches hperform (d := { d with session := s }) (happly.rooted hd) _)

theorem performWith_reaches {d : Dialogue} (hd : d.session.graph.Rooted) (r : Request) :
    d.session.Reaches (d.performWith perform r).2.session := by
  cases r with
  | ask q => exact reaches_answer d.session q
  | change c => exact change_reaches hperform hd c
  | tryEdit c => exact reaches_apply hd c false
  | clone name copy =>
    simp only [performWith]
    cases d.session.cloning name copy with
    | error f => exact .refl d.session
    | ok c => exact change_reaches hperform hd c
  | moveClock t =>
    have hclock : d.session.Reaches (d.session.moveClock t).2 :=
      d.session.reaches_next (.moveClock t)
    simp only [performWith, inSession]
    rcases hmove : d.session.moveClock t with ⟨changed, s⟩
    rw [hmove] at hclock
    cases changed with
    | error f => exact hclock
    | ok names =>
      exact hclock.trans
        (announceAll_reaches hperform (d := { d with session := s }) (hclock.rooted hd) names)
  | listen consumer actions limit => exact .refl d.session

end Deliveries

/-- Within any depth the requests of notified listeners are performed within some depth,
or not at all. -/
theorem exists_performWith (depth : Nat) :
    ∃ perform, ((perform = fun d _ => (.done (.ok ()), d)) ∨
      ∃ rest, perform = performWithin rest) ∧
        ∀ d r, performWithin depth d r = performWith perform d r := by
  cases depth with
  | zero => exact ⟨_, Or.inl rfl, fun d r => rfl⟩
  | succ rest => exact ⟨_, Or.inr ⟨rest, rfl⟩, fun d r => rfl⟩

theorem performWithin_reaches (fuel : Nat) {d : Dialogue} (hd : d.session.graph.Rooted)
    (r : Request) : d.session.Reaches (performWithin fuel d r).2.session := by
  induction fuel generalizing d r with
  | zero => exact performWith_reaches (fun d _ _ => .refl d.session) hd r
  | succ fuel ih => exact performWith_reaches (fun d r hd => ih hd r) hd r

/-- Whatever is asked of a dialogue about a loaded session, the session is left as some
steps leave it. -/
theorem step_reaches {d : Dialogue} (hd : d.session.graph.Rooted) (r : Request) :
    d.session.Reaches (d.step r).2.session :=
  performWithin_reaches _ (d := { d with log := [] }) hd r

/-! ## Whole dialogues -/

/-- The dialogue after some requests. -/
def after (d : Dialogue) (rs : List Request) : Dialogue :=
  rs.foldl (fun d r => (d.step r).2) d

theorem after_reaches {d : Dialogue} (hd : d.session.graph.Rooted) (rs : List Request) :
    d.session.Reaches (d.after rs).session := by
  induction rs generalizing d with
  | nil => exact .refl d.session
  | cons r rs ih =>
    have hfirst := step_reaches hd r
    exact hfirst.trans (ih (hfirst.rooted hd))

/-- At every moment of a dialogue about a loaded session, its session is one that a run
leads to. -/
theorem exists_run_of_load {source : Source} {options : LoadOptions} {top : String}
    {s : Session} (hload : Session.load source options top = .ok s) (rs : List Request) :
    ∃ steps, (({ session := s } : Dialogue).after rs).session = s.run steps ∧
      (s.run steps).graph.Rooted := by
  obtain ⟨steps, hsteps⟩ := after_reaches (d := { session := s }) (rooted_load hload) rs
  exact ⟨steps, hsteps.symm, rooted_run (rooted_load hload) steps⟩

end Dialogue

end ParameterChain
