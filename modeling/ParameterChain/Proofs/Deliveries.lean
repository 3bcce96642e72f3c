/-
# How often a reading is told of

An edit tells each consumer of each reading at most once.  A move of the clock does so
for each feature that has changed: the notices of one feature are given after those of the
feature before have been delivered, and nobody looks at what has been told already.  So a
reading is told of as many times as there are changed features that it came by.

The count is taken while listeners answer to the notices that come first.  Whatever they
do, dependencies are only ever added (`Reaches.depends`), so that the count lies between
those that the dependencies before and after all deliveries give.  As long as listeners
change nothing, their answers notify nobody (`Quiet`), and the notifications are those
notices whose consumers listen, in their order.

Main statement: `count_moveClock`.
-/
import ParameterChain.Proofs.Clock
import ParameterChain.Proofs.Dialogues

namespace ParameterChain

/-! ## Dependencies along runs -/

namespace Session

variable {s s' : Session} {k j : Key} {consumer name : String}

instance (s : Session) (k : Key) (consumer : String) (j : Key) :
    Decidable (s.Depends k consumer j) :=
  inferInstanceAs (Decidable ((k, consumer, j) ∈ s.dependencies.map Dependency.id))

/-- No step takes a dependency away. -/
theorem Reaches.depends (h : s.Reaches s') (hs : s.Depends k consumer j) :
    s'.Depends k consumer j := by
  obtain ⟨steps, rfl⟩ := h
  induction steps using List.reverseRecOn with
  | nil => exact hs
  | append_singleton steps step ih =>
    rw [run_concat, depends_next]
    exact Or.inl ih

theorem Reaches.nodup (h : s.Reaches s') (hs : (s.dependencies.map Dependency.id).Nodup) :
    (s'.dependencies.map Dependency.id).Nodup := by
  obtain ⟨steps, rfl⟩ := h
  induction steps using List.reverseRecOn with
  | nil => exact hs
  | append_singleton steps step ih =>
    rw [run_concat]
    exact nodup_next ih

/-- One name tells of a reading once or not at all. -/
theorem count_notices (hs : (s.dependencies.map Dependency.id).Nodup) :
    ((s.notices name).map Notice.id).count (consumer, j) =
      if s.Depends (Key.ofText name) consumer j then 1 else 0 := by
  rw [(nodup_notices hs).count]
  simp only [id_mem_notices]

end Session

open Session

/-- A request that leaves the parameters and the clock alone, and makes listeners of
consumers that do so only. -/
inductive Request.Harmless : Request → Prop where
  | ask (q : Query) : Harmless (.ask q)
  | tryEdit (c : Change) : Harmless (.tryEdit c)
  | listen {consumer : String} {actions : List Request} {limit : Nat} :
      (∀ r ∈ actions, Harmless r) → Harmless (.listen consumer actions limit)

/-- The notice that is delivered with an event. -/
def Event.notice? : Event → Option Notice
  | .notified consumer direct => some ⟨consumer, direct⟩
  | .acted _ _ _ => none

namespace Dialogue

variable {perform : Dialogue → Request → Answer × Dialogue} {d d' : Dialogue}
  {changed : List TimeFeature} {ns : List Notice}

/-! ## The notices of several features -/

/-- The notices of features, told in turn: a reading is told of for each feature that it
depends on.  Deliveries in between may add dependencies. -/
theorem count_announceAll (consumer : String) (j : Key)
    (hperform : ∀ (d : Dialogue) (r : Request), d.session.graph.Rooted →
      d.session.Reaches (perform d r).2.session)
    (hd : d.session.graph.Rooted) (hnodup : (d.session.dependencies.map Dependency.id).Nodup)
    (htold : d.announceAll perform (changed.map TimeFeature.valueName) = (ns, d')) :
    changed.countP (fun f => d.session.Depends f.key.ofValue consumer j) ≤
        (ns.map Notice.id).count (consumer, j) ∧
      (ns.map Notice.id).count (consumer, j) ≤
        changed.countP (fun f => d'.session.Depends f.key.ofValue consumer j) := by
  induction changed generalizing d ns with
  | nil =>
    cases htold
    exact ⟨Nat.le_refl 0, Nat.le_refl 0⟩
  | cons f changed ih =>
    have hfirst := deliverAll_reaches hperform hd (d.session.notices f.valueName)
    have hrest := announceAll_reaches hperform (hfirst.rooted hd)
      (changed.map TimeFeature.valueName)
    have hkey := f.key_valueName
    simp only [List.map_cons, announceAll, announce] at htold
    generalize (d.session.notices f.valueName).foldl (deliver perform) d = d₁ at *
    rcases hlater : d₁.announceAll perform (changed.map TimeFeature.valueName) with ⟨rest, d₂⟩
    simp only [hlater, Prod.mk.injEq] at htold hrest
    obtain ⟨rfl, rfl⟩ := htold
    obtain ⟨hlower, hupper⟩ := ih (hfirst.rooted hd) (hfirst.nodup hnodup) hlater
    have hearlier : changed.countP (fun f => d.session.Depends f.key.ofValue consumer j) ≤
        changed.countP (fun f => d₁.session.Depends f.key.ofValue consumer j) := by
      refine List.countP_mono_left ?_
      intro f _ hf
      exact decide_eq_true (hfirst.depends (of_decide_eq_true hf))
    rw [List.map_append, List.count_append, count_notices hnodup, hkey, List.countP_cons,
      List.countP_cons]
    by_cases hnow : d.session.Depends f.key.ofValue consumer j
    · have hthen := hrest.depends (hfirst.depends hnow)
      simp only [hnow, hthen, decide_true, if_true]
      omega
    · simp only [hnow, decide_false, Bool.false_eq_true, if_false]
      omega

/-! ## Listeners that change nothing -/

/-- All that listeners do is harmless. -/
def Quiet (d : Dialogue) : Prop :=
  ∀ c l, d.listener? c = some l → ∀ r ∈ l.actions, r.Harmless

/-- The notifications since the last step, the first first. -/
def calls (d : Dialogue) : List Notice :=
  d.events.filterMap Event.notice?

theorem calls_record (d : Dialogue) (e : Event) :
    (d.record e).calls = d.calls ++ e.notice?.toList := by
  show (e :: d.log).reverse.filterMap Event.notice? = _
  rw [List.reverse_cons, List.filterMap_append]
  refine congrArg (d.calls ++ ·) ?_
  cases h : e.notice? <;> simp [h]

theorem listener?_register (d : Dialogue) (l : Listener) (c : String) :
    (d.register l).listener? c = if l.consumer = c then some l else d.listener? c :=
  rowOf?_put Listener.consumer l c d.listeners

/-- A quiet listener that is registered keeps a dialogue quiet. -/
theorem Quiet.register (hd : d.Quiet) {l : Listener} (hl : ∀ r ∈ l.actions, r.Harmless) :
    (d.register l).Quiet := by
  intro c l' hl'
  rw [listener?_register] at hl'
  split at hl'
  · cases hl'
    exact hl
  · exact hd c l' hl'

/-- Between `d` and `d'` nobody has been notified and nobody has stopped listening. -/
structure Silent (d d' : Dialogue) : Prop where
  calls : d'.calls = d.calls
  quiet : d'.Quiet
  listening : ∀ c, (d.listener? c).isSome → (d'.listener? c).isSome

theorem Silent.trans {d'' : Dialogue} (h : d.Silent d') (h' : d'.Silent d'') : d.Silent d'' where
  calls := h'.calls.trans h.calls
  quiet := h'.quiet
  listening := fun c hc => h'.listening c (h.listening c hc)

theorem isSome_listener?_register (l : Listener) {c : String}
    (hc : (d.listener? c).isSome) : ((d.register l).listener? c).isSome := by
  rw [listener?_register]
  split
  · rfl
  · exact hc

/-- Harmless requests notify nobody, however those of listeners are performed. -/
theorem performWith_silent (hd : d.Quiet) {r : Request} (hr : r.Harmless) :
    d.Silent (d.performWith perform r).2 := by
  cases hr with
  | ask q => exact ⟨rfl, hd, fun _ hc => hc⟩
  | tryEdit c => exact ⟨rfl, hd, fun _ hc => hc⟩
  | listen hactions =>
    exact ⟨rfl, hd.register hactions, fun _ hc => isSome_listener?_register _ hc⟩

theorem performWithin_silent (depth : Nat) (hd : d.Quiet) {r : Request} (hr : r.Harmless) :
    d.Silent (performWithin depth d r).2 := by
  obtain ⟨perform, -, hperform⟩ := exists_performWith depth
  rw [hperform]
  exact performWith_silent hd hr

/-- Between `d` and `d'` the notices `ns` have been delivered: those whose consumers
listened, in their order, and no others. -/
structure Delivered (d d' : Dialogue) (ns : List Notice) : Prop where
  quiet : d'.Quiet
  listening : ∀ c, (d.listener? c).isSome → (d'.listener? c).isSome
  calls : ∃ given, d'.calls = d.calls ++ given ∧ given.Sublist ns ∧
    ∀ c, (d.listener? c).isSome →
      given.filter (fun n => n.consumer = c) = ns.filter fun n => n.consumer = c

theorem Delivered.nil (hd : d.Quiet) : d.Delivered d [] :=
  ⟨hd, fun _ hc => hc, [], (List.append_nil _).symm, .refl _, fun _ _ => rfl⟩

theorem Delivered.append {d'' : Dialogue} {ns' : List Notice} (h : d.Delivered d' ns)
    (h' : d'.Delivered d'' ns') : d.Delivered d'' (ns ++ ns') := by
  obtain ⟨given, hcalls, hsub, hfilter⟩ := h.calls
  obtain ⟨given', hcalls', hsub', hfilter'⟩ := h'.calls
  refine ⟨h'.quiet, fun c hc => h'.listening c (h.listening c hc), given ++ given', ?_,
    hsub.append hsub', ?_⟩
  · rw [hcalls', hcalls, List.append_assoc]
  · intro c hc
    rw [List.filter_append, List.filter_append, hfilter c hc, hfilter' c (h.listening c hc)]

section Deliveries

variable (hsilent : ∀ (d : Dialogue) (r : Request), d.Quiet → r.Harmless →
  d.Silent (perform d r).2)

include hsilent

theorem act_silent (consumer : String) {rs : List Request} (hd : d.Quiet)
    (hrs : ∀ r ∈ rs, r.Harmless) : d.Silent (act perform consumer d rs) := by
  induction rs generalizing d with
  | nil => exact ⟨rfl, hd, fun _ hc => hc⟩
  | cons r rs ih =>
    obtain ⟨hr, hrs⟩ := List.forall_mem_cons.mp hrs
    have hfirst := hsilent d r hd hr
    have hacted : (perform d r).2.Silent
        ((perform d r).2.record (.acted consumer r (perform d r).1)) :=
      ⟨by rw [calls_record]; exact List.append_nil _, hfirst.quiet, fun _ hc => hc⟩
    exact (hfirst.trans hacted).trans (ih hacted.quiet hrs)

/-- A notice is delivered to its consumer if it listens. -/
theorem deliver_delivered (hd : d.Quiet) (n : Notice) : d.Delivered (deliver perform d n) [n] := by
  rw [deliver]
  cases hl : d.listener? n.consumer with
  | none =>
    refine ⟨hd, fun _ hc => hc, [], (List.append_nil _).symm, List.nil_sublist _, ?_⟩
    intro c hc
    have hne : ¬ n.consumer = c := by
      rintro rfl
      rw [hl] at hc
      cases hc
    rw [List.filter_singleton, decide_eq_false hne]
    rfl
  | some l =>
    have hnotified : (d.record (.notified n.consumer n.direct)).calls = d.calls ++ [n] :=
      calls_record d _
    have hgiven : ∀ d', (d.record (.notified n.consumer n.direct)).Silent d' →
        d.Delivered d' [n] := fun d' hd' =>
      ⟨hd'.quiet, hd'.listening, [n], hd'.calls.trans hnotified, .refl _, fun _ _ => rfl⟩
    simp only
    cases l.remaining with
    | zero => exact hgiven _ ⟨rfl, hd, fun _ hc => hc⟩
    | succ remaining =>
      have hactions := hd n.consumer l hl
      have hregistered : (d.record (.notified n.consumer n.direct)).Silent
          ((d.record (.notified n.consumer n.direct)).register { l with remaining }) :=
        ⟨rfl, hd.register hactions, fun _ hc => isSome_listener?_register _ hc⟩
      exact hgiven _
        (hregistered.trans (act_silent hsilent n.consumer hregistered.quiet hactions))

theorem deliverAll_delivered (hd : d.Quiet) (ns : List Notice) :
    d.Delivered (ns.foldl (deliver perform) d) ns := by
  induction ns generalizing d with
  | nil => exact .nil hd
  | cons n ns ih =>
    have hfirst := deliver_delivered hsilent hd n
    exact hfirst.append (ih hfirst.quiet)

/-- The notices of several names are delivered in the order in which they are told. -/
theorem announceAll_delivered (hd : d.Quiet) (names : List String) :
    d.Delivered (d.announceAll perform names).2 (d.announceAll perform names).1 := by
  induction names generalizing d with
  | nil => exact .nil hd
  | cons name names ih =>
    have hfirst := deliverAll_delivered hsilent hd (d.session.notices name)
    exact hfirst.append (ih hfirst.quiet)

end Deliveries

/-! ## Moves of the clock -/

/-- A way to perform requests of listeners that keeps to the steps of sessions, and that
notifies nobody for harmless requests. -/
structure Performs (perform : Dialogue → Request → Answer × Dialogue) : Prop where
  reaches : ∀ (d : Dialogue) (r : Request), d.session.graph.Rooted →
    d.session.Reaches (perform d r).2.session
  silent : ∀ (d : Dialogue) (r : Request), d.Quiet → r.Harmless → d.Silent (perform d r).2

/-- A move of the clock that succeeds in a dialogue succeeds in its session, and then the
names of the features that have changed are told in turn. -/
theorem exists_announceAll {t : Float}
    (hmove : d.step (.moveClock t) = (.notices (.ok ns), d')) :
    ∃ perform names s, Performs perform ∧ d.session.moveClock t = (.ok names, s) ∧
      ({ session := s, listeners := d.listeners } : Dialogue).announceAll perform names =
        (ns, d') := by
  obtain ⟨perform, hkind, hperform⟩ :=
    exists_performWith (({ d with log := [] } : Dialogue).budget (.moveClock t))
  have hperforms : Performs perform := by
    rcases hkind with rfl | ⟨rest, rfl⟩
    · exact ⟨fun d _ _ => .refl d.session, fun d _ hd _ => ⟨rfl, hd, fun _ hc => hc⟩⟩
    · exact ⟨fun d r hd => performWithin_reaches rest hd r,
        fun d r hd hr => performWithin_silent rest hd hr⟩
  rw [step, Dialogue.perform, hperform] at hmove
  simp only [performWith, inSession] at hmove
  rcases hclock : d.session.moveClock t with ⟨result, s⟩
  rw [hclock] at hmove
  cases result with
  | error f => cases hmove
  | ok names =>
    simp only [Prod.mk.injEq, Answer.notices.injEq, Except.ok.injEq] at hmove
    exact ⟨perform, names, s, hperforms, rfl, Prod.ext hmove.1 hmove.2⟩

/-- When the clock of a dialogue about a loaded session moves and no listener changes
anything, a consumer is told of a reading as many times as there are features that have
changed and that the reading came by, as far as the dependencies stay the same meanwhile.
Whoever listens is notified of each of these notices, and nobody else is. -/
theorem count_moveClock {source : Source} {options : LoadOptions} {top : String}
    {s : Session} (hload : Session.load source options top = .ok s)
    (hd : s.Reaches d.session) (hquiet : d.Quiet) {t : Float}
    (hmove : d.step (.moveClock t) = (.notices (.ok ns), d')) :
    ∃ s₁, (d.session.moveClock t).2 = s₁ ∧ ∃ changed : List TimeFeature,
      changed.Sublist d.session.graph.sortedFeatures ∧
      (∀ f ∈ d.session.graph.features,
        f ∈ changed ↔ ∃ v, s₁.graph.HasValue s₁.limits f v ∧ d.session.isNews f v) ∧
      (∀ consumer j,
        changed.countP (fun f => d.session.Depends f.key.ofValue consumer j) ≤
            (ns.map Notice.id).count (consumer, j) ∧
          (ns.map Notice.id).count (consumer, j) ≤
            changed.countP (fun f => d'.session.Depends f.key.ofValue consumer j)) ∧
      d'.calls.Sublist ns ∧
      ∀ consumer, (d.listener? consumer).isSome →
        d'.calls.filter (fun n => n.consumer = consumer) =
          ns.filter fun n => n.consumer = consumer := by
  have hrooted : d.session.graph.Rooted := hd.rooted (rooted_load hload)
  have hnodup : (d.session.dependencies.map Dependency.id).Nodup := by
    refine hd.nodup ?_
    rw [dependencies_load hload]
    exact List.nodup_nil
  obtain ⟨perform, names, s₁, hperforms, hclock, htold⟩ := exists_announceAll hmove
  obtain ⟨-, changed, hsub, rfl, hchanged⟩ := exists_changed hrooted.nodup_features hclock
  have hdependencies : s₁.dependencies = d.session.dependencies := by
    have hkept := (moveClock_kept d.session t).1
    rwa [hclock] at hkept
  have hrooted₁ : s₁.graph.Rooted := by
    have hgraph := graph_moveClock d.session t
    rw [hclock] at hgraph
    exact hgraph ▸ .tick t hrooted
  have hquiet₁ : ({ session := s₁, listeners := d.listeners } : Dialogue).Quiet := hquiet
  have hdelivered := announceAll_delivered hperforms.silent hquiet₁
    (changed.map TimeFeature.valueName)
  rw [htold] at hdelivered
  obtain ⟨given, hcalls, hsublist, hfilter⟩ := hdelivered.calls
  refine ⟨s₁, congrArg Prod.snd hclock, changed, hsub, hchanged, ?_, ?_, ?_⟩
  · intro consumer j
    have hcount := count_announceAll consumer j hperforms.reaches hrooted₁
      (hdependencies ▸ hnodup) htold
    simp only [Depends, hdependencies] at hcount ⊢
    exact hcount
  · rw [hcalls]
    exact hsublist
  · intro consumer hlistens
    rw [hcalls]
    exact hfilter consumer hlistens

/-! ### A sum of two lengths that grow with time -/

/-- Edits that add two time features and a reading that comes by both. -/
def sumSteps : List Session.Step :=
  [.change ⟨"s:Tf/A/Function", "\"Linear mm\"", true⟩,
    .change ⟨"d:Tf/A/StartValue", "0 mm", true⟩,
    .change ⟨"d:Tf/A/Rate", "1 mm/ns", true⟩,
    .change ⟨"s:Tf/B/Function", "\"Linear mm\"", true⟩,
    .change ⟨"d:Tf/B/StartValue", "0 mm", true⟩,
    .change ⟨"d:Tf/B/Rate", "2 mm/ns", true⟩,
    .change ⟨"d:Sum", "Tf/A/Value + Tf/B/Value mm", true⟩,
    .read (some "C") "Sum" .any]

/-- A consumer that reads the sum again whenever it is told of it. -/
def sumReader : Listener :=
  { consumer := "C", actions := [.ask (.value (some "C") "Sum" .any)], remaining := 5 }

theorem quiet_sumReader (s : Session) :
    ({ session := s, listeners := [sumReader] } : Dialogue).Quiet := by
  intro c l hl r hr
  obtain rfl : l = sumReader := List.mem_singleton.mp (mem_of_rowOf? hl)
  obtain rfl := List.mem_singleton.mp hr
  exact .ask _

theorem step_sumReader {s s₁ : Session} {names : List String}
    (hclock : s.moveClock 1 = (.ok names, s₁)) :
    ({ session := s, listeners := [sumReader] } : Dialogue).step (.moveClock 1) =
      let told := ({ session := s₁, listeners := [sumReader] } : Dialogue).announceAll
        (performWithin 10) names
      (.notices (.ok told.1), told.2) := by
  have hstep : ({ session := s, listeners := [sumReader] } : Dialogue).step (.moveClock 1) =
      performWith (performWithin 10) { session := s, listeners := [sumReader] } (.moveClock 1) :=
    rfl
  rw [hstep, performWith, inSession, hclock]

theorem count_moveClock_sum :
    ∃ s d ns d', Session.load still { withDefaults := false } "top" = .ok s ∧
      d = ({ session := s.run sumSteps, listeners := [sumReader] } : Dialogue) ∧
      d.step (.moveClock 1) = (.notices (.ok ns), d') ∧
      (ns.map Notice.id).count ("C", Key.ofText "Sum") = 2 ∧
      d'.calls.filter (fun n => n.consumer = "C") = ns.filter fun n => n.consumer = "C" := by
  have hok : (Session.load still { withDefaults := false } "top").toOption.any fun s =>
      let s₀ := s.run sumSteps
      let clocked : Session := { s₀ with graph := { s₀.graph with clock := 1 } }
      match s₀.graph.features with
      | [a, b] => a.key.le b.key &&
          match clocked.observe [a, b] with
          | (.ok names, s₁) =>
              let told := ({ session := s₁, listeners := [sumReader] } : Dialogue).announceAll
                (performWithin 10) names
              (told.1.map Notice.id).count ("C", Key.ofText "Sum") == 2
          | (.error _, _) => false
      | [] | [_] | _ :: _ :: _ :: _ => false := by
    decide +kernel
  obtain ⟨s, hs, hrun⟩ := (Option.any_eq_true _ _).mp hok
  have hload := toOption_eq_some.mp hs
  generalize hrun₀ : s.run sumSteps = s₀ at hrun
  simp only at hrun
  split at hrun
  · next a b hfeatures =>
    obtain ⟨hle, hobserved⟩ := (Bool.and_eq_true _ _).mp hrun
    split at hobserved
    · next names s₁ hobserve =>
      have hclock : s₀.moveClock 1 = (.ok names, s₁) := by
        rw [moveClock, sortedFeatures_of_pair hfeatures hle]
        exact hobserve
      obtain ⟨-, -, -, -, -, -, -, hfilter⟩ :=
        count_moveClock (d := { session := s₀, listeners := [sumReader] }) hload
          ⟨sumSteps, hrun₀⟩ (quiet_sumReader s₀) (step_sumReader hclock)
      exact ⟨s, _, _, _, hload, by rw [hrun₀], step_sumReader hclock, beq_iff_eq.mp hobserved,
        hfilter "C" rfl⟩
    · cases hobserved
  all_goals cases hrun

end Dialogue

end ParameterChain
