/-
# Which parameters have been used

Every successful reading counts as used what it has come by, which is the closure of the
name read under reading (`ParameterChain.Proofs.Reads`).  So after a load and readings that
all succeed the parameters that are not used are known from the names alone; they are listed
in the order of their keys, each once.

Main statement: `tracking_exact`.
-/
import ParameterChain.CommandLine
import ParameterChain.Proofs.Dependencies
import ParameterChain.Proofs.Reads
import ParameterChain.Proofs.Shown
import ParameterChain.Proofs.Visible

namespace ParameterChain

variable {s s' : Session} {g : Graph} {p q : Parameter} {t t' : Trace} {v : Value}
  {limits : Limits} {consumer : Option String} {n : String} {ns : List String}

/-! ## Changeable parameters of a trace -/

namespace Graph

/-- What is read is a parameter of the graph. -/
theorem Reads.stored (hhome : g.AtHome) (hread : g.Reads p q) : g.Stored q := by
  cases hread with
  | ref _ hq => exact hhome.stored_of_target? hq
  | input _ _ _ hq => exact hhome.stored_of_visible? hq

theorem Reaches.stored (hhome : g.AtHome) (hp : g.Stored p) (hreach : g.Reaches p q) :
    g.Stored q := by
  rcases Relation.ReflTransGen.cases_tail hreach with rfl | ⟨m, -, hread⟩
  · exact hp
  · exact hread.stored hhome

/-- Parameters of the graph are told apart by their slots. -/
theorem reaches_slot_iff (hhome : g.AtHome) (hp : g.Stored p) (hq : g.Stored q) :
    (∃ m, g.Reaches p m ∧ m.slot = q.slot) ↔ g.Reaches p q := by
  constructor
  · rintro ⟨m, hm, hslot⟩
    exact hhome.eq_of_slot (hm.stored hhome hp) hq hslot ▸ hm
  · intro hreach
    exact ⟨q, hreach, rfl⟩

end Graph

/-- A trace that is the closure of `p` under reading touches the changeable parameters of the
closure. -/
theorem mem_touched_of_closure (hhome : s.graph.AtHome) (hp : s.graph.Stored p)
    (ht : ∀ σ, σ ∈ t ↔ ∃ q, s.graph.Reaches p q ∧ q.slot = σ) :
    q ∈ s.touched t ↔ q.changeable ∧ s.graph.Reaches p q := by
  rw [Session.mem_touched, and_comm]
  refine and_congr_right fun _ => ?_
  constructor
  · rintro ⟨σ, hσ, hq⟩
    obtain ⟨m, hm, rfl⟩ := (ht σ).mp hσ
    have hstored : s.graph.declared? m.file m.key = some m := hm.stored hhome hp
    cases hstored.symm.trans hq
    exact hm
  · intro hq
    exact ⟨q.slot, (ht q.slot).mpr ⟨q, hq, rfl⟩, hq.stored hhome hp⟩

/-- A trace without repeats touches no parameter twice. -/
theorem nodup_touched (hhome : s.graph.AtHome) (ht : t.Nodup) :
    ((s.touched t).map Parameter.slot).Nodup := by
  have hslot : ∀ (σ τ : Slot), τ ∈ (s.graph.declared? σ.file σ.key).map Parameter.slot → τ = σ := by
    intro σ τ hτ
    obtain ⟨m, hm, rfl⟩ := Option.map_eq_some_iff.mp hτ
    have hfile := hhome _ _ _ hm
    have hkey := Graph.key_of_declared? hm
    rw [Parameter.slot, hfile, hkey]
  have hall : ((t.reverse.filterMap fun σ => s.graph.declared? σ.file σ.key).map
      Parameter.slot).Nodup := by
    rw [List.map_filterMap]
    refine (List.nodup_reverse.mpr ht).filterMap ?_
    intro σ σ' τ hτ hτ'
    rw [← hslot σ τ hτ, ← hslot σ' τ hτ']
  exact hall.sublist (List.filter_sublist.map _)

/-! ## Readings that succeed -/

namespace Session

/-- `σ` is come by when `n` is read. -/
def ComesBy (g : Graph) (n : String) (σ : Slot) : Prop :=
  ∃ p, g.visible? (Key.ofText n) = some p ∧ ∃ q, g.Reaches p q ∧ q.slot = σ

theorem mem_markUsed {σ : Slot} : σ ∈ (s.markUsed t).used ↔ σ ∈ s.used ∨ σ ∈ t := by
  by_cases hused : σ ∈ s.used <;> simp [markUsed, hused]

/-- A reading that succeeds counts as used what it comes by. -/
theorem used_read {e : Expectation} (hread : s.read consumer n e = (.ok v, s')) {σ : Slot} :
    σ ∈ s'.used ↔ σ ∈ s.used ∨ ComesBy s.graph n σ := by
  rcases hrun : (s.graph.read s.limits n e).run [] with ⟨result, t⟩
  have hfst := fst_read s consumer n e
  rw [hread, hrun] at hfst
  cases hfst
  obtain ⟨p, hp, -, hvalue⟩ := Graph.read_eq_ok.mp hrun
  obtain ⟨hmem, -⟩ := Graph.evaluate_tracks s.graph _ _ p [] v t hvalue
  have hcomes : σ ∈ t ↔ ComesBy s.graph n σ := by
    rw [hmem]
    constructor
    · rintro (hnil | hq)
      · exact absurd hnil List.not_mem_nil
      · exact ⟨p, hp, hq⟩
    · rintro ⟨p', hp', hq⟩
      cases hp.symm.trans hp'
      exact Or.inr hq
  have hused : s'.used = (s.markUsed t).used := by
    rw [read, hrun] at hread
    cases consumer with
    | none =>
      cases hread
      rfl
    | some c =>
      cases hread
      obtain ⟨xs, hxs⟩ := exists_dependOn (s.markUsed t) c (Name.ofText n) t
      rw [hxs]
  rw [hused, mem_markUsed, hcomes]

/-- A reading of `n` succeeds, which leads from `s` to `m`. -/
inductive Obtains (s : Session) (n : String) (m : Session) : Prop
  | value {consumer : Option String} {r : Reading} {v : Value} :
      s.get consumer n r = (.ok v, m) → Obtains s n m
  | length {k : Nat} : s.lengthOf n = (.ok k, m) → Obtains s n m

/-- In whatever way a name is read with success, it is evaluated. -/
theorem Obtains.read {m : Session} (h : s.Obtains n m) :
    ∃ consumer e w, s.read consumer n e = (.ok w, m) := by
  cases h with
  | @value consumer r v hget =>
    cases r with
    | any => exact ⟨consumer, .any, v, hget⟩
    | ofKind k => exact ⟨consumer, .ofKind k, v, hget⟩
    | ofCategory k category => exact ⟨consumer, .ofCategory k category, v, hget⟩
    | inUnit unit =>
      rw [get] at hget
      split at hget
      · cases hget
      · next u _ =>
        rcases hread : s.read consumer n (.ofCategory (Kind.one .dimensioned) u.category) with
          ⟨result, m'⟩
        rw [hread] at hget
        cases result with
        | error e => cases hget
        | ok w =>
          cases hget
          exact ⟨consumer, _, w, hread⟩
    | ofLength k category =>
      rw [get] at hget
      rcases hread : s.read consumer n (.ofCategory (Kind.many .dimensioned) category) with
        ⟨result, m'⟩
      rw [hread] at hget
      cases result with
      | error e => cases hget
      | ok w =>
        obtain ⟨-, rfl⟩ := Prod.mk.inj hget
        exact ⟨consumer, _, w, hread⟩
  | @length k hlength =>
    rw [lengthOf] at hlength
    split at hlength
    · cases hlength
    split at hlength
    · rcases hread : s.read none n .any with ⟨result, m'⟩
      rw [hread] at hlength
      cases result with
      | error e => cases hlength
      | ok w =>
        cases hlength
        exact ⟨none, _, w, hread⟩
    · cases hlength

theorem Obtains.graph {m : Session} (h : s.Obtains n m) : m.graph = s.graph := by
  obtain ⟨consumer, e, w, hread⟩ := h.read
  have hgraph := graph_read s consumer n e
  rw [hread] at hgraph
  exact hgraph

/-- Readings of the names `ns`, one after the other and all with success, lead from `s` to
`s'`. -/
inductive ReadsAll : Session → List String → Session → Prop
  | nil (s : Session) : ReadsAll s [] s
  | cons {s m s' : Session} {n : String} {ns : List String} :
      s.Obtains n m → ReadsAll m ns s' → ReadsAll s (n :: ns) s'

theorem ReadsAll.append {m : Session} {later : List String} (hs : ReadsAll s ns m)
    (hm : ReadsAll m later s') : ReadsAll s (ns ++ later) s' := by
  induction hs with
  | nil s => exact hm
  | cons hn _ ih => exact .cons hn (ih hm)

theorem ReadsAll.graph (hs : ReadsAll s ns s') : s'.graph = s.graph := by
  induction hs with
  | nil s => rfl
  | cons hn _ ih => exact ih.trans hn.graph

theorem ReadsAll.used (hs : ReadsAll s ns s') {σ : Slot} :
    σ ∈ s'.used ↔ σ ∈ s.used ∨ ∃ n ∈ ns, ComesBy s.graph n σ := by
  induction hs with
  | nil s => simp
  | cons hn _ ih =>
    obtain ⟨consumer, e, w, hread⟩ := hn.read
    rw [ih, used_read hread, hn.graph, or_assoc, List.exists_mem_cons_iff]

/-! ## The parameters that are not used -/

/-- The names `listed` are those of the visible parameters that no reading of one of the names
`ns` comes by, in strictly ascending order of their keys. -/
def ListsUnread (g : Graph) (ns listed : List String) : Prop :=
  ∃ ps : List Parameter, listed = ps.map (fun p => p.name.text) ∧
    ps.Pairwise (fun p q => p.key.text < q.key.text) ∧
    ∀ p, p ∈ ps ↔ g.visible? p.key = some p ∧
      ¬ ∃ n ∈ ns, ∃ q, g.visible? (Key.ofText n) = some q ∧ g.Reaches q p

theorem ReadsAll.listsUnread (hs : ReadsAll s ns s') (hfresh : s.used = [])
    (hhome : s.graph.AtHome) : ListsUnread s.graph ns s'.unusedNames := by
  refine ⟨s.graph.visible.filter fun p => !s'.used.contains p.slot, ?_, ?_, ?_⟩
  · rw [unusedNames, namesWhere, hs.graph]
  · exact (Graph.pairwise_firstIn s.graph _).filter _
  · intro p
    have hused : p.slot ∈ s'.used ↔ ∃ n ∈ ns, ComesBy s.graph n p.slot := by
      rw [hs.used, hfresh]
      simp
    rw [List.mem_filter, Graph.mem_visible]
    refine and_congr_right fun hp => ?_
    rw [Bool.not_eq_true', ← Bool.not_eq_true, List.contains_iff_mem, hused, not_iff_not]
    refine exists_congr fun n => and_congr_right fun _ => ?_
    refine exists_congr fun q => and_congr_right fun hq => ?_
    exact Graph.reaches_slot_iff hhome (hhome.stored_of_visible? hq)
      (hhome.stored_of_visible? hp)

end Session

/-! ## The command -/

namespace CommandLine

open Session (ReadsAll)

theorem readsAll_of_readAll (hread : readAll s ns = .ok s') : ReadsAll s ns s' := by
  induction ns generalizing s with
  | nil =>
    cases hread
    exact .nil _
  | cons n ns ih =>
    rw [readAll] at hread
    split at hread
    · cases hread
    · next v m hn => exact .cons (.value (show s.get none n .any = _ from hn)) (ih hread)

/-- The names that the starts stand for are the same before and after the readings. -/
theorem readsAll_of_foldlM {starts : List String}
    (hread : starts.foldlM (fun s start => readAll s (s.namesStartingWith start)) s = .ok s') :
    ReadsAll s (starts.flatMap s.namesStartingWith) s' := by
  induction starts generalizing s with
  | nil =>
    cases hread
    exact .nil _
  | cons start starts ih =>
    rw [List.foldlM_cons] at hread
    obtain ⟨m, hstart, hrest⟩ := bind_eq_ok.mp hread
    have hfirst := readsAll_of_readAll hstart
    have hnames : m.namesStartingWith = s.namesStartingWith := by
      funext start
      rw [Session.namesStartingWith, Session.namesStartingWith, Session.namesWhere,
        Session.namesWhere, hfirst.graph]
    have hlater := ih hrest
    rw [hnames] at hlater
    rw [List.flatMap_cons]
    exact hfirst.append hlater

theorem unused_eq_ok {starts names : List String} (h : unused s starts = .ok names) :
    ∃ s', ReadsAll s (starts.flatMap s.namesStartingWith) s' ∧ s'.unusedNames = names := by
  obtain ⟨s', hread, hnames⟩ := bind_eq_ok.mp h
  cases hnames
  exact ⟨s', readsAll_of_foldlM hread, rfl⟩

end CommandLine

/-! ## Everything that is tracked -/

open Session (ReadsAll ListsUnread)

/-- Whatever the graph and the depth, an evaluation that succeeds comes by the closure of its
parameter under reading, and by each of its slots once.  So of the parameters of a session it
marks those as used that are in the closure, and touches the changeable ones of them, each
once.  After a load and readings that succeed, the unused parameters are therefore those that
are in the closure of no name read; the command, which reads the names with given starts,
lists those. -/
theorem tracking_exact :
    (∀ (g : Graph) (limit fuel : Nat) (p : Parameter) (v : Value) (t : Trace),
      (g.evaluate limit fuel p).run [] = (.ok v, t) →
      (∀ σ, σ ∈ t ↔ ∃ q, g.Reaches p q ∧ q.slot = σ) ∧ t.Nodup) ∧
    (∀ (s : Session) (limit fuel : Nat) (p : Parameter) (v : Value) (t : Trace),
      s.graph.AtHome → s.graph.Stored p →
      (s.graph.evaluate limit fuel p).run [] = (.ok v, t) →
      (∀ q, s.graph.Stored q →
        (q.slot ∈ (s.markUsed t).used ↔ q.slot ∈ s.used ∨ s.graph.Reaches p q)) ∧
      (∀ q, q ∈ s.touched t ↔ q.changeable ∧ s.graph.Reaches p q) ∧
      ((s.touched t).map Parameter.slot).Nodup) ∧
    ∀ (source : Source) (options : LoadOptions) (top : String) (s : Session),
      Session.load source options top = .ok s →
      (∀ steps, (s.run steps).graph.AtHome) ∧
      (∀ ns s', ReadsAll s ns s' → ListsUnread s.graph ns s'.unusedNames) ∧
      ∀ starts names, CommandLine.unused s starts = .ok names →
        ListsUnread s.graph (starts.flatMap s.namesStartingWith) names := by
  have hclosure : ∀ (g : Graph) (limit fuel : Nat) (p : Parameter) (v : Value) (t : Trace),
      (g.evaluate limit fuel p).run [] = (.ok v, t) →
      (∀ σ, σ ∈ t ↔ ∃ q, g.Reaches p q ∧ q.slot = σ) ∧ t.Nodup := by
    intro g limit fuel p v t hrun
    obtain ⟨hmem, hnodup⟩ := Graph.evaluate_tracks g limit fuel p [] v t hrun
    refine ⟨?_, hnodup List.nodup_nil⟩
    intro σ
    rw [hmem]
    exact or_iff_right List.not_mem_nil
  refine ⟨hclosure, ?_, ?_⟩
  · intro s limit fuel p v t hhome hp hrun
    obtain ⟨hmem, hnodup⟩ := hclosure s.graph limit fuel p v t hrun
    refine ⟨?_, fun q => mem_touched_of_closure hhome hp hmem, nodup_touched hhome hnodup⟩
    intro q hq
    rw [Session.mem_markUsed, hmem, Graph.reaches_slot_iff hhome hp hq]
  · intro source options top s hload
    have hfresh : s.used = [] := by
      simp only [Session.load, bind_eq_ok, pure_eq_ok] at hload
      obtain ⟨g, -, rfl⟩ := hload
      rfl
    have hhome : ∀ steps, (s.run steps).graph.AtHome := by
      intro steps
      exact (Session.rooted_run (Session.rooted_load hload) steps).whole.home
    have hlists : ∀ ns s', ReadsAll s ns s' → ListsUnread s.graph ns s'.unusedNames := by
      intro ns s' hs
      exact hs.listsUnread hfresh (hhome [])
    refine ⟨hhome, hlists, ?_⟩
    intro starts names hunused
    obtain ⟨s', hs, rfl⟩ := CommandLine.unused_eq_ok hunused
    exact hlists _ s' hs

/-- A file that raises a value of the file that it includes. -/
def raised : Source := fun spec =>
  if spec = "base" then .ok "ic:X = 1".toUTF8
  else if spec = "top" then .ok "includeFile = base\nic:X = InheritedValue + 1".toUTF8
  else .error (.cannotOpen spec "no such file")

theorem tracking_exact_raised :
    ∃ s p v t s', Session.load raised { withDefaults := false } "top" = .ok s ∧
      s.graph.visible? ⟨"x"⟩ = some p ∧ (s.graph.evaluate 3 3 p).run [] = (.ok v, t) ∧
      t.length = 2 ∧ ReadsAll s ["X"] s' ∧ CommandLine.unused s [""] = .ok [] ∧
      (∀ σ, σ ∈ t ↔ ∃ q, s.graph.Reaches p q ∧ q.slot = σ) ∧
      (∀ q, q ∈ s.touched t ↔ q.changeable ∧ s.graph.Reaches p q) ∧
      ListsUnread s.graph ["X"] s'.unusedNames ∧
      ListsUnread s.graph ([""].flatMap s.namesStartingWith) [] := by
  have hok : ((Session.load raised { withDefaults := false } "top").toOption.any fun s =>
      ((s.graph.visible? ⟨"x"⟩).any fun p =>
        ((s.graph.evaluate 3 3 p).run []).1.toOption.isSome &&
          ((s.graph.evaluate 3 3 p).run []).2.length == 2) &&
      (s.get none "X" .any).1.toOption.isSome &&
      (CommandLine.unused s [""]).toOption == some []) = true := by
    decide +kernel
  obtain ⟨s, hs, hok⟩ := (Option.any_eq_true _ _).mp hok
  have hload := toOption_eq_some.mp hs
  simp only [Bool.and_eq_true, beq_iff_eq, Option.isSome_iff_exists, Option.any_eq_true] at hok
  obtain ⟨⟨⟨p, hp, ⟨v, hv⟩, hlength⟩, w, hw⟩, hnames⟩ := hok
  have hrun : (s.graph.evaluate 3 3 p).run [] =
      (.ok v, ((s.graph.evaluate 3 3 p).run []).2) :=
    Prod.ext (toOption_eq_some.mp hv) rfl
  have hread : ReadsAll s ["X"] (s.get none "X" .any).2 :=
    .cons (.value (Prod.ext (toOption_eq_some.mp hw) rfl)) (.nil _)
  obtain ⟨hhome, hlists, hcommand⟩ := tracking_exact.2.2 raised _ "top" s hload
  have hstored : s.graph.Stored p := (hhome []).stored_of_visible? hp
  obtain ⟨-, htouched, -⟩ := tracking_exact.2.1 s 3 3 p v _ (hhome []) hstored hrun
  have hunused := toOption_eq_some.mp hnames
  exact ⟨s, p, v, _, _, hload, hp, hrun, hlength, hread, hunused,
    (tracking_exact.1 s.graph 3 3 p v _ hrun).1, htouched, hlists _ _ hread,
    hcommand _ _ hunused⟩

end ParameterChain
