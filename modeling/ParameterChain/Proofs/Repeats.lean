/-
# What the result of an evaluation rests on

An evaluation that succeeds rests on the parameters that it came by and on nothing
else: in a graph that shows these parameters in the same places it succeeds again, with
the same value (`Repeats`).  Every parameter whose declaration was looked up is then
evaluated, so it is in the trace; the one exception is the repetition interval of a time
feature, of which it is first asked only whether it exists.

Main statements: `evalWith_repeats`, which compares two graphs, and `evaluate_mono`, by
which a value does not depend on how much depth was left over.
-/
import ParameterChain.Proofs.Built
import ParameterChain.Proofs.Course
import ParameterChain.Session

namespace ParameterChain

namespace Traced

variable {α β : Type} {good : Slot → Prop}

theorem mem_visit {t : Trace} {s σ : Slot} : σ ∈ t.visit s ↔ σ = s ∨ σ ∈ t := by
  rw [Trace.visit]
  split
  · next hs =>
    have hs : s ∈ t := List.contains_iff_mem.mp hs
    exact ⟨Or.inr, fun h => h.elim (fun heq => heq ▸ hs) id⟩
  · exact List.mem_cons

/-! ## Repetition -/

/-- When `x` succeeds and has come by good slots only, `y` succeeds with the same
result, whatever trace it starts with. -/
structure Repeats (good : Slot → Prop) (x y : Traced α) : Prop where
  grows : ∀ t, t ⊆ (x.run t).2
  same : ∀ t a t', x.run t = (.ok a, t') → (∀ σ ∈ t', good σ) → ∀ u, (y.run u).1 = .ok a

theorem Repeats.pure (good : Slot → Prop) (a : α) :
    Repeats good (pure a : Traced α) (Pure.pure a) := by
  refine ⟨fun t => List.Subset.refl t, ?_⟩
  intro t b t' hrun _ u
  cases hrun
  rfl

theorem Repeats.fail (good : Slot → Prop) (c : Cause) (y : Traced α) :
    Repeats good (Traced.fail c) y := by
  refine ⟨fun t => List.Subset.refl t, ?_⟩
  intro t b t' hrun _ u
  cases hrun

theorem Repeats.bind {x y : Traced α} {f f' : α → Traced β} (hx : Repeats good x y)
    (hf : ∀ a, Repeats good (f a) (f' a)) : Repeats good (x >>= f) (y >>= f') := by
  constructor
  · intro t
    have hgrows := hx.grows t
    rcases hrun : x.run t with ⟨result, m⟩
    rw [hrun] at hgrows
    cases result with
    | ok a =>
      rw [run_bind_ok hrun]
      exact List.Subset.trans hgrows ((hf a).grows m)
    | error e =>
      rw [run_bind_error hrun]
      exact hgrows
  · intro t b t' hrun hgood u
    obtain ⟨a, m, hfirst, hrest⟩ := run_bind_eq_ok.mp hrun
    have hm : m ⊆ t' := by
      have hgrows := (hf a).grows m
      rw [hrest] at hgrows
      exact hgrows
    have hsame := hx.same t a m hfirst (fun σ hσ => hgood σ (hm hσ)) u
    rcases hy : y.run u with ⟨result, v⟩
    rw [hy] at hsame
    cases hsame
    rw [run_bind_ok hy]
    exact (hf a).same m b t' hrest hgood v

theorem Repeats.ofOption {c c' : Cause} {o o' : Option α} (ho : ∀ a, o = some a → o' = some a) :
    Repeats good (Traced.ofOption c o) (Traced.ofOption c' o') := by
  cases o with
  | none => exact .fail good c _
  | some a =>
    rw [ho a rfl]
    exact .pure good a

theorem Repeats.ofCause (r : Except Cause α) :
    Repeats good (Traced.ofCause r) (Traced.ofCause r) := by
  cases r with
  | error c => exact .fail good c _
  | ok a => exact .pure good a

theorem Repeats.mapM {f f' : α → Traced β} {xs : List α}
    (hf : ∀ x ∈ xs, Repeats good (f x) (f' x)) :
    Repeats good (xs.mapM f) (xs.mapM f') := by
  induction xs with
  | nil => exact .pure good []
  | cons x xs ih =>
    rw [List.mapM_cons, List.mapM_cons]
    refine (hf x List.mem_cons_self).bind ?_
    intro y
    refine (ih fun z hz => hf z (List.mem_cons_of_mem x hz)).bind ?_
    intro ys
    exact .pure good (y :: ys)

/-! ## Look-ups -/

/-- The computation looks a parameter up that has `P`, and leaves no trace. -/
def Finds (P : Parameter → Prop) (x : Traced Parameter) : Prop :=
  ∃ r, (∀ t, x.run t = (r, t)) ∧ ∀ p, r = .ok p ↔ P p

theorem Finds.ofOption {c : Cause} {o : Option Parameter} :
    Finds (fun p => o = some p) (Traced.ofOption c o) := by
  cases o with
  | none =>
    refine ⟨.error c.failure, fun _ => rfl, ?_⟩
    intro p
    exact ⟨fun h => (nomatch h), fun h => (nomatch h)⟩
  | some q =>
    refine ⟨.ok q, fun _ => rfl, ?_⟩
    intro p
    exact ⟨fun h => congrArg some (Except.ok.inj h),
      fun h => congrArg Except.ok (Option.some.inj h)⟩

/-- A look-up that is refused unless what is found has `C` as well. -/
theorem Finds.check {P C : Parameter → Prop} [DecidablePred C] {x : Traced Parameter}
    {cause : Parameter → Cause} (hx : x.Finds P) :
    Finds (fun p => P p ∧ C p)
      (x >>= fun p => if C p then pure p else Traced.fail (cause p)) := by
  obtain ⟨r, hrun, hr⟩ := hx
  cases r with
  | error e =>
    refine ⟨.error e, fun t => run_bind_error (hrun t), ?_⟩
    intro p
    exact ⟨fun h => (nomatch h), fun h => (nomatch (hr p).mpr h.1)⟩
  | ok q =>
    have hq : P q := (hr q).mp rfl
    by_cases hc : C q
    · refine ⟨.ok q, ?_, ?_⟩
      · intro t
        rw [run_bind_ok (hrun t), if_pos hc]
        rfl
      · intro p
        constructor
        · intro h
          cases h
          exact ⟨hq, hc⟩
        · intro h
          exact (hr p).mpr h.1
    · refine ⟨.error (cause q).failure, ?_, ?_⟩
      · intro t
        rw [run_bind_ok (hrun t), if_neg hc]
        rfl
      · intro p
        constructor
        · intro h
          cases h
        · intro h
          cases (hr p).mpr h.1
          exact absurd h.2 hc

/-- What was found is found again, provided that success needs its slot to be good. -/
theorem Repeats.find {x y : Traced Parameter} {P P' : Parameter → Prop}
    {f f' : Parameter → Traced β} (hx : x.Finds P) (hy : y.Finds P')
    (hslot : ∀ p t b t', P p → (f p).run t = (.ok b, t') → (∀ σ ∈ t', good σ) → good p.slot)
    (hP : ∀ p, P p → good p.slot → P' p) (hf : ∀ p, P p → Repeats good (f p) (f' p)) :
    Repeats good (x >>= f) (y >>= f') := by
  obtain ⟨r, hrun, hr⟩ := hx
  obtain ⟨r', hrun', hr'⟩ := hy
  cases r with
  | error e =>
    constructor
    · intro t
      rw [run_bind_error (hrun t)]
      exact List.Subset.refl t
    · intro t b t' h
      rw [run_bind_error (hrun t)] at h
      cases h
  | ok p =>
    have hp : P p := (hr p).mp rfl
    constructor
    · intro t
      rw [run_bind_ok (hrun t)]
      exact (hf p hp).grows t
    · intro t b t' h hgood u
      rw [run_bind_ok (hrun t)] at h
      cases (hr' p).mpr (hP p hp (hslot p t b t' hp h hgood))
      rw [run_bind_ok (hrun' u)]
      exact (hf p hp).same t b t' h hgood u

end Traced

open Traced

namespace Graph

variable {g g' : Graph} {good : Slot → Prop} {p : Parameter} {limit : Nat}

theorem named_finds (g : Graph) (name : String) :
    (g.named name).Finds fun p => g.visible? (Key.ofText name) = some p :=
  .ofOption

theorem namedOfKind_finds (g : Graph) (name : String) (k : Kind) :
    (g.namedOfKind name k).Finds fun p =>
      g.visible? (Key.ofText name) = some p ∧ p.kind = k :=
  (named_finds g name).check

theorem namedOfCategory_finds (g : Graph) (name : String) (k : Kind) (category : String) :
    (g.namedOfCategory name k category).Finds fun p =>
      (g.visible? (Key.ofText name) = some p ∧ p.kind = k) ∧ p.category?.getD "" = category :=
  (namedOfKind_finds g name k).check

/-! ## Graphs that show the same -/

/-- What `g` shows in a good slot `g'` shows too, and they have the same features. -/
structure Shows (good : Slot → Prop) (g g' : Graph) : Prop where
  home : g.AtHome
  visible : ∀ k p, g.visible? k = some p → good p.slot → g'.visible? k = some p
  known : ∀ k, (g'.visible? k).isSome = (g.visible? k).isSome
  above : ∀ f k, g'.above? f k = g.above? f k
  feature : ∀ base, g'.feature? base = g.feature? base

theorem Shows.refl (hhome : g.AtHome) : g.Shows (fun _ => True) g where
  home := hhome
  visible := fun _ _ hp _ => hp
  known := fun _ => rfl
  above := fun _ _ => rfl
  feature := fun _ => rfl

/-- A parameter to which `eval` gives a value counts as come by: its slot is good if all
slots in the trace are. -/
def Marks (good : Slot → Prop) (eval : Parameter → Traced Value) : Prop :=
  ∀ q t v t', (eval q).run t = (.ok v, t') → (∀ σ ∈ t', good σ) → good q.slot

theorem marks_true (eval : Parameter → Traced Value) : Marks (fun _ => True) eval :=
  fun _ _ _ _ _ _ => trivial

section Plans

variable (hshows : g.Shows good g') {eval eval' : Parameter → Traced Value}
  (hmarks : Marks good eval)
  (heval : ∀ q, g.Stored q → Repeats good (eval q) (eval' q))

include hshows hmarks heval

omit hshows in
/-- Looking a parameter up, evaluating it and going on with its value. -/
theorem find_eval_repeats {β : Type} {x y : Traced Parameter} {P P' : Parameter → Prop}
    {f f' : Parameter → Value → Traced β} (hx : x.Finds P) (hy : y.Finds P')
    (hstored : ∀ q, P q → g.Stored q) (hP : ∀ q, P q → good q.slot → P' q)
    (hf : ∀ q v, Repeats good (f q v) (f' q v)) :
    Repeats good (x >>= fun q => eval q >>= f q) (y >>= fun q => eval' q >>= f' q) := by
  refine .find hx hy ?_ hP fun q hq => (heval q (hstored q hq)).bind (hf q)
  intro q t b t' hq hrun hgood
  obtain ⟨v, m, hfirst, hrest⟩ := run_bind_eq_ok.mp hrun
  have hm : m ⊆ t' := by
    have hgrows := (hf q v).grows m
    rw [hrest] at hgrows
    exact hgrows
  exact hmarks q t v m hfirst fun σ hσ => hgood σ (hm hσ)

theorem target_eval_repeats {β : Type} {r : Ref} {f f' : Parameter → Value → Traced β}
    (hf : ∀ q v, Repeats good (f q v) (f' q v)) :
    Repeats good (g.target p r >>= fun q => eval q >>= f q)
      (g'.target p r >>= fun q => eval' q >>= f' q) := by
  refine find_eval_repeats hmarks heval .ofOption .ofOption ?_ ?_ hf
  · exact fun q hq => hshows.home.stored_of_target? hq
  · intro q hq hgood
    cases r with
    | named name => exact hshows.visible name.key q hq hgood
    | inherited =>
      rw [target?, hshows.above]
      exact hq

theorem evalRef_repeats {r : Ref} :
    Repeats good (g.evalRef eval p r) (g'.evalRef eval' p r) := by
  have h : Repeats good (g.target p r >>= fun q => eval q >>= Pure.pure)
      (g'.target p r >>= fun q => eval' q >>= Pure.pure) :=
    target_eval_repeats hshows hmarks heval fun _ v => .pure good v
  simp only [bind_pure] at h
  exact h

theorem evalElement_repeats {s : Scalar} (e : Element s) :
    Repeats good (g.evalElement eval p e) (g'.evalElement eval' p e) := by
  cases e with
  | literal x => exact .pure good x
  | param r =>
    refine target_eval_repeats hshows hmarks heval ?_
    intro q v
    exact .ofOption fun _ h => h

theorem evalList_repeats (s : Scalar) (elements : List (Element s)) :
    Repeats good (g.evalList eval p s elements) (g'.evalList eval' p s elements) := by
  refine (Repeats.mapM fun e _ => ?_).bind fun xs => .pure good _
  exact evalElement_repeats hshows hmarks heval e

theorem evalOperand_repeats (o : Operand) :
    Repeats good (g.evalOperand eval p o) (g'.evalOperand eval' p o) := by
  cases o with
  | literal v => exact .pure good v
  | list s elements => exact evalList_repeats hshows hmarks heval s elements
  | param r => exact evalRef_repeats hshows hmarks heval

/-! ## Time features -/

theorem evalDimensioned_repeats (name category : String) :
    Repeats good (g.evalDimensioned eval name category)
      (g'.evalDimensioned eval' name category) := by
  refine find_eval_repeats hmarks heval (namedOfCategory_finds g name _ category)
    (namedOfCategory_finds g' name _ category) ?_ ?_ fun q v => .ofOption fun _ h => h
  · exact fun q hq => hshows.home.stored_of_visible? hq.1.1
  · exact fun q hq hgood => ⟨⟨hshows.visible _ q hq.1.1 hgood, hq.1.2⟩, hq.2⟩

theorem evalUnitless_repeats (name : String) :
    Repeats good (g.evalUnitless eval name) (g'.evalUnitless eval' name) := by
  refine find_eval_repeats hmarks heval (namedOfKind_finds g name _)
    (namedOfKind_finds g' name _) ?_ ?_ fun q v => .ofOption fun _ h => h
  · exact fun q hq => hshows.home.stored_of_visible? hq.1
  · exact fun q hq hgood => ⟨hshows.visible _ q hq.1 hgood, hq.2⟩

theorem evalDimensioneds_repeats (name category : String) :
    Repeats good (g.evalDimensioneds eval name category)
      (g'.evalDimensioneds eval' name category) := by
  refine find_eval_repeats hmarks heval (namedOfCategory_finds g name _ category)
    (namedOfCategory_finds g' name _ category) ?_ ?_ fun q v => .ofOption fun _ h => h
  · exact fun q hq => hshows.home.stored_of_visible? hq.1.1
  · exact fun q hq hgood => ⟨⟨hshows.visible _ q hq.1.1 hgood, hq.1.2⟩, hq.2⟩

theorem evalPeriod_repeats (f : TimeFeature) :
    Repeats good (g.evalPeriod eval f) (g'.evalPeriod eval' f) := by
  unfold evalPeriod
  simp only [hshows.known]
  split
  · refine (evalDimensioned_repeats hshows hmarks heval _ _).bind ?_
    intro x
    exact .pure good (some x)
  · exact .pure good none

theorem evalStartAndRate_repeats (f : TimeFeature) :
    Repeats good (g.evalStartAndRate eval f) (g'.evalStartAndRate eval' f) := by
  have hdimensioned := evalDimensioned_repeats hshows hmarks heval
  have hunitless := evalUnitless_repeats hshows hmarks heval
  unfold evalStartAndRate
  simp only
  split
  · refine (hdimensioned _ _).bind ?_
    intro start
    refine (hdimensioned _ _).bind ?_
    intro rate
    exact .pure good (start, rate)
  · split
    · refine (hdimensioned _ _).bind ?_
      intro start
      refine (hdimensioned _ _).bind ?_
      intro rate
      exact .pure good (start, rate)
    · refine (hunitless _).bind ?_
      intro start
      refine (hdimensioned _ _).bind ?_
      intro rate
      exact .pure good (start, rate)

/-- A feature has the same course. -/
theorem evalCourse_repeats (f : TimeFeature) :
    Repeats good (g.evalCourse eval f) (g'.evalCourse eval' f) := by
  unfold evalCourse
  split
  · refine (evalDimensioneds_repeats hshows hmarks heval _ _).bind ?_
    intro times
    refine find_eval_repeats hmarks heval (named_finds g _) (named_finds g' _) ?_ ?_
      fun q v => .pure good _
    · exact fun q hq => hshows.home.stored_of_visible? hq
    · exact fun q hq hgood => hshows.visible _ q hq hgood
  · refine (evalPeriod_repeats hshows hmarks heval f).bind fun period? => ?_
    refine (evalStartAndRate_repeats hshows hmarks heval f).bind ?_
    intro inputs
    exact .pure good _

/-- At the same time a feature has the same value. -/
theorem evalFeature_repeats (f : TimeFeature) (t : Float) :
    Repeats good (g.evalFeature eval f t) (g'.evalFeature eval' f t) := by
  rw [evalFeature_eq, evalFeature_eq]
  refine (evalCourse_repeats hshows hmarks heval f).bind ?_
  intro course
  exact .ofCause (course t)

/-! ## Parameters -/

/-- A plan gives the same again if, should it be that of a time feature, the feature
does. -/
theorem evalPlan_repeats
    (hfeature : ∀ base f, p.plan = .feature base → g.feature? base = some f →
      Repeats good (g.evalFeature eval f g.clock) (g'.evalFeature eval' f g'.clock)) :
    Repeats good (g.evalPlan eval p) (g'.evalPlan eval' p) := by
  unfold evalPlan
  cases hplan : p.plan with
  | literal v => exact .pure good v
  | list s elements => exact evalList_repeats hshows hmarks heval s elements
  | reference r => exact evalRef_repeats hshows hmarks heval
  | binary lhs op rhs =>
    refine (evalOperand_repeats hshows hmarks heval lhs).bind ?_
    intro a
    refine (evalOperand_repeats hshows hmarks heval rhs).bind ?_
    intro b
    exact .ofCause _
  | feature base =>
    simp only [hshows.feature]
    cases hf : g.feature? base with
    | none => exact .fail good _ _
    | some f => exact hfeature base f hplan hf

theorem evalWith_repeats
    (hfeature : ∀ base f, p.plan = .feature base → g.feature? base = some f →
      Repeats good (g.evalFeature eval f g.clock) (g'.evalFeature eval' f g'.clock)) :
    Repeats good (g.evalWith eval p) (g'.evalWith eval' p) := by
  have hvisit : Repeats good (modify (Trace.visit · p.slot) : Traced PUnit)
      (modify (Trace.visit · p.slot)) := by
    refine ⟨?_, ?_⟩
    · intro t σ hσ
      rw [run_visit]
      exact mem_visit.mpr (Or.inr hσ)
    · intro t u t' hrun _ v
      rfl
  refine hvisit.bind ?_
  intro _
  refine (evalPlan_repeats hshows hmarks heval hfeature).bind ?_
  intro v
  exact .ofOption fun _ h => h

end Plans

/-- More depth does not change a value. -/
theorem evaluate_mono (hhome : g.AtHome) (m : Nat) :
    ∀ n, m ≤ n → ∀ p, g.Stored p →
      Repeats (fun _ => True) (g.evaluate limit m p) (g.evaluate limit n p) := by
  induction m with
  | zero =>
    intro n _ p _
    exact .fail _ _ _
  | succ m ih =>
    intro n hn p _
    obtain ⟨n, rfl⟩ := Nat.exists_eq_add_of_lt (Nat.lt_of_lt_of_le (Nat.succ_pos m) hn)
    have hshows := Shows.refl hhome
    have heval := ih (0 + n) (by omega)
    refine evalWith_repeats hshows (marks_true _) heval ?_
    intro base f _ _
    exact evalFeature_repeats hshows (marks_true _) heval f g.clock

/-- A parameter that was evaluated is in the trace. -/
theorem slot_mem_evaluate (hhome : g.AtHome) (n : Nat) {t t' : Trace} {v : Value}
    (hrun : (g.evaluate limit n p).run t = (.ok v, t')) : p.slot ∈ t' := by
  cases n with
  | zero => cases hrun
  | succ n =>
    have hshows := Shows.refl hhome
    have heval : ∀ q, g.Stored q → Repeats (fun _ => True) (g.evaluate limit n q)
        (g.evaluate limit n q) := evaluate_mono hhome n n (Nat.le_refl n)
    have hplan : Repeats (fun _ => True)
        (g.evalPlan (g.evaluate limit n) p >>= fun v =>
          Traced.ofOption (.wrongKind p.name.text p.kind v.kind) (v.coerce? p.kind))
        (g.evalPlan (g.evaluate limit n) p >>= fun v =>
          Traced.ofOption (.wrongKind p.name.text p.kind v.kind) (v.coerce? p.kind)) := by
      refine (evalPlan_repeats hshows (marks_true _) heval
        fun base f _ _ => ?_).bind fun v => .ofOption fun _ h => h
      exact evalFeature_repeats hshows (marks_true _) heval f g.clock
    obtain ⟨u, m, hvisit, hrest⟩ := run_bind_eq_ok.mp hrun
    cases hvisit
    have hgrows := hplan.grows (t.visit p.slot)
    rw [hrest] at hgrows
    exact hgrows (mem_visit.mpr (Or.inl rfl))

theorem marks_evaluate (hhome : g.AtHome) (n : Nat) : Marks good (g.evaluate limit n) :=
  fun q _ _ _ hrun hgood => hgood q.slot (slot_mem_evaluate hhome n hrun)

/-- Two graphs that show the same in good slots give the same values where only good
slots are come by, provided that time features in good slots do. -/
theorem evaluate_repeats (hshows : g.Shows good g') (depth : Nat)
    (hfeature : ∀ n < depth, (∀ q, g.Stored q →
        Repeats good (g.evaluate limit n q) (g'.evaluate limit n q)) →
      ∀ p base f, g.Stored p → good p.slot → p.plan = .feature base →
        g.feature? base = some f →
        Repeats good (g.evalFeature (g.evaluate limit n) f g.clock)
          (g'.evalFeature (g'.evaluate limit n) f g'.clock)) :
    ∀ p, g.Stored p → Repeats good (g.evaluate limit depth p) (g'.evaluate limit depth p) := by
  induction depth with
  | zero => exact fun p _ => .fail good _ _
  | succ n ih =>
    have ih := ih fun m hm => hfeature m (Nat.lt_succ_of_lt hm)
    intro p hp
    by_cases hgood : good p.slot
    · refine evalWith_repeats hshows (marks_evaluate hshows.home n) ih ?_
      intro base f
      exact hfeature n (Nat.lt_succ_self n) ih p base f hp hgood
    · -- `p` comes by its own slot, so it never succeeds with good slots only.
      refine ⟨(evaluate_mono hshows.home (n + 1) (n + 1) (Nat.le_refl _) p hp).grows, ?_⟩
      intro t v t' hrun hall
      exact absurd (marks_evaluate hshows.home (n + 1) p t v t' hrun hall) hgood

/-! ## Readings -/

/-- A reading looks its name up and evaluates what it finds. -/
theorem read_repeats {limits : Limits} (hshows : g.Shows good g')
    (hvalue : ∀ p, g.Stored p → Repeats good (g.valueOf limits p) (g'.valueOf limits p))
    (name : String) (e : Expectation) :
    Repeats good (g.read limits name e) (g'.read limits name e) := by
  have hmarks : Marks good (g.valueOf limits) := marks_evaluate hshows.home _
  cases e with
  | any =>
    refine .find (named_finds g name) (named_finds g' name)
      (fun p t v t' _ => hmarks p t v t') ?_ ?_
    · exact fun p hp hgood => hshows.visible _ p hp hgood
    · exact fun p hp => hvalue p (hshows.home.stored_of_visible? hp)
  | ofKind k =>
    refine .find (namedOfKind_finds g name k) (namedOfKind_finds g' name k)
      (fun p t v t' _ => hmarks p t v t') ?_ ?_
    · exact fun p hp hgood => ⟨hshows.visible _ p hp.1 hgood, hp.2⟩
    · exact fun p hp => hvalue p (hshows.home.stored_of_visible? hp.1)
  | ofCategory k category =>
    refine .find (namedOfCategory_finds g name k category)
      (namedOfCategory_finds g' name k category) (fun p t v t' _ => hmarks p t v t') ?_ ?_
    · exact fun p hp hgood => ⟨⟨hshows.visible _ p hp.1.1 hgood, hp.1.2⟩, hp.2⟩
    · exact fun p hp => hvalue p (hshows.home.stored_of_visible? hp.1.1)

end Graph

end ParameterChain
