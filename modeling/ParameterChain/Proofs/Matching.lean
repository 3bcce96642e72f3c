/-
# Evaluating in two graphs at once

Two graphs are evaluated side by side.  `R` says which parameters of the one answer to which
of the other, and `E` which failures.  If parameters that answer to one another have the same
plan, and what they read answers to one another again (`Graph.Parallel`), then evaluating them
gives the same value, or failures that answer to one another (`Parallel.evaluate`).

There is one exception to what is asked of the parameters read.  A list has no room for a
vector, so an element that refers to one fails in whatever way; where every two failures
answer to one another, the vectors need not.

Main statement: `Parallel.corresponds_read`.
-/
import ParameterChain.Proofs.Kinds
import ParameterChain.Proofs.Reads
import ParameterChain.Proofs.Traced

namespace ParameterChain

/-! ## Results that match -/

/-- Both results are failures that `E` relates, or both are values that `R` relates. -/
inductive Corresponds {ε α β : Type} (E : ε → ε → Prop) (R : α → β → Prop) :
    Except ε α → Except ε β → Prop where
  | ok {a : α} {b : β} : R a b → Corresponds E R (.ok a) (.ok b)
  | error {e e' : ε} : E e e' → Corresponds E R (.error e) (.error e')

/-- Results that correspond are the same, if only equal failures and equal values do. -/
theorem Corresponds.eq {ε α : Type} {x y : Except ε α} (h : Corresponds Eq Eq x y) : y = x := by
  cases h with
  | ok h => rw [h]
  | error h => rw [h]

/-- They give the same value, if only equal values correspond. -/
theorem Corresponds.toOption_eq {ε α : Type} {E : ε → ε → Prop} {x y : Except ε α}
    (h : Corresponds E Eq x y) : y.toOption = x.toOption := by
  cases h with
  | ok h => rw [h]
  | error _ => rfl

namespace Traced

variable {α β γ δ : Type} {E : Failure → Failure → Prop} {R : α → β → Prop} {S : γ → δ → Prop}

/-- The two computations have results that match, whatever traces they start with. -/
def Matches (E : Failure → Failure → Prop) (R : α → β → Prop) (x : Traced α) (y : Traced β) :
    Prop :=
  ∀ t u, Corresponds E R (x.run t).1 (y.run u).1

theorem Matches.pure {a : α} {b : β} (h : R a b) : Matches E R (pure a : Traced α) (Pure.pure b) :=
  fun _ _ => .ok h

theorem Matches.fail (hE : ∀ e, E e e) (c : Cause) :
    Matches E R (Traced.fail c) (Traced.fail c) :=
  fun _ _ => .error (hE c.failure)

theorem Matches.bind {x : Traced α} {y : Traced β} {f : α → Traced γ} {f' : β → Traced δ}
    (hx : Matches E R x y) (hf : ∀ a b, R a b → Matches E S (f a) (f' b)) :
    Matches E S (x >>= f) (y >>= f') := by
  intro t u
  have hfirst := hx t u
  rcases hrun : x.run t with ⟨result, m⟩
  rcases hrun' : y.run u with ⟨result', m'⟩
  rw [hrun, hrun'] at hfirst
  cases hfirst with
  | error he =>
    rw [run_bind_error hrun, run_bind_error hrun']
    exact .error he
  | ok hab =>
    rw [run_bind_ok hrun, run_bind_ok hrun']
    exact hf _ _ hab m m'

theorem Matches.ofOption (hE : ∀ e, E e e) {c : Cause} {o : Option α} {o' : Option β}
    (h : Option.Rel R o o') : Matches E R (Traced.ofOption c o) (Traced.ofOption c o') := by
  cases h with
  | none => exact .fail hE c
  | some hab => exact .pure hab

theorem Matches.ofOption_self (hE : ∀ e, E e e) (c : Cause) (o : Option α) :
    Matches E Eq (Traced.ofOption c o) (Traced.ofOption c o) := by
  cases o with
  | none => exact .fail hE c
  | some a => exact .pure rfl

theorem Matches.ofCause (hE : ∀ e, E e e) (r : Except Cause α) :
    Matches E Eq (Traced.ofCause r) (Traced.ofCause r) := by
  cases r with
  | error c => exact .fail hE c
  | ok a => exact .pure rfl

theorem Matches.mapM {ι : Type} {f f' : ι → Traced α} {xs : List ι}
    (hf : ∀ x ∈ xs, Matches E Eq (f x) (f' x)) : Matches E Eq (xs.mapM f) (xs.mapM f') := by
  induction xs with
  | nil => exact .pure rfl
  | cons x xs ih =>
    obtain ⟨hx, hxs⟩ := List.forall_mem_cons.mp hf
    rw [List.mapM_cons, List.mapM_cons]
    refine hx.bind ?_
    rintro a _ rfl
    refine (ih hxs).bind ?_
    rintro as _ rfl
    exact .pure rfl

end Traced

open Traced

namespace Graph

variable {g g' : Graph} {E : Failure → Failure → Prop} {R : Parameter → Parameter → Prop}
  {p p' : Parameter}

/-! ## Parallel graphs -/

/-- All that `r` can refer to in the plan of `p` is a vector. -/
def RefersToVector (g : Graph) (p : Parameter) (r : Ref) : Prop :=
  ∀ q, g.target? p r = some q → q.kind.isVector

/-- Parameters that `R` relates are the same, files aside, and read parameters that `R`
relates. -/
structure Parallel (E : Failure → Failure → Prop) (R : Parameter → Parameter → Prop)
    (g g' : Graph) : Prop where
  failure : ∀ e, E e e
  same : ∀ p p', R p p' → p' = { p with file := p'.file }
  target : ∀ p p', R p p' → ∀ r ∈ p.plan.refs,
    Option.Rel R (g.target? p r) (g'.target? p' r) ∨
      (∀ e e', E e e') ∧ (∃ s elements, p.plan = .list s elements) ∧
        g.RefersToVector p r ∧ g'.RefersToVector p' r
  feature : ∀ p p', R p p' → ∀ base, p.plan = .feature base →
    g'.feature? base = g.feature? base
  input : ∀ p p', R p p' → ∀ base f, p.plan = .feature base → g.feature? base = some f →
    ∀ name ∈ f.inputNames,
      Option.Rel R (g.visible? (Key.ofText name)) (g'.visible? (Key.ofText name))
  clock : g'.clock = g.clock

/-- The values of parameters are of their kinds. -/
def GivesKinds (eval : Parameter → Traced Value) : Prop :=
  ∀ p t v t', (eval p).run t = (.ok v, t') → v.kind = p.kind

theorem givesKinds_evaluate (g : Graph) (limit n : Nat) : GivesKinds (g.evaluate limit n) := by
  intro p t v t' hrun
  cases n with
  | zero => cases hrun
  | succ n =>
    rw [evaluate, evalWith] at hrun
    obtain ⟨⟨⟩, m, -, hrun⟩ := run_bind_eq_ok.mp hrun
    obtain ⟨w, m', -, hrun⟩ := run_bind_eq_ok.mp hrun
    cases hcoerce : w.coerce? p.kind with
    | none =>
      rw [hcoerce] at hrun
      cases hrun
    | some w' =>
      rw [hcoerce] at hrun
      cases hrun
      exact Value.kind_of_coerce? hcoerce

/-! ## Evaluation -/

section Evaluation

variable (hg : Parallel E R g g') {eval eval' : Parameter → Traced Value}
  (heval : ∀ p p', R p p' → Matches E Eq (eval p) (eval' p'))

include hg

/-- A parameter that must be of some kind, where it is looked up. -/
theorem Parallel.namedOfKind {name : String}
    (hname : Option.Rel R (g.visible? (Key.ofText name)) (g'.visible? (Key.ofText name)))
    (k : Kind) : Matches E R (g.namedOfKind name k) (g'.namedOfKind name k) := by
  refine (Matches.ofOption hg.failure hname).bind ?_
  intro q q' hq
  have hkind : q'.kind = q.kind := by rw [hg.same q q' hq]
  show Matches _ _ (if q.kind = k then _ else _) (if q'.kind = k then _ else _)
  rw [hkind]
  split
  · exact .pure hq
  · exact .fail hg.failure _

theorem Parallel.namedOfCategory {name : String}
    (hname : Option.Rel R (g.visible? (Key.ofText name)) (g'.visible? (Key.ofText name)))
    (k : Kind) (category : String) :
    Matches E R (g.namedOfCategory name k category) (g'.namedOfCategory name k category) := by
  refine (hg.namedOfKind hname k).bind ?_
  intro q q' hq
  have hcategory : q'.category? = q.category? := by rw [hg.same q q' hq]; rfl
  show Matches _ _ (if q.category?.getD "" = category then _ else _)
    (if q'.category?.getD "" = category then _ else _)
  rw [hcategory]
  split
  · exact .pure hq
  · exact .fail hg.failure _

theorem Parallel.target_matches (hp : R p p') {r : Ref}
    (hr : Option.Rel R (g.target? p r) (g'.target? p' r)) :
    Matches E R (g.target p r) (g'.target p' r) := by
  have hname : p'.targetName r = p.targetName r := by
    rw [hg.same p p' hp]
    cases r <;> rfl
  rw [Graph.target, Graph.target, hname]
  exact .ofOption hg.failure hr

include heval

theorem Parallel.evalRef (hp : R p p') {r : Ref}
    (hr : Option.Rel R (g.target? p r) (g'.target? p' r)) :
    Matches E Eq (g.evalRef eval p r) (g'.evalRef eval' p' r) :=
  (hg.target_matches hp hr).bind heval

/-- Looking up a parameter, evaluating it and reading something off its value. -/
theorem Parallel.evalFound {α : Type} {x y : Traced Parameter} (hx : Matches E R x y)
    (cause : Parameter → Kind → Cause) (hcause : ∀ q q' k, R q q' → cause q' k = cause q k)
    (read : Value → Option α) :
    Matches E Eq
      (x >>= fun q => eval q >>= fun v => Traced.ofOption (cause q v.kind) (read v))
      (y >>= fun q => eval' q >>= fun v => Traced.ofOption (cause q v.kind) (read v)) := by
  refine hx.bind ?_
  intro q q' hq
  refine (heval q q' hq).bind ?_
  rintro v _ rfl
  rw [hcause q q' v.kind hq]
  exact .ofOption_self hg.failure _ _

omit hg heval in
/-- There is no room for a vector in a list. -/
theorem evalElement_fails (heval : GivesKinds eval) {r : Ref} (hr : g.RefersToVector p r)
    {s : Scalar} (t : Trace) :
    ∃ e t', (g.evalElement eval p (.param r : Element s)).run t = (.error e, t') := by
  rw [evalElement, target]
  cases htarget : g.target? p r with
  | none => exact ⟨_, t, rfl⟩
  | some q =>
    have hfound : (Traced.ofOption (.undefined (p.targetName r)) (some q)).run t =
        (.ok q, t) := rfl
    rcases hrun : (eval q).run t with ⟨result, m⟩
    cases result with
    | error e => exact ⟨e, m, (run_bind_ok hfound).trans (run_bind_error hrun)⟩
    | ok v =>
      have hvector : v.kind.isVector := by
        rw [heval q t v m hrun]
        exact hr q htarget
      refine ⟨(Cause.wrongKind q.name.text (Kind.one s) v.kind).failure, m, ?_⟩
      refine (run_bind_ok hfound).trans ((run_bind_ok hrun).trans ?_)
      rw [Value.scalarAs?_of_isVector hvector]
      rfl

variable (hkinds : GivesKinds eval) (hkinds' : GivesKinds eval')

include hkinds hkinds'

theorem Parallel.evalElement (hp : R p p') {s : Scalar} (e : Element s)
    (he : ∀ r ∈ e.ref?, Option.Rel R (g.target? p r) (g'.target? p' r) ∨
      (∀ e e', E e e') ∧ g.RefersToVector p r ∧ g'.RefersToVector p' r) :
    Matches E Eq (g.evalElement eval p e) (g'.evalElement eval' p' e) := by
  cases e with
  | literal x => exact .pure rfl
  | param r =>
    rcases he r rfl with hr | ⟨hall, hr, hr'⟩
    · refine hg.evalFound heval (hg.target_matches hp hr)
        (fun q k => .wrongKind q.name.text (Kind.one s) k) ?_ _
      intro q q' k hq
      rw [hg.same q q' hq]
    · intro t u
      obtain ⟨e, m, hrun⟩ := evalElement_fails hkinds hr (s := s) t
      obtain ⟨e', m', hrun'⟩ := evalElement_fails hkinds' hr' (s := s) u
      rw [hrun, hrun']
      exact .error (hall e e')

theorem Parallel.evalList (hp : R p p') (s : Scalar) (elements : List (Element s))
    (helements : ∀ r ∈ elements.filterMap Element.ref?,
      Option.Rel R (g.target? p r) (g'.target? p' r) ∨
        (∀ e e', E e e') ∧ g.RefersToVector p r ∧ g'.RefersToVector p' r) :
    Matches E Eq (g.evalList eval p s elements) (g'.evalList eval' p' s elements) := by
  refine (Matches.mapM fun e he => ?_).bind ?_
  · refine hg.evalElement heval hkinds hkinds' hp e fun r hr => helements r ?_
    exact List.mem_filterMap.mpr ⟨e, he, hr⟩
  · rintro xs _ rfl
    exact .pure rfl

theorem Parallel.evalOperand (hp : R p p') (o : Operand)
    (ho : ∀ r ∈ o.refs, Option.Rel R (g.target? p r) (g'.target? p' r)) :
    Matches E Eq (g.evalOperand eval p o) (g'.evalOperand eval' p' o) := by
  cases o with
  | literal v => exact .pure rfl
  | list s elements =>
    exact hg.evalList heval hkinds hkinds' hp s elements fun r hr => Or.inl (ho r hr)
  | param r => exact hg.evalRef heval hp (ho r List.mem_cons_self)

omit hkinds hkinds'

/-! ### Time features -/

section Inputs

variable {name : String}
  (hname : Option.Rel R (g.visible? (Key.ofText name)) (g'.visible? (Key.ofText name)))

include hname

omit hname heval in
theorem Parallel.wrongKind_eq (q q' : Parameter) (k : Kind) (hq : R q q') :
    Cause.wrongKind name q'.kind k = Cause.wrongKind name q.kind k := by
  rw [hg.same q q' hq]

theorem Parallel.evalDimensioned (category : String) :
    Matches E Eq (g.evalDimensioned eval name category) (g'.evalDimensioned eval' name category) :=
  hg.evalFound heval (hg.namedOfCategory hname _ category) _ hg.wrongKind_eq _

theorem Parallel.evalUnitless :
    Matches E Eq (g.evalUnitless eval name) (g'.evalUnitless eval' name) :=
  hg.evalFound heval (hg.namedOfKind hname _) _ hg.wrongKind_eq _

theorem Parallel.evalDimensioneds (category : String) :
    Matches E Eq (g.evalDimensioneds eval name category)
      (g'.evalDimensioneds eval' name category) :=
  hg.evalFound heval (hg.namedOfCategory hname _ category) _ hg.wrongKind_eq _

end Inputs

theorem Parallel.evalRepetition (f : TimeFeature) (t : Float)
    (hname : Option.Rel R (g.visible? (Key.ofText (f.input "RepetitionInterval")))
      (g'.visible? (Key.ofText (f.input "RepetitionInterval")))) :
    Matches E Eq (g.evalRepetition eval f t) (g'.evalRepetition eval' f t) := by
  have hsome : (g'.visible? (Key.ofText (f.input "RepetitionInterval"))).isSome =
      (g.visible? (Key.ofText (f.input "RepetitionInterval"))).isSome := by
    generalize g.visible? (Key.ofText (f.input "RepetitionInterval")) = found at hname
    generalize g'.visible? (Key.ofText (f.input "RepetitionInterval")) = found' at hname
    cases hname <;> rfl
  rw [Graph.evalRepetition, Graph.evalRepetition, hsome]
  split
  · refine (hg.evalDimensioned heval hname _).bind ?_
    rintro period _ rfl
    exact .pure rfl
  · exact .pure rfl

theorem Parallel.evalStartAndRate (f : TimeFeature)
    (hstart : Option.Rel R (g.visible? (Key.ofText (f.input "StartValue")))
      (g'.visible? (Key.ofText (f.input "StartValue"))))
    (hrate : Option.Rel R (g.visible? (Key.ofText (f.input "Rate")))
      (g'.visible? (Key.ofText (f.input "Rate")))) :
    Matches E Eq (g.evalStartAndRate eval f) (g'.evalStartAndRate eval' f) := by
  have hpair : ∀ {x y : Traced Float}, Matches E Eq x y → ∀ category,
      Matches E Eq (x >>= fun start => g.evalDimensioned eval (f.input "Rate") category >>=
          fun rate => pure (start, rate))
        (y >>= fun start => g'.evalDimensioned eval' (f.input "Rate") category >>= fun rate =>
          pure (start, rate)) := by
    intro x y hxy category
    refine hxy.bind ?_
    rintro start _ rfl
    refine (hg.evalDimensioned heval hrate category).bind ?_
    rintro rate _ rfl
    exact .pure rfl
  have hdimensioned := hg.evalDimensioned heval hstart
  unfold Graph.evalStartAndRate
  simp only
  split
  · exact hpair (hdimensioned _) _
  · split
    · exact hpair (hdimensioned _) _
    · exact hpair (hg.evalUnitless heval hstart) _

theorem Parallel.evalFeature (f : TimeFeature) (t : Float)
    (hinputs : ∀ name ∈ f.inputNames,
      Option.Rel R (g.visible? (Key.ofText name)) (g'.visible? (Key.ofText name))) :
    Matches E Eq (g.evalFeature eval f t) (g'.evalFeature eval' f t) := by
  rw [TimeFeature.inputNames] at hinputs
  unfold Graph.evalFeature
  split
  · next hstep =>
    rw [if_pos hstep, List.forall_mem_cons, List.forall_mem_singleton] at hinputs
    refine (hg.evalDimensioneds heval hinputs.1 _).bind ?_
    rintro times _ rfl
    refine (Matches.ofOption hg.failure hinputs.2).bind ?_
    intro q q' hq
    refine (heval q q' hq).bind ?_
    rintro values _ rfl
    exact .ofCause hg.failure _
  · next hclosed =>
    rw [if_neg hclosed, List.forall_mem_cons, List.forall_mem_cons,
      List.forall_mem_singleton] at hinputs
    refine (hg.evalRepetition heval f t hinputs.1).bind ?_
    rintro t _ rfl
    refine (hg.evalStartAndRate heval f hinputs.2.1 hinputs.2.2).bind ?_
    rintro ⟨start, rate⟩ _ rfl
    exact .pure rfl

/-! ### Parameters -/

include hkinds hkinds'

theorem Parallel.evalPlan (hp : R p p') :
    Matches E Eq (g.evalPlan eval p) (g'.evalPlan eval' p') := by
  have hsame := hg.same p p' hp
  have hplan : p'.plan = p.plan := by rw [hsame]
  have htarget := hg.target p p' hp
  have hfeature := hg.feature p p' hp
  have hinput := hg.input p p' hp
  rw [Graph.evalPlan, Graph.evalPlan, hplan]
  cases hform : p.plan with
  | literal v => exact .pure rfl
  | list s elements =>
    rw [hform] at htarget
    refine hg.evalList heval hkinds hkinds' hp s elements fun r hr => ?_
    exact (htarget r hr).imp_right fun ⟨hall, _, hvectors⟩ => ⟨hall, hvectors⟩
  | reference r =>
    rw [hform] at htarget
    refine hg.evalRef heval hp ((htarget r List.mem_cons_self).resolve_right ?_)
    rintro ⟨-, ⟨s, elements, hlist⟩, -⟩
    cases hlist
  | binary lhs op rhs =>
    rw [hform] at htarget
    have htarget : ∀ r ∈ lhs.refs ++ rhs.refs,
        Option.Rel R (g.target? p r) (g'.target? p' r) := by
      intro r hr
      refine (htarget r hr).resolve_right ?_
      rintro ⟨-, ⟨s, elements, hlist⟩, -⟩
      cases hlist
    have hname : p'.operandName rhs = p.operandName rhs := by
      rw [hsame]
      cases rhs with
      | param r => cases r <;> rfl
      | _ => rfl
    have hkind : p'.kind = p.kind := by rw [hsame]
    refine (hg.evalOperand heval hkinds hkinds' hp lhs fun r hr =>
      htarget r (List.mem_append_left _ hr)).bind ?_
    rintro a _ rfl
    refine (hg.evalOperand heval hkinds hkinds' hp rhs fun r hr =>
      htarget r (List.mem_append_right _ hr)).bind ?_
    rintro b _ rfl
    rw [hname, hkind]
    exact .ofCause hg.failure _
  | feature base =>
    have hname : p'.name = p.name := by rw [hsame]
    simp only
    rw [hfeature base hform, hg.clock, hname]
    cases hbase : g.feature? base with
    | none => exact .fail hg.failure _
    | some f => exact hg.evalFeature heval f g.clock (hinput base f hform hbase)

theorem Parallel.evalWith (hp : R p p') :
    Matches E Eq (g.evalWith eval p) (g'.evalWith eval' p') := by
  have hvisit : Matches E Eq (modify (Trace.visit · p.slot) : Traced PUnit)
      (modify (Trace.visit · p'.slot)) := fun _ _ => .ok rfl
  refine hvisit.bind ?_
  rintro ⟨⟩ _ -
  refine (hg.evalPlan heval hkinds hkinds' hp).bind ?_
  rintro v _ rfl
  rw [hg.same p p' hp]
  exact .ofOption_self hg.failure _ _

omit heval hkinds hkinds' in
/-- At every depth parameters that answer to one another have the same value, or fail. -/
theorem Parallel.evaluate (limit n : Nat) (p p' : Parameter) (hp : R p p') :
    Matches E Eq (g.evaluate limit n p) (g'.evaluate limit n p') := by
  induction n generalizing p p' with
  | zero => exact .fail hg.failure _
  | succ n ih =>
    exact hg.evalWith ih (givesKinds_evaluate g limit n) (givesKinds_evaluate g' limit n) hp

omit heval hkinds hkinds' in
/-- A reading of a name gives the same in both graphs, or fails, if what is seen of the name
answers to one another. -/
theorem Parallel.corresponds_read (limits : Limits) {name : String} (e : Expectation)
    (hname : Option.Rel R (g.visible? (Key.ofText name)) (g'.visible? (Key.ofText name))) :
    Corresponds E Eq ((g.read limits name e).run []).1 ((g'.read limits name e).run []).1 := by
  have hread : Matches E Eq (g.read limits name e) (g'.read limits name e) := by
    have heval := hg.evaluate limits.evaluationDepth limits.evaluationDepth
    cases e with
    | any => exact (Matches.ofOption hg.failure hname).bind heval
    | ofKind k => exact (hg.namedOfKind hname k).bind heval
    | ofCategory k category => exact (hg.namedOfCategory hname k category).bind heval
  exact hread [] []

end Evaluation

end Graph

end ParameterChain
