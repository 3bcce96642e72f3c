/-
# The questions of an evaluation

The functions of `Evaluation` are given the means to evaluate other parameters, `eval`, and
use it in one way only: they ask for the values of certain parameters, one after the other.
Which parameters these are, and in what order, does not depend on the answers.  An answer
decides at most that the questions stop, with a failure.

`Asks qs x` says so of a computation `x` that is given `eval`.  What an evaluation has in
common for all depths, or for two ways to evaluate what it reads, is an induction on `Asks`
and does not look at plans again.

Main statement: `evalPlan_asks`, by which a plan asks for what its parameter reads.
-/
import ParameterChain.Proofs.Reads

namespace ParameterChain

/-- The failure to go as deep as a reference asks for. -/
inductive Cause.IsTooDeep : Cause → Prop
  | mk (limit : Nat) : IsTooDeep (.evaluationTooDeep limit)

namespace Traced

variable {α β : Type} {qs rs : List Parameter}

/-! ## Computations that ask questions -/

/-- Given `eval`, the computation asks it for the values of `qs`, in this order, before it
gives a result.  It may fail earlier, though never itself for want of depth. -/
inductive Asks : List Parameter → ((Parameter → Traced Value) → Traced α) → Prop
  | pure (a : α) : Asks [] fun _ => pure a
  | fail {qs : List Parameter} {c : Cause} : ¬ c.IsTooDeep → Asks qs fun _ => Traced.fail c
  | ask {qs : List Parameter} {q : Parameter}
      {k : Value → (Parameter → Traced Value) → Traced α} :
      (∀ v, Asks qs (k v)) → Asks (q :: qs) fun eval => eval q >>= fun v => k v eval

theorem Asks.bind {x : (Parameter → Traced Value) → Traced α}
    {f : α → (Parameter → Traced Value) → Traced β} (hx : Asks qs x)
    (hf : ∀ a, Asks rs (f a)) : Asks (qs ++ rs) fun eval => x eval >>= fun a => f a eval := by
  induction hx with
  | pure a =>
    simp only [pure_bind]
    exact hf a
  | fail hc => exact .fail hc
  | ask _ ih =>
    simp only [bind_assoc]
    exact .ask ih

/-- A computation that goes on without further questions. -/
theorem Asks.bind_silent {x : (Parameter → Traced Value) → Traced α}
    {f : α → (Parameter → Traced Value) → Traced β} (hx : Asks qs x)
    (hf : ∀ a, Asks [] (f a)) : Asks qs fun eval => x eval >>= fun a => f a eval := by
  have h := hx.bind hf
  rw [List.append_nil] at h
  exact h

theorem Asks.ofOption {c : Cause} (hc : ¬ c.IsTooDeep) (o : Option α) :
    Asks [] fun _ => Traced.ofOption c o := by
  cases o with
  | none => exact .fail hc
  | some a => exact .pure a

theorem Asks.ofCause {r : Except Cause α} (hr : ∀ c, r = .error c → ¬ c.IsTooDeep) :
    Asks [] fun _ => Traced.ofCause r := by
  cases r with
  | error c => exact .fail (hr c rfl)
  | ok a => exact .pure a

theorem Asks.mapM {γ : Type} {qs : γ → List Parameter} {xs : List γ}
    {f : (Parameter → Traced Value) → γ → Traced α}
    (hf : ∀ x ∈ xs, Asks (qs x) fun eval => f eval x) :
    Asks (xs.flatMap qs) fun eval => xs.mapM (f eval) := by
  induction xs with
  | nil => exact .pure []
  | cons x xs ih =>
    simp only [List.mapM_cons, List.flatMap_cons]
    have hrest := ih fun y hy => hf y (List.mem_cons_of_mem x hy)
    exact (hf x List.mem_cons_self).bind fun y => hrest.bind_silent fun ys => .pure _

/-! ## Look-ups -/

/-- The look-up gives what `o` holds or fails, and fails if `o` holds nothing. -/
def LooksUp (o : Option Parameter) (x : Traced Parameter) : Prop :=
  (∃ q, o = some q ∧ x = pure q) ∨ ∃ c : Cause, ¬ c.IsTooDeep ∧ x = Traced.fail c

theorem LooksUp.ofOption {c : Cause} (hc : ¬ c.IsTooDeep) (o : Option Parameter) :
    LooksUp o (Traced.ofOption c o) := by
  cases o with
  | none => exact Or.inr ⟨c, hc, rfl⟩
  | some q => exact Or.inl ⟨q, rfl, rfl⟩

theorem LooksUp.check {o : Option Parameter} {x : Traced Parameter} {C : Parameter → Prop}
    [DecidablePred C] {cause : Parameter → Cause} (hx : LooksUp o x)
    (hcause : ∀ q, ¬ (cause q).IsTooDeep) :
    LooksUp o (x >>= fun q => if C q then pure q else Traced.fail (cause q)) := by
  rcases hx with ⟨q, ho, rfl⟩ | ⟨c, hc, rfl⟩
  · rw [pure_bind]
    split
    · exact Or.inl ⟨q, ho, rfl⟩
    · exact Or.inr ⟨cause q, hcause q, rfl⟩
  · exact Or.inr ⟨c, hc, rfl⟩

/-- What is found is asked for. -/
theorem LooksUp.asks {o : Option Parameter} {x : Traced Parameter} (hx : LooksUp o x)
    {f : Parameter → Value → Traced α} (hf : ∀ q v, Asks [] fun _ => f q v) :
    Asks o.toList fun eval => x >>= fun q => eval q >>= f q := by
  rcases hx with ⟨q, rfl, rfl⟩ | ⟨c, hc, rfl⟩
  · simp only [pure_bind]
    exact .ask (hf q)
  · exact .fail hc

end Traced

open Traced

namespace Graph

variable (g : Graph) (p : Parameter)

/-! ## What a parameter reads -/

/-- The names of the inputs that the plan of `p` asks for. -/
def inputsOf : List String :=
  match p.plan with
  | .feature base => ((g.feature? base).map TimeFeature.inputNames).getD []
  | _ => []

/-- The parameters that `p` reads, in the order in which it asks for them. -/
def readsOf : List Parameter :=
  p.plan.refs.filterMap (g.target? p) ++
    (g.inputsOf p).filterMap fun name => g.visible? (Key.ofText name)

variable {g p}

theorem mem_inputsOf {name : String} :
    name ∈ g.inputsOf p ↔
      ∃ base f, p.plan = .feature base ∧ g.feature? base = some f ∧ name ∈ f.inputNames := by
  rw [inputsOf]
  split
  · next base hplan =>
    simp only [hplan, Plan.feature.injEq, exists_and_left, exists_eq_left']
    cases g.feature? base <;> simp
  · next hplain =>
    constructor
    · intro h
      cases h
    · rintro ⟨base, f, hplan, -⟩
      exact absurd hplan (hplain base)

theorem mem_readsOf {q : Parameter} : q ∈ g.readsOf p ↔ g.Reads p q := by
  simp only [readsOf, List.mem_append, List.mem_filterMap, mem_inputsOf]
  constructor
  · rintro (⟨r, hr, hq⟩ | ⟨name, ⟨base, f, hplan, hf, hname⟩, hq⟩)
    · exact .ref hr hq
    · exact .input hplan hf hname hq
  · rintro (⟨hr, hq⟩ | ⟨hplan, hf, hname, hq⟩)
    · exact Or.inl ⟨_, hr, hq⟩
    · exact Or.inr ⟨_, ⟨_, _, hplan, hf, hname⟩, hq⟩

/-! ## Plans -/

theorem target_looksUp (p : Parameter) (r : Ref) : LooksUp (g.target? p r) (g.target p r) :=
  .ofOption (by rintro ⟨⟩) _

theorem named_looksUp (name : String) :
    LooksUp (g.visible? (Key.ofText name)) (g.named name) :=
  .ofOption (by rintro ⟨⟩) _

theorem namedOfKind_looksUp (name : String) (k : Kind) :
    LooksUp (g.visible? (Key.ofText name)) (g.namedOfKind name k) :=
  (named_looksUp name).check fun _ => by rintro ⟨⟩

theorem namedOfCategory_looksUp (name : String) (k : Kind) (category : String) :
    LooksUp (g.visible? (Key.ofText name)) (g.namedOfCategory name k category) :=
  (namedOfKind_looksUp name k).check fun _ => by rintro ⟨⟩

theorem evalRef_asks (p : Parameter) (r : Ref) :
    Asks (g.target? p r).toList fun eval => g.evalRef eval p r := by
  have h : Asks (g.target? p r).toList fun eval =>
      g.target p r >>= fun q => eval q >>= Pure.pure :=
    (target_looksUp p r).asks fun _ v => .pure v
  simp only [bind_pure] at h
  exact h

theorem evalElement_asks (p : Parameter) {s : Scalar} (e : Element s) :
    Asks (e.ref?.bind (g.target? p)).toList fun eval => g.evalElement eval p e := by
  cases e with
  | literal x => exact .pure x
  | param r =>
    exact (target_looksUp p r).asks fun _ _ => .ofOption (by rintro ⟨⟩) _

theorem evalList_asks (p : Parameter) (s : Scalar) (elements : List (Element s)) :
    Asks ((elements.filterMap Element.ref?).filterMap (g.target? p)) fun eval =>
      g.evalList eval p s elements := by
  rw [List.filterMap_filterMap, List.filterMap_eq_flatMap_toList]
  exact (Asks.mapM fun e _ => evalElement_asks p e).bind_silent fun xs => .pure _

theorem evalOperand_asks (p : Parameter) (o : Operand) :
    Asks (o.refs.filterMap (g.target? p)) fun eval => g.evalOperand eval p o := by
  cases o with
  | literal v => exact .pure v
  | list s elements => exact evalList_asks p s elements
  | param r =>
    rw [Operand.refs, List.filterMap_eq_flatMap_toList, List.flatMap_singleton]
    exact evalRef_asks p r

/-! ## Time features -/

theorem evalDimensioned_asks (name category : String) :
    Asks (g.visible? (Key.ofText name)).toList fun eval =>
      g.evalDimensioned eval name category :=
  (namedOfCategory_looksUp name _ category).asks fun _ _ => .ofOption (by rintro ⟨⟩) _

theorem evalUnitless_asks (name : String) :
    Asks (g.visible? (Key.ofText name)).toList fun eval => g.evalUnitless eval name :=
  (namedOfKind_looksUp name _).asks fun _ _ => .ofOption (by rintro ⟨⟩) _

theorem evalDimensioneds_asks (name category : String) :
    Asks (g.visible? (Key.ofText name)).toList fun eval =>
      g.evalDimensioneds eval name category :=
  (namedOfCategory_looksUp name _ category).asks fun _ _ => .ofOption (by rintro ⟨⟩) _

theorem evalRepetition_asks (f : TimeFeature) (t : Float) :
    Asks (g.visible? (Key.ofText (f.input "RepetitionInterval"))).toList fun eval =>
      g.evalRepetition eval f t := by
  simp only [evalRepetition]
  split
  · exact (evalDimensioned_asks _ _).bind_silent fun x => .pure _
  · next hnone =>
    rw [Option.not_isSome_iff_eq_none.mp hnone]
    exact .pure t

theorem evalStartAndRate_asks (f : TimeFeature) :
    Asks ((g.visible? (Key.ofText (f.input "StartValue"))).toList ++
        (g.visible? (Key.ofText (f.input "Rate"))).toList) fun eval =>
      g.evalStartAndRate eval f := by
  have hdimensioned := evalDimensioned_asks (g := g)
  unfold evalStartAndRate
  simp only
  split
  · exact (hdimensioned _ _).bind fun start => (hdimensioned _ _).bind_silent fun rate => .pure _
  split
  · exact (hdimensioned _ _).bind fun start => (hdimensioned _ _).bind_silent fun rate => .pure _
  · exact (evalUnitless_asks _).bind fun start =>
      (hdimensioned _ _).bind_silent fun rate => .pure _

/-- The tables of a step feature have a value or do not fit each other. -/
theorem stepValue_not_isTooDeep {times : List Float} {values : Value} {t : Float} {c : Cause}
    (h : TimeFeature.stepValue times values t = .error c) : ¬ c.IsTooDeep := by
  rw [TimeFeature.stepValue] at h
  repeat' split at h
  all_goals cases h <;> rintro ⟨⟩

theorem evalFeature_asks (f : TimeFeature) (t : Float) :
    Asks (f.inputNames.filterMap fun name => g.visible? (Key.ofText name)) fun eval =>
      g.evalFeature eval f t := by
  rw [List.filterMap_eq_flatMap_toList]
  simp only [evalFeature, TimeFeature.inputNames]
  split
  · simp only [evalStep, List.flatMap_cons, List.flatMap_nil, List.append_nil]
    exact (evalDimensioneds_asks _ _).bind fun times =>
      (named_looksUp _).asks fun _ _ => .ofCause fun _ => stepValue_not_isTooDeep
  · simp only [evalClosedForm, List.flatMap_cons, List.flatMap_nil, List.append_nil]
    exact (evalRepetition_asks f t).bind fun t =>
      (evalStartAndRate_asks f).bind_silent fun inputs => .pure _

/-! ## Parameters -/

/-- Shapes that cannot be combined differ in length or do not fit the kind. -/
theorem combineShapes_not_isTooDeep {α : Type} {k : Kind} {op : Operator} {name : String}
    {f : α → α → α} {convert : α → k.scalar.Carrier} {a b : Shape α} {c : Cause}
    (h : Value.combineShapes k op name f convert a b = .error c) : ¬ c.IsTooDeep := by
  rw [Value.combineShapes] at h
  repeat' split at h
  all_goals cases h <;> rintro ⟨⟩

theorem combineNumbers_not_isTooDeep {k : Kind} {op : Operator} {name : String}
    {convert : Float → k.scalar.Carrier} {a b : Value} {c : Cause}
    (h : Value.combineNumbers k op name convert a b = .error c) : ¬ c.IsTooDeep := by
  rw [Value.combineNumbers] at h
  split at h
  · exact combineShapes_not_isTooDeep h
  · cases h
    rintro ⟨⟩

/-- Values that cannot be combined differ in length or in kind. -/
theorem combine_not_isTooDeep {k : Kind} {a b : Value} {op : Operator} {name : String}
    {c : Cause} (h : Value.combine k a op b name = .error c) : ¬ c.IsTooDeep := by
  rcases k with ⟨scalar, isVector⟩
  cases scalar with
  | boolean =>
    simp only [Value.combine] at h
    split at h
    all_goals cases h <;> rintro ⟨⟩
  | text =>
    simp only [Value.combine] at h
    split at h
    · exact combineShapes_not_isTooDeep h
    · cases h
      rintro ⟨⟩
  | integer =>
    simp only [Value.combine] at h
    split at h
    · exact combineShapes_not_isTooDeep h
    · exact combineNumbers_not_isTooDeep h
  | unitless => exact combineNumbers_not_isTooDeep h
  | dimensioned => exact combineNumbers_not_isTooDeep h

/-- A plan asks for what its parameter reads. -/
theorem evalPlan_asks (p : Parameter) : Asks (g.readsOf p) fun eval => g.evalPlan eval p := by
  simp only [readsOf, inputsOf, evalPlan]
  cases hplan : p.plan with
  | literal v => exact .pure v
  | list s elements =>
    simp only [Plan.refs, List.filterMap_nil, List.append_nil]
    exact evalList_asks p s elements
  | reference r =>
    simp only [Plan.refs, List.filterMap_nil, List.append_nil]
    rw [List.filterMap_eq_flatMap_toList, List.flatMap_singleton]
    exact evalRef_asks p r
  | binary lhs op rhs =>
    simp only [Plan.refs, List.filterMap_nil, List.append_nil, List.filterMap_append]
    exact (evalOperand_asks p lhs).bind fun a =>
      (evalOperand_asks p rhs).bind_silent fun b => .ofCause fun _ => combine_not_isTooDeep
  | feature base =>
    simp only [Plan.refs, List.filterMap_nil, List.nil_append]
    cases hf : g.feature? base with
    | none => exact .fail (by rintro ⟨⟩)
    | some f => exact evalFeature_asks f g.clock

end Graph

end ParameterChain
