/-
# Evaluation

A parameter is evaluated by following its plan.  Named references are looked up
through the whole chain at every evaluation, so an edit of any parameter is seen
by all that read it; inherited references are looked up above the declaring file.

An evaluation leaves a *trace*: the slots of the parameters it came by, in the
order in which it first came by them.  Which parameters were used and which
changeable parameters a value depends on are both read off the trace.

The depth limit bounds how many parameters a path of references may have, and
doubles as the measure on which evaluation recurses: each reference followed
takes one away, and a cycle of references uses it up.
-/
import ParameterChain.Graph
import ParameterChain.Limits
import ParameterChain.Value.Combine

namespace ParameterChain

/-! ## Traces -/

/-- The slots of the parameters evaluated so far, the latest first, each once. -/
abbrev Trace := List Slot

/-- A computation that leaves a trace, whether it fails or not. -/
abbrev Traced := ExceptT Failure (StateM Trace)

/-- Leave a slot in the trace. -/
def Trace.visit (t : Trace) (s : Slot) : Trace :=
  if t.contains s then t else s :: t

def Traced.fail {α : Type} (c : Cause) : Traced α :=
  throw c.failure

/-- A computation without a trace. -/
def Traced.ofCause {α : Type} : Except Cause α → Traced α
  | .ok a => pure a
  | .error c => Traced.fail c

def Traced.ofOption {α : Type} (c : Cause) : Option α → Traced α
  | some a => pure a
  | none => Traced.fail c

namespace Graph

variable (g : Graph)

/-! ## Targets -/

/-- The parameter that a reference in the plan of `p` reads. -/
def target? (p : Parameter) : Ref → Option Parameter
  | .named name => g.visible? name.key
  | .inherited => g.above? p.file p.key

/-- The parameter that a reference in the plan of `p` must read. -/
def target (p : Parameter) (r : Ref) : Traced Parameter :=
  Traced.ofOption (.undefined (p.targetName r)) (g.target? p r)

/-- The parameter `name`. -/
def named (name : String) : Traced Parameter :=
  Traced.ofOption (.undefined name) (g.visible? (Key.ofText name))

/-- The parameter `name`, which must be of kind `k`. -/
def namedOfKind (name : String) (k : Kind) : Traced Parameter := do
  let p ← g.named name
  if p.kind = k then return p
  Traced.fail (.wrongKind name k p.kind)

/-- The parameter `name`, which must be of kind `k` with a unit of `category`. -/
def namedOfCategory (name : String) (k : Kind) (category : String) : Traced Parameter := do
  let p ← g.namedOfKind name k
  let found := p.category?.getD ""
  if found = category then return p
  Traced.fail (.wrongCategory name category found)

/-! ## Plans

`eval` evaluates one parameter; the functions here say what is done with its
results. -/

variable (eval : Parameter → Traced Value)

/-- The value of a reference in the plan of `p`. -/
def evalRef (p : Parameter) (r : Ref) : Traced Value := do
  eval (← g.target p r)

/-- The scalar of an element of a list in the plan of `p`. -/
def evalElement (p : Parameter) {s : Scalar} : Element s → Traced s.Carrier
  | .literal x => pure x
  | .param r => do
      let q ← g.target p r
      let v ← eval q
      Traced.ofOption (.wrongKind q.name.text (Kind.one s) v.kind) (v.scalarAs? s)

/-- The vector that a list in the plan of `p` is. -/
def evalList (p : Parameter) (s : Scalar) (elements : List (Element s)) : Traced Value := do
  return ⟨s, .many (← elements.mapM (g.evalElement eval p))⟩

def evalOperand (p : Parameter) : Operand → Traced Value
  | .literal v => pure v
  | .list s elements => g.evalList eval p s elements
  | .param r => g.evalRef eval p r

/-! ## Time features -/

/-- The number that the dimensioned parameter `name` is. -/
def evalDimensioned (name category : String) : Traced Float := do
  let p ← g.namedOfCategory name (Kind.one .dimensioned) category
  let v ← eval p
  Traced.ofOption (.wrongKind name p.kind v.kind) (v.numbers?.bind Shape.one?)

/-- The number that the unitless parameter `name` is. -/
def evalUnitless (name : String) : Traced Float := do
  let p ← g.namedOfKind name (Kind.one .unitless)
  let v ← eval p
  Traced.ofOption (.wrongKind name p.kind v.kind) (v.numbers?.bind Shape.one?)

/-- The numbers that the dimensioned vector `name` is. -/
def evalDimensioneds (name category : String) : Traced (List Float) := do
  let p ← g.namedOfCategory name (Kind.many .dimensioned) category
  let v ← eval p
  Traced.ofOption (.wrongKind name p.kind v.kind) (v.numbers?.bind Shape.many?)

/-- The time within the repetition interval of a feature, if it has one. -/
def evalRepetition (f : TimeFeature) (t : Float) : Traced Float :=
  let interval := f.input "RepetitionInterval"
  if (g.visible? (Key.ofText interval)).isSome then do
    return TimeFeature.wrap t (← g.evalDimensioned eval interval "Time")
  else pure t

/-- The start value and the rate of a closed-form feature. -/
def evalStartAndRate (f : TimeFeature) : Traced (Float × Float) := do
  let start := f.input "StartValue"
  let rate := f.input "Rate"
  if f.function.isTrigonometric then
    return (← g.evalDimensioned eval start "Angle",
      ← g.evalDimensioned eval rate (MeasureUnit.rateCategory "Angle"))
  match f.category? with
  | some category =>
      return (← g.evalDimensioned eval start category,
        ← g.evalDimensioned eval rate (MeasureUnit.rateCategory category))
  | none =>
      return (← g.evalUnitless eval start,
        ← g.evalDimensioned eval rate MeasureUnit.inverseTime)

/-- The value of a closed-form feature at time `t`. -/
def evalClosedForm (f : TimeFeature) (t : Float) : Traced Value := do
  let t ← g.evalRepetition eval f t
  let (start, rate) ← g.evalStartAndRate eval f
  return f.closedForm t start rate

/-- The value of a step feature at time `t`. -/
def evalStep (f : TimeFeature) (t : Float) : Traced Value := do
  let times ← g.evalDimensioneds eval (f.input "Times") "Time"
  let values ← eval (← g.named (f.input "Values"))
  Traced.ofCause (TimeFeature.stepValue times values t)

/-- The value of a time feature at time `t`. -/
def evalFeature (f : TimeFeature) (t : Float) : Traced Value :=
  if f.function = .step then g.evalStep eval f t else g.evalClosedForm eval f t

/-! ## Parameters -/

/-- What the plan of `p` gives, before it is read as a value of the kind of `p`. -/
def evalPlan (p : Parameter) : Traced Value :=
  match p.plan with
  | .literal v => pure v
  | .list s elements => g.evalList eval p s elements
  | .reference r => g.evalRef eval p r
  | .binary lhs op rhs => do
      let a ← g.evalOperand eval p lhs
      let b ← g.evalOperand eval p rhs
      Traced.ofCause (Value.combine p.kind a op b (p.operandName rhs))
  | .feature base => do
      let f ← Traced.ofOption (.undefined p.name.text) (g.feature? base)
      g.evalFeature eval f g.clock

/-- The value of `p`, given how the parameters it reads are evaluated. -/
def evalWith (p : Parameter) : Traced Value := do
  modify (Trace.visit · p.slot)
  let v ← g.evalPlan eval p
  Traced.ofOption (.wrongKind p.name.text p.kind v.kind) (v.coerce? p.kind)

/-- The value of `p` when `fuel` more parameters may be entered; `limit` is the
limit that is reported. -/
def evaluate (g : Graph) (limit : Nat) : Nat → Parameter → Traced Value
  | 0, _ => Traced.fail (.evaluationTooDeep limit)
  | fuel + 1, p => g.evalWith (g.evaluate limit fuel) p

/-- The value of `p` within the limits. -/
def valueOf (limits : Limits) (p : Parameter) : Traced Value :=
  g.evaluate limits.evaluationDepth limits.evaluationDepth p

/-- The value of the feature `f` at the time of the clock, within the limits. -/
def featureValue (limits : Limits) (f : TimeFeature) : Traced Value :=
  g.evalFeature (g.valueOf limits) f g.clock

end Graph

end ParameterChain
