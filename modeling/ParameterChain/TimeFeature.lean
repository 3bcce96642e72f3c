/-
# Time features

A time feature is a value that follows the simulation clock.  It is rooted at a
*base* `Tf/…`: declaring `base/Function` with a closed-form function, or
`base/Values` with the values of a step table, makes a changeable parameter
`base/Value` appear in the declaring file.  The inputs of a feature (`Rate`,
`StartValue`, `RepetitionInterval`, `Times`, `Values`) are parameters below the
same base and are read anew whenever the feature is evaluated.

This module reads features off declarations and holds the arithmetic of the
clock; reading the inputs belongs to `ParameterChain.Evaluation`.
-/
import ParameterChain.Bisection
import ParameterChain.Declaration
import ParameterChain.Token
import ParameterChain.Units
import ParameterChain.Value

namespace ParameterChain

/-! ## Functions of time -/

inductive TimeFunction where
  | linear
  | sqrt
  | exponent
  | sine
  | cosine
  | step
  deriving DecidableEq, Repr

namespace TimeFunction

def all : List TimeFunction :=
  [.linear, .sqrt, .exponent, .sine, .cosine, .step]

def title : TimeFunction → String
  | .linear => "Linear"
  | .sqrt => "Sqrt"
  | .exponent => "Exponent"
  | .sine => "Sine"
  | .cosine => "Cosine"
  | .step => "Step"

/-- The function of a given name, in either case. -/
def ofName? (name : String) : Option TimeFunction :=
  all.find? fun f => Text.sameAscii f.title name

/-- The outer function `g` of `g (rate * t + start)`. -/
def apply : TimeFunction → Float → Float
  | .linear | .step => id
  | .sqrt => Float.sqrt
  | .exponent => Float.exp
  | .sine => Float.sin
  | .cosine => Float.cos

def isTrigonometric : TimeFunction → Bool
  | .sine | .cosine => true
  | _ => false

end TimeFunction

/-! ## Features -/

structure TimeFeature where
  base : Name
  function : TimeFunction
  /-- The kind of the `Value` parameter. -/
  kind : Kind
  unit : Option String
  deriving DecidableEq, Repr

namespace TimeFeature

def key (f : TimeFeature) : Key := f.base.key

/-- The name of an input of the feature, or of its `Value`. -/
def input (f : TimeFeature) (name : String) : String :=
  f.base.text ++ "/" ++ name

/-- The name of the parameter that holds the feature's value. -/
def valueName (f : TimeFeature) : String :=
  f.input "Value"

/-- The raw value that the `Value` parameter is given.  It is shown in listings
and never evaluated. -/
def placeholder (f : TimeFeature) : String :=
  match f.unit, f.kind with
  | some unit, _ => "0.000000001 " ++ unit
  | none, ⟨.boolean, false⟩ => "\"True\""
  | none, ⟨.text, false⟩ => "\"null\""
  | none, ⟨.integer, false⟩ => "0"
  | none, _ => "0.000000001"

/-- The category of the feature's unit. -/
def category? (f : TimeFeature) : Option String :=
  f.unit.bind MeasureUnit.category?

end TimeFeature

/-! ## Features of declarations -/

/-- What a declaration says about a feature. -/
inductive FeatureSource where
  | function
  | values
  deriving DecidableEq, Repr

/-- The base of the feature that a key declares and in which of the two ways; keys
of twelve bytes or fewer declare none. -/
def Key.featureBase? (k : Key) : Option (Key × FeatureSource) :=
  if k.text.utf8ByteSize ≤ 12 || !k.startsWith "tf/" then none
  else
    match k.dropEnd? "/values" with
    | some base => some (base, .values)
    | none => (k.dropEnd? "/function").map (·, .function)

/-- The characters of `cs` that take up the first `n` bytes, if a character ends
there. -/
def takeBytes? : Nat → List Char → Option (List Char)
  | 0, _ => some []
  | _ + 1, [] => none
  | n + 1, c :: cs =>
      if c.utf8Size ≤ n + 1 then (takeBytes? (n + 1 - c.utf8Size) cs).map (c :: ·) else none
termination_by _ cs => cs.length

/-- The base of a feature in the spelling of its declaration: the beginning of the
name that is as long as the base. -/
def Declaration.spellingOf (d : Declaration) (base : Key) : Name :=
  match takeBytes? base.text.utf8ByteSize d.name.text.toList with
  | some cs => Name.ofText (String.ofList cs)
  | none => Name.ofText base.text

namespace TimeFeature

/-- The text inside the quotes that a raw value begins with. -/
def quotedText? (rawValue : String) : Option (List Char) :=
  match Text.trimmed rawValue.toList with
  | '"' :: rest =>
      match rest.span (· ≠ '"') with
      | (_, []) => none
      | (inner, _) => some inner
  | _ => none

/-- The feature that the raw value of `base/Function` describes: a quoted name of
a function and its unit.  A step function makes no feature of its own, for it is
driven by `Values`. -/
def ofFunction (base : Name) (rawValue : String) : Except Cause (Option TimeFeature) :=
  match quotedText? rawValue with
  | none => .error .functionNotText
  | some inner =>
      let tokens := (Text.words inner).map String.ofList
      let name := tokens.head?.getD ""
      let unit := tokens.tail.head?.getD ""
      if Number.isReal unit then .error (.functionUnitIsNumber unit)
      else if Text.sameAscii name "step" then .ok none
      else if Text.sameAscii unit "boolean" || Text.sameAscii unit "string" then
        .error .functionNeedsStep
      else
        match TimeFunction.ofName? name with
        | none => .error (.unknownFunction name)
        | some function =>
            if function.isTrigonometric && !unit.isEmpty then
              .error (.functionMustBeUnitless function.title)
            else if unit.isEmpty then
              .ok (some ⟨base, function, Kind.one .unitless, none⟩)
            else if (MeasureUnit.ofSymbol? unit).isSome then
              .ok (some ⟨base, function, Kind.one .dimensioned, some unit⟩)
            else .error (.unrecognizedUnit unit)

/-- The unit that closes a list of dimensioned values. -/
def closingUnit (token : String) : Except Cause String :=
  if token.isEmpty then .error .missingUnit
  else if Number.isReal token then .error (.numberForUnit token)
  else if (MeasureUnit.ofSymbol? token).isSome then .ok token
  else .error (.unrecognizedUnit token)

/-- The step feature that the kind and the raw value of `base/Values` describe. -/
def ofValues (base : Name) (kind : Kind) (rawValue : String) : Except Cause TimeFeature := do
  if !kind.isVector then
    throw .stepValuesNotVector
  let tokens := Token.ofValue rawValue
  let first := tokens.head?.getD ""
  match Number.integerOf? first with
  | none => throw (.countNotInteger first)
  | some n =>
      if n < 0 then
        throw .countNegative
      let count := n.toInt.toNat
      if tokens.length < count + 1 then
        throw (.tooFewValues count (tokens.length - 1))
      if kind.hasUnit then
        let unit ← closingUnit (tokens[count + 1]?.getD "")
        return ⟨base, .step, kind.element, some unit⟩
      return ⟨base, .step, kind.element, none⟩

/-- The feature that a declaration describes, if it describes one.  A table of
values whose kind is not known yet describes none. -/
def ofDeclaration (d : Declaration) : Except Cause (Option TimeFeature) :=
  match d.key.featureBase? with
  | none => .ok none
  | some (base, .function) => ofFunction (d.spellingOf base) d.rawValue
  | some (base, .values) =>
      match d.kind with
      | none => .ok none
      | some k => (ofValues (d.spellingOf base) k d.rawValue).map some

/-! ## The clock -/

/-- The time within its period: a time that has run past a period is reduced to
what is left after whole periods. -/
def wrap (t period : Float) : Float :=
  if 0 < period && period ≤ t then Number.remainder t period else t

/-- The position of the value that is active at `t`.  The breakpoints are ordered
by time; the active one is the first strictly after `t`, or the latest if there
is none.  Breakpoints that are no numbers stand before all others, and `t` is not
past them: among such ones the halving decides. -/
def stepIndex (times : List Float) (t : Float) : Nat :=
  let table := times.zipIdx.mergeSort fun a b => Number.totalLe a.1 b.1
  let passed := countPassed (fun entry => entry.1 ≤ t) table
  ((table[min passed (table.length - 1)]?).map Prod.snd).getD 0

/-- The value of a closed-form feature at `t`, given its inputs. -/
def closedForm (f : TimeFeature) (t start rate : Float) : Value :=
  let x := f.function.apply (rate * t + start)
  if f.kind = Kind.one .dimensioned then Value.dimensioned x else Value.unitless x

/-- The value of a step feature at `t`, given its breakpoints and values. -/
def stepValue (times : List Float) (values : Value) (t : Float) : Except Cause Value :=
  match times.getLast? with
  | none => .error (.stepLengths times.length values.size)
  | some period =>
      if times.length ≠ values.size then .error (.stepLengths times.length values.size)
      else
        match values.element? (stepIndex times (wrap t period)) with
        | some v => .ok v
        | none => .error .stepValuesNotVector

end TimeFeature

end ParameterChain
