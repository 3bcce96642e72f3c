/-
# Resolving values

A raw value is read as one of a few positional forms, which differ from kind to
kind (`ParameterChain.Failure.Forms` lists them).  The first token tells a literal
from a name, the operator after it tells the forms apart, and at most one
operator is accepted.  What follows a complete form must begin with the comment
character.

A name is judged by what it has in the scope of its file: the declarations of the
file itself, then the chain above it.  The word `InheritedValue` and a parameter's
own name refer to the parameter of that name above the file; they count as a name
of whatever kind is asked for, which lets through what the forms have no room for
(`ParameterChain.Proofs.SelfReference`).

Each reader below takes the tokens that are left and returns what it read with
the tokens left after it.
-/
import ParameterChain.Declaration
import ParameterChain.Limits
import ParameterChain.Parameter
import ParameterChain.Token
import ParameterChain.Units

namespace ParameterChain

/-- The pseudo-name of a parameter's own inherited value, in lower case. -/
def inheritedName : String := "inheritedvalue"

/-- What can be known about names while one declaration is resolved. -/
structure Scope where
  /-- The kind of a name in the file and the chain above it. -/
  kindOf : Key → Option Kind
  /-- The unit of the parameter of the same name above the file. -/
  inheritedUnit : Option String

/-- A plan and the unit that it was written with. -/
structure Resolved where
  plan : Plan
  unit : Option String := none

/-- A declaration whose value is being resolved. -/
structure Resolution where
  declaration : Declaration
  kind : Kind
  scope : Scope
  /-- The longest vector that is accepted. -/
  maxLength : Nat

namespace Resolution

abbrev Tokens := List String

/-- A reader of tokens. -/
abbrev Reader (α : Type) := Tokens → Except Cause (α × Tokens)

/-! ## Tokens -/

/-- The next token, an empty one at the end. -/
def take : Tokens → String × Tokens
  | [] => ("", [])
  | t :: ts => (t, ts)

/-- The next token as an operator, if it is one of `ops`. -/
def operator? (ops : List Operator) : Tokens → Option (Operator × Tokens)
  | [] => none
  | t :: ts =>
      match Operator.ofToken? t with
      | some op => if ops.contains op then some (op, ts) else none
      | none => none

def real (token : String) : Except Cause Float :=
  match Number.realOf? token with
  | some x => .ok x
  | none => .error (.notANumber token)

def integer (token : String) : Except Cause Int64 :=
  match Number.integerOf? token with
  | some n => .ok n
  | none => .error (.notAnInteger token)

/-- The text of a token that begins with a double quote. -/
def quoted (token : String) : Except Cause String :=
  match Token.quoted? token with
  | some t => .ok t
  | none => .error .unterminatedText

/-- The first `count` tokens.  No room is set aside for them beforehand: what becomes of a
program that does so and cannot have it, for a huge `count` which unlimited vectors
allow, is not described. -/
def values (count : Nat) : Reader (List String) := fun ts =>
  if ts.length < count then .error (.tooFewValues count ts.length)
  else .ok (ts.take count, ts.drop count)

/-- Refuses a quoted token where the number of values belongs. -/
def requireCount (token : String) : Except Cause Unit :=
  if Token.opensQuote token then .error (.countNotInteger token) else .ok ()

/-! ## Names -/

variable (r : Resolution)

/-- A token that stands for the declaration's own inherited value. -/
def isSelf (token : String) : Bool :=
  Text.sameAscii token inheritedName || Key.ofText token == r.declaration.key

/-- The kind of the parameter that a token names. -/
def kindOf? (token : String) : Option Kind :=
  if r.isSelf token then some r.kind else r.scope.kindOf (Key.ofText token)

/-- Whether a token names a parameter of one of `kinds`. -/
def names (kinds : List Kind) (token : String) : Bool :=
  (r.kindOf? token).any kinds.contains

/-- A reference to a parameter of one of `kinds`. -/
def reference (kinds : List Kind) (token : String) : Except Cause Ref :=
  if token.isEmpty then .error .missingOperand
  else if r.isSelf token then .ok .inherited
  else
    match r.scope.kindOf (Key.ofText token) with
    | none => .error (.unknownReference token)
    | some found =>
        if kinds.contains found then .ok (.named (Name.ofText token))
        else .error (.wrongReferenceKind token found kinds)

/-- A reference read from the next token. -/
def nextReference (kinds : List Kind) : Reader Ref := fun ts => do
  let (token, ts) := take ts
  return (← r.reference kinds token, ts)

/-! ## Units -/

/-- The unit that a token stands for.  It must be of the category of the unit
that the parameter of the same name has above the file. -/
def unit (token : String) : Except Cause MeasureUnit :=
  if token.isEmpty || token.toList.head? = some '#' then .error .missingUnit
  else if Number.isReal token then .error (.numberForUnit token)
  else
    match MeasureUnit.ofSymbol? token with
    | none => .error (.unrecognizedUnit token)
    | some u =>
        match r.scope.inheritedUnit.bind MeasureUnit.category? with
        | none => .ok u
        | some category =>
            if category = u.category then .ok u
            else .error (.unitDiffersFromParent token u.category category)

/-- A unit read from the next token. -/
def nextUnit : Reader MeasureUnit := fun ts => do
  let (token, ts) := take ts
  return (← r.unit token, ts)

/-! ## Counts and lists -/

/-- The number of values that a vector starts with. -/
def count (token : String) : Except Cause Nat :=
  match Number.integerOf? token with
  | none => .error (.countNotInteger token)
  | some n =>
      if n < 0 then .error .countNegative
      else if n < 1 then .error .countZero
      else
        let n := n.toInt.toNat
        if r.maxLength < n then .error (.vectorTooLong n r.maxLength) else .ok n

/-- The element of a list of sort `s` that a token stands for; `factor` is the
size of the unit of the list. -/
def element (s : Scalar) (factor : Float) (token : String) : Except Cause (Element s) :=
  match s with
  | .dimensioned =>
      if Number.isReal token then return .literal ((← real token) * factor)
      else return .param (← r.reference [Kind.one .dimensioned] token)
  | .unitless =>
      if Number.isReal token then return .literal (← real token)
      else return .param (← r.reference [Kind.one .unitless, Kind.one .integer] token)
  | .integer =>
      if Number.isReal token then return .literal (← integer token)
      else return .param (← r.reference [Kind.one .integer] token)
  | .boolean =>
      match Token.boolean? token with
      | some b => return .literal b
      | none => return .param (← r.reference [Kind.one .boolean] token)
  | .text =>
      if Token.opensQuote token then return .literal (← quoted token)
      else if r.names [Kind.one .text, Kind.one .integer] token then
        return .param (← r.reference [Kind.one .text, Kind.one .integer] token)
      else return .literal token

/-- The elements that a list of tokens stands for. -/
def elements (s : Scalar) (factor : Float) (tokens : Tokens) : Except Cause (List (Element s)) :=
  tokens.mapM (r.element s factor)

def listOperand (s : Scalar) (factor : Float) (tokens : Tokens) : Except Cause Operand := do
  return Operand.ofElements (← r.elements s factor tokens)

def listPlan (s : Scalar) (factor : Float) (tokens : Tokens) : Except Cause Plan := do
  return Plan.ofElements (← r.elements s factor tokens)

/-- The count at the head of a vector and as many tokens after it. -/
def countedValues (first : String) : Reader (List String) := fun ts => do
  values (← r.count first) ts

/-! ## Scalar values -/

/-- A dimensioned value that begins with the number `x`. -/
def dimensionedAfterNumber (x : Float) : Reader Resolved := fun ts => do
  match operator? [.multiply] ts with
  | some (_, ts) =>
      -- number * name unit
      let (rhs, ts) ← r.nextReference [Kind.one .dimensioned] ts
      let (u, ts) ← r.nextUnit ts
      return (⟨.binary (.literal (.unitless x)) .multiply (.param rhs), u.symbol⟩, ts)
  | none =>
      let (u, ts) ← r.nextUnit ts
      let literal := Value.dimensioned (x * u.factor)
      match operator? [.add, .subtract, .multiply] ts with
      | none => return (⟨.literal literal, u.symbol⟩, ts)
      | some (op, ts) =>
          -- number unit + name, number unit * name
          let kinds :=
            if op = .multiply then [Kind.one .unitless, Kind.one .integer]
            else [Kind.one .dimensioned]
          let (rhs, ts) ← r.nextReference kinds ts
          return (⟨.binary (.literal literal) op (.param rhs), u.symbol⟩, ts)

/-- A dimensioned value that begins with the name `first`. -/
def dimensionedAfterName (first : String) : Reader Resolved := fun ts => do
  match operator? [.add, .subtract, .multiply] ts with
  | some (.multiply, ts) =>
      -- name * number unit
      let lhs ← r.reference [Kind.one .unitless, Kind.one .integer] first
      let (second, ts) := take ts
      let x ← real second
      let (u, ts) ← r.nextUnit ts
      let literal := Value.dimensioned (x * u.factor)
      return (⟨.binary (.param lhs) .multiply (.literal literal), u.symbol⟩, ts)
  | some (op, ts) =>
      let lhs ← r.reference [Kind.one .dimensioned] first
      let (second, ts) := take ts
      if Number.isReal second then
        -- name + number unit
        let x ← real second
        let (u, ts) ← r.nextUnit ts
        let literal := Value.dimensioned (x * u.factor)
        return (⟨.binary (.param lhs) op (.literal literal), u.symbol⟩, ts)
      else
        -- name + name unit
        let rhs ← r.reference [Kind.one .dimensioned] second
        let (u, ts) ← r.nextUnit ts
        return (⟨.binary (.param lhs) op (.param rhs), u.symbol⟩, ts)
  | none =>
      let lhs ← r.reference [Kind.one .dimensioned] first
      let (u, ts) ← r.nextUnit ts
      match operator? [.multiply] ts with
      | none => return (⟨.reference lhs, u.symbol⟩, ts)
      | some (op, ts) =>
          let (second, ts) := take ts
          if Number.isReal second then
            -- name unit * number
            let x ← real second
            return (⟨.binary (.param lhs) op (.literal (.unitless x)), u.symbol⟩, ts)
          else
            -- name unit * name
            let rhs ← r.reference [Kind.one .unitless, Kind.one .integer] second
            return (⟨.binary (.param lhs) op (.param rhs), u.symbol⟩, ts)

def dimensioned : Reader Resolved := fun ts => do
  let (first, ts) := take ts
  if Number.isReal first then r.dimensionedAfterNumber (← real first) ts
  else r.dimensionedAfterName first ts

def unitless : Reader Resolved := fun ts => do
  let kinds := [Kind.one .unitless, Kind.one .integer]
  let (first, ts) := take ts
  if Number.isReal first then
    let lhs := Value.unitless (← real first)
    match operator? [.add, .subtract, .multiply] ts with
    | none => return ({ plan := .literal lhs }, ts)
    | some (op, ts) =>
        let (rhs, ts) ← r.nextReference kinds ts
        return ({ plan := .binary (.literal lhs) op (.param rhs) }, ts)
  else
    let lhs ← r.reference kinds first
    match operator? [.add, .subtract, .multiply] ts with
    | none => return ({ plan := .reference lhs }, ts)
    | some (op, ts) =>
        let (second, ts) := take ts
        if Number.isReal second then
          let rhs := Value.unitless (← real second)
          return ({ plan := .binary (.param lhs) op (.literal rhs) }, ts)
        else
          let rhs ← r.reference kinds second
          return ({ plan := .binary (.param lhs) op (.param rhs) }, ts)

/-- The kinds that may follow an integer and an operator: only a product may have
a unitless factor. -/
def integerOperandKinds (op : Operator) : List Kind :=
  if op = .multiply then [Kind.one .integer, Kind.one .unitless] else [Kind.one .integer]

def integerValue : Reader Resolved := fun ts => do
  let (first, ts) := take ts
  if Number.isReal first then
    let lhs := Value.integer (← integer first)
    match operator? [.add, .subtract, .multiply] ts with
    | none => return ({ plan := .literal lhs }, ts)
    | some (op, ts) =>
        let (rhs, ts) ← r.nextReference (integerOperandKinds op) ts
        return ({ plan := .binary (.literal lhs) op (.param rhs) }, ts)
  else
    match operator? [.add, .subtract, .multiply] ts with
    | none =>
        let lhs ← r.reference [Kind.one .integer, Kind.one .unitless] first
        return ({ plan := .reference lhs }, ts)
    | some (op, ts) =>
        let lhs ← r.reference [Kind.one .integer] first
        let (second, ts) := take ts
        if Number.isReal second then
          let rhs := Value.integer (← integer second)
          return ({ plan := .binary (.param lhs) op (.literal rhs) }, ts)
        else
          let rhs ← r.reference (integerOperandKinds op) second
          return ({ plan := .binary (.param lhs) op (.param rhs) }, ts)

def boolean : Reader Resolved := fun ts => do
  let kinds := [Kind.one .boolean]
  let (first, ts) := take ts
  if r.names kinds first then
    let lhs ← r.reference kinds first
    match operator? [.multiply] ts with
    | none => return ({ plan := .reference lhs }, ts)
    | some (op, ts) =>
        let (rhs, ts) ← r.nextReference kinds ts
        return ({ plan := .binary (.param lhs) op (.param rhs) }, ts)
  else
    match Token.boolean? first with
    | some b => return ({ plan := .literal (.boolean b) }, ts)
    | none =>
        -- A path that is not quoted was meant as a name.
        if first.toList.contains '/' && !Token.isQuoted first then
          let _ ← r.reference kinds first
        throw (.notABoolean first)

def text : Reader Resolved := fun ts => do
  let kinds := [Kind.one .integer, Kind.one .text]
  let (first, ts) := take ts
  if Token.opensQuote first then
    let lhs := Value.text (← quoted first)
    match operator? [.add] ts with
    | none => return ({ plan := .literal lhs }, ts)
    | some (op, ts) =>
        let (rhs, ts) ← r.nextReference kinds ts
        return ({ plan := .binary (.literal lhs) op (.param rhs) }, ts)
  else
    let lhs ← r.reference kinds first
    match operator? [.add] ts with
    | none => return ({ plan := .reference lhs }, ts)
    | some (op, ts) =>
        let (second, ts) := take ts
        if Token.opensQuote second then
          let rhs := Value.text (← quoted second)
          return ({ plan := .binary (.param lhs) op (.literal rhs) }, ts)
        else
          let rhs ← r.reference kinds second
          return ({ plan := .binary (.param lhs) op (.param rhs) }, ts)

/-! ## Vector values -/

/-- A dimensioned vector that begins with the number `first`. -/
def dimensionedsAfterNumber (first : String) : Reader Resolved := fun ts => do
  match operator? [.multiply] ts with
  | some (op, ts) =>
      -- number * name unit
      let x ← real first
      let (rhs, ts) ← r.nextReference [Kind.many .dimensioned] ts
      let (u, ts) ← r.nextUnit ts
      return (⟨.binary (.literal (.unitless x)) op (.param rhs), u.symbol⟩, ts)
  | none =>
      let (raw, ts) ← r.countedValues first ts
      match operator? [.multiply] ts with
      | some (op, ts) =>
          -- count values * name unit
          let (rhs, ts) ← r.nextReference [Kind.one .dimensioned, Kind.many .dimensioned] ts
          let (u, ts) ← r.nextUnit ts
          let lhs ← r.listOperand .unitless 1 raw
          return (⟨.binary lhs op (.param rhs), u.symbol⟩, ts)
      | none =>
          let (u, ts) ← r.nextUnit ts
          match operator? [.add, .subtract, .multiply] ts with
          | none => return (⟨← r.listPlan .dimensioned u.factor raw, u.symbol⟩, ts)
          | some (op, ts) =>
              -- count values unit + name, count values unit * name
              let kinds :=
                if op = .multiply then
                  [Kind.one .unitless, Kind.one .integer, Kind.many .unitless, Kind.many .integer]
                else [Kind.one .dimensioned, Kind.many .dimensioned]
              let (rhs, ts) ← r.nextReference kinds ts
              let lhs ← r.listOperand .dimensioned u.factor raw
              return (⟨.binary lhs op (.param rhs), u.symbol⟩, ts)

/-- A dimensioned vector that begins with the name `first`. -/
def dimensionedsAfterName (first : String) : Reader Resolved := fun ts => do
  match operator? [.multiply] ts with
  | some (op, ts) =>
      if r.names [Kind.many .dimensioned] first then
        -- name * count values unit
        let lhs ← r.reference [Kind.many .dimensioned] first
        let (second, ts) := take ts
        let (raw, ts) ← r.countedValues second ts
        let (u, ts) ← r.nextUnit ts
        let rhs ← r.listOperand .unitless 1 raw
        return (⟨.binary (.param lhs) op rhs, u.symbol⟩, ts)
      else
        -- name * name unit
        let lhs ← r.reference [Kind.one .unitless, Kind.one .integer] first
        let (rhs, ts) ← r.nextReference [Kind.many .dimensioned] ts
        let (u, ts) ← r.nextUnit ts
        return (⟨.binary (.param lhs) op (.param rhs), u.symbol⟩, ts)
  | none =>
      let lhs ← r.reference [Kind.many .dimensioned] first
      let (u, ts) ← r.nextUnit ts
      return (⟨.reference lhs, u.symbol⟩, ts)

def dimensioneds : Reader Resolved := fun ts => do
  let (first, ts) := take ts
  if Number.isReal first then r.dimensionedsAfterNumber first ts
  else
    requireCount first
    r.dimensionedsAfterName first ts

/-- A vector that begins with a name: the name of a vector of the sort `s`, or
the product of a scalar of one of `factors` and such a vector. -/
def vectorAfterName (s : Scalar) (factors : List Kind) (first : String) : Reader Resolved :=
  fun ts => do
    requireCount first
    match operator? [.multiply] ts with
    | some (op, ts) =>
        let lhs ← r.reference factors first
        let (rhs, ts) ← r.nextReference [Kind.many s] ts
        return ({ plan := .binary (.param lhs) op (.param rhs) }, ts)
    | none => return ({ plan := .reference (← r.reference [Kind.many s] first) }, ts)

/-- A vector that begins with its count: a list of values of the sort `s`, alone
or joined by one of `ops` to a parameter of one of `kinds`. -/
def vectorAfterCount (s : Scalar) (ops : List Operator) (kinds : List Kind) (first : String) :
    Reader Resolved := fun ts => do
  let (raw, ts) ← r.countedValues first ts
  match operator? ops ts with
  | none => return ({ plan := ← r.listPlan s 1 raw }, ts)
  | some (op, ts) =>
      let (rhs, ts) ← r.nextReference kinds ts
      let lhs ← r.listOperand s 1 raw
      return ({ plan := .binary lhs op (.param rhs) }, ts)

/-- The product of a literal scalar and a vector of the sort `s`. -/
def scaledVector (s : Scalar) (factor : Value) : Reader Resolved := fun ts => do
  let (rhs, ts) ← r.nextReference [Kind.many s] ts
  return ({ plan := .binary (.literal factor) .multiply (.param rhs) }, ts)

def unitlesses : Reader Resolved := fun ts => do
  let (first, ts) := take ts
  if Number.isReal first then
    match operator? [.multiply] ts with
    | some (_, ts) => r.scaledVector .unitless (.unitless (← real first)) ts
    | none =>
        r.vectorAfterCount .unitless [.add, .subtract, .multiply]
          [Kind.one .unitless, Kind.one .integer, Kind.many .unitless, Kind.many .integer] first ts
  else r.vectorAfterName .unitless [Kind.one .unitless, Kind.one .integer] first ts

def integers : Reader Resolved := fun ts => do
  let (first, ts) := take ts
  if Number.isInteger first then
    match operator? [.multiply] ts with
    | some (_, ts) => r.scaledVector .integer (.integer (← integer first)) ts
    | none =>
        r.vectorAfterCount .integer [.add, .subtract, .multiply]
          [Kind.one .integer, Kind.many .integer] first ts
  else if Number.isReal first then throw (.countNotInteger first)
  else r.vectorAfterName .integer [Kind.one .integer] first ts

def booleans : Reader Resolved := fun ts => do
  let (first, ts) := take ts
  if Number.isInteger first then r.vectorAfterCount .boolean [] [] first ts
  else
    requireCount first
    return ({ plan := .reference (← r.reference [Kind.many .boolean] first) }, ts)

def texts : Reader Resolved := fun ts => do
  let (first, ts) := take ts
  if Number.isInteger first then
    r.vectorAfterCount .text [.add]
      [Kind.one .integer, Kind.one .text, Kind.many .integer, Kind.many .text] first ts
  else
    requireCount first
    return ({ plan := .reference (← r.reference [Kind.many .text] first) }, ts)

/-! ## Whole values -/

/-- The form that a value of each kind begins with. -/
def form : Reader Resolved :=
  match r.kind with
  | ⟨.boolean, false⟩ => r.boolean
  | ⟨.integer, false⟩ => r.integerValue
  | ⟨.unitless, false⟩ => r.unitless
  | ⟨.dimensioned, false⟩ => r.dimensioned
  | ⟨.text, false⟩ => r.text
  | ⟨.boolean, true⟩ => r.booleans
  | ⟨.integer, true⟩ => r.integers
  | ⟨.unitless, true⟩ => r.unitlesses
  | ⟨.dimensioned, true⟩ => r.dimensioneds
  | ⟨.text, true⟩ => r.texts

/-- What may follow a complete form: nothing, or a token that begins with the
comment character. -/
def endsValue : Tokens → Bool
  | [] => true
  | t :: _ => t.toList.head? = some '#'

/-- The plan and the unit that the tokens of a value stand for. -/
def ofTokens (ts : Tokens) : Except Cause Resolved :=
  if ts.isEmpty then .error .emptyValue
  else
    match r.form ts with
    | .error c => .error c
    | .ok (resolved, rest) =>
        if endsValue rest then .ok resolved else .error (.trailingTokens r.kind.isVector)

/-- The kinds of failure that are explained by listing the accepted forms. -/
def isExplainedByForms : FailureKind → Bool
  | .invalidValue | .trailingTokens | .typeMismatch | .missingUnit => true
  | _ => false

/-- A cause that arose in the value, with the declaration and the accepted
forms. -/
def failure (c : Cause) : Failure :=
  let d := { r.declaration with kind := some r.kind }
  let f := d.locate c.failure
  if isExplainedByForms c.kind && c.hint?.isNone then f.advising r.kind.forms else f

/-- The plan and the unit that the raw value of the declaration stands for. -/
def resolve : Attempt Resolved :=
  (r.ofTokens (Token.ofValue r.declaration.rawValue)).mapError r.failure

end Resolution

end ParameterChain
