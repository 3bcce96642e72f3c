/-
# The forms of values as a grammar

The forms that a failed value is answered with (`Kind.forms`) are lines of text.  Here they
are data: a form is one place, or two places joined by an operator, with the place of the
unit.  At a place stands a literal, a name or a list of values.  `forms_eq` says that the
text is what the data look like when they are written out.

A form *derives* some tokens as a plan (`Form.Derives`).  Where a token could be read in two
ways the places say which one counts:

  * a name gives way to the literals that could stand in its place (`Place.name`, `barred`),
    but a boolean literal gives way to the name of a boolean parameter;
  * where the kind of a name chooses the form, the declaration's own name has the kind of the
    declaration (`chosen`), and anywhere else any kind that is asked for, unless the grammar
    is read strictly;
  * a number before a `*` is a factor and no count (`starred`).
-/
import ParameterChain.Failure.Forms
import ParameterChain.Proofs.Success
import ParameterChain.Resolution

namespace ParameterChain

/-! ## Places -/

/-- The looks by which a literal is told from a name. -/
inductive Spelling where
  | number
  | integer
  | quote
  | truth
  deriving DecidableEq, Repr

def Spelling.test : Spelling → String → Bool
  | .number => Number.isReal
  | .integer => Number.isInteger
  | .quote => Token.opensQuote
  | .truth => fun t => (Token.boolean? t).isSome

/-- What may stand at a place of a form. -/
inductive Place where
  /-- A literal of a sort. -/
  | literal (s : Scalar)
  /-- The name of a parameter of one of `kinds`.  A token spelled in one of the `barred` ways
  is none; if `chosen`, the kind of the name chooses the form. -/
  | name (kinds : List Kind) (barred : List Spelling) (chosen : Bool)
  /-- A count and as many values; the first may be a `*` only if `starred`. -/
  | values (s : Scalar) (starred : Bool)
  deriving DecidableEq, Repr

/-- Where the unit of a form stands. -/
inductive UnitPlace where
  | absent
  /-- After the first place. -/
  | inner
  /-- After the second place. -/
  | outer
  deriving DecidableEq, Repr

/-- One form of a value. -/
structure Form where
  lhs : Place
  unit : UnitPlace
  rest : Option (Operator × Place)
  deriving DecidableEq, Repr

namespace Form

/-- A form that is a single place. -/
def alone (lhs : Place) (unit : UnitPlace := .absent) : List Form :=
  [⟨lhs, unit, none⟩]

/-- The forms that join two places by one of the operators. -/
def joined (lhs : Place) (ops : List Operator) (rhs : Place) (unit : UnitPlace := .absent) :
    List Form :=
  ops.map fun op => ⟨lhs, unit, some (op, rhs)⟩

end Form

/-! ## The grammar -/

section Grammar

open Form Place Kind

/-- All operators. -/
def Operator.all : List Operator := [.add, .subtract, .multiply]

/-- The forms of the values of a scalar kind. -/
def Scalar.scalarGrammar : Scalar → List Form
  | .boolean =>
      alone (literal .boolean) ++
      alone (name [one .boolean] [] true) ++
      joined (name [one .boolean] [] true) [.multiply] (name [one .boolean] [] false)
  | .integer =>
      let integer := literal .integer
      let first := name [one .integer] [.number] true
      alone integer ++
      joined integer Operator.all (name [one .integer] [] true) ++
      joined integer [.multiply] (name [one .unitless] [] true) ++
      alone first ++
      alone (name [one .unitless] [.number] true) ++
      joined first Operator.all integer ++
      joined first Operator.all (name [one .integer] [.number] true) ++
      joined first [.multiply] (name [one .unitless] [.number] true)
  | .unitless =>
      let number := literal .unitless
      let factor := name [one .unitless, one .integer]
      alone number ++
      joined number Operator.all (factor [] false) ++
      alone (factor [.number] false) ++
      joined (factor [.number] false) Operator.all number ++
      joined (factor [.number] false) Operator.all (factor [.number] false)
  | .dimensioned =>
      let factor := name [one .unitless, one .integer]
      let dimensioned := name [one .dimensioned]
      alone (literal .dimensioned) .inner ++
      joined (literal .dimensioned) [.add, .subtract] (dimensioned [] false) .inner ++
      joined (literal .dimensioned) [.multiply] (factor [] false) .inner ++
      joined (literal .unitless) [.multiply] (dimensioned [] false) .outer ++
      alone (dimensioned [.number] false) .inner ++
      joined (dimensioned [.number] false) [.multiply] (literal .unitless) .inner ++
      joined (dimensioned [.number] false) [.multiply] (factor [.number] false) .inner ++
      joined (factor [.number] false) [.multiply] (literal .dimensioned) .outer ++
      joined (dimensioned [.number] false) [.add, .subtract] (literal .dimensioned) .outer ++
      joined (dimensioned [.number] false) [.add, .subtract] (dimensioned [.number] false) .outer
  | .text =>
      let part := name [one .integer, one .text]
      alone (literal .text) ++
      joined (literal .text) [.add] (part [] false) ++
      alone (part [.quote] false) ++
      joined (part [.quote] false) [.add] (literal .text) ++
      joined (part [.quote] false) [.add] (part [.quote] false)

/-- The forms of the values of a vector kind. -/
def Scalar.vectorGrammar : Scalar → List Form
  | .boolean =>
      alone (values .boolean true) ++
      alone (name [many .boolean] [.integer, .quote] false)
  | .integer =>
      alone (values .integer false) ++
      joined (values .integer false) Operator.all
        (name [one .integer, many .integer] [] false) ++
      joined (literal .integer) [.multiply] (name [many .integer] [] false) ++
      alone (name [many .integer] [.number, .quote] false) ++
      joined (name [one .integer] [.number, .quote] false) [.multiply]
        (name [many .integer] [] false)
  | .unitless =>
      alone (values .unitless false) ++
      joined (values .unitless false) Operator.all
        (name [one .unitless, one .integer, many .unitless, many .integer] [] false) ++
      joined (literal .unitless) [.multiply] (name [many .unitless] [] false) ++
      alone (name [many .unitless] [.number, .quote] false) ++
      joined (name [one .unitless, one .integer] [.number, .quote] false) [.multiply]
        (name [many .unitless] [] false)
  | .dimensioned =>
      let first := name [many .dimensioned] [.number, .quote] true
      alone (values .dimensioned false) .inner ++
      joined (values .dimensioned false) [.add, .subtract]
        (name [one .dimensioned, many .dimensioned] [] false) .inner ++
      joined (values .dimensioned false) [.multiply]
        (name [one .unitless, one .integer, many .unitless, many .integer] [] false) .inner ++
      joined (values .unitless false) [.multiply]
        (name [one .dimensioned, many .dimensioned] [] false) .outer ++
      joined (literal .unitless) [.multiply] (name [many .dimensioned] [] false) .outer ++
      alone first .inner ++
      joined first [.multiply] (values .unitless true) .outer ++
      joined (name [one .unitless, one .integer] [.number, .quote] true) [.multiply]
        (name [many .dimensioned] [] false) .outer
  | .text =>
      alone (values .text true) ++
      joined (values .text true) [.add]
        (name [one .integer, one .text, many .integer, many .text] [] false) ++
      alone (name [many .text] [.integer, .quote] false)

/-- The forms of the values of a kind. -/
def Kind.grammar (k : Kind) : List Form :=
  if k.isVector then k.scalar.vectorGrammar else k.scalar.scalarGrammar

end Grammar

/-! ## Forms written out -/

/-- A kind as it is called in the name of a place. -/
def Kind.phrase (k : Kind) : String :=
  (match k.scalar with
    | .boolean => "boolean"
    | .integer => "integer"
    | .unitless => "unitless"
    | .dimensioned => "double"
    | .text => "string") ++ if k.isVector then "_vector" else ""

def Place.phrase : Place → String
  | .literal .boolean => "\"True\", \"False\", \"T\" or \"F\""
  | .literal .integer => "integer"
  | .literal .unitless | .literal .dimensioned => "number"
  | .literal .text => "\"string\""
  | .name kinds _ _ => "name_of_" ++ "_or_".intercalate (kinds.map Kind.phrase) ++ "_parameter"
  | .values _ _ => "number_of_values value1 value2 ... valueN"

def Form.phrase (f : Form) : String :=
  " ".intercalate ([f.lhs.phrase] ++ (if f.unit = .inner then ["unit"] else []) ++
    (match f.rest with
      | none => []
      | some (op, rhs) => [op.symbol.toString, rhs.phrase]) ++
    if f.unit = .outer then ["unit"] else [])

/-- The forms that a failed value is answered with are those of the grammar, in this order. -/
theorem forms_eq (k : Kind) :
    k.forms = "\n  ".intercalate
      ((k.scalar.title ++ (if k.isVector then " vector" else "") ++
        " parameters may have values of the following forms:") ::
          k.grammar.map Form.phrase) := by
  have hforms : (if k.isVector then k.scalar.vectorForms else k.scalar.scalarForms) =
      k.grammar.map Form.phrase := by
    obtain ⟨s, isVector⟩ := k
    cases s <;> cases isVector <;> decide +kernel
  rw [Kind.forms, hforms]

/-! ## Derivations -/

/-- The scalar that a literal token spells; `factor` is the size of the unit that is written
with it. -/
def Scalar.read? (s : Scalar) (factor : Float) (t : String) : Option s.Carrier :=
  match s with
  | .dimensioned => (Number.realOf? t).map (· * factor)
  | .unitless => Number.realOf? t
  | .integer => Number.integerOf? t
  | .boolean => Token.boolean? t
  | .text => Token.quoted? t

/-- The literals that a name gives way to among the values of a list. -/
def Scalar.spelling : Scalar → Spelling
  | .dimensioned | .unitless | .integer => .number
  | .boolean => .truth
  | .text => .quote

/-- The kinds of the parameters that may be named among the values of a list. -/
def Scalar.elementKinds : Scalar → List Kind
  | .unitless => [Kind.one .unitless, Kind.one .integer]
  | .text => [Kind.one .text, Kind.one .integer]
  | s => [Kind.one s]

/-- The plan that a single operand is. -/
def Operand.toPlan : Operand → Plan
  | .literal v => .literal v
  | .list s elements => .list s elements
  | .param ref => .reference ref

/-- An operator as a token. -/
def Operator.token (op : Operator) : String :=
  op.symbol.toString

namespace Resolution

variable (r : Resolution) (strict : Bool)

/-- The token refers to a parameter of one of `kinds`.  The declaration's own name is taken to
be of any kind that is asked for, but if `strict` it has the kind of the declaration. -/
inductive Refers (kinds : List Kind) : String → Ref → Prop
  | self {t : String} : t ≠ "" → r.isSelf t = true → (strict = true → r.kind ∈ kinds) →
      Refers kinds t .inherited
  | named {t : String} {k : Kind} : t ≠ "" → r.isSelf t = false →
      r.scope.kindOf (Key.ofText t) = some k → k ∈ kinds →
      Refers kinds t (.named (Name.ofText t))

/-- The token stands for an element of a list of scalars of sort `s`.  In a list of texts a
token without quotes that names no text or integer stands for itself. -/
inductive Lists (factor : Float) : {s : Scalar} → String → Element s → Prop
  | literal {s : Scalar} {t : String} {x : s.Carrier} :
      s.read? factor t = some x → Lists factor t (.literal x)
  | name {s : Scalar} {t : String} {ref : Ref} : s.spelling.test t = false →
      r.Refers (strict || s = .text) s.elementKinds t ref → Lists factor (s := s) t (.param ref)
  | bare {t : String} : Token.opensQuote t = false →
      r.names (Scalar.elementKinds .text) t = false → Lists factor (s := .text) t (.literal t)

/-- The token is the count of a list of `n` values. -/
def Counts (t : String) (n : Nat) : Prop :=
  (Number.integerOf? t).map Int64.toInt = some (n : Int) ∧ 1 ≤ n ∧ n ≤ r.maxLength

/-- The tokens stand for an operand at a place. -/
inductive Stands (factor : Float) : Place → Tokens → Operand → Prop
  | literal {s : Scalar} {t : String} {x : s.Carrier} : s.read? factor t = some x →
      (s = .boolean → r.names [Kind.one .boolean] t = false) →
      Stands factor (.literal s) [t] (.literal ⟨s, .one x⟩)
  | name {kinds : List Kind} {barred : List Spelling} {chosen : Bool} {t : String} {ref : Ref} :
      (∀ spelling ∈ barred, spelling.test t = false) →
      r.Refers (strict || chosen) kinds t ref →
      Stands factor (.name kinds barred chosen) [t] (.param ref)
  | values {s : Scalar} {starred : Bool} {t : String} {raw : Tokens}
      {elements : List (Element s)} : r.Counts t raw.length →
      (starred = false → raw.head? ≠ some Operator.multiply.token) →
      List.Forall₂ (r.Lists strict factor) raw elements →
      Stands factor (.values s starred) (t :: raw) (.ofElements elements)

/-- The token is a unit, of the category of the unit that is inherited if there is one. -/
def Measures (t : String) (u : MeasureUnit) : Prop :=
  MeasureUnit.ofSymbol? t = some u ∧
    ∀ category, r.scope.inheritedUnit.bind MeasureUnit.category? = some category →
      category = u.category

/-- The tokens after the first and after the second place of a form are its unit. -/
inductive Placed : UnitPlace → Tokens → Tokens → Option MeasureUnit → Prop
  | absent : Placed .absent [] [] none
  | inner {t : String} {u : MeasureUnit} : r.Measures t u → Placed .inner [t] [] (some u)
  | outer {t : String} {u : MeasureUnit} : r.Measures t u → Placed .outer [] [t] (some u)

/-- The size of the unit that a value is written with. -/
def scale (u : Option MeasureUnit) : Float :=
  u.elim 1 MeasureUnit.factor

end Resolution

open Resolution in
/-- The form derives the tokens, which stand for the plan and the unit. -/
inductive Form.Derives (r : Resolution) (strict : Bool) : Form → Tokens → Resolved → Prop
  | alone {lhs : Place} {unit : UnitPlace} {ts inner : Tokens} {o : Operand}
      {u : Option MeasureUnit} : r.Placed unit inner [] u → r.Stands strict (scale u) lhs ts o →
      Derives r strict ⟨lhs, unit, none⟩ (ts ++ inner) ⟨o.toPlan, u.map MeasureUnit.symbol⟩
  | joined {lhs rhs : Place} {unit : UnitPlace} {op : Operator} {ts ts' inner outer : Tokens}
      {o o' : Operand} {u : Option MeasureUnit} : r.Placed unit inner outer u →
      r.Stands strict (scale u) lhs ts o → r.Stands strict (scale u) rhs ts' o' →
      Derives r strict ⟨lhs, unit, some (op, rhs)⟩
        (ts ++ inner ++ op.token :: ts' ++ outer)
        ⟨.binary o op o', u.map MeasureUnit.symbol⟩

end ParameterChain
