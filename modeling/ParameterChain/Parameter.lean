/-
# Parameters and plans

Resolving a declaration gives a parameter: its value is not computed but put
down as a *plan*, which is followed at every read.  A plan is

  * a literal value;
  * a list of elements, some of them names of parameters;
  * a reference to another parameter;
  * two operands joined by an operator;
  * the value of a time feature.

A reference is to a named parameter, which is looked up through the whole chain
at every read, or to the *inherited* value: the parameter of the same name above
the file that declares this one.

Elements of a list are typed by the sort of the list, so the literal among them
need no check when they are collected.
-/
import ParameterChain.Name
import ParameterChain.Operator
import ParameterChain.Units
import ParameterChain.Value

namespace ParameterChain

/-- The position of a file among the files of a graph. -/
abbrev FileId := Nat

/-- What a reference reads. -/
inductive Ref where
  /-- The parameter of that name, seen through the whole chain. -/
  | named (name : Name)
  /-- The parameter of the same name, seen from above the declaring file. -/
  | inherited
  deriving DecidableEq, Repr

/-- An element of a list of scalars of sort `s`. -/
inductive Element (s : Scalar) where
  | literal (x : s.Carrier)
  | param (r : Ref)
  deriving DecidableEq

/-- The scalar of an element that is a literal. -/
def Element.literal? {s : Scalar} : Element s → Option s.Carrier
  | .literal x => some x
  | .param _ => none

/-- What an element refers to. -/
def Element.ref? {s : Scalar} : Element s → Option Ref
  | .literal _ => none
  | .param r => some r

/-- The vector that a list of elements is if all of them are literals. -/
def literalVector? {s : Scalar} (elements : List (Element s)) : Option Value :=
  (elements.mapM Element.literal?).map fun xs => ⟨s, .many xs⟩

/-- One side of an operator. -/
inductive Operand where
  | literal (v : Value)
  | list (s : Scalar) (elements : List (Element s))
  | param (r : Ref)

/-- How a parameter gets its value. -/
inductive Plan where
  | literal (v : Value)
  | list (s : Scalar) (elements : List (Element s))
  | reference (r : Ref)
  | binary (lhs : Operand) (op : Operator) (rhs : Operand)
  /-- The time feature with that base. -/
  | feature (base : Key)

/-- The operand that a list of elements is: a literal if all of them are. -/
def Operand.ofElements {s : Scalar} (elements : List (Element s)) : Operand :=
  match literalVector? elements with
  | some v => .literal v
  | none => .list s elements

/-- The plan that a list of elements is: a literal if all of them are. -/
def Plan.ofElements {s : Scalar} (elements : List (Element s)) : Plan :=
  match literalVector? elements with
  | some v => .literal v
  | none => .list s elements

/-- What an operand that is a reference refers to. -/
def Operand.ref? : Operand → Option Ref
  | .param r => some r
  | _ => none

/-- Every reference of an operand, in order. -/
def Operand.refs : Operand → List Ref
  | .literal _ => []
  | .list _ elements => elements.filterMap Element.ref?
  | .param r => [r]

/-- Every reference of a plan, in order. -/
def Plan.refs : Plan → List Ref
  | .literal _ => []
  | .list _ elements => elements.filterMap Element.ref?
  | .reference r => [r]
  | .binary lhs _ rhs => lhs.refs ++ rhs.refs
  | .feature _ => []

/-- Whether a plan depends on another parameter as a whole, as opposed to giving
a value outright. -/
def Plan.isRelative : Plan → Bool
  | .literal _ | .list _ _ => false
  | .reference _ | .binary _ _ _ | .feature _ => true

/-- A place where a parameter is stored. -/
structure Slot where
  file : FileId
  key : Key
  deriving DecidableEq, Repr

/-- A resolved parameter. -/
structure Parameter where
  name : Name
  kind : Kind
  changeable : Bool
  /-- The unit it was declared with, for dimensioned kinds. -/
  unit : Option String
  rawValue : String
  /-- The file that declares it. -/
  file : FileId
  plan : Plan

namespace Parameter

def key (p : Parameter) : Key := p.name.key

/-- Where the parameter is stored.  No two parameters of a graph share a slot, so
it serves as the identity of a parameter. -/
def slot (p : Parameter) : Slot := ⟨p.file, p.key⟩

/-- The name with its kind, as it is shown in failures (`dc:Ge/Box/HLX`). -/
def qualified (p : Parameter) : String :=
  p.kind.marked p.changeable ++ ":" ++ p.name.text

/-- The category of the parameter's unit. -/
def category? (p : Parameter) : Option String :=
  p.unit.bind MeasureUnit.category?

/-- What a reference in the plan of `p` is called when it reads nothing. -/
def targetName (p : Parameter) : Ref → String
  | .named name => name.text
  | .inherited => p.name.text

/-- The operand of the plan of `p` that is named when two operands do not fit: the
right one, if it is a named parameter. -/
def operandName (p : Parameter) (rhs : Operand) : String :=
  match rhs.ref? with
  | some r => p.targetName r
  | none => p.name.text

end Parameter

end ParameterChain
