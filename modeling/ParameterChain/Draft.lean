/-
# Drafts

The draft of a file is the list of parameters that its declarations resolve to,
in the order of the declarations, before any of them is stored.  Values are
resolved along the chain above the file, and a name is first looked for among the
declarations of the file itself.

A draft is refused when

  * a contested name is given a relative value;
  * a dimensioned parameter and a dimensioned parameter that it reads have units
    of different categories;
  * the sides of an operator on vectors have different lengths, as far as both
    lengths can be told from declarations alone.
-/
import ParameterChain.Outline
import ParameterChain.Resolution

namespace ParameterChain

namespace Graph

/-! ## Resolving declarations -/

/-- What can be known about names while the declaration of `k` in `f` is
resolved. -/
def scope (g : Graph) (f : FileId) (ds : Declarations) (k : Key) : Scope where
  kindOf name := ((ds.get? name).bind Declaration.kind).or ((g.find? f name).map Parameter.kind)
  inheritedUnit := (g.above? f k).bind Parameter.unit

/-- The plan and the unit of a declaration of kind `k`. -/
def planOf (g : Graph) (limits : Limits) (f : FileId) (o : Outline) (d : Declaration) (k : Kind) :
    Attempt Resolved := do
  match o.featureAt? d.key with
  | some feature => return ⟨.feature feature.key, feature.unit⟩
  | none =>
      let resolved ← ({ declaration := d
                        kind := k
                        scope := g.scope f o.declarations d.key
                        maxLength := limits.vectorLength } : Resolution).resolve
      if o.contested.contains d.key && resolved.plan.isRelative then
        throw (d.locate Cause.mustBeAbsolute.failure)
      return resolved

/-- The parameter that a declaration resolves to. -/
def draftOf (g : Graph) (limits : Limits) (f : FileId) (o : Outline) (d : Declaration) :
    Attempt Parameter := do
  match d.kind with
  | none => throw (d.locate Cause.unknownKind.failure)
  | some k =>
      let resolved ← g.planOf limits f o d k
      return {
        name := d.name
        kind := k
        changeable := d.changeable
        unit := resolved.unit
        rawValue := d.rawValue
        file := f
        plan := resolved.plan }

/-! ## Agreement of units -/

/-- The parameter that a reference in the plan of `p` reads, seen from the file
`f` with the draft `drafts`. -/
def draftTarget? (g : Graph) (f : FileId) (drafts : List Parameter) (p : Parameter) :
    Ref → Option Parameter
  | .named name => (rowOf? Parameter.key name.key drafts).or (g.find? f name.key)
  | .inherited => g.above? f p.key

/-- The cause why the units of `p` and `q` disagree, if they do. -/
def disagreement? (p q : Parameter) : Option Cause :=
  if p.kind.hasUnit && q.kind.hasUnit then
    match p.category?, q.category? with
    | some category, some other =>
        if category = other then none else some (.unitDisagreement q.name.text category other)
    | _, _ => none
  else none

/-- Refuses a parameter whose unit disagrees with one that it reads. -/
def checkUnits (g : Graph) (f : FileId) (drafts : List Parameter) (p : Parameter) :
    Attempt Unit :=
  let targets := p.plan.refs.filterMap (g.draftTarget? f drafts p)
  match targets.findSome? (disagreement? p) with
  | some c => .error ((c.failure.about p.qualified).withValue p.rawValue)
  | none => .ok ()

/-! ## Agreement of lengths -/

/-- How many references are followed to find a length out. -/
def lengthHops : Nat := 64

/-- The length of a vector operand, given that of each reference. -/
def operandLength? (ofRef : Ref → Option Nat) : Operand → Option Nat
  | .literal v => if v.kind.isVector then some v.size else none
  | .list _ elements => some elements.length
  | .param r => ofRef r

/-- The length of a stored or drafted vector as far as declarations tell it, with
at most `fuel` parameters looked at. -/
def declaredLength? (g : Graph) : Nat → Parameter → Option Nat
  | 0, _ => none
  | fuel + 1, p =>
      let ofRef := fun r => (g.draftTarget? p.file [] p r).bind (g.declaredLength? fuel)
      if p.kind.isVector then
        match p.plan with
        | .literal v => some v.size
        | .list _ elements => some elements.length
        | .reference r => ofRef r
        | .binary lhs _ rhs => (operandLength? ofRef lhs).or (operandLength? ofRef rhs)
        | .feature _ => none
      else none

/-- Refuses a vector whose operands have different lengths. -/
def checkLengths (g : Graph) (f : FileId) (drafts : List Parameter) (p : Parameter) :
    Attempt Unit :=
  let ofRef := fun r => (g.draftTarget? f drafts p r).bind (g.declaredLength? lengthHops)
  match p.kind.isVector, p.plan with
  | true, .binary lhs _ rhs =>
      match operandLength? ofRef lhs, operandLength? ofRef rhs with
      | some left, some right =>
          if left = right then .ok ()
          else
            let cause := Cause.lengthMismatch (p.operandName rhs) left right
            .error ((cause.failure.about p.qualified).withValue p.rawValue)
      | _, _ => .ok ()
  | _, _ => .ok ()

/-! ## Drafts -/

/-- The draft of the file `f` with outline `o`: first every value is resolved, then
all units are compared, then all lengths. -/
def draft (g : Graph) (limits : Limits) (f : FileId) (o : Outline) : Attempt (List Parameter) := do
  let drafts ← o.declarations.rows.mapM (g.draftOf limits f o)
  drafts.forM (g.checkUnits f drafts)
  drafts.forM (g.checkLengths f drafts)
  return drafts

end Graph

end ParameterChain
