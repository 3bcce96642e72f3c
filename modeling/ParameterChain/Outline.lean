/-
# Outlines

The outline of a file is what is known of its declarations before their values
are looked at:

  * a declaration without a kind takes the kind and the marker of the parameter
    that the includes show under its name; one with a kind must agree with them.
    In the transient file the earlier edits and the whole chain below them take
    the place of the includes;
  * every declaration of a time feature adds a declaration of its `Value`;
  * the names that the includes contest are listed (`ParameterChain.Graph.Arms`).

An outline does not depend on parent links, so it is the same whether the chain
of the file has been made linear or not.
-/
import ParameterChain.Graph.Arms

namespace ParameterChain

/-- The declarations of a file with their kinds, and what they imply. -/
structure Outline where
  declarations : Declarations
  /-- The time features declared, in the order of their declarations. -/
  features : List TimeFeature
  /-- The names that must be given absolute values. -/
  contested : List Key

/-! ## Kinds -/

/-- Judge a declaration against a parameter of the same name below it. -/
def Declaration.inherit (inTransient : Bool) (d : Declaration) (p : Parameter) :
    Attempt Declaration :=
  match d.kind with
  | none => .ok { d with kind := some p.kind, changeable := p.changeable }
  | some k =>
      if k ≠ p.kind then .error (d.locate (Cause.kindDiffers p.kind k).failure)
      else if d.changeable ≠ p.changeable then
        let cause := if inTransient then Cause.overridesFixed else Cause.changeableDiffers
        .error (d.locate cause.failure)
      else .ok d

namespace Graph

/-- The files from which the names declared in `f` inherit. -/
def rootsOf (g : Graph) (f : FileId) : List FileId :=
  if f = transientFile then [transientFile] else g.includesOf f

/-- What the roots of `f` show of a name, one parameter for each that shows it. -/
def ancestors (g : Graph) (f : FileId) (k : Key) : List Parameter :=
  (g.rootsOf f).filterMap fun root => g.firstFound? root k

/-- The declarations of `f` with the kinds that they inherit. -/
def inheritKinds (g : Graph) (f : FileId) (ds : Declarations) : Attempt Declarations := do
  let rows ← ds.rows.mapM fun d =>
    (g.ancestors f d.key).foldlM (Declaration.inherit (f == transientFile)) d
  return { ds with rows }

end Graph

/-! ## Time features -/

/-- A feature with the line of the declaration it was read off. -/
structure Declarations.FeatureRow where
  feature : TimeFeature
  line : Nat

/-- The features that the declarations describe. -/
def Declarations.featureRows (ds : Declarations) : Attempt (List Declarations.FeatureRow) := do
  let rows ← ds.rows.mapM fun d =>
    match TimeFeature.ofDeclaration d with
    | .ok feature => .ok (feature.map fun feature => ⟨feature, d.line⟩)
    | .error c => .error (d.locate c.failure)
  return rows.reduceOption

/-- The declaration of the value of a feature. -/
def TimeFeature.valueDeclaration (f : TimeFeature) (line : Nat) : Declaration where
  name := Name.ofText f.valueName
  kind := some f.kind
  rawValue := f.placeholder
  changeable := true
  line := line

/-! ## Outlines -/

/-- The outline of the declarations `ds` of the file `f`. -/
def Graph.outline (g : Graph) (f : FileId) (ds : Declarations) : Attempt Outline := do
  let contested ← g.contested f ds
  let ds ← g.inheritKinds f ds
  let rows ← ds.featureRows
  return {
    declarations := rows.foldl (fun ds row => ds.insert (row.feature.valueDeclaration row.line)) ds
    features := rows.map Declarations.FeatureRow.feature
    contested }

/-- The feature whose value is declared under a key; of two, the later one. -/
def Outline.featureAt? (o : Outline) (k : Key) : Option TimeFeature :=
  o.features.reverse.find? fun f => Key.ofText f.valueName = k

end ParameterChain
