/-
# Where a value of a kind may stand for itself

The inherited value of a parameter has the kind of the parameter, yet the resolver takes it at
any place of a form where a name may stand.  Read strictly, the grammar has no room for it where
a name of another kind is asked for.  What resolves is derived strictly exactly if the plan does
not misplace the inherited value (`Form.Derives.strict_iff`), which can be told from the plan:

  * no list has room for it, for its elements are scalars and the parameter is a vector;
  * a dimensioned number, and a list of them, is multiplied by unitless numbers or integers only;
  * a vector is multiplied from the left by a scalar.

A product of two dimensioned operands comes about in no other way
(`Form.Derives.misplaces_of_product`).
-/
import ParameterChain.Proofs.Unambiguous

namespace ParameterChain

/-! ## Misplaced inherited values -/

/-- The operand is the inherited value or a list with the inherited value in it. -/
def Operand.inherits (o : Operand) : Bool :=
  o.refs.contains .inherited

/-- A list with the inherited value in it. -/
def Look.mixes (look : Look) (inherits : Bool) : Bool :=
  match look with
  | .values _ => inherits
  | _ => false

/-- Whether a parameter of kind `k` has no room for its inherited value where the plan has it:
in a list, as a factor of something dimensioned, or as a factor before a vector.  Each operand
is given by its look and whether it inherits. -/
def Kind.misplaces (k : Kind) (lhs : Look × Bool) (rest : Option (Operator × Look × Bool)) :
    Bool :=
  lhs.1.mixes lhs.2 || rest.any (fun rest => rest.2.1.mixes rest.2.2) ||
    match k, lhs, rest with
    | ⟨.dimensioned, false⟩, (_, true), some (.multiply, .literal .dimensioned, _) => true
    | ⟨.dimensioned, false⟩, (look, _), some (.multiply, .name, true) => look != .literal .unitless
    | ⟨.dimensioned, true⟩, (.values .dimensioned, _), some (.multiply, .name, true) => true
    | ⟨.unitless, true⟩, (.name, true), some _ => true
    | ⟨.integer, true⟩, (.name, true), some _ => true
    | _, _, _ => false

theorem Operand.inherits_ofElements {s : Scalar} {elements : List (Element s)} :
    (Operand.ofElements elements).inherits = true ↔
      ∃ e ∈ elements, e.ref? = some .inherited := by
  rw [ofElements]
  split
  · next v hv =>
    -- All elements are literals, and these refer to nothing.
    obtain ⟨xs, hxs, rfl⟩ := Option.map_eq_some_iff.mp hv
    constructor
    · intro h
      cases h
    · rintro ⟨e, he, href⟩
      obtain ⟨x, -, hx⟩ := exists_right_of_forall₂ (forall₂_of_mapM_eq_some hxs) he
      cases e with
      | literal x => cases href
      | param ref => cases hx
  · simp [inherits, refs, List.mem_filterMap]

/-- The plan has the inherited value where a parameter of kind `k` has no room for it. -/
def Plan.Misplaces (k : Kind) (plan : Plan) : Prop :=
  (plan.lhs?.any fun lhs => k.misplaces (lhs.look, lhs.inherits)
    (plan.rest?.map fun rest => (rest.1, rest.2.look, rest.2.inherits))) = true

instance (k : Kind) : DecidablePred (Plan.Misplaces k) :=
  fun _ => inferInstanceAs (Decidable (_ = true))

theorem Plan.misplaces_toPlan {k : Kind} (o : Operand) :
    o.toPlan.Misplaces k ↔ k.misplaces (o.look, o.inherits) none = true := by
  simp [Misplaces, Operand.lhs?_toPlan, Operand.rest?_toPlan]

theorem Plan.misplaces_binary {k : Kind} (lhs : Operand) (op : Operator) (rhs : Operand) :
    (Plan.binary lhs op rhs).Misplaces k ↔
      k.misplaces (lhs.look, lhs.inherits) (some (op, rhs.look, rhs.inherits)) = true := by
  simp [Misplaces, Plan.lhs?, Plan.rest?]

/-! ## Admission -/

/-- The place has room for an operand that inherits, if the parameter is of kind `k`.  A name
that chooses the form is of a kind that is asked for. -/
def Place.admits (k : Kind) : Place → Bool → Bool
  | .literal _, _ => true
  | .name kinds _ chosen, inherits => !inherits || chosen || kinds.contains k
  | .values _ _, inherits => !inherits

/-- Among the forms of a kind those have no room for the inherited value that misplace it. -/
theorem Kind.grammar_admits (k : Kind) : ∀ f ∈ k.grammar, ∀ a b : Bool,
    (f.lhs.admits k a && f.rest.all fun rest => rest.2.admits k b) =
      !k.misplaces (f.lhs.look, a) (f.rest.map fun rest => (rest.1, rest.2.look, b)) := by
  obtain ⟨s, isVector⟩ := k
  cases s <;> cases isVector <;> decide +kernel

namespace Resolution

variable {r : Resolution} {strict : Bool} {factor : Float} {place : Place} {kinds : List Kind}
  {s : Scalar} {t : String} {ts raw : Tokens} {o : Operand} {ref : Ref}

/-- A reference is taken strictly, unless it inherits and another kind is asked for. -/
theorem Refers.strict_iff (h : r.Refers strict kinds t ref) :
    r.Refers true kinds t ref ↔ ref = .inherited → r.kind ∈ kinds := by
  cases h with
  | self hne hself _ =>
    constructor
    · rintro (⟨-, -, hkind⟩ | _) -
      exact hkind rfl
    · exact fun hkind => .self hne hself fun _ => hkind rfl
  | named hne hself hk hmem => exact ⟨fun _ => nofun, fun _ => .named hne hself hk hmem⟩

/-- A parameter that is a vector is no element of its lists. -/
theorem Lists.ref?_ne {e : Element s} (hk : r.kind.isVector = true)
    (h : r.Lists true factor t e) : e.ref? ≠ some .inherited := by
  have helements : ∀ k ∈ s.elementKinds, k.isVector = false := by cases s <;> decide
  cases h with
  | literal _ => nofun
  | bare _ _ => nofun
  | @name _ _ ref _ href =>
    rw [Bool.true_or] at href
    intro heq
    cases heq
    have hmem : r.kind ∈ s.elementKinds := href.strict_iff.mp href rfl
    rw [helements _ hmem] at hk
    cases hk

theorem Lists.toStrict {e : Element s} (h : r.Lists false factor t e)
    (he : e.ref? ≠ some .inherited) : r.Lists true factor t e := by
  cases h with
  | literal hx => exact .literal hx
  | bare hquote hnames => exact .bare hquote hnames
  | name hspelling href =>
    refine .name hspelling ?_
    rw [Bool.true_or]
    exact href.strict_iff.mpr fun heq => absurd (congrArg some heq) he

theorem forall₂_toStrict {elements : List (Element s)}
    (h : List.Forall₂ (r.Lists false factor) raw elements)
    (helements : ∀ e ∈ elements, e.ref? ≠ some .inherited) :
    List.Forall₂ (r.Lists true factor) raw elements := by
  induction h with
  | nil => exact .nil
  | cons he _ ih =>
    obtain ⟨hfirst, hrest⟩ := List.forall_mem_cons.mp helements
    exact .cons (he.toStrict hfirst) (ih hrest)

/-- Where something stands strictly there is room for it. -/
theorem Stands.admits (hk : place.look.mixes true = true → r.kind.isVector = true)
    (h : r.Stands true factor place ts o) : place.admits r.kind o.inherits = true := by
  cases h with
  | literal _ _ => rfl
  | @name kinds barred chosen t ref _ href =>
    rw [Bool.true_or] at href
    cases ref with
    | named name => rfl
    | inherited =>
      have hmem := href.strict_iff.mp href rfl
      simp [Place.admits, hmem]
  | @values s starred t raw elements _ _ helements =>
    have hk := hk rfl
    rw [Place.admits, Bool.not_eq_true', Bool.eq_false_iff, ne_eq, Operand.inherits_ofElements]
    rintro ⟨e, he, href⟩
    obtain ⟨t', -, hlists⟩ := exists_left_of_forall₂ helements he
    exact hlists.ref?_ne hk href

theorem Stands.toStrict (h : r.Stands false factor place ts o)
    (hadmits : place.admits r.kind o.inherits = true) : r.Stands true factor place ts o := by
  cases h with
  | literal hx hnames => exact .literal hx hnames
  | @name kinds barred chosen t ref hbarred href =>
    refine .name hbarred ?_
    rw [Bool.true_or]
    cases chosen with
    | true => exact href
    | false =>
      refine href.strict_iff.mpr ?_
      rintro rfl
      exact List.contains_iff_mem.mp hadmits
  | @values s starred t raw elements hcount hstar helements =>
    refine .values hcount hstar ?_
    rw [Place.admits, Bool.not_eq_true', Bool.eq_false_iff, ne_eq,
      Operand.inherits_ofElements] at hadmits
    push Not at hadmits
    exact forall₂_toStrict helements hadmits

end Resolution

namespace Form

open Resolution

variable {r : Resolution} {f : Form} {ts : Tokens} {res : Resolved}

/-- Lists are found among the forms of vectors. -/
theorem isVector_of_mixes {k : Kind} (hf : f ∈ k.grammar) :
    (f.lhs.look.mixes true = true → k.isVector = true) ∧
      ∀ rest, f.rest = some rest → rest.2.look.mixes true = true → k.isVector = true := by
  have hall : ∀ f ∈ k.grammar, k.isVector = true ∨
      f.lhs.look.mixes true = false ∧ f.rest.all (fun rest => !rest.2.look.mixes true) = true := by
    obtain ⟨s, isVector⟩ := k
    cases s <;> cases isVector <;> decide +kernel
  rcases hall f hf with hk | ⟨hlhs, hrest⟩
  · exact ⟨fun _ => hk, fun _ _ _ => hk⟩
  · refine ⟨fun h => absurd h (by simp [hlhs]), fun rest heq h => ?_⟩
    rw [heq] at hrest
    simp [h] at hrest

/-- What is derived is derived strictly exactly if the plan does not misplace what inherits. -/
theorem Derives.strict_iff (hf : f ∈ r.kind.grammar) (h : f.Derives r false ts res) :
    f.Derives r true ts res ↔ ¬ res.plan.Misplaces r.kind := by
  have htable := r.kind.grammar_admits f hf
  obtain ⟨hvector, hvector'⟩ := isVector_of_mixes hf
  cases h with
  | @alone lhs unit ls inner o u hu ho =>
    have hplan : ¬ o.toPlan.Misplaces r.kind ↔ lhs.admits r.kind o.inherits = true := by
      have htable := htable o.inherits false
      rw [Option.all_none, Bool.and_true] at htable
      rw [Plan.misplaces_toPlan, ho.look, htable, Option.map_none]
      simp
    rw [hplan]
    constructor
    · intro hstrict
      obtain ⟨_, _, o', hlhs, ho'⟩ := hstrict.lhs
      cases (Operand.lhs?_toPlan o).symm.trans hlhs
      exact ho'.admits hvector
    · exact fun hadmits => .alone hu (ho.toStrict hadmits)
  | @joined lhs rhs unit op ls rs inner outer o o' u hu ho ho' =>
    have hplan : ¬ (Plan.binary o op o').Misplaces r.kind ↔
        lhs.admits r.kind o.inherits = true ∧ rhs.admits r.kind o'.inherits = true := by
      have htable := htable o.inherits o'.inherits
      rw [Option.all_some] at htable
      rw [Plan.misplaces_binary, ho.look, ho'.look, ← Bool.and_eq_true, htable, Option.map_some]
      simp
    rw [hplan]
    constructor
    · intro hstrict
      obtain ⟨_, _, _, hlhs, hstands⟩ := hstrict.lhs
      cases hlhs
      have hrest := hstrict.rest
      cases hrest with
      | some hrest =>
        obtain ⟨-, _, _, hstands'⟩ := hrest
        exact ⟨hstands.admits hvector, hstands'.admits (hvector' _ rfl)⟩
    · exact fun ⟨hadmits, hadmits'⟩ => .joined hu (ho.toStrict hadmits) (ho'.toStrict hadmits')

end Form

/-! ## Products of dimensioned operands -/

/-- A literal of the place, or a parameter that it names, has a dimension. -/
def Place.isDimensioned : Place → Bool
  | .literal s => s == .dimensioned
  | .name kinds _ _ => kinds.any fun k => k.scalar == .dimensioned
  | .values s _ => s == .dimensioned

/-- No form multiplies two places that have a dimension. -/
theorem Kind.grammar_products (k : Kind) : ∀ f ∈ k.grammar, f.rest.all (fun rest =>
    !(rest.1 == .multiply && f.lhs.isDimensioned && rest.2.isDimensioned)) = true := by
  obtain ⟨s, isVector⟩ := k
  cases s <;> cases isVector <;> decide +kernel

namespace Resolution

variable {r : Resolution} {factor : Float} {place : Place} {ts : Tokens} {o o' : Operand}
  {f : Form} {res : Resolved}

/-- The operand has a dimension: it is such a value or list, or it refers to a parameter of such
a kind.  What is inherited is of the kind of the declaration. -/
def Dimensioned (r : Resolution) : Operand → Prop
  | .literal v => v.scalar = .dimensioned
  | .list s _ => s = .dimensioned
  | .param .inherited => r.kind.scalar = .dimensioned
  | .param (.named name) => ∃ k, r.scope.kindOf name.key = some k ∧ k.scalar = .dimensioned

theorem Dimensioned.values {s : Scalar} (h : r.Dimensioned o) (hlook : o.look = .values s) :
    s = .dimensioned := by
  unfold Operand.look at hlook
  split at hlook <;> cases hlook <;> exact h

/-- What has a dimension stands, strictly, at a place that has one. -/
theorem Stands.isDimensioned (h : r.Stands true factor place ts o) (ho : r.Dimensioned o) :
    place.isDimensioned = true := by
  cases h with
  | literal _ _ => exact beq_iff_eq.mpr ho
  | values hcount hstar helements =>
    exact beq_iff_eq.mpr (ho.values (Operand.look_ofElements _))
  | name _ href =>
    rw [Bool.true_or] at href
    refine List.any_eq_true.mpr ?_
    cases href with
    | self _ _ hkind => exact ⟨r.kind, hkind rfl, beq_iff_eq.mpr ho⟩
    | named _ _ hk hmem =>
      obtain ⟨k', hk', hscalar⟩ := ho
      cases hk.symm.trans hk'
      exact ⟨_, hmem, beq_iff_eq.mpr hscalar⟩

end Resolution

open Resolution in
/-- A product of two operands that have a dimension misplaces the inherited value. -/
theorem Form.Derives.misplaces_of_product {r : Resolution} {f : Form} {ts : Tokens}
    {unit : Option String} {o o' : Operand} (hf : f ∈ r.kind.grammar)
    (h : f.Derives r false ts ⟨.binary o .multiply o', unit⟩) (ho : r.Dimensioned o)
    (ho' : r.Dimensioned o') : (Plan.binary o .multiply o').Misplaces r.kind := by
  by_contra hplan
  have hstrict := (h.strict_iff hf).mpr hplan
  obtain ⟨_, _, _, hlhs, hstands⟩ := hstrict.lhs
  cases hlhs
  have hrest := hstrict.rest
  have hproducts := r.kind.grammar_products f hf
  generalize f.rest = rest at hrest hproducts
  cases hrest with
  | some hrest =>
    obtain ⟨hop, _, _, hstands'⟩ := hrest
    have hop : _ = Operator.multiply := hop
    simp [hop, hstands.isDimensioned ho, hstands'.isDimensioned ho'] at hproducts

end ParameterChain
