/-
# The units of dimensioned values

Every form of a dimensioned value ends with a unit, and whichever form it is, the unit is
read by `Resolution.unit`: it is in the table, and of the category of the unit that the
parameter of the same name has above the file, if that one has a unit of the table.  The
unit of a time feature is in the table, too.  So every dimensioned parameter that is stored
has a unit of some category.

Main statements: `resolve_measured` and `Rooted.measured`.
-/
import ParameterChain.Proofs.Features

namespace ParameterChain

/-! ## Values -/

namespace Resolution

variable {r : Resolution} {token first : String} {ts rest : Tokens} {res : Resolved}

/-- The unit has a category, that of the inherited unit if that one has a category. -/
def Measured (r : Resolution) (unit : Option String) : Prop :=
  ∃ category, unit.bind MeasureUnit.category? = some category ∧
    ∀ other, r.scope.inheritedUnit.bind MeasureUnit.category? = some other → other = category

theorem ofSymbol?_symbol {u : MeasureUnit} (h : MeasureUnit.ofSymbol? token = some u) :
    MeasureUnit.ofSymbol? u.symbol = some u := by
  have hsymbol : u.symbol = token := by simpa using List.find?_some h
  rw [hsymbol]
  exact h

theorem unit_measured {u : MeasureUnit} (h : r.unit token = .ok u) :
    r.Measured (some u.symbol) := by
  rw [unit] at h
  split at h
  · cases h
  split at h
  · cases h
  split at h
  · cases h
  next u' hu =>
  have hcategory : MeasureUnit.category? u'.symbol = some u'.category := by
    rw [MeasureUnit.category?, ofSymbol?_symbol hu, Option.map_some]
  split at h
  · next hnone =>
    cases h
    refine ⟨u.category, hcategory, ?_⟩
    intro other hother
    rw [hnone] at hother
    cases hother
  · next category hsome =>
    split at h
    · next hsame =>
      cases h
      refine ⟨u.category, hcategory, ?_⟩
      intro other hother
      rw [hsome] at hother
      cases hother
      exact hsame
    · cases h

theorem nextUnit_measured {u : MeasureUnit} (h : r.nextUnit ts = .ok (u, rest)) :
    r.Measured (some u.symbol) := by
  simp only [nextUnit, bind_eq_ok, pure_eq_ok, Prod.mk.injEq] at h
  obtain ⟨u', hunit, rfl, -⟩ := h
  exact unit_measured hunit

theorem dimensionedAfterNumber_measured {x : Float}
    (h : r.dimensionedAfterNumber x ts = .ok (res, rest)) : r.Measured res.unit := by
  rw [dimensionedAfterNumber] at h
  split at h
  · simp only [bind_eq_ok, Prod.exists, pure_eq_ok, Prod.mk.injEq] at h
    obtain ⟨rhs, ts, -, u, ts, hunit, rfl, -⟩ := h
    exact nextUnit_measured hunit
  · simp only [bind_eq_ok, Prod.exists] at h
    obtain ⟨u, ts, hunit, h⟩ := h
    split at h
    · cases pure_eq_ok.mp h
      exact nextUnit_measured hunit
    · simp only [bind_eq_ok, Prod.exists, pure_eq_ok, Prod.mk.injEq] at h
      obtain ⟨rhs, ts, -, rfl, -⟩ := h
      exact nextUnit_measured hunit

theorem dimensionedAfterName_measured (h : r.dimensionedAfterName first ts = .ok (res, rest)) :
    r.Measured res.unit := by
  rw [dimensionedAfterName] at h
  split at h
  · -- name * number unit
    simp only [bind_eq_ok, Prod.exists, pure_eq_ok, Prod.mk.injEq] at h
    obtain ⟨lhs, -, x, -, u, ts, hunit, rfl, -⟩ := h
    exact nextUnit_measured hunit
  · next op ts _ _ =>
    obtain ⟨lhs, -, h⟩ := bind_eq_ok.mp h
    generalize take ts = next at h
    obtain ⟨second, ts⟩ := next
    simp only at h
    split at h
    · -- name + number unit
      simp only [bind_eq_ok, Prod.exists, pure_eq_ok, Prod.mk.injEq] at h
      obtain ⟨x, -, u, ts, hunit, rfl, -⟩ := h
      exact nextUnit_measured hunit
    · -- name + name unit
      simp only [bind_eq_ok, Prod.exists, pure_eq_ok, Prod.mk.injEq] at h
      obtain ⟨rhs, -, u, ts, hunit, rfl, -⟩ := h
      exact nextUnit_measured hunit
  · simp only [bind_eq_ok, Prod.exists] at h
    obtain ⟨lhs, -, u, ts, hunit, h⟩ := h
    split at h
    · cases pure_eq_ok.mp h
      exact nextUnit_measured hunit
    · split at h
      · -- name unit * number
        simp only [bind_eq_ok, pure_eq_ok, Prod.mk.injEq] at h
        obtain ⟨x, -, rfl, -⟩ := h
        exact nextUnit_measured hunit
      · -- name unit * name
        simp only [bind_eq_ok, pure_eq_ok, Prod.mk.injEq] at h
        obtain ⟨rhs, -, rfl, -⟩ := h
        exact nextUnit_measured hunit

theorem dimensioned_measured (h : r.dimensioned ts = .ok (res, rest)) :
    r.Measured res.unit := by
  simp only [dimensioned] at h
  split at h
  · obtain ⟨x, -, h⟩ := bind_eq_ok.mp h
    exact dimensionedAfterNumber_measured h
  · exact dimensionedAfterName_measured h

theorem dimensionedsAfterNumber_measured
    (h : r.dimensionedsAfterNumber first ts = .ok (res, rest)) : r.Measured res.unit := by
  rw [dimensionedsAfterNumber] at h
  split at h
  · simp only [bind_eq_ok, Prod.exists, pure_eq_ok, Prod.mk.injEq] at h
    obtain ⟨x, -, rhs, ts, -, u, ts, hunit, rfl, -⟩ := h
    exact nextUnit_measured hunit
  · simp only [bind_eq_ok, Prod.exists] at h
    obtain ⟨raw, ts, -, h⟩ := h
    split at h
    · -- count values * name unit
      simp only [bind_eq_ok, Prod.exists, pure_eq_ok, Prod.mk.injEq] at h
      obtain ⟨rhs, ts, -, u, ts, hunit, lhs, -, rfl, -⟩ := h
      exact nextUnit_measured hunit
    · simp only [bind_eq_ok, Prod.exists] at h
      obtain ⟨u, ts, hunit, h⟩ := h
      split at h
      · simp only [bind_eq_ok, pure_eq_ok, Prod.mk.injEq] at h
        obtain ⟨plan, -, rfl, -⟩ := h
        exact nextUnit_measured hunit
      · -- count values unit + name, count values unit * name
        simp only [bind_eq_ok, Prod.exists, pure_eq_ok, Prod.mk.injEq] at h
        obtain ⟨rhs, ts, -, lhs, -, rfl, -⟩ := h
        exact nextUnit_measured hunit

theorem dimensionedsAfterName_measured
    (h : r.dimensionedsAfterName first ts = .ok (res, rest)) : r.Measured res.unit := by
  rw [dimensionedsAfterName] at h
  split at h
  · split at h
    · -- name * count values unit
      simp only [bind_eq_ok, Prod.exists, pure_eq_ok, Prod.mk.injEq] at h
      obtain ⟨lhs, -, raw, ts, -, u, ts, hunit, rhs, -, rfl, -⟩ := h
      exact nextUnit_measured hunit
    · -- name * name unit
      simp only [bind_eq_ok, Prod.exists, pure_eq_ok, Prod.mk.injEq] at h
      obtain ⟨lhs, -, rhs, ts, -, u, ts, hunit, rfl, -⟩ := h
      exact nextUnit_measured hunit
  · simp only [bind_eq_ok, Prod.exists, pure_eq_ok, Prod.mk.injEq] at h
    obtain ⟨lhs, -, u, ts, hunit, rfl, -⟩ := h
    exact nextUnit_measured hunit

theorem dimensioneds_measured (h : r.dimensioneds ts = .ok (res, rest)) :
    r.Measured res.unit := by
  simp only [dimensioneds] at h
  split at h
  · exact dimensionedsAfterNumber_measured h
  · simp only [bind_eq_ok] at h
    obtain ⟨-, -, h⟩ := h
    exact dimensionedsAfterName_measured h

/-- A value of a kind with units is resolved with a unit of the inherited category. -/
theorem resolve_measured (h : r.resolve = .ok res) (hkind : r.kind.hasUnit) :
    r.Measured res.unit := by
  obtain ⟨declaration, ⟨sort, isVector⟩, scope, maxLength⟩ := r
  have hsort : sort = .dimensioned := beq_iff_eq.mp hkind
  subst hsort
  rw [resolve, mapError_eq_ok, ofTokens] at h
  split at h
  · cases h
  split at h
  · cases h
  next res' rest hform =>
  split at h
  · cases h
    cases isVector with
    | false => exact dimensioned_measured hform
    | true => exact dimensioneds_measured hform
  · cases h

end Resolution

/-! ## Time features -/

namespace TimeFeature

variable {base : Name} {rawValue token unit : String} {kind : Kind} {d : Declaration}
  {feature : TimeFeature}

/-- If its values have units, the unit of the feature has a category. -/
def Measured (feature : TimeFeature) : Prop :=
  feature.kind.hasUnit → ∃ category, feature.category? = some category

theorem exists_category? (h : (MeasureUnit.ofSymbol? unit).isSome) :
    ∃ category, (some unit).bind MeasureUnit.category? = some category := by
  obtain ⟨u, hu⟩ := Option.isSome_iff_exists.mp h
  exact ⟨u.category, congrArg (Option.map _) hu⟩

theorem ofFunction_measured (h : ofFunction base rawValue = .ok (some feature)) :
    feature.Measured := by
  intro hunit
  simp only [ofFunction] at h
  split at h
  · cases h
  split at h
  · cases h
  split at h
  · cases h
  split at h
  · cases h
  split at h
  · cases h
  split at h
  · cases h
  split at h
  · cases h
    cases hunit
  split at h
  · next hsymbol =>
    cases h
    exact exists_category? hsymbol
  · cases h

theorem closingUnit_eq_ok (h : closingUnit token = .ok unit) :
    (MeasureUnit.ofSymbol? unit).isSome := by
  rw [closingUnit] at h
  split at h
  · cases h
  split at h
  · cases h
  split at h
  · next hsymbol =>
    cases h
    exact hsymbol
  · cases h

theorem ofValues_measured (h : ofValues base kind rawValue = .ok feature) :
    feature.Measured := by
  intro hunit
  simp only [ofValues] at h
  split at h
  · cases h
  split at h
  · cases h
  split at h
  · cases h
  split at h
  · cases h
  split at h
  · obtain ⟨unit, hclosing, h⟩ := bind_eq_ok.mp h
    cases pure_eq_ok.mp h
    exact exists_category? (closingUnit_eq_ok hclosing)
  · next hkind =>
    cases pure_eq_ok.mp h
    exact absurd hunit hkind

theorem ofDeclaration_measured (h : ofDeclaration d = .ok (some feature)) :
    feature.Measured := by
  rw [ofDeclaration] at h
  split at h
  · cases h
  · exact ofFunction_measured h
  · split at h
    · cases h
    · obtain ⟨feature', hvalues, heq⟩ := map_eq_ok.mp h
      cases heq
      exact ofValues_measured hvalues

end TimeFeature

/-! ## Parameters -/

namespace Graph

variable {g : Graph} {f h : FileId} {k : Key} {ds : Declarations} {limits : Limits}
  {done : Commit} {o : Outline} {p q : Parameter} {feature : TimeFeature}

theorem measured_of_mem_features (ho : g.outline f ds = .ok o) (hfeature : feature ∈ o.features) :
    feature.Measured := by
  obtain ⟨ks, ds', rows, -, -, hrows, rfl⟩ := outline_eq_ok.mp ho
  obtain ⟨row, hrow, rfl⟩ := List.mem_map.mp hfeature
  simp only [Declarations.featureRows, bind_eq_ok, pure_eq_ok] at hrows
  obtain ⟨found, hfound, rfl⟩ := hrows
  obtain ⟨d, -, hd⟩ := mem_of_mapM hfound (List.reduceOption_mem_iff.mp hrow)
  split at hd
  · next declared hdeclared =>
    cases declared with
    | none => cases hd
    | some feature =>
      cases hd
      exact TimeFeature.ofDeclaration_measured hdeclared
  · cases hd

/-- The unit of what is committed has a category if the kind has units. -/
theorem measured_of_mem_parameters (hds : ds.Distinct) (hc : g.commit limits f ds = .ok done)
    (hp : p ∈ done.parameters) (hunit : p.kind.hasUnit) :
    ∃ category, p.category? = some category := by
  obtain ⟨o, drafts, ho, hdraft, rfl⟩ := commit_eq_ok.mp hc
  rcases mem_draft_cases hds ho hdraft hp with ⟨feature, hfeature, hvalue⟩ | ⟨r, hr⟩
  · obtain ⟨category, hcategory⟩ := measured_of_mem_features ho hfeature (hvalue.kind ▸ hunit)
    refine ⟨category, ?_⟩
    rw [Parameter.category?, hvalue.unit]
    exact hcategory
  · obtain ⟨category, hcategory, -⟩ :=
      Resolution.resolve_measured hr.resolve (hr.kind.symm ▸ hunit)
    exact ⟨category, hcategory⟩

theorem Built.measured (hb : g.Built) (hp : g.declared? h k = some p) (hunit : p.kind.hasUnit) :
    ∃ category, p.category? = some category :=
  hb.forall_declared (P := fun p => p.kind.hasUnit → ∃ category, p.category? = some category)
    (fun _ _ _ _ _ hds hc _ hp => measured_of_mem_parameters hds hc hp) h k p hp hunit

/-- The unit of a dimensioned parameter has a category. -/
theorem Rooted.measured (hr : g.Rooted) (hp : g.declared? h k = some p)
    (hunit : p.kind.hasUnit) : ∃ category, p.category? = some category :=
  hr.forall_declared (P := fun p => p.kind.hasUnit → ∃ category, p.category? = some category)
    (fun _ _ _ _ _ hds hc _ hp => measured_of_mem_parameters hds hc hp) h k p hp hunit

end Graph

end ParameterChain
