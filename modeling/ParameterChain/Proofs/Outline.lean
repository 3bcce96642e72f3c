/-
# What an outline keeps of the declarations

An outline may give a declaration a kind and a marker, and it may add declarations
for the values of time features, but it drops none: every key that was declared is
declared still.  A declaration whose name is shown further below has, once it is in
the outline, the kind and the marker of every parameter that is shown.

Main statements: `inherit_foldlM_eq_ok`, and `outline_eq_ok`, which takes an outline
apart.
-/
import Mathlib.Data.List.ReduceOption
import ParameterChain.Outline
import ParameterChain.Proofs.Success

namespace ParameterChain

variable {g : Graph} {f : FileId} {k : Key} {ds : Declarations} {o : Outline}
  {d d' : Declaration}

/-! ## Tables of declarations -/

/-- No key is declared twice. -/
def Declarations.Distinct (ds : Declarations) : Prop :=
  (ds.rows.map Declaration.key).Nodup

theorem Declarations.Distinct.insert (hds : ds.Distinct) (d : Declaration) :
    (ds.insert d).Distinct :=
  nodup_keys_put Declaration.key d hds

theorem Declarations.Distinct.add {ds' : Declarations} {name rawValue : String} {line : Nat}
    {added : Option Declaration} (hds : ds.Distinct)
    (h : ds.add name rawValue line = .ok (ds', added)) : ds'.Distinct := by
  rw [Declarations.add] at h
  split at h
  · cases h
    exact hds
  split at h
  · cases h
    exact hds.insert _
  · cases h

/-! ## Inherited kinds -/

/-- `d'` is `d` with what it inherits from `ps`. -/
structure Declaration.Inherits (ps : List Parameter) (d d' : Declaration) : Prop where
  name : d'.name = d.name
  rawValue : d'.rawValue = d.rawValue
  agrees : ∀ p ∈ ps, d'.kind = some p.kind ∧ d'.changeable = p.changeable
  kept : d.kind.isSome → d' = d

theorem Declaration.Inherits.key {ps : List Parameter} (h : d.Inherits ps d') :
    d'.key = d.key :=
  congrArg Name.key h.name

theorem inherit_eq_ok {inTransient : Bool} {p : Parameter}
    (h : d.inherit inTransient p = .ok d') : d.Inherits [p] d' := by
  rw [Declaration.inherit] at h
  cases hkind : d.kind with
  | none =>
    rw [hkind] at h
    cases Except.ok.inj h
    exact ⟨rfl, rfl, fun q hq => by simp [List.mem_singleton.mp hq],
      fun hs => by simp [hkind] at hs⟩
  | some kind =>
    simp only [hkind] at h
    split at h
    · cases h
    next hsame =>
    split at h
    · cases h
    next hmark =>
    cases Except.ok.inj h
    refine ⟨rfl, rfl, ?_, fun _ => rfl⟩
    intro q hq
    rw [List.mem_singleton.mp hq, hkind, Decidable.not_not.mp hsame]
    exact ⟨rfl, Decidable.not_not.mp hmark⟩

theorem inherit_foldlM_eq_ok {inTransient : Bool} {ps : List Parameter}
    (h : ps.foldlM (Declaration.inherit inTransient) d = .ok d') : d.Inherits ps d' := by
  induction ps generalizing d with
  | nil =>
    rw [List.foldlM_nil, pure_eq_ok] at h
    exact ⟨h ▸ rfl, h ▸ rfl, fun q hq => absurd hq List.not_mem_nil, fun _ => h.symm⟩
  | cons p ps ih =>
    rw [List.foldlM_cons, bind_eq_ok] at h
    obtain ⟨middle, hfirst, hrest⟩ := h
    have hfirst := inherit_eq_ok hfirst
    have hrest := ih hrest
    have hhere := hfirst.agrees p List.mem_cons_self
    -- After the first parameter the declaration has a kind and is not changed again.
    have hsame := hrest.kept (by simp [hhere.1])
    refine ⟨hrest.name.trans hfirst.name, hrest.rawValue.trans hfirst.rawValue, ?_, ?_⟩
    · intro q hq
      rcases List.mem_cons.mp hq with rfl | hq
      · exact hsame ▸ hhere
      · exact hrest.agrees q hq
    · exact fun hsome => hsame.trans (hfirst.kept hsome)

theorem Graph.inheritKinds_eq_ok {ds' : Declarations} (h : g.inheritKinds f ds = .ok ds') :
    List.Forall₂ (fun d d' => d.Inherits (g.ancestors f d.key) d') ds.rows ds'.rows := by
  simp only [Graph.inheritKinds, bind_eq_ok, pure_eq_ok] at h
  obtain ⟨rows, hrows, rfl⟩ := h
  exact (forall₂_of_mapM hrows).imp fun _ _ hd => inherit_foldlM_eq_ok hd

/-! ## Time features -/

/-- Only declarations below a time-feature base make a feature. -/
theorem featureRows_eq_nil {rows : List Declarations.FeatureRow}
    (hnone : ∀ d ∈ ds.rows, d.key.featureBase? = none) (h : ds.featureRows = .ok rows) :
    rows = [] := by
  simp only [Declarations.featureRows, bind_eq_ok, pure_eq_ok] at h
  obtain ⟨found, hfound, rfl⟩ := h
  refine List.eq_nil_iff_forall_not_mem.mpr ?_
  intro row hrow
  obtain ⟨d, hd, heq⟩ := mem_of_mapM hfound (List.reduceOption_mem_iff.mp hrow)
  simp only [TimeFeature.ofDeclaration, hnone d hd] at heq
  cases heq

/-! ## Outlines -/

namespace Graph

/-- The steps of an outline. -/
theorem outline_eq_ok :
    g.outline f ds = .ok o ↔ ∃ ks ds' rows, g.contested f ds = .ok ks ∧
      g.inheritKinds f ds = .ok ds' ∧ ds'.featureRows = .ok rows ∧
      ({ declarations := rows.foldl
           (fun ds row => ds.insert (row.feature.valueDeclaration row.line)) ds'
         features := rows.map Declarations.FeatureRow.feature
         contested := ks } : Outline) = o := by
  simp only [outline, bind_eq_ok, pure_eq_ok, exists_and_left]

/-- An outline drops no declaration. -/
theorem mem_keys_outline (h : g.outline f ds = .ok o) (hd : d ∈ ds.rows) :
    d.key ∈ o.declarations.rows.map Declaration.key := by
  obtain ⟨ks, ds', rows, -, hkinds, -, rfl⟩ := outline_eq_ok.mp h
  have hmem : d.key ∈ ds'.rows.map Declaration.key := by
    obtain ⟨d', hd', hinherits⟩ := exists_right_of_forall₂ (inheritKinds_eq_ok hkinds) hd
    exact List.mem_map.mpr ⟨d', hd', hinherits.key⟩
  clear hkinds h
  induction rows generalizing ds' with
  | nil => exact hmem
  | cons row rows ih => exact ih _ (mem_keys_put.mpr (Or.inr hmem))

theorem distinct_outline (hds : ds.Distinct) (h : g.outline f ds = .ok o) :
    o.declarations.Distinct := by
  obtain ⟨ks, ds', rows, -, hkinds, -, rfl⟩ := outline_eq_ok.mp h
  have hkeys : ds'.rows.map Declaration.key = ds.rows.map Declaration.key :=
    map_eq_of_forall₂ (inheritKinds_eq_ok hkinds) fun _ _ hd => hd.key
  have hds' : ds'.Distinct := by
    rw [Declarations.Distinct, hkeys]
    exact hds
  clear hkinds hkeys h
  induction rows generalizing ds' with
  | nil => exact hds'
  | cons row rows ih => exact ih _ (hds'.insert _)

/-- Without time features an outline declares what was declared, with the kinds that
are inherited. -/
theorem outline_eq_ok_of_featureless (hnone : ∀ d ∈ ds.rows, d.key.featureBase? = none)
    (h : g.outline f ds = .ok o) :
    o.features = [] ∧
      List.Forall₂ (fun d d' => d.Inherits (g.ancestors f d.key) d') ds.rows
        o.declarations.rows := by
  obtain ⟨ks, ds', rows, -, hkinds, hrows, rfl⟩ := outline_eq_ok.mp h
  have hinherits := inheritKinds_eq_ok hkinds
  have hnil : rows = [] := by
    refine featureRows_eq_nil (fun d' hd' => ?_) hrows
    obtain ⟨d, hd, hdd'⟩ := exists_left_of_forall₂ hinherits hd'
    exact hdd'.key ▸ hnone d hd
  subst hnil
  exact ⟨rfl, hinherits⟩

end Graph

end ParameterChain
