/-
# The values of time features

The value of a time feature is a parameter like others, declared on behalf of the
declaration that describes the feature.  Its plan names the base of the feature; that
it is changeable and has the key of the feature's value is settled when it is
committed, and stays so when another declaration describes the feature anew.

Main statements: `Rooted.holdsValue` and `Rooted.nodup_features`.
-/
import ParameterChain.Proofs.Grammar
import ParameterChain.Proofs.Built

namespace ParameterChain

/-! ## Keys of values -/

namespace Text

theorem casedNext_append_slash (cs ds : List Char) :
    casedNext (cs ++ '/' :: ds) = casedNext cs := by
  have hignorable : isCaseIgnorable '/' = false := by decide +kernel
  have hcased : isCased '/' = false := by decide +kernel
  unfold casedNext
  induction cs with
  | nil => simp [hignorable, hcased]
  | cons c cs ih =>
    rw [List.cons_append, List.dropWhile_cons, List.dropWhile_cons]
    cases isCaseIgnorable c with
    | true => exact ih
    | false => rfl

/-- A slash parts the words of a text. -/
theorem lowerFrom_append_slash (before cs ds : List Char) :
    lowerFrom before (cs ++ '/' :: ds) =
      lowerFrom before cs ++ lowerFrom (cs.reverse ++ before) ('/' :: ds) := by
  induction cs generalizing before with
  | nil => rfl
  | cons c cs ih =>
    rw [List.cons_append, lowerFrom, lowerFrom, casedNext_append_slash, ih]
    simp only [List.reverse_cons, List.append_assoc, List.singleton_append]

theorem lowerCase_value (s : String) :
    lowerCase (s ++ "/" ++ "Value") = lowerCase s ++ "/value" := by
  have htext : (s ++ "/" ++ "Value").toList = s.toList ++ '/' :: "Value".toList := by
    simp
  have htail : ∀ before, lowerFrom before ('/' :: "Value".toList) = "/value".toList := by
    intro before
    rfl
  rw [lowerCase, htext, lowerFrom_append_slash, htail, String.ofList_append, ← lowerCase,
    String.ofList_toList]

end Text

/-- The key of the value of the time feature with a base. -/
def Key.ofValue (base : Key) : Key :=
  ⟨base.text ++ "/value"⟩

theorem TimeFeature.key_valueName (f : TimeFeature) :
    Key.ofText f.valueName = f.key.ofValue := by
  rw [Key.ofText, valueName, input, Text.lowerCase_value, Key.ofValue, key, f.base.key_eq,
    Key.ofText]

/-- If the plan of the parameter is a time feature, the parameter is the value of the
feature. -/
def Parameter.HoldsValue (p : Parameter) : Prop :=
  ∀ base, p.plan = .feature base → p.changeable ∧ p.key = base.ofValue

/-! ## Commits -/

/-- Declaring the values of features puts them in place of what was declared. -/
theorem Declarations.get?_foldl_insert (ds : Declarations)
    (rows : List Declarations.FeatureRow) (k : Key) :
    (rows.foldl (fun ds row => ds.insert (row.feature.valueDeclaration row.line)) ds).get? k =
      ((rows.reverse.find? fun row => Key.ofText row.feature.valueName = k).map
        fun row => row.feature.valueDeclaration row.line).or (ds.get? k) := by
  induction rows generalizing ds with
  | nil => rfl
  | cons row rows ih =>
    have hinsert : (ds.insert (row.feature.valueDeclaration row.line)).get? k =
        if Key.ofText row.feature.valueName = k
          then some (row.feature.valueDeclaration row.line) else ds.get? k :=
      rowOf?_put Declaration.key _ k ds.rows
    rw [List.foldl_cons, ih, hinsert, List.reverse_cons, List.find?_append]
    cases rows.reverse.find? fun row => Key.ofText row.feature.valueName = k with
    | some row' => rfl
    | none => by_cases hrow : Key.ofText row.feature.valueName = k <;> simp [hrow]

namespace Graph

variable {g : Graph} {f : FileId} {ds : Declarations} {limits : Limits} {done : Commit}
  {p : Parameter}

/-- Under a key an outline declares the value of the feature there or, if there is none, what
was declared, with what it inherits. -/
theorem mem_rows_cases {o : Outline} {d : Declaration} (hds : ds.Distinct)
    (ho : g.outline f ds = .ok o) (hd : d ∈ o.declarations.rows) :
    (∃ feature ∈ o.features, o.featureAt? d.key = some feature ∧
      ∃ line, d = feature.valueDeclaration line) ∨
    o.featureAt? d.key = none ∧ ∃ d₀ ∈ ds.rows, d₀.Inherits (g.ancestors f d₀.key) d := by
  have hget : o.declarations.get? d.key = some d := rowOf?_key (distinct_outline hds ho) hd
  obtain ⟨ks, ds', rows, -, hkinds, -, rfl⟩ := outline_eq_ok.mp ho
  rw [Declarations.get?_foldl_insert] at hget
  rw [Outline.featureAt?, ← List.map_reverse, List.find?_map]
  cases hrow : rows.reverse.find? fun row => Key.ofText row.feature.valueName = d.key with
  | some row =>
    refine Or.inl ⟨row.feature, ?_, congrArg (Option.map _) hrow, row.line, ?_⟩
    · exact List.mem_map_of_mem (List.mem_reverse.mp (List.mem_of_find?_eq_some hrow))
    · rw [hrow, Option.map_some, Option.some_or] at hget
      exact (Option.some.inj hget).symm
  | none =>
    rw [hrow, Option.map_none, Option.none_or] at hget
    refine Or.inr ⟨congrArg (Option.map _) hrow, ?_⟩
    exact exists_left_of_forall₂ (inheritKinds_eq_ok hkinds) (mem_of_rowOf? hget)

/-- The parameter is the value of the feature. -/
structure IsValueOf (feature : TimeFeature) (p : Parameter) : Prop where
  plan : p.plan = .feature feature.key
  key : p.key = feature.key.ofValue
  kind : p.kind = feature.kind
  unit : p.unit = feature.unit
  changeable : p.changeable

/-- The parameter was resolved, as `r`, from a declaration that inherits from what is shown. -/
structure ResolvedAs (g : Graph) (f : FileId) (o : Outline) (r : Resolution) (p : Parameter) :
    Prop where
  resolve : r.resolve = .ok ⟨p.plan, p.unit⟩
  kind : r.kind = p.kind
  scope : r.scope = (g.linearize f).scope f o.declarations p.key
  agrees : ∀ q ∈ g.ancestors f p.key, p.kind = q.kind
  absolute : p.key ∈ o.contested → p.plan.isRelative = false

/-- A draft holds values of the features of its outline and resolved parameters. -/
theorem mem_draft_cases {o : Outline} {drafts : List Parameter} (hds : ds.Distinct)
    (ho : g.outline f ds = .ok o) (hdraft : (g.linearize f).draft limits f o = .ok drafts)
    (hp : p ∈ drafts) :
    (∃ feature ∈ o.features, IsValueOf feature p) ∨ ∃ r, g.ResolvedAs f o r p := by
  obtain ⟨d, hd, hresolved⟩ := mem_of_mapM (draft_eq_ok hdraft) hp
  obtain ⟨kind, resolved, hkind, hplan, rfl⟩ := draftOf_eq_ok.mp hresolved
  rw [planOf] at hplan
  rcases mem_rows_cases hds ho hd with ⟨feature, hmem, hat, line, rfl⟩ | ⟨hat, d₀, -, hinherits⟩
  · simp only [hat] at hplan
    cases pure_eq_ok.mp hplan
    refine Or.inl ⟨feature, hmem, rfl, ?_, (Option.some.inj hkind).symm, rfl, rfl⟩
    exact feature.key_valueName
  · simp only [hat, bind_eq_ok] at hplan
    obtain ⟨resolved', hresolve, hplan⟩ := hplan
    split at hplan
    · cases hplan
    next habsolute =>
    obtain rfl : resolved' = resolved := pure_eq_ok.mp hplan
    refine Or.inr ⟨_, hresolve, rfl, rfl, ?_, ?_⟩
    · intro q hq
      have hq : q ∈ g.ancestors f d₀.key := by
        rw [← hinherits.key]
        exact hq
      exact Option.some.inj (hkind.symm.trans (hinherits.agrees q hq).1)
    · intro hcontested
      have hcontains : o.contested.contains d.key = true := List.contains_iff_mem.mpr hcontested
      rw [hcontains, Bool.true_and] at habsolute
      exact Bool.eq_false_iff.mpr habsolute

/-- What was known of a name while a parameter was resolved is the kind of its target: a draft
or, if none has the name, what the chain of the file shows. -/
theorem ResolvedAs.exists_target {o : Outline} {drafts : List Parameter} {r : Resolution}
    {name : Key} {a : Kind} (hr : g.ResolvedAs f o r p) (hds : ds.Distinct)
    (ho : g.outline f ds = .ok o) (hdraft : (g.linearize f).draft limits f o = .ok drafts)
    (hknows : r.Knows name a) :
    ∃ q, q.kind = a ∧ (rowOf? Parameter.key name drafts = some q ∨
      (∀ q' ∈ drafts, q'.key ≠ name) ∧ (g.linearize f).find? f name = some q) := by
  have hall := draft_eq_ok hdraft
  rw [Resolution.Knows, hr.scope] at hknows
  change ((o.declarations.get? name).bind Declaration.kind).or
    (((g.linearize f).find? f name).map Parameter.kind) = some a at hknows
  cases hrow : rowOf? Parameter.key name drafts with
  | some q =>
    obtain ⟨d, hd, hq⟩ := mem_of_mapM hall (mem_of_rowOf? hrow)
    have hkey : q.key = name := key_of_rowOf? hrow
    obtain ⟨kind, resolved, hkind, -, rfl⟩ := draftOf_eq_ok.mp hq
    have hkey : d.key = name := hkey
    have hget : o.declarations.get? d.key = some d := rowOf?_key (distinct_outline hds ho) hd
    rw [← hkey, hget, Option.bind_some, hkind, Option.some_or] at hknows
    exact ⟨_, Option.some.inj hknows, Or.inl rfl⟩
  | none =>
    have hfresh : ∀ q ∈ drafts, q.key ≠ name := by
      intro q hq hkey
      exact List.find?_eq_none.mp hrow q hq (decide_eq_true hkey)
    have hget : o.declarations.get? name = none := by
      refine Option.eq_none_iff_forall_ne_some.mpr ?_
      intro d hd
      obtain ⟨q, hq, hdrafted⟩ := exists_of_mapM hall (mem_of_rowOf? hd)
      obtain ⟨kind, resolved, -, -, rfl⟩ := draftOf_eq_ok.mp hdrafted
      have hkey : d.key = name := key_of_rowOf? hd
      exact hfresh _ hq hkey
    rw [hget, Option.bind_none, Option.none_or] at hknows
    obtain ⟨q, hq, hkind⟩ := Option.map_eq_some_iff.mp hknows
    exact ⟨q, hkind, Or.inr ⟨hfresh, hq⟩⟩

theorem holdsValue_commit (hds : ds.Distinct) (hc : g.commit limits f ds = .ok done)
    (hp : p ∈ done.parameters) : p.HoldsValue := by
  obtain ⟨o, drafts, ho, hdraft, rfl⟩ := commit_eq_ok.mp hc
  intro base hbase
  rcases mem_draft_cases hds ho hdraft hp with ⟨feature, -, hvalue⟩ | ⟨r, hr⟩
  · cases hbase.symm.trans hvalue.plan
    exact ⟨hvalue.changeable, hvalue.key⟩
  · -- No form of a raw value resolves to a time feature.
    have hfits := Resolution.resolve_fits hr.resolve
    rw [hbase] at hfits
    exact hfits.elim

/-! ## Graphs of sessions -/

/-- What holds of all that is committed holds of all that is declared. -/
theorem Built.forall_declared {P : Parameter → Prop}
    (hP : ∀ (g : Graph) limits f ds done, ds.Distinct → g.commit limits f ds = .ok done →
      ∀ p ∈ done.parameters, P p) (hb : g.Built) :
    ∀ h k p, g.declared? h k = some p → P p := by
  induction hb with
  | empty =>
    intro h k p hp
    cases h <;> cases hp
  | file _ _ hds hc ih =>
    intro h k p hp
    rcases declared?_commit_cases hc hp with ⟨hmem, -, -⟩ | hp
    · exact hP _ _ _ _ _ hds hc p hmem
    · rw [declared?_addFile] at hp
      exact ih h k p hp

theorem Rooted.forall_declared {P : Parameter → Prop}
    (hP : ∀ (g : Graph) limits f ds done, ds.Distinct → g.commit limits f ds = .ok done →
      ∀ p ∈ done.parameters, P p) (hr : g.Rooted) :
    ∀ h k p, g.declared? h k = some p → P p := by
  induction hr with
  | root hb _ _ hc =>
    intro h k p hp
    rcases declared?_commit_cases hc hp with ⟨hmem, -, -⟩ | hp
    · have hds : ({ redefinable := true } : Declarations).Distinct := List.nodup_nil
      exact hP _ _ _ _ _ hds hc p hmem
    · rw [declared?_setIncludes] at hp
      exact hb.forall_declared hP h k p hp
  | edit _ hds hc ih =>
    intro h k p hp
    rcases declared?_commit_cases hc hp with ⟨hmem, -, -⟩ | hp
    · exact hP _ _ _ _ _ hds hc p hmem
    · exact ih h k p hp
  | tick t _ ih => exact ih

theorem Rooted.holdsValue (hr : g.Rooted) {h : FileId} {k : Key}
    (hp : g.declared? h k = some p) : p.HoldsValue :=
  hr.forall_declared (fun _ _ _ _ _ hds hc _ hp => holdsValue_commit hds hc hp) h k p hp

/-! ## Distinct bases -/

theorem nodup_features_commit (hc : g.commit limits f ds = .ok done)
    (hg : (g.features.map TimeFeature.key).Nodup) :
    (done.graph.features.map TimeFeature.key).Nodup := by
  rw [features_commit hc]
  generalize g.features = rows at hg
  induction done.features generalizing rows with
  | nil => exact hg
  | cons feature features ih => exact ih _ (nodup_keys_put TimeFeature.key feature hg)

theorem Built.nodup_features (hb : g.Built) : (g.features.map TimeFeature.key).Nodup := by
  induction hb with
  | empty => exact List.nodup_nil
  | file _ _ _ hc ih => exact nodup_features_commit hc ih

/-- The time features have distinct bases. -/
theorem Rooted.nodup_features (hr : g.Rooted) : (g.features.map TimeFeature.key).Nodup := by
  induction hr with
  | root hb _ _ hc => exact nodup_features_commit hc hb.nodup_features
  | edit _ _ hc ih => exact nodup_features_commit hc ih
  | tick _ _ ih => exact ih

end Graph

end ParameterChain
