/-
# Declarations in another order

The declarations of a file are kept in the order of its text, each with the line it starts
on.  A table is the same *but for order and lines* as another if a look-up of any key gives
the same declaration, the line aside, in both (`Declarations.Reordered`).

Lines are seen in failures only.  Order matters in one place: of two declarations that
describe a time feature of one base, the later one counts.  Tables in which no two do are
*apart* (`Declarations.Apart`).

Main statements: what the includes give to the declarations (`Reordered.inheritKinds`) and
which time features are at hand under a key (`Reordered.featureAt?`) do not depend on the
order.
-/
import ParameterChain.Proofs.Features

namespace ParameterChain

/-! ## Rows with distinct keys -/

section Rows

variable {α β κ : Type} [DecidableEq κ] {key : α → κ} {key' : β → κ}

/-- Where no key is used twice, a look-up finds the row of the key. -/
theorem rowOf?_eq_some {rows : List α} (hrows : (rows.map key).Nodup) {k : κ} {x : α} :
    rowOf? key k rows = some x ↔ x ∈ rows ∧ key x = k := by
  constructor
  · exact fun h => ⟨mem_of_rowOf? h, key_of_rowOf? h⟩
  · rintro ⟨hx, rfl⟩
    exact rowOf?_key hrows hx

/-- Where no key is used twice, look-ups do not depend on the order of the rows. -/
theorem rowOf?_perm {rows rows' : List α} (hperm : rows'.Perm rows)
    (hrows : (rows.map key).Nodup) (k : κ) : rowOf? key k rows' = rowOf? key k rows := by
  have hrows' : (rows'.map key).Nodup := (hperm.map key).nodup_iff.mpr hrows
  refine Option.ext fun x => ?_
  rw [rowOf?_eq_some hrows', rowOf?_eq_some hrows, hperm.mem_iff]

/-- A row with a new key is put at the end. -/
theorem put_eq_append {rows : List α} {x : α} (hx : rowOf? key (key x) rows = none) :
    put key x rows = rows ++ [x] := by
  induction rows with
  | nil => rfl
  | cons y rows ih =>
    have hy : key y ≠ key x := by simpa using List.find?_eq_none.mp hx y List.mem_cons_self
    have hrest : rowOf? key (key x) rows = none := by
      rw [rowOf?, List.find?_cons_of_neg (by simpa using hy)] at hx
      exact hx
    rw [put, if_neg hy, ih hrest, List.cons_append]

/-- A row with a known key is put in the place of the row that has it. -/
theorem put_eq_set {rows : List α} (hrows : (rows.map key).Nodup) {i : Nat} {x y : α}
    (hy : rows[i]? = some y) (hkey : key y = key x) : put key x rows = rows.set i x := by
  induction rows generalizing i with
  | nil => cases hy
  | cons z rows ih =>
    obtain ⟨hz, hrows⟩ := List.nodup_cons.mp hrows
    cases i with
    | zero =>
      cases hy
      rw [put, if_pos hkey, List.set_cons_zero]
    | succ i =>
      have hne : key z ≠ key x := fun heq =>
        hz (heq ▸ hkey ▸ List.mem_map_of_mem (List.mem_of_getElem? hy))
      rw [put, if_neg hne, List.set_cons_succ, ih hrows hy]

/-- What stands in a table after a row has been put there is that row or stood there before. -/
theorem mem_of_mem_put {x y : α} {rows : List α} (hy : y ∈ put key x rows) :
    y = x ∨ y ∈ rows := by
  induction rows with
  | nil => exact .inl (List.mem_singleton.mp hy)
  | cons z rows ih =>
    rw [put] at hy
    split at hy
    · exact (List.mem_cons.mp hy).imp_right (List.mem_cons_of_mem z)
    · rcases List.mem_cons.mp hy with rfl | hy
      · exact .inr List.mem_cons_self
      · exact (ih hy).imp_right (List.mem_cons_of_mem z)

/-- Rows that correspond one by one, with the same keys, correspond in look-ups. -/
theorem rel_rowOf?_of_forall₂ {R : α → β → Prop} (hkey : ∀ x y, R x y → key' y = key x)
    {rows : List α} {rows' : List β} (h : List.Forall₂ R rows rows') (k : κ) :
    Option.Rel R (rowOf? key k rows) (rowOf? key' k rows') := by
  induction h with
  | nil => exact .none
  | @cons x y rows rows' hxy hrest ih =>
    by_cases hx : key x = k
    · have hy : key' y = k := (hkey x y hxy).trans hx
      simp only [rowOf?, List.find?_cons, hx, hy, decide_true]
      exact .some hxy
    · have hy : ¬ key' y = k := fun h => hx ((hkey x y hxy).symm.trans h)
      simp only [rowOf?, List.find?_cons, hx, hy, decide_false]
      exact ih

end Rows

/-! ## Lines -/

namespace Declaration

/-- The declaration as if it were on line `n`. -/
def onLine (d : Declaration) (n : Nat) : Declaration :=
  { d with line := n }

/-- The declaration as if it had never been in a file. -/
def unlined (d : Declaration) : Declaration :=
  d.onLine 0

/-- Declarations that differ in their lines at most. -/
theorem eq_onLine {d d' : Declaration} (h : d'.unlined = d.unlined) :
    d' = d.onLine d'.line := by
  cases d
  cases d'
  simp only [unlined, onLine, mk.injEq, and_true] at h ⊢
  exact h

theorem key_eq_of_unlined {d d' : Declaration} (h : d'.unlined = d.unlined) : d'.key = d.key := by
  have hname : d'.unlined.name = d.unlined.name := congrArg Declaration.name h
  exact congrArg Name.key hname

/-- A declaration inherits the same on every line. -/
theorem inherit_onLine {inTransient : Bool} {d e : Declaration} {p : Parameter}
    (h : d.inherit inTransient p = .ok e) (n : Nat) :
    (d.onLine n).inherit inTransient p = .ok (e.onLine n) := by
  rw [inherit] at h ⊢
  have hkind : (d.onLine n).kind = d.kind := rfl
  rw [hkind]
  cases hk : d.kind with
  | none =>
    rw [hk] at h
    cases h
    rfl
  | some k =>
    simp only [hk] at h ⊢
    by_cases hdiffers : k ≠ p.kind
    · rw [if_pos hdiffers] at h
      cases h
    · rw [if_neg hdiffers] at h ⊢
      by_cases hmarker : d.changeable ≠ p.changeable
      · rw [if_pos hmarker] at h
        cases h
      · rw [if_neg hmarker] at h
        cases h
        exact if_neg hmarker

theorem inherit_foldlM_onLine {inTransient : Bool} {ps : List Parameter} {d e : Declaration}
    (h : ps.foldlM (inherit inTransient) d = .ok e) (n : Nat) :
    ps.foldlM (inherit inTransient) (d.onLine n) = .ok (e.onLine n) := by
  induction ps generalizing d with
  | nil =>
    rw [List.foldlM_nil, pure_eq_ok] at h
    rw [h]
    rfl
  | cons p ps ih =>
    rw [List.foldlM_cons, bind_eq_ok] at h
    obtain ⟨middle, hfirst, hrest⟩ := h
    rw [List.foldlM_cons, inherit_onLine hfirst n]
    exact ih hrest

/-- Whatever kind it takes over, if it has none of its own, the declaration describes the time
feature with that base. -/
def Describes (d : Declaration) (base : Key) : Prop :=
  ∃ k feature, TimeFeature.ofDeclaration { d with kind := d.kind.or (some k) } =
    .ok (some feature) ∧ feature.key = base

/-- What a declaration describes once it has inherited, it described before. -/
theorem Inherits.describes {ps : List Parameter} {d e : Declaration} {feature : TimeFeature}
    (hinherits : d.Inherits ps e) (h : TimeFeature.ofDeclaration e = .ok (some feature)) :
    d.Describes feature.key := by
  have hsame : ∀ k, { d with kind := some k, changeable := e.changeable, line := e.line } =
      { e with kind := some k } := by
    intro k
    rw [← hinherits.name, ← hinherits.rawValue]
  have hdescribes : ∀ k, TimeFeature.ofDeclaration { e with kind := some k } =
      .ok (some feature) → d.kind.or (some k) = some k → d.Describes feature.key := by
    intro k hk hkind
    refine ⟨k, feature, ?_, rfl⟩
    rw [hkind, ← hk, ← hsame k]
    rfl
  cases hd : d.kind with
  | some k =>
    have hkept : e = d := hinherits.kept (by rw [hd]; rfl)
    subst hkept
    refine hdescribes k ?_ (by rw [hd]; rfl)
    rw [← hd]
    exact h
  | none =>
    cases he : e.kind with
    | some k =>
      refine hdescribes k ?_ (by rw [hd]; rfl)
      rw [← he]
      exact h
    | none =>
      -- A table of values without a kind describes nothing, and functions have no kinds.
      refine hdescribes (Kind.one .text) ?_ (by rw [hd]; rfl)
      have hkey : ({ e with kind := some (Kind.one .text) } : Declaration).key = e.key := rfl
      rw [TimeFeature.ofDeclaration, hkey]
      rw [TimeFeature.ofDeclaration] at h
      split at h
      · cases h
      · exact h
      · rw [he] at h
        cases h

end Declaration

/-! ## Tables -/

namespace Declarations

/-- The tables hold the same declarations, but for their order and their lines. -/
structure Reordered (ds ds' : Declarations) : Prop where
  distinct : ds.Distinct
  distinct' : ds'.Distinct
  unlined : ∀ k, (ds'.get? k).map Declaration.unlined = (ds.get? k).map Declaration.unlined

/-- No two declarations describe time features with one base. -/
def Apart (ds : Declarations) : Prop :=
  ∀ d ∈ ds.rows, ∀ d' ∈ ds.rows, ∀ base, d.Describes base → d'.Describes base → d = d'

variable {ds ds' kinds kinds' : Declarations} {g : Graph} {f : FileId} {k : Key}
  {rows rows' : List FeatureRow}

theorem Reordered.refl (hds : ds.Distinct) : ds.Reordered ds :=
  ⟨hds, hds, fun _ => rfl⟩

theorem Reordered.symm (h : ds.Reordered ds') : ds'.Reordered ds :=
  ⟨h.distinct', h.distinct, fun k => (h.unlined k).symm⟩

theorem get?_eq_some (hds : ds.Distinct) {d : Declaration} :
    ds.get? k = some d ↔ d ∈ ds.rows ∧ d.key = k :=
  rowOf?_eq_some hds

/-- Every declaration of the one table is in the other, maybe on another line. -/
theorem Reordered.exists_mem (h : ds.Reordered ds') {d' : Declaration} (hd' : d' ∈ ds'.rows) :
    ∃ d ∈ ds.rows, d' = d.onLine d'.line := by
  have hfound := h.unlined d'.key
  rw [(get?_eq_some h.distinct').mpr ⟨hd', rfl⟩] at hfound
  obtain ⟨d, hd, hsame⟩ := Option.map_eq_some_iff.mp hfound.symm
  exact ⟨d, mem_of_rowOf? hd, Declaration.eq_onLine hsame.symm⟩

theorem Reordered.get?_isNone (h : ds.Reordered ds') (k : Key) :
    (ds'.get? k).isNone = (ds.get? k).isNone := by
  have hsame := congrArg Option.isNone (h.unlined k)
  rwa [Option.isNone_map, Option.isNone_map] at hsame

theorem Reordered.bind_kind (h : ds.Reordered ds') (k : Key) :
    (ds'.get? k).bind Declaration.kind = (ds.get? k).bind Declaration.kind := by
  have hsame := congrArg (Option.bind · Declaration.kind) (h.unlined k)
  rwa [Option.bind_map, Option.bind_map] at hsame

/-! ## Inherited kinds -/

theorem inheritKinds_eq_ok_iff :
    g.inheritKinds f ds = .ok kinds ↔ kinds.includes = ds.includes ∧
      kinds.redefinable = ds.redefinable ∧
      ds.rows.mapM (fun d => (g.ancestors f d.key).foldlM
        (Declaration.inherit (f == transientFile)) d) = .ok kinds.rows := by
  simp only [Graph.inheritKinds, bind_eq_ok, pure_eq_ok]
  constructor
  · rintro ⟨rows, hrows, rfl⟩
    exact ⟨rfl, rfl, hrows⟩
  · rintro ⟨hincludes, hredefinable, hrows⟩
    refine ⟨kinds.rows, hrows, ?_⟩
    rw [← hincludes, ← hredefinable]

theorem distinct_inheritKinds (hds : ds.Distinct) (h : g.inheritKinds f ds = .ok kinds) :
    kinds.Distinct := by
  have hkeys : kinds.rows.map Declaration.key = ds.rows.map Declaration.key :=
    map_eq_of_forall₂ (Graph.inheritKinds_eq_ok h) fun _ _ hd => hd.key
  rw [Distinct, hkeys]
  exact hds

/-- What is declared under a key once everything has inherited. -/
theorem get?_inheritKinds (h : g.inheritKinds f ds = .ok kinds) (k : Key) :
    kinds.get? k = (ds.get? k).bind fun d => ((g.ancestors f d.key).foldlM
      (Declaration.inherit (f == transientFile)) d).toOption := by
  have hrel := rel_rowOf?_of_forall₂
    (R := fun d e => (g.ancestors f d.key).foldlM (Declaration.inherit (f == transientFile)) d =
      .ok e)
    (fun d e he => (inherit_foldlM_eq_ok he).key)
    (forall₂_of_mapM (inheritKinds_eq_ok_iff.mp h).2.2) k
  rw [get?, get?]
  generalize rowOf? Declaration.key k ds.rows = found at hrel ⊢
  generalize rowOf? Declaration.key k kinds.rows = inherited at hrel ⊢
  cases hrel with
  | none => rfl
  | some he =>
    rw [Option.bind_some, he]
    rfl

/-- Declarations in another order inherit the same. -/
theorem Reordered.inheritKinds (h : ds.Reordered ds') (hk : g.inheritKinds f ds = .ok kinds) :
    ∃ kinds', g.inheritKinds f ds' = .ok kinds' ∧ kinds.Reordered kinds' := by
  have hrows := (inheritKinds_eq_ok_iff.mp hk).2.2
  have hall : ∀ d' ∈ ds'.rows, ∃ e', (g.ancestors f d'.key).foldlM
      (Declaration.inherit (f == transientFile)) d' = .ok e' := by
    intro d' hd'
    obtain ⟨d, hd, hsame⟩ := h.exists_mem hd'
    obtain ⟨e, -, he⟩ := exists_of_mapM hrows hd
    rw [hsame]
    exact ⟨_, Declaration.inherit_foldlM_onLine he d'.line⟩
  obtain ⟨rows', hrows'⟩ := exists_mapM hall
  have hk' : g.inheritKinds f ds' = .ok { ds' with rows := rows' } :=
    inheritKinds_eq_ok_iff.mpr ⟨rfl, rfl, hrows'⟩
  refine ⟨_, hk', distinct_inheritKinds h.distinct hk, distinct_inheritKinds h.distinct' hk', ?_⟩
  intro k
  rw [get?_inheritKinds hk, get?_inheritKinds hk']
  have hsame := h.unlined k
  cases hd : ds.get? k with
  | none =>
    rw [hd, Option.map_none, Option.map_eq_none_iff] at hsame
    rw [hsame]
  | some d =>
    rw [hd, Option.map_some] at hsame
    obtain ⟨d', hd', hline⟩ := Option.map_eq_some_iff.mp hsame
    obtain ⟨e, -, he⟩ := exists_of_mapM hrows (mem_of_rowOf? hd)
    have honLine := Declaration.inherit_foldlM_onLine he d'.line
    rw [← Declaration.eq_onLine hline] at honLine
    have hkey : d'.key = d.key := Declaration.key_eq_of_unlined hline
    rw [← hkey] at honLine
    rw [hd', Option.bind_some, Option.bind_some, he, honLine]
    rfl

/-! ## Time features -/

/-- The features of a table are those that its declarations describe. -/
theorem mem_featureRows (h : ds.featureRows = .ok rows) {row : FeatureRow} :
    row ∈ rows ↔ ∃ d ∈ ds.rows, TimeFeature.ofDeclaration d = .ok (some row.feature) ∧
      d.line = row.line := by
  simp only [featureRows, bind_eq_ok, pure_eq_ok] at h
  obtain ⟨found, hfound, rfl⟩ := h
  rw [List.reduceOption_mem_iff]
  constructor
  · intro hrow
    obtain ⟨d, hd, heq⟩ := mem_of_mapM hfound hrow
    split at heq
    · next feature hfeature =>
      obtain ⟨described, rfl, rfl⟩ := Option.map_eq_some_iff.mp (Except.ok.inj heq)
      exact ⟨d, hd, hfeature, rfl⟩
    · cases heq
  · rintro ⟨d, hd, hfeature, hline⟩
    obtain ⟨y, hy, heq⟩ := exists_of_mapM hfound hd
    rw [hfeature] at heq
    obtain rfl : some (⟨row.feature, d.line⟩ : FeatureRow) = y := Except.ok.inj heq
    rw [hline] at hy
    exact hy

theorem mem_features (h : ds.featureRows = .ok rows) {feature : TimeFeature} :
    feature ∈ rows.map FeatureRow.feature ↔
      ∃ d ∈ ds.rows, TimeFeature.ofDeclaration d = .ok (some feature) := by
  rw [List.mem_map]
  constructor
  · rintro ⟨row, hrow, rfl⟩
    obtain ⟨d, hd, hfeature, -⟩ := (mem_featureRows h).mp hrow
    exact ⟨d, hd, hfeature⟩
  · rintro ⟨d, hd, hfeature⟩
    exact ⟨⟨feature, d.line⟩, (mem_featureRows h).mpr ⟨d, hd, hfeature, rfl⟩, rfl⟩

/-- A table has features if all that its declarations say of features is well formed. -/
theorem exists_featureRows :
    (∃ rows, ds.featureRows = .ok rows) ↔
      ∀ d ∈ ds.rows, ∃ described, TimeFeature.ofDeclaration d = .ok described := by
  simp only [featureRows, bind_eq_ok, pure_eq_ok]
  constructor
  · rintro ⟨rows, found, hfound, -⟩ d hd
    obtain ⟨row, -, hrow⟩ := exists_of_mapM hfound hd
    split at hrow
    · next described hdescribed => exact ⟨described, hdescribed⟩
    · cases hrow
  · intro h
    refine Exists.elim (exists_mapM ?_) fun found hfound => ⟨_, found, hfound, rfl⟩
    intro d hd
    obtain ⟨described, hdescribed⟩ := h d hd
    rw [hdescribed]
    exact ⟨_, rfl⟩

/-- The features are the same, but for their order and their lines. -/
theorem Reordered.featureRows (h : ds.Reordered ds') (hrows : ds.featureRows = .ok rows) :
    ∃ rows', ds'.featureRows = .ok rows' ∧ ∀ feature,
      feature ∈ rows'.map FeatureRow.feature ↔ feature ∈ rows.map FeatureRow.feature := by
  -- What a declaration describes does not depend on its line.
  have hsame : ∀ {ds ds' : Declarations}, ds.Reordered ds' → ∀ d' ∈ ds'.rows, ∃ d ∈ ds.rows,
      TimeFeature.ofDeclaration d' = TimeFeature.ofDeclaration d := by
    intro ds ds' h d' hd'
    obtain ⟨d, hd, hline⟩ := h.exists_mem hd'
    refine ⟨d, hd, ?_⟩
    rw [hline]
    rfl
  have hall : ∀ d' ∈ ds'.rows, ∃ described, TimeFeature.ofDeclaration d' = .ok described := by
    intro d' hd'
    obtain ⟨d, hd, heq⟩ := hsame h d' hd'
    rw [heq]
    exact exists_featureRows.mp ⟨rows, hrows⟩ d hd
  obtain ⟨rows', hrows'⟩ := exists_featureRows.mpr hall
  refine ⟨rows', hrows', fun feature => ?_⟩
  rw [mem_features hrows', mem_features hrows]
  constructor
  · rintro ⟨d', hd', hfeature⟩
    obtain ⟨d, hd, heq⟩ := hsame h d' hd'
    exact ⟨d, hd, heq ▸ hfeature⟩
  · rintro ⟨d, hd, hfeature⟩
    obtain ⟨d', hd', heq⟩ := hsame h.symm d hd
    exact ⟨d', hd', heq ▸ hfeature⟩

/-- Where the declarations are apart, features with one base are the same feature. -/
theorem Apart.feature_eq (hapart : ds.Apart) (hds : ds.Distinct)
    (hk : g.inheritKinds f ds = .ok kinds) (hrows : kinds.featureRows = .ok rows)
    {feature feature' : TimeFeature} (h : feature ∈ rows.map FeatureRow.feature)
    (h' : feature' ∈ rows.map FeatureRow.feature) (hbase : feature.key = feature'.key) :
    feature = feature' := by
  have hdescribed : ∀ {feature}, feature ∈ rows.map FeatureRow.feature → ∃ e ∈ kinds.rows,
      TimeFeature.ofDeclaration e = .ok (some feature) ∧
        ∃ d ∈ ds.rows, e.key = d.key ∧ d.Describes feature.key := by
    intro feature hfeature
    obtain ⟨row, hrow, rfl⟩ := List.mem_map.mp hfeature
    obtain ⟨e, he, hdescribes, -⟩ := (mem_featureRows hrows).mp hrow
    obtain ⟨d, hd, hinherits⟩ := exists_left_of_forall₂ (Graph.inheritKinds_eq_ok hk) he
    exact ⟨e, he, hdescribes, d, hd, hinherits.key, hinherits.describes hdescribes⟩
  obtain ⟨e, he, hfeature, d, hd, hkey, hdescribes⟩ := hdescribed h
  obtain ⟨e', he', hfeature', d', hd', hkey', hdescribes'⟩ := hdescribed h'
  have hsame := hapart d hd d' hd' feature.key hdescribes (hbase ▸ hdescribes')
  have hkeys : e.key = e'.key := hkey.trans (hsame ▸ hkey'.symm)
  have heq := List.inj_on_of_nodup_map (distinct_inheritKinds hds hk) he he' hkeys
  rw [heq, hfeature'] at hfeature
  exact (Option.some.inj (Except.ok.inj hfeature)).symm

end Declarations

/-- The bases of the values of time features are told by the keys. -/
theorem Key.ofValue_inj {base base' : Key} (h : base.ofValue = base'.ofValue) : base = base' := by
  have htext : base.text ++ "/value" = base'.text ++ "/value" := congrArg Key.text h
  have htext : base.text = base'.text := by
    have hlist := congrArg String.toList htext
    rw [String.toList_append, String.toList_append] at hlist
    exact String.toList_inj.mp (List.append_cancel_right hlist)
  cases base
  cases base'
  exact congrArg Key.mk htext

/-- The feature with a base is the one whose value has the key of the base. -/
theorem TimeFeature.find?_base (features : List TimeFeature) (base : Key) :
    (features.find? fun x => x.key = base) =
      features.find? fun x => Key.ofText x.valueName = base.ofValue := by
  congr 1
  funext x
  rw [x.key_valueName]
  exact decide_eq_decide.mpr ⟨fun h => h ▸ rfl, Key.ofValue_inj⟩

end ParameterChain
