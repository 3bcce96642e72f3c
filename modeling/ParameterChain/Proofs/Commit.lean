/-
# What a commit leaves behind

A graph is looked at through a few views: the name, the includes and the parent of a
file, the declaration of a key in a file, the features and the clock.  For each operation that
builds graphs it is said here what it does to each view, so that no other module
unfolds one.

Main statements: `commit_eq_ok` takes a commit apart into its outline and its draft,
and `declared?_commit` tells what is declared where after it.
-/
import ParameterChain.Graph.Commit
import ParameterChain.Load
import ParameterChain.Proofs.Chain
import ParameterChain.Proofs.Success

namespace ParameterChain.Graph

variable {g : Graph} {f h : FileId} {k : Key} {ds : Declarations} {limits : Limits}
  {done : Commit} {p : Parameter}

/-! ## A new file -/

section AddFile

variable (g : Graph) (name : String) (includes : List FileId) (h : FileId) (k : Key)

@[simp] theorem size_addFile : (g.addFile name includes).files.size = g.files.size + 1 := by
  simp [addFile]

theorem includesOf_addFile :
    (g.addFile name includes).includesOf h =
      if h = g.files.size then includes else g.includesOf h := by
  simp only [includesOf, addFile, Array.getElem?_push]
  by_cases heq : h = g.files.size
  · simp only [if_pos heq]
  · simp only [if_neg heq]

theorem nameOf_addFile :
    (g.addFile name includes).nameOf h = if h = g.files.size then name else g.nameOf h := by
  simp only [nameOf, addFile, Array.getElem?_push]
  by_cases heq : h = g.files.size
  · simp only [if_pos heq]
  · simp only [if_neg heq]

theorem parentOf?_addFile : (g.addFile name includes).parentOf? h = g.parentOf? h := by
  simp only [parentOf?, addFile, Array.getElem?_push]
  by_cases heq : h = g.files.size
  · subst heq
    simp only [if_true, Array.getElem?_eq_none (Nat.le_refl _)]
    rfl
  · simp only [if_neg heq]

theorem parametersOf_addFile :
    (g.addFile name includes).parametersOf h = g.parametersOf h := by
  simp only [parametersOf, addFile, Array.getElem?_push]
  by_cases heq : h = g.files.size
  · subst heq
    simp only [if_true, Array.getElem?_eq_none (Nat.le_refl _)]
  · simp only [if_neg heq]

@[simp] theorem declared?_addFile :
    (g.addFile name includes).declared? h k = g.declared? h k := by
  rw [declared?, declared?, parametersOf_addFile]

end AddFile

/-! ## The includes of a file -/

section SetIncludes

variable (g : Graph) (f : FileId) (includes : List FileId) (h : FileId) (k : Key)

@[simp] theorem size_setIncludes :
    (g.setIncludes f includes).files.size = g.files.size := by
  simp [setIncludes]

theorem includesOf_setIncludes (hf : f < g.files.size) :
    (g.setIncludes f includes).includesOf h = if h = f then includes else g.includesOf h := by
  rw [includesOf, includesOf, setIncludes, Array.getElem?_modify]
  by_cases heq : f = h
  · subst heq
    simp [Array.getElem?_eq_getElem hf]
  · rw [if_neg heq, if_neg (Ne.symm heq)]

@[simp] theorem nameOf_setIncludes : (g.setIncludes f includes).nameOf h = g.nameOf h := by
  simp only [nameOf, setIncludes, Array.getElem?_modify]
  by_cases heq : f = h
  · rw [if_pos heq]
    cases g.files[h]? <;> rfl
  · rw [if_neg heq]

theorem parentOf?_setIncludes : (g.setIncludes f includes).parentOf? h = g.parentOf? h := by
  simp only [parentOf?, setIncludes, Array.getElem?_modify]
  by_cases heq : f = h
  · rw [if_pos heq]
    cases g.files[h]? <;> rfl
  · rw [if_neg heq]

theorem parametersOf_setIncludes :
    (g.setIncludes f includes).parametersOf h = g.parametersOf h := by
  simp only [parametersOf, setIncludes, Array.getElem?_modify]
  by_cases heq : f = h
  · rw [if_pos heq]
    cases g.files[h]? <;> rfl
  · rw [if_neg heq]

@[simp] theorem declared?_setIncludes :
    (g.setIncludes f includes).declared? h k = g.declared? h k := by
  rw [declared?, declared?, parametersOf_setIncludes]

end SetIncludes

/-! ## Stored parameters -/

section Store

variable (g : Graph) (p : Parameter) (h : FileId) (k : Key)

@[simp] theorem size_store : (g.store p).files.size = g.files.size := by
  simp [store]

@[simp] theorem includesOf_store : (g.store p).includesOf h = g.includesOf h := by
  simp only [includesOf, store, Array.getElem?_modify]
  by_cases heq : p.file = h
  · rw [if_pos heq]
    cases g.files[h]? <;> rfl
  · rw [if_neg heq]

@[simp] theorem nameOf_store : (g.store p).nameOf h = g.nameOf h := by
  simp only [nameOf, store, Array.getElem?_modify]
  by_cases heq : p.file = h
  · rw [if_pos heq]
    cases g.files[h]? <;> rfl
  · rw [if_neg heq]

@[simp] theorem parentOf?_store : (g.store p).parentOf? h = g.parentOf? h := by
  simp only [parentOf?, store, Array.getElem?_modify]
  by_cases heq : p.file = h
  · rw [if_pos heq]
    cases g.files[h]? <;> rfl
  · rw [if_neg heq]

theorem declared?_store (hh : h < g.files.size) :
    (g.store p).declared? h k = if p.slot = ⟨h, k⟩ then some p else g.declared? h k := by
  simp only [declared?, parametersOf, store, Array.getElem?_modify, Parameter.slot,
    Slot.mk.injEq, Array.getElem?_eq_getElem hh]
  by_cases heq : p.file = h
  · simp only [heq, if_true, Option.map_some, rowOf?_put, true_and]
  · simp only [heq, false_and, if_false]

end Store

section StoreAll

variable (g : Graph) (ps : List Parameter) (fs : List TimeFeature) (h : FileId) (k : Key)

theorem files_storeAll : (g.storeAll ps fs).files = (ps.foldl store g).files := by
  rw [storeAll]
  generalize ps.foldl store g = g'
  induction fs generalizing g' with
  | nil => rfl
  | cons _ _ ih => rw [List.foldl_cons, ih]; rfl

@[simp] theorem size_storeAll : (g.storeAll ps fs).files.size = g.files.size := by
  rw [files_storeAll]
  induction ps generalizing g with
  | nil => rfl
  | cons p ps ih => rw [List.foldl_cons, ih, size_store]

@[simp] theorem includesOf_storeAll : (g.storeAll ps fs).includesOf h = g.includesOf h := by
  rw [includesOf, files_storeAll, ← includesOf]
  induction ps generalizing g with
  | nil => rfl
  | cons p ps ih => rw [List.foldl_cons, ih, includesOf_store]

@[simp] theorem nameOf_storeAll : (g.storeAll ps fs).nameOf h = g.nameOf h := by
  rw [nameOf, files_storeAll, ← nameOf]
  induction ps generalizing g with
  | nil => rfl
  | cons p ps ih => rw [List.foldl_cons, ih, nameOf_store]

@[simp] theorem parentOf?_storeAll : (g.storeAll ps fs).parentOf? h = g.parentOf? h := by
  rw [parentOf?, files_storeAll, ← parentOf?]
  induction ps generalizing g with
  | nil => rfl
  | cons p ps ih => rw [List.foldl_cons, ih, parentOf?_store]

/-- The last parameter stored in a slot is the one found there. -/
theorem declared?_storeAll (hh : h < g.files.size) :
    (g.storeAll ps fs).declared? h k =
      (ps.reverse.find? fun p => p.slot = ⟨h, k⟩).or (g.declared? h k) := by
  rw [declared?, parametersOf, files_storeAll, ← parametersOf, ← declared?]
  induction ps generalizing g with
  | nil => rfl
  | cons p ps ih =>
    rw [List.foldl_cons, ih _ (by rwa [size_store]), declared?_store g p h k hh,
      List.reverse_cons, List.find?_append, Option.or_assoc]
    by_cases hp : p.slot = ⟨h, k⟩ <;> simp [hp]

theorem features_storeAll :
    (g.storeAll ps fs).features =
      fs.foldl (fun rows f => put TimeFeature.key f rows) g.features := by
  have hkept : ∀ g : Graph, (ps.foldl store g).features = g.features := by
    induction ps with
    | nil => exact fun _ => rfl
    | cons p ps ih => exact fun g => ih (g.store p)
  rw [storeAll, ← hkept g]
  generalize ps.foldl store g = g'
  induction fs generalizing g' with
  | nil => rfl
  | cons f fs ih => exact ih (g'.storeFeature f)

/-- The last feature stored with a base is the one found there. -/
theorem feature?_storeAll (base : Key) :
    (g.storeAll ps fs).feature? base =
      (fs.reverse.find? fun f => f.key = base).or (g.feature? base) := by
  rw [feature?, feature?, features_storeAll]
  generalize g.features = rows
  induction fs generalizing rows with
  | nil => rfl
  | cons f fs ih =>
    rw [List.foldl_cons, ih, List.reverse_cons, List.find?_append, Option.or_assoc, rowOf?_put]
    by_cases hf : f.key = base <;> simp [hf]

@[simp] theorem clock_storeAll : (g.storeAll ps fs).clock = g.clock := by
  have hkept : ∀ g : Graph, (ps.foldl store g).clock = g.clock := by
    induction ps with
    | nil => exact fun _ => rfl
    | cons p ps ih => exact fun g => ih (g.store p)
  rw [storeAll, ← hkept g]
  generalize ps.foldl store g = g'
  induction fs generalizing g' with
  | nil => rfl
  | cons f fs ih => exact ih (g'.storeFeature f)

end StoreAll

/-! ## Commits -/

theorem commit_eq_ok :
    g.commit limits f ds = .ok done ↔ ∃ o drafts, g.outline f ds = .ok o ∧
      (g.linearize f).draft limits f o = .ok drafts ∧
      (⟨(g.linearize f).storeAll drafts o.features, drafts, o.features⟩ : Commit) = done := by
  simp only [commit, locate_eq_ok, bind_eq_ok, pure_eq_ok, exists_and_left]

theorem draftOf_eq_ok {o : Outline} {d : Declaration} :
    g.draftOf limits f o d = .ok p ↔ ∃ kind resolved, d.kind = some kind ∧
      g.planOf limits f o d kind = .ok resolved ∧
      ({ name := d.name, kind := kind, changeable := d.changeable, unit := resolved.unit,
         rawValue := d.rawValue, file := f, plan := resolved.plan } : Parameter) = p := by
  rw [draftOf]
  cases d.kind with
  | none => exact ⟨fun h => (nomatch h), fun ⟨_, _, h, _⟩ => (nomatch h)⟩
  | some kind =>
    simp only [bind_eq_ok, pure_eq_ok, Option.some.injEq]
    constructor
    · rintro ⟨resolved, hr, hp⟩
      exact ⟨kind, resolved, rfl, hr, hp⟩
    · rintro ⟨_, resolved, rfl, hr, hp⟩
      exact ⟨resolved, hr, hp⟩

/-- The steps of a draft. -/
theorem draft_eq_ok_iff {o : Outline} {drafts : List Parameter} :
    g.draft limits f o = .ok drafts ↔
      o.declarations.rows.mapM (g.draftOf limits f o) = .ok drafts ∧
        (∀ p ∈ drafts, g.checkUnits f drafts p = .ok ()) ∧
        ∀ p ∈ drafts, g.checkLengths f drafts p = .ok () := by
  simp only [draft, bind_eq_ok, pure_eq_ok]
  constructor
  · rintro ⟨ps, hps, ⟨⟩, hunits, ⟨⟩, hlengths, rfl⟩
    exact ⟨hps, forM_eq_ok.mp hunits, forM_eq_ok.mp hlengths⟩
  · rintro ⟨hps, hunits, hlengths⟩
    exact ⟨drafts, hps, (), forM_eq_ok.mpr hunits, (), forM_eq_ok.mpr hlengths, rfl⟩

/-- A draft resolves every declaration of its outline. -/
theorem draft_eq_ok {o : Outline} {drafts : List Parameter}
    (h : g.draft limits f o = .ok drafts) :
    o.declarations.rows.mapM (g.draftOf limits f o) = .ok drafts :=
  (draft_eq_ok_iff.mp h).1

/-- A draft has the keys of its outline. -/
theorem keys_of_draft {o : Outline} {drafts : List Parameter}
    (h : o.declarations.rows.mapM (g.draftOf limits f o) = .ok drafts) :
    drafts.map Parameter.key = o.declarations.rows.map Declaration.key := by
  refine map_eq_of_forall₂ (forall₂_of_mapM h) ?_
  intro d p hd
  obtain ⟨kind, resolved, -, -, rfl⟩ := draftOf_eq_ok.mp hd
  rfl

/-- What is drafted for a file is declared in that file. -/
theorem file_of_draft {o : Outline} {drafts : List Parameter}
    (h : o.declarations.rows.mapM (g.draftOf limits f o) = .ok drafts) (hp : p ∈ drafts) :
    p.file = f := by
  obtain ⟨d, -, hd⟩ := mem_of_mapM h hp
  obtain ⟨kind, resolved, -, -, rfl⟩ := draftOf_eq_ok.mp hd
  rfl

section Commit

variable (hc : g.commit limits f ds = .ok done)

include hc

theorem size_commit : done.graph.files.size = g.files.size := by
  obtain ⟨o, drafts, -, -, rfl⟩ := commit_eq_ok.mp hc
  rw [size_storeAll, linearize, size_link]

theorem includesOf_commit (h : FileId) : done.graph.includesOf h = g.includesOf h := by
  obtain ⟨o, drafts, -, -, rfl⟩ := commit_eq_ok.mp hc
  rw [includesOf_storeAll, linearize, includesOf_link]

theorem nameOf_commit (h : FileId) : done.graph.nameOf h = g.nameOf h := by
  obtain ⟨o, drafts, -, -, rfl⟩ := commit_eq_ok.mp hc
  rw [nameOf_storeAll, linearize, nameOf_link]

theorem parentOf?_commit (h : FileId) :
    done.graph.parentOf? h = (g.linearize f).parentOf? h := by
  obtain ⟨o, drafts, -, -, rfl⟩ := commit_eq_ok.mp hc
  rw [parentOf?_storeAll]

theorem clock_commit : done.graph.clock = g.clock := by
  obtain ⟨o, drafts, -, -, rfl⟩ := commit_eq_ok.mp hc
  rw [clock_storeAll]
  rfl

theorem feature?_commit (base : Key) :
    done.graph.feature? base =
      (done.features.reverse.find? fun f => f.key = base).or (g.feature? base) := by
  obtain ⟨o, drafts, -, -, rfl⟩ := commit_eq_ok.mp hc
  rw [feature?_storeAll]
  rfl

theorem features_commit :
    done.graph.features =
      done.features.foldl (fun rows f => put TimeFeature.key f rows) g.features := by
  obtain ⟨o, drafts, -, -, rfl⟩ := commit_eq_ok.mp hc
  rw [features_storeAll]
  rfl

/-- What is committed to a file is stored under that file. -/
theorem file_of_commit (hp : p ∈ done.parameters) : p.file = f := by
  obtain ⟨o, drafts, -, hdraft, rfl⟩ := commit_eq_ok.mp hc
  exact file_of_draft (draft_eq_ok hdraft) hp

theorem declared?_commit (hh : h < g.files.size) (k : Key) :
    done.graph.declared? h k =
      (done.parameters.reverse.find? fun p => p.slot = ⟨h, k⟩).or (g.declared? h k) := by
  obtain ⟨o, drafts, -, -, rfl⟩ := commit_eq_ok.mp hc
  rw [declared?_storeAll _ _ _ _ _ (by rwa [linearize, size_link]), linearize, declared?_link]

end Commit

end ParameterChain.Graph
