/-
# What the arms of a file agree on

A key is *settled* at a file when either no file below declares it, or one file leads
for it and a pre-order walk finds the declaration of that file.  Two diamonds of
includes show that this is no matter of course: with arms in both orders the first
declaration on a walk and the first on the chain may be different ones.

The agreement that is asked of the arms of a file makes it so.  If the arms show a
key from one place then the file that leads for it below one arm leads below all of
them, and if they do not then the file declares the key itself and so leads.

Main statement: `settled_of_arms`, the step of the induction over the files in the
order in which they are loaded.
-/
import ParameterChain.Graph.Arms
import ParameterChain.Proofs.Chain
import ParameterChain.Proofs.Success

namespace ParameterChain.Graph

variable {g : Graph} {f i j w : FileId} {k : Key} {ds : Declarations} {p q : Parameter}

/-! ## Keys of rows -/

theorem key_of_declared? (hp : g.declared? f k = some p) : p.key = k :=
  key_of_rowOf? hp

/-- The parameters of every file are stored under that file. -/
def AtHome (g : Graph) : Prop :=
  ∀ f k p, g.declared? f k = some p → p.file = f

/-- `p` is what is declared in the slot of `p`. -/
def Stored (g : Graph) (p : Parameter) : Prop :=
  g.declared? p.file p.key = some p

theorem AtHome.stored (hhome : g.AtHome) (hp : g.declared? f k = some p) : g.Stored p := by
  have hfile := hhome f k p hp
  have hkey := key_of_declared? hp
  subst hfile hkey
  exact hp

/-- Parameters are told apart by their slots. -/
theorem AtHome.eq_of_slot (hhome : g.AtHome) {k' : Key} (hp : g.declared? i k = some p)
    (hq : g.declared? j k' = some q) (hslot : p.slot = q.slot) : p = q := by
  have hp : g.declared? p.file p.key = some p := hhome.stored hp
  have hq : g.declared? q.file q.key = some q := hhome.stored hq
  rw [show p.file = q.file from congrArg Slot.file hslot,
    show p.key = q.key from congrArg Slot.key hslot] at hp
  exact Option.some.inj (hp.symm.trans hq)

/-- A parameter that is found from a file is declared by a file below. -/
theorem exists_of_firstFound? (hp : g.firstFound? f k = some p) :
    ∃ h, g.declared? h k = some p := by
  obtain ⟨h, -, hh⟩ := List.exists_of_findSome?_eq_some hp
  exact ⟨h, hh⟩

theorem key_of_firstFound? (hp : g.firstFound? f k = some p) : p.key = k := by
  obtain ⟨h, hh⟩ := exists_of_firstFound? hp
  exact key_of_declared? hh

theorem Ordered.below_of_firstFound? (ho : g.Ordered) (hf : f < g.files.size)
    (hp : g.firstFound? f k = some p) : ∃ h, g.Below f h ∧ g.declared? h k = some p := by
  obtain ⟨h, hh, hdecl⟩ := List.exists_of_findSome?_eq_some hp
  rcases (ho.visited_visit hf []).below h hh with hnil | ⟨x, hx, hb⟩
  · exact absurd hnil List.not_mem_nil
  · exact ⟨h, List.mem_singleton.mp hx ▸ hb, hdecl⟩

theorem Ordered.firstFound?_eq_none_iff (ho : g.Ordered) (hf : f < g.files.size) :
    g.firstFound? f k = none ↔ ∀ h, g.Below f h → g.declared? h k = none := by
  induction f using ho.induction with
  | step f ih =>
  have ih := fun i hi => ih i hi (ho.lt_size_of_include hi)
  rw [ho.firstFound?_eq hf, Option.or_eq_none_iff, List.findSome?_eq_none_iff]
  constructor
  · rintro ⟨hself, harms⟩ h hb
    rcases below_iff.mp hb with rfl | ⟨i, hi, hb⟩
    · exact hself
    · exact (ih i hi).mp (harms i hi) h hb
  · intro hnone
    refine ⟨hnone f (Below.refl g f), fun i hi => (ih i hi).mpr fun h hb => ?_⟩
    exact hnone h (hb.head hi)

/-! ## Settled keys -/

/-- One file leads for `k` below `f`, and a walk from `f` finds its declaration. -/
def LedBy (g : Graph) (f : FileId) (k : Key) (w : FileId) : Prop :=
  g.Leads f k w ∧ g.firstFound? f k = g.declared? w k

/-- Below `f` nothing declares `k`, or one file leads for it. -/
def Settled (g : Graph) (f : FileId) (k : Key) : Prop :=
  g.firstFound? f k = none ∨ ∃ w, g.LedBy f k w

/-- What two arms both show of `k` they show from one place. -/
def AgreeOn (g : Graph) (k : Key) (i j : FileId) : Prop :=
  ∀ p q, g.firstFound? i k = some p → g.firstFound? j k = some q → p.slot = q.slot

theorem AgreeOn.symm (h : g.AgreeOn k i j) : g.AgreeOn k j i :=
  fun p q hp hq => (h q p hq hp).symm

theorem AgreeOn.refl (g : Graph) (k : Key) (i : FileId) : g.AgreeOn k i i :=
  fun p q hp hq => by rw [Option.some.inj (hp.symm.trans hq)]

/-- A file that declares a key leads for it. -/
theorem Ordered.ledBy_self (ho : g.Ordered) (hf : f < g.files.size)
    (hdecl : (g.declared? f k).isSome) : g.LedBy f k f := by
  refine ⟨⟨Below.refl g f, hdecl, fun h hb _ => hb⟩, ?_⟩
  obtain ⟨p, hp⟩ := Option.isSome_iff_exists.mp hdecl
  rw [ho.firstFound?_eq hf, hp, Option.some_or]

/-- The file that leads below one arm leads below every arm that shows the key. -/
theorem LedBy.eq_of_agreeOn (hhome : g.AtHome) {w' : FileId} (hi : g.LedBy i k w)
    (hj : g.LedBy j k w') (hagree : g.AgreeOn k i j) : w = w' := by
  obtain ⟨p, hp⟩ := Option.isSome_iff_exists.mp hi.1.declares
  obtain ⟨q, hq⟩ := Option.isSome_iff_exists.mp hj.1.declares
  have hslot := hagree p q (hi.2.trans hp) (hj.2.trans hq)
  calc w = p.file := (hhome w k p hp).symm
    _ = q.file := congrArg Slot.file hslot
    _ = w' := hhome w' k q hq

/-- If a key is settled at every include of a file, and the file declares the key or
its includes agree on it, then it is settled at the file. -/
theorem settled_of_arms (ho : g.Ordered) (hhome : g.AtHome) (hf : f < g.files.size)
    (harms : ∀ i ∈ g.includesOf f, g.Settled i k)
    (hagree : (g.declared? f k).isSome ∨
      ∀ i ∈ g.includesOf f, ∀ j ∈ g.includesOf f, g.AgreeOn k i j) :
    g.Settled f k := by
  rcases hagree with hdecl | hagree
  · exact Or.inr ⟨f, ho.ledBy_self hf hdecl⟩
  by_cases hdecl : (g.declared? f k).isSome
  · exact Or.inr ⟨f, ho.ledBy_self hf hdecl⟩
  have hself : g.declared? f k = none := Option.not_isSome_iff_eq_none.mp hdecl
  have heq := ho.firstFound?_eq hf k
  rw [hself, Option.none_or] at heq
  cases hfound : g.firstFound? f k with
  | none => exact Or.inl hfound
  | some p =>
    -- Some arm `i` shows the key; the file that leads below it leads below `f`.
    obtain ⟨i, hi, hip⟩ := List.exists_of_findSome?_eq_some (heq ▸ hfound)
    rcases harms i hi with hnone | ⟨w, hw⟩
    · exact absurd (hnone.symm.trans hip) (by simp)
    refine Or.inr ⟨w, ⟨hw.1.below.head hi, hw.1.declares, fun h hb hh => ?_⟩, ?_⟩
    · rcases below_iff.mp hb with rfl | ⟨j, hj, hb⟩
      · exact absurd hh hdecl
      · rcases harms j hj with hnone | ⟨w', hw'⟩
        · have hnot := (ho.firstFound?_eq_none_iff (ho.lt_size_of_include hj)).mp hnone h hb
          exact absurd hh (by simp [hnot])
        · rw [hw.eq_of_agreeOn hhome hw' (hagree i hi j hj)]
          exact hw'.1.above h hb hh
    · rw [hfound, ← hip, hw.2]

/-! ## What the check of the arms finds out -/

theorem rowOf?_flatMap (files : List FileId) :
    rowOf? Parameter.key k (files.flatMap g.parametersOf) =
      files.findSome? (g.declared? · k) := by
  induction files with
  | nil => rfl
  | cons f files ih =>
    rw [List.flatMap_cons, rowOf?, List.find?_append, List.findSome?_cons]
    change (g.declared? f k).or (rowOf? Parameter.key k (files.flatMap g.parametersOf)) = _
    rw [ih]
    cases g.declared? f k <;> rfl

theorem mem_firstPerKey_of_rowOf? {ps : List Parameter}
    (hp : rowOf? Parameter.key k ps = some p) : p ∈ firstPerKey ps := by
  induction ps with
  | nil => cases hp
  | cons a ps ih =>
    by_cases ha : a.key = k
    · have heq : a = p := by simpa [rowOf?, ha] using hp
      exact heq ▸ List.mem_cons_self
    · have hrest : rowOf? Parameter.key k ps = some p := by simpa [rowOf?, ha] using hp
      have hkey : p.key = k := key_of_rowOf? hp
      refine List.mem_cons_of_mem a (List.mem_filter.mpr ⟨ih hrest, ?_⟩)
      exact decide_eq_true fun heq => ha (heq.symm.trans hkey)

/-- What a walk finds of a key is among what it shows. -/
theorem mem_shownBy (hp : g.firstFound? i k = some p) : p ∈ g.shownBy i := by
  refine List.mem_mergeSort.mpr (mem_firstPerKey_of_rowOf? ?_ (k := k))
  rw [rowOf?_flatMap]
  exact hp

/-- A name that was judged is contested as far as the later arms disagree with it,
and then the file declares it. -/
theorem contestedName_eq_ok {later others : List FileId} {c : Option Key}
    (h : g.contestedName f ds i later others p = .ok c) :
    c = (g.disagreeing? p later).map (fun _ => p.key) ∧
      ((g.disagreeing? p later).isSome → (ds.get? p.key).isSome) := by
  rw [contestedName] at h
  simp only at h
  refine ⟨?_, ?_⟩
  · -- Every step before the last refuses or gives nothing.
    split at h
    · split at h
      · cases h
      · split at h
        · split at h
          · cases h
          · exact (pure_eq_ok.mp h).symm
        · exact (pure_eq_ok.mp h).symm
    · split at h
      · split at h
        · cases h
        · exact (pure_eq_ok.mp h).symm
      · exact (pure_eq_ok.mp h).symm
  · intro hsome
    obtain ⟨other, hother⟩ := Option.isSome_iff_exists.mp hsome
    by_contra hnone
    simp only [hother] at h
    rw [if_pos (by simpa using hnone)] at h
    cases h

/-- Arms that disagree on a name were both judged: the name is on the list of the
contested ones, and the file declares it. -/
theorem contestedFrom_eq_ok {arms : List FileId} {ks : List Key}
    (h : g.contestedFrom f ds arms = .ok ks) :
    arms.Pairwise fun i j => ∀ k, g.AgreeOn k i j ∨ k ∈ ks ∧ (ds.get? k).isSome := by
  induction arms generalizing ks with
  | nil => exact .nil
  | cons i later ih =>
    simp only [contestedFrom, bind_eq_ok, pure_eq_ok] at h
    obtain ⟨here, hhere, rest, hrest, rfl⟩ := h
    refine List.pairwise_cons.mpr ⟨fun j hj k => ?_, (ih hrest).imp fun hij k => ?_⟩
    · by_cases hagree : g.AgreeOn k i j
      · exact Or.inl hagree
      · refine Or.inr ?_
        rw [AgreeOn] at hagree
        push Not at hagree
        obtain ⟨p, q, hp, hq, hslot⟩ := hagree
        have hkey : p.key = k := key_of_firstFound? hp
        obtain ⟨c, hc, hjudged⟩ := exists_of_mapM hhere (mem_shownBy hp)
        obtain ⟨rfl, hdecl⟩ := contestedName_eq_ok hjudged
        have hsome : (g.disagreeing? p later).isSome := by
          rw [disagreeing?, List.find?_isSome]
          exact ⟨j, hj, by simp [hkey, hq, Ne.symm hslot]⟩
        refine ⟨List.mem_append_left rest ?_, hkey ▸ hdecl hsome⟩
        obtain ⟨other, hother⟩ := Option.isSome_iff_exists.mp hsome
        rw [hother, Option.map_some, hkey] at hc
        exact List.mem_filterMap.mpr ⟨some k, hc, rfl⟩
    · rcases hij k with hagree | ⟨hk, hdecl⟩
      · exact Or.inl hagree
      · exact Or.inr ⟨List.mem_append_right _ hk, hdecl⟩

/-- Two includes of a file agree on every name that the file does not declare. -/
theorem agreeOn_of_contested {ks : List Key} (h : g.contested f ds = .ok ks)
    (hi : i ∈ g.includesOf f) (hj : j ∈ g.includesOf f) :
    g.AgreeOn k i j ∨ k ∈ ks ∧ (ds.get? k).isSome := by
  have hpairs := contestedFrom_eq_ok h
  refine (hpairs.forall_of_forall_of_flip ?_ ?_) hi hj k
  · exact fun x _ k => Or.inl (AgreeOn.refl g k x)
  · exact hpairs.imp fun hij k => (hij k).imp AgreeOn.symm id

end ParameterChain.Graph
