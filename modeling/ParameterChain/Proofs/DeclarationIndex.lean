/-
# Declarations behind an index

The table of the declarations of a file is kept as two structures.  The declarations stand side by
side in the order in which their keys were first declared, and an *index* leads from a key to the
place of its declaration.  A declaration whose key is in the index overwrites what stands at that
place; any other one is put at the end and entered in the index.

What the two structures stand for is a table of declarations (`IndexedDeclarations.table`), and
each operation on them stands for the operation of that name on tables, with the same result
(`Indexed.add_table`).  This holds as long as the index leads from each key to its place and
nowhere else (`Indexed`), which every call keeps, whether it succeeds or fails.

Main statement: `IndexedDeclarations.after_calls`, on any sequence of calls.
-/
import Mathlib.Data.List.Nodup
import ParameterChain.Proofs.History

namespace ParameterChain

/-- The declaration that a record makes whose name has the heading `h`. -/
def Heading.declaration (h : Heading) (r : Record) : Declaration :=
  ⟨Name.ofText h.name, h.kind, r.value, h.changeable, r.line⟩

/-- The failure of a record that is refused for the cause `c`. -/
def Record.refused (r : Record) (c : Cause) : Failure :=
  ((c.failure.atLine r.line).about r.name).withValue r.value

/-- The table after some records; one that is refused leaves it as it was. -/
def Declarations.after (ds : Declarations) (rs : List Record) : Declarations :=
  rs.foldl (fun ds r => (ds.extend r).toOption.getD ds) ds

/-- The declarations and the include specs of one file, with an index of the declarations. -/
structure IndexedDeclarations where
  rows : Array Declaration := #[]
  /-- The keys with the places of their declarations. -/
  index : List (Key × Nat) := []
  includes : List String := []
  /-- Whether every name may be declared again. -/
  redefinable : Bool := false

namespace IndexedDeclarations

/-! ## Operations -/

/-- The place of the declaration of a key. -/
def placeOf? (t : IndexedDeclarations) (k : Key) : Option Nat :=
  (rowOf? Prod.fst k t.index).map Prod.snd

/-- The declaration of a key. -/
def get? (t : IndexedDeclarations) (k : Key) : Option Declaration :=
  (t.placeOf? k).bind fun i => t.rows[i]?

/-- Put a declaration in place of another. -/
def overwrite (t : IndexedDeclarations) (i : Nat) (d : Declaration) : IndexedDeclarations :=
  { t with rows := t.rows.setIfInBounds i d }

/-- Put a declaration at the end and enter its place in the index. -/
def append (t : IndexedDeclarations) (d : Declaration) : IndexedDeclarations :=
  { t with rows := t.rows.push d, index := put Prod.fst (d.key, t.rows.size) t.index }

/-- Put a declaration in place of the one of the same name, or at the end. -/
def insert (t : IndexedDeclarations) (d : Declaration) : IndexedDeclarations :=
  match t.placeOf? d.key with
  | some i => t.overwrite i d
  | none => t.append d

/-- List one more include, unless it is that of the built-in defaults. -/
def listInclude (t : IndexedDeclarations) (spec : String) : IndexedDeclarations :=
  if spec = builtInDefaults then t else { t with includes := t.includes ++ [spec] }

/-- Add the declaration of a record, if its name is neither reserved nor taken. -/
def store (t : IndexedDeclarations) (r : Record) (d : Declaration) :
    Attempt (Option Declaration) × IndexedDeclarations :=
  if d.changeable && d.key.isReserved then (.error (r.refused .reservedAttribute), t)
  else
    match t.placeOf? d.key with
    | some i =>
        if !t.redefinable && !d.key.startsWith bulkFamily then
          (.error (r.refused .duplicateInFile), t)
        else (.ok (some d), t.overwrite i d)
    | none => (.ok (some d), t.insert d)

/-- Add one record.  The result has no declaration for `includeFile`.  The table is changed where
it stands, so that a call leaves one behind when it fails, too. -/
def add (t : IndexedDeclarations) (r : Record) :
    Attempt (Option Declaration) × IndexedDeclarations :=
  if r.listsIncludes then (.ok none, (Text.split r.value).foldl listInclude t)
  else
    match Heading.ofText r.name with
    | .error c => (.error (r.refused c), t)
    | .ok h => t.store r (h.declaration r)

/-- The table after some calls, whether they succeed or fail. -/
def after (t : IndexedDeclarations) (calls : List Record) : IndexedDeclarations :=
  calls.foldl (fun t r => (t.add r).2) t

/-- The declarations that some calls make, the first one first. -/
def accepted (t : IndexedDeclarations) : List Record → List Declaration
  | [] => []
  | r :: calls => (t.add r).1.toOption.join.toList ++ (t.add r).2.accepted calls

/-- The table that the rows and their index stand for. -/
def table (t : IndexedDeclarations) : Declarations where
  rows := t.rows.toList
  includes := t.includes
  redefinable := t.redefinable

variable {t : IndexedDeclarations} {d : Declaration} {k : Key} {i : Nat} {r : Record}

/-! ## Places -/

/-- The index leads from a key to the place of its declaration, and nowhere else. -/
def Indexed (t : IndexedDeclarations) : Prop :=
  ∀ k i, t.placeOf? k = some i ↔ t.rows[i]?.map Declaration.key = some k

theorem indexed_empty (redefinable : Bool) : ({ redefinable } : IndexedDeclarations).Indexed :=
  fun k i => by simp [placeOf?, rowOf?]

theorem Indexed.exists_of_placeOf? (ht : t.Indexed) (hi : t.placeOf? k = some i) :
    ∃ d, t.rows[i]? = some d ∧ d.key = k :=
  Option.map_eq_some_iff.mp ((ht k i).mp hi)

/-- No key is declared twice, for its place would have two numbers. -/
theorem Indexed.nodup (ht : t.Indexed) : (t.rows.toList.map Declaration.key).Nodup := by
  have hkey : ∀ i : Nat, (t.rows.toList.map Declaration.key)[i]? =
      t.rows[i]?.map Declaration.key := by
    intro i
    rw [List.getElem?_map, Array.getElem?_toList]
  refine List.nodup_iff_getElem?_ne_getElem?.mpr fun i j hij hj hsame => ?_
  obtain ⟨k, hk⟩ : ∃ k, (t.rows.toList.map Declaration.key)[j]? = some k :=
    ⟨_, List.getElem?_eq_getElem hj⟩
  have hi := (ht k i).mpr (by rw [← hkey, hsame, hk])
  have hj := (ht k j).mpr (by rw [← hkey, hk])
  cases hi.symm.trans hj
  exact absurd hij (Nat.lt_irrefl i)

/-- By way of the index the declaration of a key is found. -/
theorem Indexed.get?_eq (ht : t.Indexed) (k : Key) :
    t.get? k = rowOf? Declaration.key k t.rows.toList := by
  refine Option.ext fun d => ?_
  rw [rowOf?_eq_some ht.nodup, get?, Option.bind_eq_some_iff]
  constructor
  · rintro ⟨i, hi, hd⟩
    obtain ⟨d', hd', hkey⟩ := ht.exists_of_placeOf? hi
    cases hd.symm.trans hd'
    exact ⟨Array.mem_toList_iff.mpr (Array.mem_of_getElem? hd), hkey⟩
  · rintro ⟨hd, rfl⟩
    obtain ⟨i, hi⟩ := Array.mem_iff_getElem?.mp (Array.mem_toList_iff.mp hd)
    exact ⟨i, (ht d.key i).mpr (by rw [hi]; rfl), hi⟩

theorem Indexed.isSome_get? (ht : t.Indexed) (k : Key) :
    (t.get? k).isSome = (t.placeOf? k).isSome := by
  cases hi : t.placeOf? k with
  | none =>
    rw [get?, hi, Option.bind_none]
    rfl
  | some i =>
    obtain ⟨d, hd, -⟩ := ht.exists_of_placeOf? hi
    rw [get?, hi, Option.bind_some, hd]
    rfl

/-! ## Insertions -/

theorem Indexed.overwrite (ht : t.Indexed) (hi : t.placeOf? d.key = some i) :
    (t.overwrite i d).Indexed := by
  obtain ⟨old, hold, hkey⟩ := ht.exists_of_placeOf? hi
  have hsize := (Array.getElem?_eq_some_iff.mp hold).1
  intro k j
  -- All places keep their keys.
  have hkeys : (t.rows.setIfInBounds i d)[j]?.map Declaration.key =
      t.rows[j]?.map Declaration.key := by
    rw [Array.getElem?_setIfInBounds]
    by_cases hij : i = j
    · subst hij
      rw [if_pos rfl, if_pos hsize, hold, Option.map_some, Option.map_some, hkey]
    · rw [if_neg hij]
  show t.placeOf? k = some j ↔ (t.rows.setIfInBounds i d)[j]?.map Declaration.key = some k
  rw [hkeys]
  exact ht k j

theorem Indexed.append (ht : t.Indexed) (hnew : t.placeOf? d.key = none) :
    (t.append d).Indexed := by
  have hnowhere : ∀ j : Nat, t.rows[j]?.map Declaration.key ≠ some d.key := by
    intro j hj
    cases hnew.symm.trans ((ht d.key j).mpr hj)
  intro k j
  have hplace : (t.append d).placeOf? k =
      if d.key = k then some t.rows.size else t.placeOf? k := by
    rw [placeOf?, IndexedDeclarations.append, rowOf?_put]
    split <;> rfl
  have hrow : (t.append d).rows[j]?.map Declaration.key =
      if j = t.rows.size then some d.key else t.rows[j]?.map Declaration.key := by
    rw [IndexedDeclarations.append, Array.getElem?_push]
    split <;> rfl
  rw [hplace, hrow]
  by_cases hk : d.key = k
  · subst hk
    rw [if_pos rfl]
    by_cases hj : j = t.rows.size
    · simp [hj]
    · simp [hj, hnowhere j, Ne.symm hj]
  · rw [if_neg hk]
    by_cases hj : j = t.rows.size
    · subst hj
      rw [if_pos rfl, ht k]
      simp [hk]
    · rw [if_neg hj]
      exact ht k j

theorem Indexed.insert (ht : t.Indexed) (d : Declaration) : (t.insert d).Indexed := by
  rw [IndexedDeclarations.insert]
  cases hi : t.placeOf? d.key with
  | some i => exact ht.overwrite hi
  | none => exact ht.append hi

/-- The rows are those of the table, overwritten or extended as the index says. -/
theorem Indexed.table_insert (ht : t.Indexed) (d : Declaration) :
    (t.insert d).table = t.table.insert d := by
  rw [IndexedDeclarations.insert]
  cases hi : t.placeOf? d.key with
  | some i =>
    obtain ⟨old, hold, hkey⟩ := ht.exists_of_placeOf? hi
    rw [← Array.getElem?_toList] at hold
    show ({ t.table with rows := (t.rows.setIfInBounds i d).toList } : Declarations) = _
    rw [Declarations.insert, table, Array.toList_setIfInBounds, put_eq_set ht.nodup hold hkey]
  | none =>
    have hnew : rowOf? Declaration.key d.key t.rows.toList = none := by
      rw [← ht.get?_eq, get?, hi, Option.bind_none]
    show ({ t.table with rows := (t.rows.push d).toList } : Declarations) = _
    rw [Declarations.insert, table, Array.toList_push, put_eq_append hnew]

/-! ## Calls -/

theorem foldl_listInclude (t : IndexedDeclarations) (specs : List String) :
    specs.foldl listInclude t =
      { t with includes := t.includes ++ specs.filter (· ≠ builtInDefaults) } := by
  induction specs generalizing t with
  | nil => simp
  | cons spec specs ih =>
    rw [List.foldl_cons, ih, listInclude]
    by_cases hdefaults : spec = builtInDefaults <;> simp [hdefaults]

/-- A call lists includes, or it fails and changes nothing, or it puts a declaration in. -/
theorem add_cases (t : IndexedDeclarations) (r : Record) :
    (r.listsIncludes = true ∧
      t.add r = (.ok none, { t with includes := t.includes ++ r.specs })) ∨
    r.listsIncludes = false ∧ ((∃ f, t.add r = (.error f, t)) ∨
      ∃ d, t.add r = (.ok (some d), t.insert d)) := by
  rw [add]
  cases hlists : r.listsIncludes with
  | true => exact .inl ⟨rfl, by rw [if_pos rfl, foldl_listInclude, Record.specs, if_pos hlists]⟩
  | false =>
    rw [if_neg Bool.false_ne_true]
    refine .inr ⟨rfl, ?_⟩
    cases Heading.ofText r.name with
    | error c => exact .inl ⟨_, rfl⟩
    | ok h =>
      simp only [store]
      split
      · exact .inl ⟨_, rfl⟩
      cases hi : t.placeOf? (h.declaration r).key with
      | none => exact .inr ⟨_, rfl⟩
      | some i =>
        simp only
        split
        · exact .inl ⟨_, rfl⟩
        · refine .inr ⟨h.declaration r, ?_⟩
          rw [insert, hi]

/-- A call that fails changes nothing. -/
theorem add_of_error {f : Failure} (hf : (t.add r).1 = .error f) : (t.add r).2 = t := by
  rcases add_cases t r with ⟨-, hadd⟩ | ⟨-, ⟨f', hadd⟩ | ⟨d, hadd⟩⟩
  · rw [hadd] at hf
    cases hf
  · rw [hadd]
  · rw [hadd] at hf
    cases hf

theorem Indexed.add (ht : t.Indexed) (r : Record) : (t.add r).2.Indexed := by
  rcases add_cases t r with ⟨-, hadd⟩ | ⟨-, ⟨f, hadd⟩ | ⟨d, hadd⟩⟩ <;> rw [hadd]
  · exact ht
  · exact ht
  · exact ht.insert d

/-- How a table judges a name that is well formed. -/
theorem declare_of_heading {h : Heading} (hh : Heading.ofText r.name = .ok h)
    (ds : Declarations) : ds.declare r.name r.value r.line =
      if (h.declaration r).changeable && (h.declaration r).key.isReserved then
        .error .reservedAttribute
      else if (ds.get? (h.declaration r).key).isSome && !ds.allowsAgain (h.declaration r).key then
        .error .duplicateInFile
      else .ok (h.declaration r) := by
  rw [Declarations.declare, hh]
  rfl

/-- A call that names a parameter well is refused for its name being taken, or declares it. -/
theorem Indexed.add_of_heading (ht : t.Indexed) {h : Heading} (hlists : r.listsIncludes = false)
    (hh : Heading.ofText r.name = .ok h)
    (hreserved : ((h.declaration r).changeable && (h.declaration r).key.isReserved) = false) :
    t.add r =
      if (t.get? (h.declaration r).key).isSome && !t.table.allowsAgain (h.declaration r).key then
        (.error (r.refused .duplicateInFile), t)
      else (.ok (some (h.declaration r)), t.insert (h.declaration r)) := by
  have hagain : (!t.redefinable && !(h.declaration r).key.startsWith bulkFamily) =
      !t.table.allowsAgain (h.declaration r).key := (Bool.not_or _ _).symm
  rw [IndexedDeclarations.add, hlists, if_neg Bool.false_ne_true, hh]
  simp only [store]
  rw [hreserved, if_neg Bool.false_ne_true, ht.isSome_get?, IndexedDeclarations.insert, hagain]
  cases t.placeOf? (h.declaration r).key with
  | none => rfl
  | some i => rfl

/-- It is refused exactly if its key is declared and may not be declared again. -/
theorem Indexed.duplicate_iff (ht : t.Indexed) {h : Heading} (hlists : r.listsIncludes = false)
    (hh : Heading.ofText r.name = .ok h)
    (hreserved : ((h.declaration r).changeable && (h.declaration r).key.isReserved) = false) :
    ((∃ f, (t.add r).1 = .error f ∧ f.kind = .duplicateDeclaration) ↔
      (t.get? (h.declaration r).key).isSome ∧ t.redefinable = false ∧
        (h.declaration r).key.startsWith bulkFamily = false) ∧
    ((t.add r).1 = .ok (some (h.declaration r)) ∨
      ∃ f, (t.add r).1 = .error f ∧ f.kind = .duplicateDeclaration) := by
  rw [ht.add_of_heading hlists hh hreserved]
  by_cases htaken : ((t.get? (h.declaration r).key).isSome &&
      !t.table.allowsAgain (h.declaration r).key) = true
  · rw [if_pos htaken]
    simp only [Declarations.allowsAgain, table, Bool.and_eq_true, Bool.not_eq_true',
      Bool.or_eq_false_iff] at htaken
    exact ⟨iff_of_true ⟨_, rfl, rfl⟩ htaken, .inr ⟨_, rfl, rfl⟩⟩
  · rw [if_neg htaken]
    simp only [Declarations.allowsAgain, table, Bool.and_eq_true, Bool.not_eq_true',
      Bool.or_eq_false_iff] at htaken
    refine ⟨iff_of_false ?_ htaken, .inl rfl⟩
    rintro ⟨f, hf, -⟩
    cases hf

/-- A call stands for the call of that name on the table, with the same result. -/
theorem Indexed.add_table (ht : t.Indexed) (r : Record) :
    t.table.add r.name r.value r.line =
      (t.add r).1.map fun added => ((t.add r).2.table, added) := by
  rw [Declarations.add, ← Record.listsIncludes]
  by_cases hlists : r.listsIncludes = true
  · rw [if_pos hlists, IndexedDeclarations.add, if_pos hlists, foldl_listInclude]
    rfl
  rw [if_neg hlists]
  cases hh : Heading.ofText r.name with
  | error c =>
    rw [Declarations.declare, hh, IndexedDeclarations.add, if_neg hlists, hh]
    rfl
  | ok h =>
    rw [declare_of_heading hh]
    by_cases hreserved : ((h.declaration r).changeable && (h.declaration r).key.isReserved) = true
    · rw [if_pos hreserved, IndexedDeclarations.add, if_neg hlists, hh]
      simp only [store]
      rw [if_pos hreserved]
      rfl
    have hget : t.table.get? (h.declaration r).key = t.get? (h.declaration r).key :=
      (ht.get?_eq _).symm
    rw [if_neg hreserved, hget, ht.add_of_heading (Bool.eq_false_iff.mpr hlists) hh
      (Bool.eq_false_iff.mpr hreserved)]
    by_cases htaken : ((t.get? (h.declaration r).key).isSome &&
        !t.table.allowsAgain (h.declaration r).key) = true
    · rw [if_pos htaken, if_pos htaken]
      rfl
    · rw [if_neg htaken, if_neg htaken]
      simp only [← ht.table_insert]
      rfl

/-! ## Runs -/

variable (t) (calls : List Record)

@[simp] theorem redefinable_after : (t.after calls).redefinable = t.redefinable := by
  induction calls generalizing t with
  | nil => rfl
  | cons r calls ih =>
    have hstep : (t.add r).2.redefinable = t.redefinable := by
      rcases add_cases t r with ⟨-, hadd⟩ | ⟨-, ⟨f, hadd⟩ | ⟨d, hadd⟩⟩ <;> rw [hadd]
      rw [insert]
      split <;> rfl
    exact (ih (t.add r).2).trans hstep

theorem includes_after : (t.after calls).includes = t.includes ++ calls.flatMap Record.specs := by
  induction calls generalizing t with
  | nil => exact (List.append_nil _).symm
  | cons r calls ih =>
    have hstep : (t.add r).2.includes = t.includes ++ r.specs := by
      have hnone : r.listsIncludes = false → r.specs = [] := fun hlists => by
        rw [Record.specs, hlists, if_neg Bool.false_ne_true]
      rcases add_cases t r with ⟨-, hadd⟩ | ⟨hlists, ⟨f, hadd⟩ | ⟨d, hadd⟩⟩ <;> rw [hadd]
      · rw [hnone hlists, List.append_nil]
      · rw [hnone hlists, List.append_nil, insert]
        split <;> rfl
    rw [List.flatMap_cons, ← List.append_assoc, ← hstep]
    exact ih (t.add r).2

variable {t} {calls}

theorem Indexed.after (ht : t.Indexed) : (t.after calls).Indexed := by
  induction calls generalizing t with
  | nil => exact ht
  | cons r calls ih => exact ih (ht.add r)

/-- Whatever fails in between, the rows are those of the tables that stand behind them. -/
theorem Indexed.table_after (ht : t.Indexed) : (t.after calls).table = t.table.after calls := by
  induction calls generalizing t with
  | nil => rfl
  | cons r calls ih =>
    have hstep : ((t.table.extend r).toOption.getD t.table) = (t.add r).2.table := by
      rw [Declarations.extend, ht.add_table]
      cases hadd : (t.add r).1 with
      | error f =>
        rw [add_of_error hadd]
        rfl
      | ok added => rfl
    rw [Declarations.after, List.foldl_cons, hstep]
    exact ih (ht.add r)

/-- The rows are the accepted declarations, put in one after the other. -/
theorem Indexed.rows_after (ht : t.Indexed) : (t.after calls).rows.toList =
    (t.accepted calls).foldl (fun rows d => put Declaration.key d rows) t.rows.toList := by
  induction calls generalizing t with
  | nil => rfl
  | cons r calls ih =>
    have hstep : (t.add r).2.rows.toList = (t.add r).1.toOption.join.toList.foldl
        (fun rows d => put Declaration.key d rows) t.rows.toList := by
      rcases add_cases t r with ⟨-, hadd⟩ | ⟨-, ⟨f, hadd⟩ | ⟨d, hadd⟩⟩ <;> rw [hadd]
      · rfl
      · rfl
      · exact congrArg Declarations.rows (ht.table_insert d)
    rw [accepted, List.foldl_append, ← hstep]
    exact ih (ht.add r)

/-- Declarations and their index.  Let records be added to an empty table, with or without
redefinition, whether they are accepted or refused, and let `t` be the table that they leave.

  * It stands for the table that the records leave without an index, and so does the result of
    each further call.
  * No two declarations have one key, and the index leads from a key to its place and nowhere else.
  * A call with a name that is well formed and not reserved is refused as a duplicate exactly if
    its key is declared, redefinition is off and the key is not of the bulk family.  If it is not
    refused, it declares what it says.
  * A call with the pseudo-name `includeFile` is no declaration: it lists its includes.
  * A call that fails changes nothing.
  * Under a key stands the latest declaration of that key that was accepted, and the keys stand in
    the order in which they were first accepted.
  * The includes are those that the calls with the pseudo-name list, in their order, without the
    built-in defaults. -/
theorem after_calls (redefinable : Bool) (calls : List Record) :
    let start : IndexedDeclarations := { redefinable }
    let t := start.after calls
    (t.table = ({ redefinable } : Declarations).after calls ∧
      ∀ r, t.table.add r.name r.value r.line =
        (t.add r).1.map fun added => ((t.add r).2.table, added)) ∧
    ((t.rows.toList.map Declaration.key).Nodup ∧
      ∀ k i, t.placeOf? k = some i ↔ t.rows[i]?.map Declaration.key = some k) ∧
    (∀ r h, r.listsIncludes = false → Heading.ofText r.name = .ok h →
      let d := h.declaration r
      (d.changeable && d.key.isReserved) = false →
        ((∃ f, (t.add r).1 = .error f ∧ f.kind = .duplicateDeclaration) ↔
          (t.get? d.key).isSome ∧ redefinable = false ∧ d.key.startsWith bulkFamily = false) ∧
        ((t.add r).1 = .ok (some d) ∨
          ∃ f, (t.add r).1 = .error f ∧ f.kind = .duplicateDeclaration)) ∧
    (∀ r, r.listsIncludes = true →
      t.add r = (.ok none, { t with includes := t.includes ++ r.specs })) ∧
    (∀ r f, (t.add r).1 = .error f → (t.add r).2 = t) ∧
    ((∀ k, t.get? k = rowOf? Declaration.key k (start.accepted calls).reverse) ∧
      t.rows.toList.map Declaration.key =
        ((start.accepted calls).map Declaration.key).eraseDups) ∧
    t.includes = calls.flatMap Record.specs := by
  intro start t
  have hstart : start.Indexed := indexed_empty redefinable
  have ht : t.Indexed := hstart.after
  have hrows : t.rows.toList =
      (start.accepted calls).foldl (fun rows d => put Declaration.key d rows) [] :=
    hstart.rows_after
  refine ⟨⟨hstart.table_after, ht.add_table⟩, ⟨ht.nodup, ht⟩, ?_, ?_, fun r f => add_of_error,
    ⟨fun k => ?_, ?_⟩, ?_⟩
  · intro r h hlists hh d hreserved
    have hredefinable : t.redefinable = redefinable := redefinable_after start calls
    have hjudged := ht.duplicate_iff hlists hh hreserved
    rw [hredefinable] at hjudged
    exact hjudged
  · intro r hlists
    rcases add_cases t r with ⟨-, hadd⟩ | ⟨hnot, -⟩
    · exact hadd
    · cases hlists.symm.trans hnot
  · rw [ht.get?_eq, hrows, rowOf?_foldl_put]
    exact Option.or_none
  · rw [hrows]
    exact keys_foldl_put Declaration.key _
  · exact includes_after start calls

/-- Records that end in every way: a name that is declared again in another spelling, one of the
bulk family that is, a reserved name with a marker, a type code that is none, and includes in two
records. -/
def tissues : List Record :=
  [⟨"s:Ge/Box/Type", "\"G4Box\"", 1⟩, ⟨"includeFile", "a TOPAS_Built_In_Defaults  b", 2⟩,
    ⟨"d:GE/box/TYPE", "2 m", 3⟩, ⟨"s:Ma/PatientTissue1/Name", "\"fat\"", 4⟩,
    ⟨"sc:So/Beam/Type", "\"Beam\"", 5⟩, ⟨"q:N", "1", 6⟩, ⟨"i:N", "2", 7⟩,
    ⟨"s:ma/patienttissue1/NAME", "\"bone\"", 8⟩, ⟨"INCLUDEFILE", " c", 9⟩]

theorem after_calls_tissues :
    let t := ({} : IndexedDeclarations).after tissues
    (t.rows.toList.map fun d => (d.name.text, d.rawValue)) = [("Ge/Box/Type", "\"G4Box\""),
        ("ma/patienttissue1/NAME", "\"bone\""), ("N", "2")] ∧
      t.placeOf? ⟨"ma/patienttissue1/name"⟩ = some 1 ∧ t.includes = ["a", "b", "c"] ∧
      (∃ f, (t.add ⟨"dc:n", "1 m", 10⟩).1 = .error f ∧ f.kind = .duplicateDeclaration) ∧
      (t.add ⟨"dc:n", "1 m", 10⟩).2 = t ∧
      ¬ (∃ f, (t.add ⟨"d:MA/PatientTissue1/name", "1 m", 10⟩).1 = .error f ∧
        f.kind = .duplicateDeclaration) := by
  obtain ⟨-, ⟨-, hplaces⟩, hjudged, -, hfails, -, hincludes⟩ := after_calls false tissues
  have hrows : (({} : IndexedDeclarations).after tissues).rows.toList.map
      (fun d => (d.name.text, d.rawValue)) = [("Ge/Box/Type", "\"G4Box\""),
        ("ma/patienttissue1/NAME", "\"bone\""), ("N", "2")] := by
    decide +kernel
  have hdeclared : ∀ k ∈ [(⟨"n"⟩ : Key), ⟨"ma/patienttissue1/name"⟩],
      ((({} : IndexedDeclarations).after tissues).get? k).isSome = true := by
    decide +kernel
  obtain ⟨hiff, -⟩ := hjudged ⟨"dc:n", "1 m", 10⟩ ⟨some ⟨.dimensioned, false⟩, true, "n"⟩
    (by decide) (by decide) (by decide)
  obtain ⟨f, hf, hkind⟩ := hiff.mpr ⟨hdeclared _ (by decide), rfl, by decide⟩
  obtain ⟨hiff', -⟩ := hjudged ⟨"d:MA/PatientTissue1/name", "1 m", 10⟩
    ⟨some ⟨.dimensioned, false⟩, false, "MA/PatientTissue1/name"⟩ (by decide) (by decide)
    (by decide)
  refine ⟨hrows, (hplaces _ _).mpr (by decide +kernel), hincludes.trans (by decide +kernel),
    ⟨f, hf, hkind⟩, hfails _ f hf, fun hduplicate => ?_⟩
  exact absurd (hiff'.mp hduplicate).2.2 (by decide)

end IndexedDeclarations

end ParameterChain
