/-
# Combining vectors place by place

An operator combines values by way of what they are read as: integers, doubles or texts, and
integers as doubles where the other side is no integer.  All these ways are one: the sorts of the
two operands and the operator make a function on scalars (`Scalar.join?`), or else the operands
are incompatible, and the function is applied to the two shapes (`Value.lift`, `combine_eq`).

So a vector is the result of combining what stands at each place (`standing?`, where a scalar
stands at every place), whichever way was taken: the way depends on the sorts alone, and a place
of a vector has the sort of the vector.

Main statements: `combine_eq` and `combine_pointwise`.
-/
import Mathlib.Data.Option.NAry
import ParameterChain.Proofs.Kinds

namespace ParameterChain

/-! ## Shapes -/

namespace Shape

variable {α β γ : Type} {f : α → β → γ} {a : Shape α} {b : Shape β} {c : Shape γ}

/-- What stands at position `i`: a single `α` stands at every position. -/
def stand? (a : Shape α) (i : Nat) : Option α :=
  match a with
  | .one a => some a
  | .many as => as[i]?

/-- Two lists have the same length; a single one goes with every length. -/
def Agrees (a : Shape α) (b : Shape β) : Prop :=
  a.isMany = true → b.isMany = true → a.size = b.size

/-- The number of places of two shapes that agree, one of them a list. -/
def places (a : Shape α) (b : Shape β) : Nat :=
  if a.isMany then a.size else b.size

theorem zipWith_eq_error {p : Nat × Nat} :
    a.zipWith f b = .error p ↔
      a.isMany = true ∧ b.isMany = true ∧ a.size ≠ b.size ∧ p = (a.size, b.size) := by
  cases a with
  | one x => cases b <;> simp [zipWith, isMany]
  | many xs =>
    cases b with
    | one y => simp [zipWith, isMany]
    | many ys =>
      by_cases hlength : xs.length = ys.length
      · simp [zipWith, hlength, size]
      · simp [zipWith, hlength, size, isMany, eq_comm]

/-- Two shapes that agree, one of them a list, are joined to the list with the joined element at
each place. -/
theorem exists_zipWith (hmany : a.isMany = true ∨ b.isMany = true) (h : a.Agrees b) :
    ∃ cs, a.zipWith f b = .ok (.many cs) ∧ cs.length = a.places b ∧
      ∀ i, cs[i]? = Option.map₂ f (a.stand? i) (b.stand? i) := by
  cases a with
  | one x =>
    cases b with
    | one y => simp [isMany] at hmany
    | many ys =>
      refine ⟨_, rfl, List.length_map _, fun i => ?_⟩
      simp only [List.getElem?_map, stand?]
      rfl
  | many xs =>
    cases b with
    | one y =>
      refine ⟨_, rfl, List.length_map _, fun i => ?_⟩
      simp only [List.getElem?_map, stand?, Option.map₂_coe_right]
    | many ys =>
      have hlength : xs.length = ys.length := h rfl rfl
      refine ⟨List.zipWith f xs ys, by rw [zipWith, if_pos hlength], ?_, fun i => ?_⟩
      · rw [List.length_zipWith, hlength, Nat.min_self]
        exact hlength.symm
      · simp only [List.getElem?_zipWith, stand?]
        cases xs[i]? <;> cases ys[i]? <;> rfl

/-- At each place of shapes that agree something stands on both sides. -/
theorem exists_stand? (h : a.Agrees b) {i : Nat} (hi : i < a.places b) :
    ∃ x y, a.stand? i = some x ∧ b.stand? i = some y := by
  cases a with
  | one x =>
    cases b with
    | one y => exact ⟨x, y, rfl, rfl⟩
    | many ys => exact ⟨x, ys[i], rfl, List.getElem?_eq_getElem hi⟩
  | many xs =>
    have hx : i < xs.length := hi
    cases b with
    | one y => exact ⟨xs[i], y, List.getElem?_eq_getElem hx, rfl⟩
    | many ys =>
      have hlength : xs.length = ys.length := h rfl rfl
      have hy : i < ys.length := hlength ▸ hx
      exact ⟨xs[i], ys[i], List.getElem?_eq_getElem hx, List.getElem?_eq_getElem hy⟩

section Maps

variable {δ ε ζ : Type}

theorem zipWith_map (g : δ → α) (h : ε → β) (f : α → β → γ) (a : Shape δ) (b : Shape ε) :
    (a.map g).zipWith f (b.map h) = a.zipWith (fun x y => f (g x) (h y)) b := by
  cases a <;> cases b <;> simp [zipWith, map, List.zipWith_map, Function.comp_def]

theorem map_zipWith (g : γ → ζ) (f : α → β → γ) (a : Shape α) (b : Shape β) :
    (a.zipWith f b).map (Shape.map g) = a.zipWith (fun x y => g (f x y)) b := by
  cases a with
  | one x => cases b <;> simp [zipWith, map, Except.map, Function.comp_def]
  | many xs =>
    cases b with
    | one y => simp [zipWith, map, Except.map, Function.comp_def]
    | many ys =>
      rw [zipWith, zipWith]
      split
      · simp [map, Except.map, List.map_zipWith]
      · rfl

theorem map_id (a : Shape α) : a.map id = a := by
  cases a <;> simp [map]

theorem fit_map (g : α → β) (a : Shape α) (v : Bool) :
    (a.map g).fit v = (a.fit v).map (Shape.map g) := by
  cases a <;> cases v <;> rfl

end Maps

end Shape

/-! ## The function on scalars -/

namespace Scalar

/-- The operator on scalars that are read as doubles, the result read by `convert`. -/
def joinNumbers? {γ : Type} (convert : Float → γ) (op : Operator) (a b : Scalar) :
    Option (a.Carrier → b.Carrier → γ) :=
  match a.number?, b.number? with
  | some f, some g => some fun x y => convert (op.onNumbers (f x) (g y))
  | _, _ => none

/-- What the operator does with scalars of the sorts `a` and `b` for a result of the sort `s`.
Booleans are left out: there are no vectors of them to combine. -/
def join? (s : Scalar) (op : Operator) (a b : Scalar) :
    Option (a.Carrier → b.Carrier → s.Carrier) :=
  match s with
  | .boolean => none
  | .integer =>
      match a, b with
      | .integer, .integer => some op.onIntegers
      | a, b => joinNumbers? Float.toInt64 op a b
  | .unitless => joinNumbers? id op a b
  | .dimensioned => joinNumbers? id op a b
  | .text =>
      match op, a.text?, b.text? with
      | .add, some f, some g => some fun x y => f x ++ g y
      | _, _, _ => none

theorem isSome_join? (s : Scalar) (op : Operator) (a b : Kind) :
    (s.join? op a.scalar b.scalar).isSome = (Kind.many s).combines a op b := by
  obtain ⟨a, va⟩ := a
  obtain ⟨b, vb⟩ := b
  cases s <;> cases op <;> cases a <;> cases b <;> rfl

end Scalar

namespace Value

variable {k : Kind} {s : Scalar} {op : Operator} {name : String} {a b w : Value} {c : Cause}

/-- A function on scalars applied to two shapes, the result as a single value or a vector of the
sort `s`. -/
def lift {α β : Type} (s : Scalar) (isVector : Bool) (op : Operator) (name : String)
    (f : α → β → s.Carrier) (a : Shape α) (b : Shape β) : Except Cause Value :=
  match a.zipWith f b with
  | .error (expected, found) => .error (.lengthMismatch name expected found)
  | .ok c =>
      match c.fit isVector with
      | some c => .ok ⟨s, c⟩
      | none => .error (.incompatibleOperands op)

/-- Shapes that are read first and whose result is converted last. -/
theorem combineShapes_map {α β γ : Type} {g : α → γ} {h : β → γ} {f : γ → γ → γ}
    {convert : γ → k.scalar.Carrier} (a : Shape α) (b : Shape β) :
    combineShapes k op name f convert (a.map g) (b.map h) =
      lift k.scalar k.isVector op name (fun x y => convert (f (g x) (h y))) a b := by
  rw [combineShapes, lift, Shape.zipWith_map, ← Shape.map_zipWith convert]
  cases a.zipWith (fun x y => f (g x) (h y)) b with
  | error p => rfl
  | ok c =>
    simp only [Except.map, Shape.fit_map]
    cases c.fit k.isVector <;> rfl

theorem combineNumbers_eq {convert : Float → k.scalar.Carrier} :
    combineNumbers k op name convert a b =
      match Scalar.joinNumbers? convert op a.scalar b.scalar with
      | some f => lift k.scalar k.isVector op name f a.shape b.shape
      | none => .error (.incompatibleOperands op) := by
  rw [combineNumbers, numbers?, numbers?, Scalar.joinNumbers?]
  cases a.scalar.number? with
  | none => rfl
  | some f =>
    cases b.scalar.number? with
    | none => rfl
    | some g => exact combineShapes_map a.shape b.shape

/-- Combining is applying the function on scalars that the sorts and the operator make. -/
theorem combine_eq (hk : k.scalar ≠ .boolean) :
    combine k a op b name =
      match k.scalar.join? op a.scalar b.scalar with
      | some f => lift k.scalar k.isVector op name f a.shape b.shape
      | none => .error (.incompatibleOperands op) := by
  obtain ⟨sort, isVector⟩ := k
  cases sort with
  | boolean => exact absurd rfl hk
  | unitless => exact combineNumbers_eq
  | dimensioned => exact combineNumbers_eq
  | text =>
    simp only [combine, texts?, Scalar.join?]
    cases op with
    | subtract => rfl
    | multiply => rfl
    | add =>
      cases a.scalar.text? with
      | none => rfl
      | some f =>
        cases b.scalar.text? with
        | none => rfl
        | some g => exact combineShapes_map a.shape b.shape
  | integer =>
    obtain ⟨sa, x⟩ := a
    obtain ⟨sb, y⟩ := b
    have hnumbers :=
      @combineNumbers_eq ⟨.integer, isVector⟩ op name ⟨sa, x⟩ ⟨sb, y⟩ Float.toInt64
    cases sa with
    | integer =>
      cases sb with
      | integer =>
        have hread := @combineShapes_map ⟨.integer, isVector⟩ op name Int64 Int64 Int64 id id
          op.onIntegers id x y
        rwa [Shape.map_id, Shape.map_id] at hread
      | _ => exact hnumbers
    | _ => exact hnumbers

/-! ## Vectors -/

/-- What stands at position `i` of a value, as a scalar; a scalar stands at every position. -/
def standing? (v : Value) (i : Nat) : Option Value :=
  (v.shape.stand? i).map fun x => ⟨v.scalar, .one x⟩

section Lift

variable {α β : Type} {f : α → β → s.Carrier} {x : Shape α} {y : Shape β}

theorem lift_many_eq_error :
    lift s true op name f x y = .error c ↔
      x.isMany = true ∧ y.isMany = true ∧ x.size ≠ y.size ∧
        c = .lengthMismatch name x.size y.size := by
  rw [lift]
  cases hzip : x.zipWith f y with
  | error p =>
    obtain ⟨hx, hy, hne, rfl⟩ := Shape.zipWith_eq_error.mp hzip
    simp [hx, hy, hne, eq_comm]
  | ok z =>
    have hfit : (z.fit true).isSome = true := by cases z <;> rfl
    obtain ⟨z', hz'⟩ := Option.isSome_iff_exists.mp hfit
    simp only [hz', reduceCtorEq, false_iff, not_and]
    intro hx hy hne
    rw [Shape.zipWith_eq_error.mpr ⟨hx, hy, hne, rfl⟩] at hzip
    cases hzip

theorem exists_lift_many (op : Operator) (name : String) (f : α → β → s.Carrier)
    (hmany : x.isMany = true ∨ y.isMany = true) (h : x.Agrees y) :
    ∃ zs, lift s true op name f x y = .ok ⟨s, .many zs⟩ ∧ zs.length = x.places y ∧
      ∀ i, zs[i]? = Option.map₂ f (x.stand? i) (y.stand? i) := by
  obtain ⟨zs, hzip, hlength, hzs⟩ := Shape.exists_zipWith (f := f) hmany h
  refine ⟨zs, ?_, hlength, hzs⟩
  rw [lift, hzip]
  rfl

end Lift

section Combine

variable {f : a.scalar.Carrier → b.scalar.Carrier → s.Carrier} {i : Nat}

theorem combine_many (hs : s ≠ .boolean) (hf : s.join? op a.scalar b.scalar = some f) :
    combine (Kind.many s) a op b name = lift s true op name f a.shape b.shape := by
  have hf : (Kind.many s).scalar.join? op a.scalar b.scalar = some f := hf
  rw [combine_eq hs, hf]
  rfl

theorem combine_many_none (hs : s ≠ .boolean) (hf : s.join? op a.scalar b.scalar = none) :
    combine (Kind.many s) a op b name = .error (.incompatibleOperands op) := by
  have hf : (Kind.many s).scalar.join? op a.scalar b.scalar = none := hf
  rw [combine_eq hs, hf]

/-- What is combined at one place of two values. -/
theorem combine_standing (hs : s ≠ .boolean) (hf : s.join? op a.scalar b.scalar = some f)
    (x : a.scalar.Carrier) (y : b.scalar.Carrier) :
    combine (Kind.one s) ⟨a.scalar, .one x⟩ op ⟨b.scalar, .one y⟩ name =
      .ok ⟨s, .one (f x y)⟩ := by
  have hf : (Kind.one s).scalar.join? op a.scalar b.scalar = some f := hf
  rw [combine_eq hs, hf]
  rfl

/-- Where the sorts and the operator make no function, nothing is combined at any place. -/
theorem combine_standing_none (hs : s ≠ .boolean) (hf : s.join? op a.scalar b.scalar = none)
    {x y z : Value} (hx : a.standing? i = some x) (hy : b.standing? i = some y) :
    combine (Kind.one s) x op y name ≠ .ok z := by
  obtain ⟨x, -, rfl⟩ := Option.map_eq_some_iff.mp hx
  obtain ⟨y, -, rfl⟩ := Option.map_eq_some_iff.mp hy
  have hf : (Kind.one s).scalar.join? op a.scalar b.scalar = none := hf
  rw [combine_eq hs, hf]
  exact nofun

/-- Only lengths that differ are reported as lengths, and only of operands that could be combined
if they did not. -/
theorem lengthMismatch_of_combine_iff (hs : s ≠ .boolean) :
    (∃ c, combine (Kind.many s) a op b name = .error c ∧ c.kind = .lengthMismatch) ↔
      a.kind.isVector = true ∧ b.kind.isVector = true ∧ a.size ≠ b.size ∧
        (Kind.many s).combines a.kind op b.kind = true := by
  have hcombines := Scalar.isSome_join? s op a.kind b.kind
  cases hf : s.join? op a.scalar b.scalar with
  | none =>
    have hnot : (Kind.many s).combines a.kind op b.kind = false := by
      rw [← hcombines, show s.join? op a.kind.scalar b.kind.scalar = none from hf]
      rfl
    rw [combine_many_none hs hf, hnot]
    constructor
    · rintro ⟨c, herror, hkind⟩
      cases herror
      cases hkind
    · rintro ⟨-, -, -, ⟨⟩⟩
  | some f =>
    have hjoins : (Kind.many s).combines a.kind op b.kind = true := by
      rw [← hcombines, show s.join? op a.kind.scalar b.kind.scalar = some f from hf]
      rfl
    rw [combine_many hs hf, hjoins]
    simp only [lift_many_eq_error]
    constructor
    · rintro ⟨c, ⟨ha, hb, hne, -⟩, -⟩
      exact ⟨ha, hb, hne, trivial⟩
    · rintro ⟨ha, hb, hne, -⟩
      exact ⟨_, ⟨ha, hb, hne, rfl⟩, rfl⟩

/-- If the lengths agree and the sorts and the operator make a function, a vector is made of what
is combined at each place. -/
theorem exists_combine (name : String) (hs : s ≠ .boolean)
    (hf : s.join? op a.scalar b.scalar = some f)
    (hvector : a.kind.isVector = true ∨ b.kind.isVector = true) (h : a.shape.Agrees b.shape) :
    ∃ w, combine (Kind.many s) a op b name = .ok w ∧ w.kind = Kind.many s ∧
      w.size = a.shape.places b.shape ∧ ∀ i < w.size, ∃ x y z,
        a.standing? i = some x ∧ b.standing? i = some y ∧ w.element? i = some z ∧
          combine (Kind.one s) x op y name = .ok z := by
  obtain ⟨zs, hlift, hlength, hzs⟩ :=
    exists_lift_many op name f hvector h
  refine ⟨⟨s, .many zs⟩, (combine_many hs hf).trans hlift, rfl, hlength, fun i hi => ?_⟩
  have hi : i < zs.length := hi
  obtain ⟨x, y, hx, hy⟩ := Shape.exists_stand? h (hlength ▸ hi)
  refine ⟨_, _, ⟨s, .one (f x y)⟩, congrArg (Option.map _) hx, congrArg (Option.map _) hy, ?_,
    combine_standing hs hf x y⟩
  have hz : zs[i]? = some (f x y) := by rw [hzs, hx, hy, Option.map₂_some_some]
  simp only [element?, Shape.at?, hz, Option.map_some]

/-- Lengths that do not agree are an error. -/
theorem agrees_of_combine (hs : s ≠ .boolean) (hf : s.join? op a.scalar b.scalar = some f)
    (h : combine (Kind.many s) a op b name = .ok w) : a.shape.Agrees b.shape := by
  intro ha hb
  refine Decidable.not_not.mp fun hne => ?_
  have herror : combine (Kind.many s) a op b name = _ :=
    (combine_many hs hf).trans (lift_many_eq_error.mpr ⟨ha, hb, hne, rfl⟩)
  rw [h] at herror
  cases herror

/-- Two values of which one is a vector and none is empty have a first place. -/
theorem places_pos (ha : a.size ≠ 0) (hb : b.size ≠ 0) : 0 < a.shape.places b.shape := by
  rw [Shape.places]
  split
  · exact Nat.pos_of_ne_zero ha
  · exact Nat.pos_of_ne_zero hb

end Combine

/-- Combining vectors is combining what stands at each of their places: it fails for the lengths
exactly if two vectors that could be combined differ in length, it succeeds exactly if the
lengths agree and every place succeeds, and the result has at each place what is combined
there. -/
theorem combine_pointwise (hs : s ≠ .boolean) (op : Operator) (name : String)
    (hvector : a.kind.isVector = true ∨ b.kind.isVector = true) (ha : a.size ≠ 0)
    (hb : b.size ≠ 0) :
    ((∃ c, combine (Kind.many s) a op b name = .error c ∧ c.kind = .lengthMismatch) ↔
      a.kind.isVector = true ∧ b.kind.isVector = true ∧ a.size ≠ b.size ∧
        (Kind.many s).combines a.kind op b.kind = true) ∧
    ((∃ w, combine (Kind.many s) a op b name = .ok w) ↔
      a.shape.Agrees b.shape ∧ ∀ i < a.shape.places b.shape, ∃ x y z,
        a.standing? i = some x ∧ b.standing? i = some y ∧
          combine (Kind.one s) x op y name = .ok z) ∧
    ∀ w, combine (Kind.many s) a op b name = .ok w →
      w.kind = Kind.many s ∧ w.size = a.shape.places b.shape ∧ ∀ i < w.size, ∃ x y z,
        a.standing? i = some x ∧ b.standing? i = some y ∧ w.element? i = some z ∧
          combine (Kind.one s) x op y name = .ok z := by
  refine ⟨lengthMismatch_of_combine_iff hs, ?_⟩
  cases hf : s.join? op a.scalar b.scalar with
  | none =>
    rw [combine_many_none hs hf]
    refine ⟨⟨nofun, ?_⟩, nofun⟩
    rintro ⟨-, hplaces⟩
    obtain ⟨x, y, z, hx, hy, hz⟩ := hplaces 0 (places_pos ha hb)
    exact absurd hz (combine_standing_none hs hf hx hy)
  | some f =>
    refine ⟨⟨?_, ?_⟩, fun w hw => ?_⟩
    · rintro ⟨w, hw⟩
      have hagrees := agrees_of_combine hs hf hw
      refine ⟨hagrees, fun i hi => ?_⟩
      obtain ⟨x, y, hx, hy⟩ := Shape.exists_stand? hagrees hi
      exact ⟨_, _, _, congrArg (Option.map _) hx, congrArg (Option.map _) hy,
        combine_standing hs hf x y⟩
    · rintro ⟨hagrees, -⟩
      obtain ⟨w, hw, -⟩ := exists_combine name hs hf hvector hagrees
      exact ⟨w, hw⟩
    · obtain ⟨w', hw', hpoints⟩ :=
        exists_combine name hs hf hvector (agrees_of_combine hs hf hw)
      obtain rfl : w = w' := Except.ok.inj (hw.symm.trans hw')
      exact hpoints

/-- A single text in front of the integers of a vector, which are spelled out place by place. -/
theorem combine_pointwise_numbered :
    let a := text "run"
    let b : Value := ⟨.integer, .many [7, -3]⟩
    let w : Value := ⟨.text, .many ["run7", "run-3"]⟩
    b.kind.isVector = true ∧ a.size ≠ 0 ∧ b.size ≠ 0 ∧
      combine (Kind.many .text) a .add b "Run" = .ok w ∧ w.size = a.shape.places b.shape ∧
      ∀ i < w.size, ∃ x y z, a.standing? i = some x ∧ b.standing? i = some y ∧
        w.element? i = some z ∧ combine (Kind.one .text) x .add y "Run" = .ok z := by
  have hcombine : combine (Kind.many .text) (text "run") .add ⟨.integer, .many [7, -3]⟩ "Run" =
      .ok ⟨.text, .many ["run7", "run-3"]⟩ := by
    rfl
  have hpoints := combine_pointwise (s := .text) (a := text "run")
    (b := ⟨.integer, .many [7, -3]⟩) (by decide) .add "Run" (.inr rfl) (by decide) (by decide)
  exact ⟨rfl, by decide, by decide, hcombine, (hpoints.2.2 _ hcombine).2⟩

end Value

end ParameterChain
