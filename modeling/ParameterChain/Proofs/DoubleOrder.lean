/-
# The order of the finite doubles

The comparisons of doubles go by the parts of a number: sign, exponent, mantissa.  The bits of a
finite double hold the same parts in the order of their weight, so read as one number, with the
sign bit for its sign, they count the doubles from zero on: this is the `rank` of a double.
Finite doubles compare as their ranks do, which makes their order the order of the integers.

A rank tells two finite doubles apart unless both are zeros, so it is the place of a double in the
total order by which tables are sorted as soon as the negative zero is left out (`IsOrdinary`).

Main statements: `compare_unpack`, `eq_of_rank_eq` and `totalLe_iff`.
-/
import Mathlib
import ParameterChain.Number.Binary64

namespace ParameterChain.Number

open Float.Model Float.Model.UnpackedFloat

/-! ## Numbers in parts -/

/-- The number of steps from zero to a finite number, each step to the next double. -/
def steps : UnpackedFloat → Int
  | .finite s m e _ => s.apply ((e + 1074) * 2 ^ 52 + m)
  | _ => 0

/-- The parts that the bits of a finite double can hold: the mantissa has its leading bit, unless
the exponent is the smallest one. -/
inductive Canonical : UnpackedFloat → Prop
  | zero (s : Sign) : Canonical (.zero s)
  | finite (s : Sign) {m : Nat} {e : Int} (hm : 0 < m) (hbelow : m < 2 ^ 53) (he : -1074 ≤ e)
      (hlead : e ≠ -1074 → 2 ^ 52 ≤ m) : Canonical (.finite s m e hm)

/-- Exponent and mantissa in the order of their weight are compared as one number. -/
theorem compare_weights {m n : Nat} {e f : Int} (hm : m < 2 ^ 53) (hn : n < 2 ^ 53)
    (he : -1074 ≤ e) (hf : -1074 ≤ f) (hme : e ≠ -1074 → 2 ^ 52 ≤ m)
    (hnf : f ≠ -1074 → 2 ^ 52 ≤ n) :
    (compare e f).then (compare m n) =
      compare ((e + 1074) * 2 ^ 52 + m : Int) ((f + 1074) * 2 ^ 52 + n) := by
  rcases Int.lt_trichotomy e f with h | rfl | h
  · rw [Int.compare_eq_lt.mpr h, Ordering.lt_then, eq_comm, Int.compare_eq_lt]
    omega
  · rw [Int.compare_eq_eq.mpr rfl, Ordering.eq_then]
    rcases Nat.lt_trichotomy m n with h | rfl | h
    · rw [Nat.compare_eq_lt.mpr h, eq_comm, Int.compare_eq_lt]
      omega
    · rw [Nat.compare_eq_eq.mpr rfl, Int.compare_eq_eq.mpr rfl]
    · rw [Nat.compare_eq_gt.mpr h, eq_comm, Int.compare_eq_gt]
      omega
  · rw [Int.compare_eq_gt.mpr h, Ordering.gt_then, eq_comm, Int.compare_eq_gt]
    omega

theorem steps_negative {m : Nat} {e : Int} (hm : 0 < m) (he : -1074 ≤ e) :
    steps (.finite .negative m e hm) < 0 := by
  simp only [steps, Sign.apply]
  omega

theorem steps_positive {m : Nat} {e : Int} (hm : 0 < m) (he : -1074 ≤ e) :
    0 < steps (.finite .positive m e hm) := by
  simp only [steps, Sign.apply]
  omega

theorem compare_neg_neg (a b : Int) : compare (-a) (-b) = (compare a b).swap := by
  rw [Int.compare_swap]
  simp only [compare, compareOfLessAndEq, Int.neg_lt_neg_iff, Int.neg_inj, eq_comm]

/-- Numbers in parts compare as the numbers of steps to them. -/
theorem Canonical.compare_eq {u v : UnpackedFloat} (hu : Canonical u) (hv : Canonical v) :
    u.compare v = some (compare (steps u) (steps v)) := by
  cases hu with
  | zero s =>
    cases hv with
    | zero t => rfl
    | finite t hn hbelow hf hlead =>
      cases t with
      | negative => exact congrArg some (Int.compare_eq_gt.mpr (steps_negative hn hf)).symm
      | positive => exact congrArg some (Int.compare_eq_lt.mpr (steps_positive hn hf)).symm
  | @finite s m e hm hbelow he hlead =>
    cases hv with
    | zero t =>
      cases s with
      | negative => exact congrArg some (Int.compare_eq_lt.mpr (steps_negative hm he)).symm
      | positive => exact congrArg some (Int.compare_eq_gt.mpr (steps_positive hm he)).symm
    | @finite t n f hn hbelow' hf hlead' =>
      have hweights := compare_weights hbelow hbelow' he hf hlead hlead'
      cases s with
      | negative =>
        have hneg := steps_negative hm he
        cases t with
        | negative =>
          rw [UnpackedFloat.compare, hweights, ← compare_neg_neg]
          rfl
        | positive =>
          exact congrArg some
            (Int.compare_eq_lt.mpr (Int.lt_trans hneg (steps_positive hn hf))).symm
      | positive =>
        have hpos := steps_positive hm he
        cases t with
        | negative =>
          exact congrArg some
            (Int.compare_eq_gt.mpr (Int.lt_trans (steps_negative hn hf) hpos)).symm
        | positive =>
          rw [UnpackedFloat.compare, hweights]
          rfl

/-! ## The parts in the bits -/

/-- The bits of a double as one number, with the sign bit for its sign. -/
def rankOfBits (b : BitVec 64) : Int :=
  if b.toNat < 2 ^ 63 then b.toNat else 2 ^ 63 - b.toNat

section Bits

variable (b : BitVec 64)

theorem toNat_mantissa : (@unpackMantissa .binary64 b).toNat = b.toNat % 2 ^ 52 := by
  rw [unpackMantissa_def, BitVec.extractLsb'_toNat, Nat.shiftRight_zero]

theorem toNat_exponent : (@unpackExponent .binary64 b).toNat = b.toNat / 2 ^ 52 % 2 ^ 11 := by
  rw [unpackExponent_def, BitVec.extractLsb'_toNat, Nat.shiftRight_eq_div_pow]

theorem sign_eq : Sign.ofBitVec (@unpackSign .binary64 b) =
    if b.toNat < 2 ^ 63 then .positive else .negative := by
  have hb := b.isLt
  have hbit : (@unpackSign .binary64 b).toNat = b.toNat / 2 ^ 63 % 2 := by
    rw [unpackSign_def, BitVec.extractLsb'_toNat, Nat.shiftRight_eq_div_pow]
    rfl
  have hiff : @unpackSign .binary64 b = 0#1 ↔ b.toNat < 2 ^ 63 := by
    rw [← BitVec.toNat_inj, hbit, BitVec.toNat_zero]
    omega
  simp only [Sign.ofBitVec, hiff]

theorem toNat_leading (m : BitVec 52) : (1#1 ++ m).toNat = 2 ^ 52 + m.toNat := by
  rw [BitVec.toNat_append, ← Nat.shiftLeft_add_eq_or_of_lt m.isLt]
  rfl

variable {b}

/-- Parts with the weight of the lower bits, and the sign of the highest one, are as many steps
from zero as the bits say. -/
theorem steps_eq_rankOfBits {m : Nat} {e : Int} (hm : 0 < m)
    (hweight : (e + 1074) * 2 ^ 52 + m = (b.toNat % 2 ^ 63 : Nat)) :
    steps (.finite (if b.toNat < 2 ^ 63 then .positive else .negative) m e hm) =
      rankOfBits b := by
  have hb := b.isLt
  rw [rankOfBits, steps, hweight]
  split
  · simp only [Sign.apply]
    omega
  · simp only [Sign.apply]
    omega

/-- Finite bits hold a number in parts, as many steps from zero as the bits say. -/
theorem canonical_unpack (hfinite : (UnpackedFloat.unpack .binary64 b).isFinite = true) :
    Canonical (UnpackedFloat.unpack .binary64 b) ∧
      steps (UnpackedFloat.unpack .binary64 b) = rankOfBits b := by
  have hb := b.isLt
  have hm := toNat_mantissa b
  have he := toNat_exponent b
  have hbias : Format.exponentBias .binary64 = 1023 := rfl
  unfold UnpackedFloat.unpack at hfinite ⊢
  simp only [sign_eq] at hfinite ⊢
  by_cases htop : @unpackExponent .binary64 b = -1#11
  · rw [if_pos htop] at hfinite
    split at hfinite <;> cases hfinite
  rw [if_neg htop]
  by_cases hbottom : @unpackExponent .binary64 b = 0#11
  · have hnull : (@unpackExponent .binary64 b).toNat = 0 := by
      rw [hbottom, BitVec.toNat_zero]
    -- the smallest exponent: a zero, or a number without the leading bit
    rw [if_pos hbottom]
    by_cases hzero : @unpackMantissa .binary64 b = 0#52
    · rw [dif_pos hzero]
      rw [hzero, BitVec.toNat_zero] at hm
      refine ⟨.zero _, ?_⟩
      simp only [steps, rankOfBits]
      omega
    · have hpos : 0 < (@unpackMantissa .binary64 b).toNat := by
        simpa [BitVec.toNat_pos, BitVec.pos_iff_ne_zero] using hzero
      rw [dif_neg hzero]
      refine ⟨.finite _ _ ?_ ?_ ?_, steps_eq_rankOfBits _ ?_⟩
      all_goals omega
  · have hlead := toNat_leading (@unpackMantissa .binary64 b)
    have hpos : (@unpackExponent .binary64 b).toNat ≠ 0 :=
      fun h => hbottom (BitVec.toNat_inj.mp h)
    rw [if_neg hbottom]
    refine ⟨.finite _ _ ?_ ?_ ?_, steps_eq_rankOfBits _ ?_⟩
    all_goals omega

end Bits

/-! ## Ranks -/

/-- The place of a finite double among the finite doubles, counted from zero. -/
def rank (x : Float) : Int :=
  rankOfBits x.toBits.toBitVec

section Finite

variable {x y : Float}

theorem compare_unpack (hx : x.isFinite = true) (hy : y.isFinite = true) :
    x.toModel.unpack.compare y.toModel.unpack = some (compare (rank x) (rank y)) := by
  obtain ⟨hcanonical, hrank⟩ := canonical_unpack (b := x.toBits.toBitVec) hx
  obtain ⟨hcanonical', hrank'⟩ := canonical_unpack (b := y.toBits.toBitVec) hy
  rw [rank, rank, ← hrank, ← hrank']
  exact hcanonical.compare_eq hcanonical'

theorem lt_iff_rank_lt (hx : x.isFinite = true) (hy : y.isFinite = true) :
    x < y ↔ rank x < rank y := by
  have hlt : x < y ↔ x.toModel.unpack.compare y.toModel.unpack = some .lt := by
    change decide (x.toModel < y.toModel) = true ↔ _
    rw [decide_eq_true_iff]
    exact beq_iff_eq
  rw [hlt, compare_unpack hx hy, Option.some.injEq, Int.compare_eq_lt]

theorem le_iff_rank_le (hx : x.isFinite = true) (hy : y.isFinite = true) :
    x ≤ y ↔ rank x ≤ rank y := by
  have hle : x ≤ y ↔ (x.toModel.unpack.compare y.toModel.unpack).any (·.isLE) = true := by
    change decide (x.toModel ≤ y.toModel) = true ↔ _
    rw [decide_eq_true_iff]
    rfl
  rw [hle, compare_unpack hx hy, Option.any_some, Int.isLE_compare]

theorem beq_iff_rank_eq (hx : x.isFinite = true) (hy : y.isFinite = true) :
    (x == y) = true ↔ rank x = rank y := by
  have heq : (x == y) = true ↔ x.toModel.unpack.compare y.toModel.unpack = some .eq := by
    change (x.toModel.unpack.compare y.toModel.unpack == some .eq) = true ↔ _
    exact beq_iff_eq
  rw [heq, compare_unpack hx hy, Option.some.injEq, Int.compare_eq_eq]

theorem isNaN_eq_false (hx : x.isFinite = true) : x.isNaN = false := by
  change x.toModel.unpack.isFinite = true at hx
  change x.toModel.unpack.isNaN = false
  cases hunpack : x.toModel.unpack with
  | notANumber =>
    rw [hunpack] at hx
    cases hx
  | _ => rfl

end Finite

/-! ## The total order -/

/-- The doubles that a table is sorted by: finite, and not the negative zero. -/
structure IsOrdinary (x : Float) : Prop where
  finite : x.isFinite = true
  notNegativeZero : x ≠ -0.0

instance (x : Float) : Decidable (IsOrdinary x) :=
  decidable_of_iff (x.isFinite = true ∧ x ≠ -0.0) ⟨fun h => ⟨h.1, h.2⟩, fun h => ⟨h.1, h.2⟩⟩

theorem toBits_negativeZero : (-0.0 : Float).toBits.toNat = 2 ^ 63 := rfl

namespace IsOrdinary

variable {x y : Float}

/-- Ordinary doubles with the same place are the same, signs of zeros included. -/
theorem eq_of_rank_eq (hx : IsOrdinary x) (hy : IsOrdinary y) (h : rank x = rank y) : x = y := by
  have hne {z : Float} (hz : IsOrdinary z) : z.toBits.toNat ≠ 2 ^ 63 := fun hbits =>
    hz.notNegativeZero <| Float.toBits_inj.mp <|
      UInt64.toNat_inj.mp (hbits.trans toBits_negativeZero.symm)
  have hx := hne hx
  have hy := hne hy
  have hbx := x.toBits.toNat_lt
  have hby := y.toBits.toNat_lt
  refine Float.toBits_inj.mp (UInt64.toNat_inj.mp ?_)
  simp only [rank, rankOfBits, UInt64.toNat_toBitVec] at h
  omega

/-- Ordinary doubles are sorted by their places. -/
theorem totalLe_iff (hx : IsOrdinary x) (hy : IsOrdinary y) :
    totalLe x y = true ↔ rank x ≤ rank y := by
  have hsign (h : rank x = rank y) : (isNegative x || !isNegative y) = true := by
    rw [eq_of_rank_eq hx hy h]
    cases isNegative y <;> rfl
  have hlt := lt_iff_rank_lt hx.finite hy.finite
  have heq := beq_iff_rank_eq hx.finite hy.finite
  rw [totalLe, isNaN_eq_false hx.finite, isNaN_eq_false hy.finite, if_neg Bool.false_ne_true,
    if_neg Bool.false_ne_true, Bool.or_eq_true, decide_eq_true_iff, Bool.and_eq_true, hlt, heq,
    Int.le_iff_lt_or_eq, and_iff_left_of_imp hsign]

end IsOrdinary

end ParameterChain.Number
