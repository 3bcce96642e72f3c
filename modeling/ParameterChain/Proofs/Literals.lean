/-
# The grammar of written numbers

    real      sign? mantissa exponent?
    integer   sign? digit … digit          1 to 32 digits
    mantissa  digits with at most one point among them, and at least one digit
    exponent  e or E, sign?, 1 to 7 digits

`ParameterChain.Number.Literal` reads a number from the left, run by run; here each part is
described by what it consists of (`Mantissa` counts points and asks for a digit, wherever they
stand), and the value of an integer by the places of its digits.  The readers accept exactly
these texts, and an integer that does not fit in 64 bits is refused and not cut to size.

Each part is followed by a character that it cannot take in: what follows a sign is no sign, and
what follows a run of digits no digit.  That is all it takes for the reader to cut where the
grammar does (`splitSign_append`, `splitDigits_append`).

Main statement: `numberGrammar`.
-/
import Mathlib.Data.List.Induction
import Mathlib.Data.Nat.Digits.Defs
import ParameterChain.Proofs.Lexemes

namespace ParameterChain.Number

variable {negative : Bool} {s m x ds cs rest : List Char} {z : Int}

/-! ## The grammar -/

/-- A sign, or none. -/
inductive Sign : Bool → List Char → Prop
  | none : Sign false []
  | plus : Sign false ['+']
  | minus : Sign true ['-']

/-- A run of decimal digits, possibly empty. -/
def Digits (ds : List Char) : Prop :=
  ∀ c ∈ ds, c.isDigit = true

/-- Digits with at most one point among them, and at least one digit. -/
structure Mantissa (m : List Char) : Prop where
  chars : ∀ c ∈ m, c.isDigit = true ∨ c = '.'
  point : m.count '.' ≤ 1
  digit : ∃ c ∈ m, c.isDigit = true

/-- An exponent, or none. -/
inductive Exponent : List Char → Prop
  | none : Exponent []
  | some {e : Char} {negative : Bool} {s ds : List Char} :
      e = 'e' ∨ e = 'E' → Sign negative s → Digits ds → 1 ≤ ds.length → ds.length ≤ 7 →
      Exponent (e :: (s ++ ds))

/-- A real literal. -/
inductive RealText : List Char → Prop
  | mk {negative : Bool} {s m x : List Char} :
      Sign negative s → Mantissa m → Exponent x → RealText (s ++ (m ++ x))

/-- The number that decimal digits stand for: the last digit counts ones, the one before it
tens, and so on. -/
def decimal (ds : List Char) : Nat :=
  Nat.ofDigits 10 (ds.reverse.map fun c => c.toNat - '0'.toNat)

/-- An integer literal and its value. -/
inductive IntegerText : List Char → Int → Prop
  | mk {negative : Bool} {s ds : List Char} :
      Sign negative s → Digits ds → 1 ≤ ds.length → ds.length ≤ 32 →
      IntegerText (s ++ ds) (if negative then -(decimal ds : Int) else decimal ds)

/-! ## Values -/

theorem natOfDigits_eq_decimal (ds : List Char) : natOfDigits ds = decimal ds := by
  induction ds using List.reverseRecOn with
  | nil => rfl
  | append_singleton ds d ih =>
    rw [natOfDigits, List.foldl_append, ← natOfDigits, ih]
    simp [decimal, Nat.ofDigits_cons, Nat.add_comm]

/-! ## Signs -/

theorem splitSign_append (hs : Sign negative s)
    (hrest : ∀ c ∈ rest.head?, c ≠ '+' ∧ c ≠ '-') : splitSign (s ++ rest) = (negative, rest) := by
  cases hs with
  | plus => rfl
  | minus => rfl
  | none =>
    rw [List.nil_append]
    unfold splitSign
    split
    · exact absurd rfl (hrest '+' rfl).1
    · exact absurd rfl (hrest '-' rfl).2
    · rfl

/-- What is split off is a sign. -/
theorem exists_sign (cs : List Char) :
    ∃ s, Sign (splitSign cs).1 s ∧ s ++ (splitSign cs).2 = cs := by
  unfold splitSign
  split
  · exact ⟨_, .plus, rfl⟩
  · exact ⟨_, .minus, rfl⟩
  · exact ⟨_, .none, rfl⟩

theorem ne_sign_of_isDigit {c : Char} (h : c.isDigit = true) : c ≠ '+' ∧ c ≠ '-' := by
  constructor <;> (rintro rfl; exact absurd h (by decide))

/-- A digit is no sign, so neither is what begins with one. -/
theorem Digits.ne_sign (h : Digits ds) : ∀ c ∈ ds.head?, c ≠ '+' ∧ c ≠ '-' :=
  fun c hc => ne_sign_of_isDigit (h c (List.mem_of_mem_head? hc))

theorem Mantissa.ne_sign (h : Mantissa m) : ∀ c ∈ (m ++ x).head?, c ≠ '+' ∧ c ≠ '-' := by
  obtain ⟨d, hd, -⟩ := h.digit
  cases m with
  | nil => cases hd
  | cons c m =>
    intro c' hc'
    cases hc'
    rcases h.chars c List.mem_cons_self with hc | rfl
    · exact ne_sign_of_isDigit hc
    · decide

/-! ## Runs of digits -/

theorem splitDigits_append (hds : Digits ds) (hrest : ∀ c ∈ rest.head?, c.isDigit = false) :
    splitDigits (ds ++ rest) = (ds, rest) := by
  have hstop : rest.takeWhile Char.isDigit = [] ∧ rest.dropWhile Char.isDigit = rest := by
    cases rest with
    | nil => exact ⟨rfl, rfl⟩
    | cons c rest =>
      have hc := hrest c rfl
      exact ⟨List.takeWhile_cons_of_neg (by simp [hc]), List.dropWhile_cons_of_neg (by simp [hc])⟩
  rw [splitDigits, List.takeWhile_append_of_pos hds, List.dropWhile_append_of_pos hds, hstop.1,
    hstop.2, List.append_nil]

theorem digits_splitDigits (cs : List Char) : Digits (splitDigits cs).1 :=
  fun _ hc => List.mem_takeWhile_imp hc

theorem splitDigits_eq (cs : List Char) : (splitDigits cs).1 ++ (splitDigits cs).2 = cs :=
  List.takeWhile_append_dropWhile

/-! ## Exponents -/

theorem exponentOfChars?_isSome_iff : (exponentOfChars? cs).isSome = true ↔ Exponent cs := by
  constructor
  · intro h
    cases cs with
    | nil => exact .none
    | cons e cs =>
      rw [exponentOfChars?] at h
      split at h
      · next he =>
        obtain ⟨s, hs, hcs⟩ := exists_sign cs
        have hds := digits_splitDigits (splitSign cs).2
        have hrun := splitDigits_eq (splitSign cs).2
        simp only at h
        split at h
        · next hlength =>
          simp only [Bool.and_eq_true, List.isEmpty_iff, decide_eq_true_eq] at hlength
          obtain ⟨⟨hrest, hpos⟩, hle⟩ := hlength
          rw [hrest, List.append_nil] at hrun
          rw [← hcs, ← hrun]
          exact .some (by simpa using he) hs hds hpos hle
        · cases h
      · cases h
  · rintro (_ | @⟨e, negative, s, ds, he, hs, hds, hpos, hle⟩)
    · rfl
    · have hrun : splitDigits (ds ++ []) = (ds, []) := splitDigits_append hds (by simp)
      rw [List.append_nil] at hrun
      have he : (decide (e = 'e') || decide (e = 'E')) = true := by simpa using he
      have hlength : (([] : List Char).isEmpty && decide (1 ≤ ds.length) &&
          decide (ds.length ≤ 7)) = true := by simp [hpos, hle]
      simp only [exponentOfChars?, if_pos he, splitSign_append hs hds.ne_sign, hrun, if_pos hlength,
        Option.isSome_some]

/-- An exponent begins with no digit and no point. -/
theorem Exponent.head (h : Exponent x) : ∀ c ∈ x.head?, c.isDigit = false ∧ c ≠ '.' := by
  rintro c hc
  cases h with
  | none => cases hc
  | some he =>
    cases hc
    rcases he with rfl | rfl <;> decide

/-! ## Mantissas -/

section Runs

variable {whole fraction : List Char}

theorem mantissa_whole (h : Digits whole) (hne : whole ≠ []) : Mantissa whole where
  chars := fun c hc => .inl (h c hc)
  point := by
    have hpoint : '.' ∉ whole := fun hmem => absurd (h '.' hmem) (by decide)
    simp [List.count_eq_zero_of_not_mem hpoint]
  digit := by
    obtain ⟨c, hc⟩ := List.exists_mem_of_ne_nil whole hne
    exact ⟨c, hc, h c hc⟩

theorem mantissa_pointed (hwhole : Digits whole) (hfraction : Digits fraction)
    (hne : whole ++ fraction ≠ []) : Mantissa (whole ++ '.' :: fraction) where
  chars := by
    intro c hc
    rcases List.mem_append.mp hc with hc | hc
    · exact .inl (hwhole c hc)
    · rcases List.mem_cons.mp hc with rfl | hc
      · exact .inr rfl
      · exact .inl (hfraction c hc)
  point := by
    have hpoint : ∀ {ds}, Digits ds → ds.count '.' = 0 := fun h =>
      List.count_eq_zero_of_not_mem fun hmem => absurd (h '.' hmem) (by decide)
    rw [List.count_append, List.count_cons_self, hpoint hwhole, hpoint hfraction]
  digit := by
    obtain ⟨c, hc⟩ := List.exists_mem_of_ne_nil _ hne
    rcases List.mem_append.mp hc with hc | hc
    · exact ⟨c, List.mem_append_left _ hc, hwhole c hc⟩
    · exact ⟨c, List.mem_append_right _ (List.mem_cons_of_mem _ hc), hfraction c hc⟩

/-- Around its point, if it has one, a mantissa is made of runs of digits. -/
theorem Mantissa.exists_runs (h : Mantissa m) :
    ∃ whole fraction, Digits whole ∧ Digits fraction ∧ whole ++ fraction ≠ [] ∧
      (m = whole ∧ fraction = [] ∨ m = whole ++ '.' :: fraction) := by
  obtain ⟨d, hd, hdigit⟩ := h.digit
  -- Where there is no point, only digits are left.
  have hdigits : ∀ ds, ds ⊆ m → '.' ∉ ds → Digits ds := fun ds hsub hpoint c hc =>
    (h.chars c (hsub hc)).resolve_right fun heq => hpoint (heq ▸ hc)
  by_cases hmem : '.' ∈ m
  · obtain ⟨whole, fraction, rfl⟩ := List.append_of_mem hmem
    have hcount := h.point
    rw [List.count_append, List.count_cons_self] at hcount
    have hwhole : '.' ∉ whole := List.count_eq_zero.mp (by omega)
    have hfraction : '.' ∉ fraction := List.count_eq_zero.mp (by omega)
    refine ⟨whole, fraction, hdigits _ (List.subset_append_left _ _) hwhole,
      hdigits _ (fun c hc => List.mem_append_right _ (List.mem_cons_of_mem _ hc)) hfraction,
      ?_, .inr rfl⟩
    rintro hnil
    obtain ⟨rfl, rfl⟩ := List.append_eq_nil_iff.mp hnil
    obtain rfl : d = '.' := by simpa using hd
    exact absurd hdigit (by decide)
  · refine ⟨m, [], hdigits m (List.Subset.refl m) hmem, nofun, ?_, .inl ⟨rfl, rfl⟩⟩
    rw [List.append_nil]
    exact List.ne_nil_of_mem hd

theorem splitFraction_of_ne (h : ∀ c ∈ rest.head?, c ≠ '.') : splitFraction rest = ([], rest) := by
  unfold splitFraction
  split
  · exact absurd rfl (h '.' rfl)
  · rfl

/-- What the reader takes for a mantissa is one. -/
theorem exists_mantissa {p q : List Char × List Char} (hp : splitDigits cs = p)
    (hq : splitFraction p.2 = q) (hne : ¬ (p.1.isEmpty && q.1.isEmpty) = true) :
    ∃ m, Mantissa m ∧ m ++ q.2 = cs := by
  subst hp hq
  have hwhole := digits_splitDigits cs
  have hrun := splitDigits_eq cs
  rcases hrest : (splitDigits cs).2 with _ | ⟨c, rest⟩
  · rw [hrest] at hne hrun
    rw [splitFraction_of_ne (by simp)] at hne ⊢
    exact ⟨_, mantissa_whole hwhole (by simpa using hne), hrun⟩
  rw [hrest] at hne hrun
  by_cases hc : c = '.'
  · subst hc
    have hfraction := digits_splitDigits rest
    have htail := splitDigits_eq rest
    rw [splitFraction] at hne ⊢
    refine ⟨_, mantissa_pointed hwhole hfraction (by simpa using hne), ?_⟩
    rw [List.append_assoc, List.cons_append, htail, hrun]
  · rw [splitFraction_of_ne (by simpa using hc)] at hne ⊢
    exact ⟨_, mantissa_whole hwhole (by simpa using hne), hrun⟩

/-- A mantissa is read up to its end, if what follows could not be part of it. -/
theorem Mantissa.split (h : Mantissa m) (hx : ∀ c ∈ x.head?, c.isDigit = false ∧ c ≠ '.') :
    ∃ whole rest fraction, splitDigits (m ++ x) = (whole, rest) ∧
      splitFraction rest = (fraction, x) ∧ ¬ (whole.isEmpty && fraction.isEmpty) = true := by
  obtain ⟨whole, fraction, hwhole, hfraction, hne, hruns⟩ := h.exists_runs
  have hnot : ¬ (whole.isEmpty && fraction.isEmpty) = true := by simpa using hne
  rcases hruns with ⟨rfl, rfl⟩ | rfl
  · exact ⟨_, x, [], splitDigits_append hwhole fun c hc => (hx c hc).1,
      splitFraction_of_ne fun c hc => (hx c hc).2, hnot⟩
  · refine ⟨whole, '.' :: (fraction ++ x), fraction, ?_, ?_, hnot⟩
    · rw [List.append_assoc, List.cons_append]
      exact splitDigits_append hwhole (by simp)
    · exact splitDigits_append hfraction fun c hc => (hx c hc).1

end Runs

/-! ## Literals -/

theorem ofChars?_isSome_iff : (RealLiteral.ofChars? cs).isSome = true ↔ RealText cs := by
  constructor
  · intro h
    obtain ⟨s, hs, hcs⟩ := exists_sign cs
    rw [RealLiteral.ofChars?] at h
    simp only at h
    split at h
    · cases h
    next hne =>
    obtain ⟨m, hm, hsplit⟩ := exists_mantissa rfl rfl hne
    rw [Option.isSome_map] at h
    rw [← hcs, ← hsplit]
    exact .mk hs hm (exponentOfChars?_isSome_iff.mp h)
  · rintro @⟨negative, s, m, x, hs, hm, hx⟩
    obtain ⟨whole, rest, fraction, hwhole, hfraction, hne⟩ := hm.split hx.head
    simp only [RealLiteral.ofChars?, splitSign_append hs hm.ne_sign, hwhole, hfraction, if_neg hne,
      Option.isSome_map]
    exact exponentOfChars?_isSome_iff.mpr hx

theorem intOfChars?_eq_some_iff : intOfChars? cs = some z ↔ IntegerText cs z := by
  constructor
  · intro h
    obtain ⟨s, hs, hcs⟩ := exists_sign cs
    rw [intOfChars?] at h
    simp only at h
    split at h
    · next hlength =>
      simp only [Bool.and_eq_true, decide_eq_true_eq, List.all_eq_true] at hlength
      obtain ⟨⟨hpos, hle⟩, hds⟩ := hlength
      obtain rfl := Option.some.inj h
      rw [natOfDigits_eq_decimal]
      have hmk := IntegerText.mk hs hds hpos hle
      rwa [hcs] at hmk
    · cases h
  · rintro @⟨negative, s, ds, hs, hds, hpos, hle⟩
    have hlength : (decide (1 ≤ ds.length) && decide (ds.length ≤ 32) &&
        ds.all Char.isDigit) = true := by
      simp only [Bool.and_eq_true, decide_eq_true_eq, List.all_eq_true]
      exact ⟨⟨hpos, hle⟩, hds⟩
    simp only [intOfChars?, splitSign_append hs hds.ne_sign, if_pos hlength, natOfDigits_eq_decimal]

theorem isReal_iff_text {t : String} : isReal t = true ↔ RealText t.toList := by
  rw [isReal, ofChars?_isSome_iff]

theorem isInteger_iff_text {t : String} : isInteger t = true ↔ ∃ z, IntegerText t.toList z := by
  simp only [isInteger, Option.isSome_iff_exists, intOfChars?_eq_some_iff]

theorem fits_iff : (Int64.minValue.toInt ≤ z && z ≤ Int64.maxValue.toInt) = true ↔
    -2 ^ 63 ≤ z ∧ z < 2 ^ 63 := by
  rw [Bool.and_eq_true, decide_eq_true_eq, decide_eq_true_eq, Int64.toInt_minValue,
    Int64.toInt_maxValue]
  omega

theorem integerOf?_eq_some_iff {t : String} {n : Int64} :
    integerOf? t = some n ↔ IntegerText t.toList n.toInt := by
  have hmin := n.le_toInt
  have hmax := n.toInt_lt
  simp only [integerOf?, Option.bind_eq_some_iff, intOfChars?_eq_some_iff, Option.ite_none_right_eq_some,
    fits_iff, Option.some.injEq]
  constructor
  · rintro ⟨z, hz, ⟨hlow, hhigh⟩, rfl⟩
    rwa [Int64.toInt_ofInt_of_le hlow hhigh]
  · intro h
    exact ⟨n.toInt, h, ⟨hmin, hmax⟩, Int64.ofInt_toInt n⟩

theorem integerOf?_eq_none_iff {t : String} :
    integerOf? t = none ↔ ∀ z, IntegerText t.toList z → z < -2 ^ 63 ∨ 2 ^ 63 ≤ z := by
  constructor
  · intro h z hz
    by_contra hrange
    have hread : integerOf? t = some (Int64.ofInt z) := by
      rw [integerOf?_eq_some_iff, Int64.toInt_ofInt_of_le (by omega) (by omega)]
      exact hz
    rw [h] at hread
    cases hread
  · intro h
    cases hread : integerOf? t with
    | none => rfl
    | some n =>
      have hn := h n.toInt (integerOf?_eq_some_iff.mp hread)
      have hmin := n.le_toInt
      have hmax := n.toInt_lt
      omega

/-- The classes of numbers are the texts of the grammar, and an integer is read as the number
that it writes out, or refused because it is none or does not fit. -/
theorem numberGrammar (t : String) :
    (isReal t = true ↔ RealText t.toList) ∧
    (isInteger t = true ↔ ∃ z, IntegerText t.toList z) ∧
    (isInteger t = true → isReal t = true) ∧
    (∀ n, Resolution.integer t = .ok n ↔ IntegerText t.toList n.toInt) ∧
    ∀ c, Resolution.integer t = .error c ↔
      c = .notAnInteger t ∧ ∀ z, IntegerText t.toList z → z < -2 ^ 63 ∨ 2 ^ 63 ≤ z := by
  refine ⟨isReal_iff_text, isInteger_iff_text, isReal_of_isInteger, fun n => ?_, fun c => ?_⟩
  · rw [Resolution.integer_eq_ok, integerOf?_eq_some_iff]
  · rw [← integerOf?_eq_none_iff, Resolution.integer]
    cases integerOf? t with
    | some n => simp
    | none => simp [eq_comm]

/-- The smallest integer is read, the one below it and the one above the largest are refused. -/
theorem numberGrammar_bounds :
    isInteger "-9223372036854775808" = true ∧ isReal "-9223372036854775808" = true ∧
      Resolution.integer "-9223372036854775808" = .ok Int64.minValue ∧
      Resolution.integer "-9223372036854775809" = .error (.notAnInteger "-9223372036854775809") ∧
      Resolution.integer "+9223372036854775808" = .error (.notAnInteger "+9223372036854775808") := by
  have hinteger : isInteger "-9223372036854775808" = true := by decide
  exact ⟨hinteger, (numberGrammar _).2.2.1 hinteger, by decide, by decide, by decide⟩

end ParameterChain.Number
