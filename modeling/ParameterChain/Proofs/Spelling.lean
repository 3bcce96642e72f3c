/-
# Lower case and slashes

Names are parted by slashes, and lower case works on the parts one by one: a slash comes of a
slash only, and what stands on one side of it does not count for the other.  So a key that is
cut at a slash is the key of a beginning of the name, which is written out as it was declared.

Lower case does not keep the number of bytes, nor that of characters: the dotted capital I
becomes two characters.  But of two beginnings of a name the longer one has the longer key.

Main statements: `lowerCase_lowerCase`, `mem_of_mem_lowerCase`, `lowerCase_append_slash`,
`exists_of_lowerFrom_slash`, `length_lowerFrom` and `takeBytes?_eq_some`.
-/
import ParameterChain.Proofs.Features

namespace ParameterChain

namespace Text

/-! ## Lower case of lower case -/

/-- Lower case keeps the character, wherever it stands. -/
structure Settled (c : Char) : Prop where
  ne_sigma : c ≠ 'Σ'
  ne_dotted : c ≠ 'İ'
  kept : lowerChar c = c

/-- The code point of the small letter of the capital `n` of a run. -/
def LowerRun.small (r : LowerRun) (n : Nat) : Nat :=
  Int.toNat (n + r.distance)

/-- No small letter of the run `r` is a capital of the run `s`: they lie apart, or they
alternate. -/
def LowerRun.misses (r s : LowerRun) : Bool :=
  Nat.blt (r.small r.last) s.first || Nat.blt s.last (r.small r.first) ||
    (s.step == 2 && (r.step == 2 || r.first == r.last) &&
      (r.small r.first + s.first) % 2 == 1)

/-- The small letters of a run are characters that come after the slash, and the dotted capital
is not among them. -/
def LowerRun.isSound (r : LowerRun) : Bool :=
  Nat.blt 0x2F (r.small r.first) &&
    (Nat.blt (r.small r.last) 0xD800 ||
      Nat.blt 0xDFFF (r.small r.first) && Nat.blt (r.small r.last) 0x110000) &&
    r.misses ⟨0x130, 0x130, 1, 0⟩

theorem lowerRuns_sound : (lowerRuns.all LowerRun.isSound) = true := by
  decide +kernel

theorem lowerRuns_misses : (lowerRuns.all fun r => lowerRuns.all r.misses) = true := by
  decide +kernel

section LowerRun

variable {r s : LowerRun} {n : Nat} (hr : r.isSound = true) (hn : r.contains n = true)

include hr hn

/-- In a run the order and the distances of the capitals are those of their small letters. -/
theorem LowerRun.small_eq : r.small n + r.first = r.small r.first + n ∧
    0x2F < r.small n ∧ r.small n ≤ r.small r.last := by
  simp only [isSound, contains, Bool.and_eq_true, decide_eq_true_eq, Nat.blt_eq, small] at hr hn ⊢
  omega

theorem LowerRun.not_contains_of_misses (h : r.misses s = true) :
    s.contains (r.small n) = false := by
  obtain ⟨heq, -, hle⟩ := small_eq hr hn
  simp only [misses, contains, Bool.or_eq_true, Bool.and_eq_true, decide_eq_true_eq,
    Nat.blt_eq, beq_iff_eq] at h hn
  obtain ⟨⟨hfirst, hlast⟩, hstep⟩ := hn
  refine Bool.eq_false_iff.mpr ?_
  intro hs
  simp only [contains, Bool.and_eq_true, decide_eq_true_eq, beq_iff_eq] at hs
  obtain ⟨⟨hfirst', hlast'⟩, hstep'⟩ := hs
  rcases h with (h | h) | ⟨⟨hstep2, hr | hr⟩, hodd⟩
  · omega
  · omega
  · rw [hstep2] at hstep'
    rw [hr] at hstep
    omega
  · rw [hstep2] at hstep'
    omega

/-- The small letter is the character with the code point that the run tells. -/
theorem LowerRun.toNat_small : (Char.ofNat (r.small n)).toNat = r.small n := by
  obtain ⟨heq, -, hle⟩ := small_eq hr hn
  simp only [isSound, contains, Bool.or_eq_true, Bool.and_eq_true, decide_eq_true_eq,
    Nat.blt_eq] at hr hn
  have hvalid : (r.small n).isValidChar := by
    rw [Nat.isValidChar]
    omega
  rw [Char.ofNat, dif_pos hvalid]
  rfl

end LowerRun

theorem lowerChar_of_ascii {c : Char} (h : c.toNat < 0x80) : lowerChar c = c.toLower := by
  rw [lowerChar, if_pos h]

theorem lowerChar_of_none {c : Char} (h : ¬ c.toNat < 0x80)
    (hr : lowerRuns.find? (·.contains c.toNat) = none) : lowerChar c = c := by
  rw [lowerChar, if_neg h, hr]

theorem lowerChar_of_some {c : Char} {r : LowerRun} (h : ¬ c.toNat < 0x80)
    (hr : lowerRuns.find? (·.contains c.toNat) = some r) :
    lowerChar c = Char.ofNat (r.small c.toNat) := by
  rw [lowerChar, if_neg h, hr]
  rfl

/-- In ASCII the capitals are the first run, and small letters are settled. -/
theorem lowerChar_ascii : ∀ n < 0x80,
    (¬ (0x41 ≤ n ∧ n ≤ 0x5A) → (Char.ofNat n).toLower = Char.ofNat n) ∧
      (Char.ofNat n).toLower ≠ 'Σ' ∧ (Char.ofNat n).toLower ≠ 'İ' ∧
      lowerChar (Char.ofNat n).toLower = (Char.ofNat n).toLower := by
  decide +kernel

/-- A character that is in no run is its own small letter. -/
theorem lowerChar_of_not_contains {c : Char} (h : ∀ r ∈ lowerRuns, r.contains c.toNat = false) :
    lowerChar c = c := by
  by_cases hascii : c.toNat < 0x80
  · have hcapital := h ⟨0x41, 0x5A, 1, 32⟩ List.mem_cons_self
    have hkept := (lowerChar_ascii c.toNat hascii).1
    rw [Char.ofNat_toNat] at hkept
    rw [lowerChar_of_ascii hascii]
    refine hkept fun hin => ?_
    simp [LowerRun.contains, hin, Nat.mod_one] at hcapital
  · exact lowerChar_of_none hascii (List.find?_eq_none.mpr fun r hr => by simp [h r hr])

/-- The small letter of a character is settled. -/
theorem settled_lowerChar {c : Char} (hs : c ≠ 'Σ') (hi : c ≠ 'İ') : Settled (lowerChar c) := by
  by_cases hascii : c.toNat < 0x80
  · obtain ⟨-, hne, hne', hkept⟩ := lowerChar_ascii c.toNat hascii
    rw [Char.ofNat_toNat] at hne hne' hkept
    rw [lowerChar_of_ascii hascii]
    exact ⟨hne, hne', hkept⟩
  · cases hr : lowerRuns.find? (·.contains c.toNat) with
    | none =>
      have hkept := lowerChar_of_none hascii hr
      rw [hkept]
      exact ⟨hs, hi, hkept⟩
    | some r =>
      have hmem := List.mem_of_find?_eq_some hr
      have hn : r.contains c.toNat = true := by simpa using List.find?_some hr
      have hsound := List.all_eq_true.mp lowerRuns_sound r hmem
      have hmisses := List.all_eq_true.mp (List.all_eq_true.mp lowerRuns_misses r hmem)
      have hm := LowerRun.toNat_small hsound hn
      have hapart : ∀ s ∈ lowerRuns, s.contains (r.small c.toNat) = false := fun s hs =>
        LowerRun.not_contains_of_misses hsound hn (hmisses s hs)
      rw [lowerChar_of_some hascii hr]
      refine ⟨?_, ?_, lowerChar_of_not_contains (hm.symm ▸ hapart)⟩
      · intro heq
        -- The capital sigma is itself in a run.
        have hsigma : (lowerRuns.all fun s => !s.contains 'Σ'.toNat) = false := by decide +kernel
        rw [← heq, hm, List.all_eq_false] at hsigma
        obtain ⟨s, hs, hin⟩ := hsigma
        rw [hapart s hs] at hin
        exact hin rfl
      · intro heq
        have hdotted := (Bool.and_eq_true _ _).mp hsound
        have hnot := LowerRun.not_contains_of_misses hsound hn hdotted.2
        rw [← hm, heq] at hnot
        exact absurd hnot (by decide)

theorem lowerFrom_of_settled {before cs : List Char} (h : ∀ c ∈ cs, Settled c) :
    lowerFrom before cs = cs := by
  induction cs generalizing before with
  | nil => rfl
  | cons c cs ih =>
    have hc := h c List.mem_cons_self
    rw [lowerFrom, if_neg hc.ne_sigma, if_neg hc.ne_dotted, hc.kept,
      ih fun d hd => h d (List.mem_cons_of_mem c hd)]
    rfl

theorem settled_of_mem_lowerFrom {before cs : List Char} {c : Char}
    (h : c ∈ lowerFrom before cs) : Settled c := by
  have hsmall : ∀ c ∈ ['ς', 'σ', 'i', '\u0307'], Settled c := by
    intro c hc
    have hall : (['ς', 'σ', 'i', '\u0307'].all fun c =>
      c != 'Σ' && c != 'İ' && lowerChar c == c) = true := by decide +kernel
    have h := List.all_eq_true.mp hall c hc
    simp only [Bool.and_eq_true, bne_iff_ne, beq_iff_eq] at h
    exact ⟨h.1.1, h.1.2, h.2⟩
  induction cs generalizing before with
  | nil => cases h
  | cons d cs ih =>
    rw [lowerFrom] at h
    rcases List.mem_append.mp h with h | h
    · split at h
      · split at h
        · exact hsmall c (by simp [List.mem_singleton.mp h])
        · exact hsmall c (by simp [List.mem_singleton.mp h])
      next hsigma =>
      split at h
      · exact hsmall c (List.mem_cons_of_mem _ (List.mem_cons_of_mem _ h))
      next hdotted =>
      rw [List.mem_singleton.mp h]
      exact settled_lowerChar hsigma hdotted
    · exact ih h

/-- The lower case of a text is its own lower case. -/
theorem lowerCase_lowerCase (s : String) : lowerCase (lowerCase s) = lowerCase s := by
  rw [lowerCase, lowerCase, String.toList_ofList,
    lowerFrom_of_settled fun _ h => settled_of_mem_lowerFrom h]

/-! ## Between slashes -/

/-- What lower case makes of one character of a text, given what is passed and what follows. -/
def lowered (before : List Char) (c : Char) (cs : List Char) : List Char :=
  if c = 'Σ' then if casedNext before && !casedNext cs then ['ς'] else ['σ']
  else if c = 'İ' then ['i', '\u0307']
  else [lowerChar c]

theorem lowerFrom_cons (before : List Char) (c : Char) (cs : List Char) :
    lowerFrom before (c :: cs) = lowered before c cs ++ lowerFrom (c :: before) cs := rfl

/-- A character up to the slash is the lower case of itself only. -/
theorem eq_of_lowerChar {c d : Char} (hd : d.toNat ≤ 0x2F) (h : lowerChar c = d) : c = d := by
  by_cases hascii : c.toNat < 0x80
  · have hall : ∀ n < 0x80, (Char.ofNat n).toLower.toNat ≤ 0x2F →
        (Char.ofNat n).toLower = Char.ofNat n := by decide +kernel
    have hc := hall c.toNat hascii
    rw [Char.ofNat_toNat] at hc
    rw [lowerChar_of_ascii hascii] at h
    exact (hc (h ▸ hd)).symm.trans h
  · cases hr : lowerRuns.find? (·.contains c.toNat) with
    | none => exact lowerChar_of_none hascii hr ▸ h
    | some r =>
      have hn : r.contains c.toNat = true := by simpa using List.find?_some hr
      have hsound := List.all_eq_true.mp lowerRuns_sound r (List.mem_of_find?_eq_some hr)
      have hm := LowerRun.toNat_small hsound hn
      have hlt := (LowerRun.small_eq hsound hn).2.1
      rw [← hm, ← lowerChar_of_some hascii hr, h] at hlt
      omega

theorem not_mem_lowered {before cs : List Char} {c d : Char} (hd : d.toNat ≤ 0x2F)
    (hc : c ≠ d) : d ∉ lowered before c cs := by
  have hsmall : ∀ x ∈ ['ς', 'σ', 'i', '\u0307'], ¬ x.toNat ≤ 0x2F := by simp
  intro h
  rw [lowered] at h
  split at h
  · split at h
    · exact hsmall d (by simp [List.mem_singleton.mp h]) hd
    · exact hsmall d (by simp [List.mem_singleton.mp h]) hd
  split at h
  · exact hsmall d (List.mem_cons_of_mem _ (List.mem_cons_of_mem _ h)) hd
  · exact hc (eq_of_lowerChar hd (List.mem_singleton.mp h).symm)

/-- A character up to the slash is in the lower case of a text only if it is in the text. -/
theorem mem_of_mem_lowerCase {s : String} {d : Char} (hd : d.toNat ≤ 0x2F)
    (h : d ∈ (lowerCase s).toList) : d ∈ s.toList := by
  have hfrom : ∀ before cs, d ∈ lowerFrom before cs → d ∈ cs := by
    intro before cs h
    induction cs generalizing before with
    | nil => exact h
    | cons c cs ih =>
      rw [lowerFrom_cons] at h
      rcases List.mem_append.mp h with h | h
      · by_cases hc : c = d
        · exact hc ▸ List.mem_cons_self
        · exact absurd h (not_mem_lowered hd hc)
      · exact List.mem_cons_of_mem c (ih _ h)
  rw [lowerCase, String.toList_ofList] at h
  exact hfrom _ _ h

/-- A character before the capitals stays in the lower case of a text. -/
theorem mem_lowerCase_of_mem {s : String} {d : Char} (hd : d.toNat < 0x41) (h : d ∈ s.toList) :
    d ∈ (lowerCase s).toList := by
  have hlowered : ∀ before cs, lowered before d cs = [d] := by
    intro before cs
    obtain ⟨hkept, hsigma, hdotted, -⟩ := lowerChar_ascii d.toNat (by omega)
    rw [Char.ofNat_toNat] at hkept hsigma hdotted
    have hself := hkept (by omega)
    rw [hself] at hsigma hdotted
    rw [lowered, if_neg hsigma, if_neg hdotted, lowerChar_of_ascii (by omega), hself]
  have hfrom : ∀ before cs, d ∈ cs → d ∈ lowerFrom before cs := by
    intro before cs h
    induction cs generalizing before with
    | nil => exact h
    | cons c cs ih =>
      rw [lowerFrom_cons]
      rcases List.mem_cons.mp h with rfl | h
      · exact List.mem_append_left _ (hlowered before cs ▸ List.mem_cons_self)
      · exact List.mem_append_right _ (ih _ h)
  rw [lowerCase, String.toList_ofList]
  exact hfrom _ _ h

/-- A slash in the lower case of a text is a slash of the text. -/
theorem exists_of_lowerFrom_slash {before cs xs ys : List Char}
    (h : lowerFrom before cs = xs ++ '/' :: ys) :
    ∃ ws ts, cs = ws ++ '/' :: ts ∧ lowerFrom before ws = xs := by
  induction cs generalizing before xs with
  | nil => simp [lowerFrom] at h
  | cons c cs ih =>
    rw [lowerFrom_cons] at h
    -- The slash is what the first character became, or it is further on.
    rcases List.append_eq_append_iff.mp h with ⟨as, rfl, has⟩ | ⟨as, has, hrest⟩
    · obtain ⟨ws, ts, rfl, hws⟩ := ih has
      refine ⟨c :: ws, ts, rfl, ?_⟩
      rw [lowerFrom_cons, hws]
      congr 1
      rw [lowered, lowered, casedNext_append_slash]
    · cases as with
      | nil =>
        rw [List.append_nil] at has
        have hslash : lowerFrom (c :: before) cs = [] ++ '/' :: ys := hrest.symm
        obtain ⟨ws, ts, rfl, hws⟩ := ih hslash
        refine ⟨c :: ws, ts, rfl, ?_⟩
        rw [lowerFrom_cons, hws, List.append_nil, ← has]
        rw [lowered, lowered, casedNext_append_slash]
      | cons a as =>
        obtain ⟨rfl, -⟩ := List.cons.inj hrest
        have hmem : '/' ∈ lowered before c cs := has ▸ by simp
        by_cases hc : c = '/'
        · subst hc
          have hlow : lowered before '/' cs = ['/'] := rfl
          rw [hlow] at has
          cases xs with
          | nil => exact ⟨[], cs, rfl, rfl⟩
          | cons x xs => simp at has
        · exact absurd hmem (not_mem_lowered (by decide) hc)

/-- Only the dotted capital takes more characters in lower case. -/
theorem length_lowerFrom (before cs : List Char) :
    (lowerFrom before cs).length = cs.length + cs.count 'İ' := by
  induction cs generalizing before with
  | nil => rfl
  | cons c cs ih =>
    rw [lowerFrom_cons, List.length_append, ih, List.length_cons, List.count_cons, lowered]
    by_cases hs : c = 'Σ'
    · subst hs
      have hone : (if casedNext before && !casedNext cs then ['ς'] else ['σ']).length = 1 := by
        split <;> rfl
      rw [if_pos rfl, hone]
      simp
      omega
    · by_cases hi : c = 'İ'
      · subst hi
        simp
        omega
      · simp [hs, hi]
        omega

/-- Of two beginnings of a text the longer one is longer in lower case. -/
theorem eq_of_prefix_of_lowerFrom {before cs xs ys : List Char} (hx : xs <+: cs) (hy : ys <+: cs)
    (h : lowerFrom before xs = lowerFrom before ys) : xs = ys := by
  have hlength := congrArg List.length h
  rw [length_lowerFrom, length_lowerFrom] at hlength
  rcases List.prefix_or_prefix_of_prefix hx hy with ⟨rest, rfl⟩ | ⟨rest, rfl⟩
  · rw [List.length_append, List.count_append] at hlength
    have hnil : rest = [] := List.length_eq_zero_iff.mp (by omega)
    rw [hnil, List.append_nil]
  · rw [List.length_append, List.count_append] at hlength
    have hnil : rest = [] := List.length_eq_zero_iff.mp (by omega)
    rw [hnil, List.append_nil]

/-- What stands before a slash does not count for what follows it. -/
theorem lowerFrom_after_slash (passed before cs : List Char) :
    lowerFrom (passed ++ '/' :: before) cs = lowerFrom passed cs := by
  induction cs generalizing passed with
  | nil => rfl
  | cons c cs ih =>
    rw [lowerFrom_cons, lowerFrom_cons, ← List.cons_append, ih]
    rw [lowered, lowered, casedNext_append_slash]

theorem lowerCase_append_slash (s t : String) :
    lowerCase (s ++ "/" ++ t) = lowerCase s ++ "/" ++ lowerCase t := by
  have htext : (s ++ "/" ++ t).toList = s.toList ++ '/' :: t.toList := by simp
  have hslash : lowerFrom (s.toList.reverse ++ []) ('/' :: t.toList) =
      '/' :: lowerFrom [] t.toList := by
    rw [lowerFrom_cons]
    have h : lowerFrom ('/' :: (s.toList.reverse ++ [])) t.toList = lowerFrom [] t.toList :=
      lowerFrom_after_slash [] _ _
    rw [h]
    rfl
  rw [lowerCase, htext, lowerFrom_append_slash, hslash, lowerCase, lowerCase]
  apply String.toList_inj.mp
  simp

end Text

/-- The key of a key is the key. -/
theorem Key.ofText_text (name : String) : Key.ofText (Key.ofText name).text = Key.ofText name :=
  congrArg Key.mk (Text.lowerCase_lowerCase name)

/-! ## Beginnings of a text -/

theorem utf8ByteSize_cons (c : Char) (cs : List Char) :
    (String.ofList (c :: cs)).utf8ByteSize = c.utf8Size + (String.ofList cs).utf8ByteSize := by
  simp only [String.ofList_cons, String.utf8ByteSize_append, String.utf8ByteSize_singleton]

/-- The first bytes of a text are those of a beginning of it. -/
theorem takeBytes?_eq_some {n : Nat} {cs xs : List Char} :
    takeBytes? n cs = some xs ↔ xs <+: cs ∧ (String.ofList xs).utf8ByteSize = n := by
  induction cs generalizing n xs with
  | nil =>
    cases n with
    | zero =>
      rw [takeBytes?, List.prefix_nil]
      constructor
      · rintro ⟨⟩
        exact ⟨rfl, rfl⟩
      · rintro ⟨rfl, -⟩
        rfl
    | succ n =>
      rw [takeBytes?, List.prefix_nil]
      constructor
      · intro h
        cases h
      · rintro ⟨rfl, h⟩
        cases h
  | cons c cs ih =>
    have hpos := c.utf8Size_pos
    cases n with
    | zero =>
      rw [takeBytes?]
      constructor
      · rintro ⟨⟩
        exact ⟨List.nil_prefix, rfl⟩
      · rintro ⟨-, h⟩
        cases xs with
        | nil => rfl
        | cons x xs =>
          rw [utf8ByteSize_cons] at h
          have := x.utf8Size_pos
          omega
    | succ n =>
      rw [takeBytes?]
      by_cases hfits : c.utf8Size ≤ n + 1
      · rw [if_pos hfits, Option.map_eq_some_iff]
        constructor
        · rintro ⟨ys, hys, rfl⟩
          obtain ⟨hleading, hsize⟩ := ih.mp hys
          refine ⟨List.cons_prefix_cons.mpr ⟨rfl, hleading⟩, ?_⟩
          rw [utf8ByteSize_cons, hsize]
          omega
        · rintro ⟨hleading, hsize⟩
          cases xs with
          | nil => cases hsize
          | cons x xs =>
            obtain ⟨rfl, hrest⟩ := List.cons_prefix_cons.mp hleading
            rw [utf8ByteSize_cons] at hsize
            exact ⟨xs, ih.mpr ⟨hrest, by omega⟩, rfl⟩
      · rw [if_neg hfits]
        constructor
        · intro h
          cases h
        rintro ⟨hleading, hsize⟩
        cases xs with
        | nil => cases hsize
        | cons x xs =>
          obtain ⟨rfl, -⟩ := List.cons_prefix_cons.mp hleading
          rw [utf8ByteSize_cons] at hsize
          omega

end ParameterChain
