/-
# Texts as tokens and gaps

The scanner of `ParameterChain.Token` carries a quote state from one character to the next.  What
it returns is said here without one.  A token is not empty, and its blanks all stand inside
quotes, that is, behind an odd number of double quotes (`IsToken`).  In a list of tokens every one
but the last has an even number of them (`TokenList`), for what follows an open quote belongs to
the token.  A text is blanks and then each token with the gap behind it (`laid`), where the gap is
empty behind the last token only, and has to be if that token leaves a quote open (`Gaps`).

Between the two stands the relation `Spaced`, with a constructor for each move of the scanner:
skip a blank, end a token at a blank, end the text with a token.

Main statements: `scan_eq_iff` and `ofValue_laid`.
-/
import Mathlib.Algebra.Ring.Parity
import ParameterChain.Proofs.Tokens

namespace ParameterChain.Token

variable {q : Bool} {b : Char} {t cs xs : List Char} {ts : List (List Char)}

/-! ## Tokens -/

/-- A token is not empty and has blanks inside quotes only. -/
structure IsToken (t : List Char) : Prop where
  ne_nil : t ≠ []
  odd : ∀ xs b ys, t = xs ++ b :: ys → Text.isBlank b = true → Odd (xs.count '"')

theorem opens_iff_odd : opens false cs = true ↔ Odd (cs.count '"') := by
  rw [opens_eq, Bool.false_bne, beq_iff_eq, Nat.odd_iff]

theorem opens_iff_even : opens false cs = false ↔ Even (cs.count '"') := by
  rw [← Bool.not_eq_true, opens_iff_odd, Nat.not_odd_iff_even]

/-- Not broken is what has every blank behind an open quote. -/
theorem unbroken_iff :
    unbroken q cs = true ↔
      ∀ xs b ys, cs = xs ++ b :: ys → Text.isBlank b = true → opens q xs = true := by
  induction cs generalizing q with
  | nil => simp [unbroken]
  | cons c cs ih =>
    rw [unbroken, Bool.and_eq_true, ih]
    constructor
    · rintro ⟨hc, hcs⟩ xs b ys heq hb
      cases xs with
      | nil =>
        obtain ⟨rfl, -⟩ := List.cons.inj heq
        simpa [hb, opens] using hc
      | cons x xs =>
        obtain ⟨rfl, rfl⟩ := List.cons.inj heq
        exact hcs xs b ys rfl hb
    · intro h
      refine ⟨?_, fun xs b ys heq => h (c :: xs) b ys (by rw [heq]; rfl)⟩
      cases hc : Text.isBlank c with
      | false => simp
      | true => simpa [opens] using h [] c cs rfl hc

theorem isToken_iff : IsToken t ↔ t ≠ [] ∧ unbroken false t = true := by
  rw [unbroken_iff]
  simp only [opens_iff_odd]
  exact ⟨fun ⟨hne, hodd⟩ => ⟨hne, hodd⟩, fun ⟨hne, hodd⟩ => ⟨hne, hodd⟩⟩

/-! ## The scanner as a relation -/

/-- `cs` holds the tokens `ts`, in this order, parted by blanks. -/
inductive Spaced : List (List Char) → List Char → Prop
  | done : Spaced [] []
  | blank {b : Char} {ts : List (List Char)} {cs : List Char} :
      Text.isBlank b = true → Spaced ts cs → Spaced ts (b :: cs)
  | token {t : List Char} {b : Char} {ts : List (List Char)} {cs : List Char} :
      IsToken t → Even (t.count '"') → Text.isBlank b = true → Spaced ts cs →
      Spaced (t :: ts) (t ++ b :: cs)
  | last {t : List Char} : IsToken t → Spaced [t] t

theorem Spaced.scan_eq (h : Spaced ts cs) : scan cs = ts := by
  induction h with
  | done => rfl
  | blank hb _ ih => rw [scan, scanFrom_blank hb, if_pos (by rfl), ih]
  | token ht heven hb _ ih =>
    obtain ⟨hne, hunbroken⟩ := isToken_iff.mp ht
    rw [scan_append_blank hne hunbroken (opens_iff_even.mpr heven) hb, ih]
  | last ht =>
    obtain ⟨hne, hunbroken⟩ := isToken_iff.mp ht
    exact scan_eq_singleton hne hunbroken

/-- What the scanner returns when it has read the token so far, for the text from where that
token begins. -/
theorem spaced_scanFrom {token : List Char} (hq : opens false token.reverse = q)
    (htoken : unbroken false token.reverse = true) :
    Spaced (scanFrom q token cs) (token.reverse ++ cs) := by
  induction cs generalizing q token with
  | nil =>
    cases token with
    | nil => exact .done
    | cons c token =>
      rw [scanFrom_nil (List.cons_ne_nil c token), List.append_nil]
      exact .last (isToken_iff.mpr ⟨by simp, htoken⟩)
  | cons c cs ih =>
    by_cases hc : (q || !Text.isBlank c) = true
    · have hread : token.reverse ++ c :: cs = (c :: token).reverse ++ cs := by
        rw [List.reverse_cons, List.append_assoc, List.singleton_append]
      rw [scanFrom_cons hc, hread]
      refine ih ?_ ?_
      · rw [List.reverse_cons, opens_append, hq]
        rfl
      · rw [List.reverse_cons, unbroken_append, htoken, hq, unbroken, hc]
        rfl
    · obtain ⟨rfl, hblank⟩ : q = false ∧ Text.isBlank c = true := by simpa using hc
      have hrest : Spaced (scan cs) cs := @ih false [] rfl rfl
      rw [scanFrom_blank hblank]
      cases token with
      | nil => exact .blank hblank hrest
      | cons d token =>
        exact .token (isToken_iff.mpr ⟨by simp, htoken⟩) (opens_iff_even.mp hq) hblank hrest

theorem scan_eq_iff : scan cs = ts ↔ Spaced ts cs := by
  refine ⟨?_, Spaced.scan_eq⟩
  rintro rfl
  exact @spaced_scanFrom false cs [] rfl rfl

theorem Spaced.blanks (hxs : ∀ c ∈ xs, Text.isBlank c = true) (h : Spaced ts cs) :
    Spaced ts (xs ++ cs) := by
  induction xs with
  | nil => exact h
  | cons x xs ih =>
    obtain ⟨hx, hxs⟩ := List.forall_mem_cons.mp hxs
    exact .blank hx (ih hxs)

/-! ## Tokens with the gaps behind them -/

/-- What a text can be cut into: tokens, of which only the last may leave a quote open. -/
structure TokenList (ts : List String) : Prop where
  token : ∀ t ∈ ts, IsToken t.toList
  even : ∀ t ∈ ts.dropLast, Even (t.toList.count '"')

/-- The text has no character that is not blank. -/
def Blanks (gap : String) : Prop :=
  ∀ c ∈ gap.toList, Text.isBlank c = true

/-- The text in which each token is followed by its gap. -/
def laid : List (String × String) → String
  | [] => ""
  | (t, gap) :: parts => t ++ (gap ++ laid parts)

/-- The gaps part the tokens: they are blank, there is one between any two tokens, and behind
the last token there is one only if its quotes are closed. -/
structure Gaps (parts : List (String × String)) : Prop where
  blank : ∀ p ∈ parts, Blanks p.2
  apart : ∀ p ∈ parts.dropLast, p.2 ≠ ""
  behind : ∀ p ∈ parts.getLast?, p.2 ≠ "" → Even (p.1.toList.count '"')

section Parts

variable {p : String × String} {parts : List (String × String)} {lead t : String}
  {ts : List String}

theorem TokenList.tail (h : TokenList (t :: ts)) : TokenList ts where
  token := fun u hu => h.token u (List.mem_cons_of_mem t hu)
  even := fun u hu => by
    cases ts with
    | nil => cases hu
    | cons t' ts =>
      exact h.even u (by rw [List.dropLast_cons_cons]; exact List.mem_cons_of_mem t hu)

theorem TokenList.cons (ht : IsToken t.toList) (heven : Even (t.toList.count '"'))
    (h : TokenList ts) : TokenList (t :: ts) where
  token := List.forall_mem_cons.mpr ⟨ht, h.token⟩
  even := by
    cases ts with
    | nil => exact nofun
    | cons t' ts =>
      rw [List.dropLast_cons_cons]
      exact List.forall_mem_cons.mpr ⟨heven, h.even⟩

theorem Gaps.cons (hblank : Blanks p.2) (hne : p.2 ≠ "") (heven : Even (p.1.toList.count '"'))
    (h : Gaps parts) : Gaps (p :: parts) where
  blank := List.forall_mem_cons.mpr ⟨hblank, h.blank⟩
  apart := by
    cases parts with
    | nil => exact nofun
    | cons p' parts =>
      rw [List.dropLast_cons_cons]
      exact List.forall_mem_cons.mpr ⟨hne, h.apart⟩
  behind := by
    cases parts with
    | nil =>
      rintro r ⟨⟩ -
      exact heven
    | cons p' parts =>
      rw [List.getLast?_cons_cons]
      exact h.behind

theorem Gaps.tail (h : Gaps (p :: parts)) : Gaps parts where
  blank := fun r hr => h.blank r (List.mem_cons_of_mem p hr)
  apart := fun r hr => by
    cases parts with
    | nil => cases hr
    | cons p' parts =>
      exact h.apart r (by rw [List.dropLast_cons_cons]; exact List.mem_cons_of_mem p hr)
  behind := fun r hr => by
    cases parts with
    | nil => cases hr
    | cons p' parts => exact h.behind r (by rwa [List.getLast?_cons_cons])

/-- In front of a gap every token has closed its quotes. -/
theorem Gaps.even (h : Gaps (p :: parts)) (hts : TokenList ((p :: parts).map Prod.fst))
    (hgap : p.2 ≠ "") : Even (p.1.toList.count '"') := by
  cases parts with
  | nil => exact h.behind p rfl hgap
  | cons p' parts => exact hts.even p.1 (List.mem_cons_self)

theorem spaced_laid (hts : TokenList (parts.map Prod.fst)) (h : Gaps parts) :
    Spaced (parts.map (·.1.toList)) (laid parts).toList := by
  induction parts with
  | nil => exact .done
  | cons p parts ih =>
    have htoken : IsToken p.1.toList := hts.token p.1 List.mem_cons_self
    have hrest := ih hts.tail h.tail
    rw [laid, String.toList_append, String.toList_append, List.map_cons]
    cases hgap : p.2.toList with
    | nil =>
      have hnil : p.2 = "" := String.toList_eq_nil_iff.mp hgap
      cases parts with
      | nil =>
        simpa [laid] using Spaced.last htoken
      | cons p' parts => exact absurd hnil (h.apart p List.mem_cons_self)
    | cons b gap =>
      have hne : p.2 ≠ "" := fun hnil => by simp [hnil] at hgap
      have hblank := h.blank p List.mem_cons_self
      rw [Blanks, hgap] at hblank
      obtain ⟨hb, hgap⟩ := List.forall_mem_cons.mp hblank
      exact .token htoken (h.even hts hne) hb (hrest.blanks hgap)

theorem blanks_cons {lead : String} (hb : Text.isBlank b = true) (h : Blanks lead) :
    Blanks (String.ofList (b :: lead.toList)) := by
  rw [Blanks, String.toList_ofList]
  exact List.forall_mem_cons.mpr ⟨hb, h⟩

/-- Every text that holds tokens is blanks and the tokens with their gaps. -/
theorem Spaced.exists_laid {ts : List (List Char)} {cs : List Char} (h : Spaced ts cs) :
    ∃ lead parts, Blanks lead ∧ Gaps parts ∧ TokenList (parts.map Prod.fst) ∧
      parts.map (·.1.toList) = ts ∧ (lead ++ laid parts).toList = cs := by
  induction h with
  | done =>
    exact ⟨"", [], nofun, ⟨nofun, nofun, nofun⟩, ⟨nofun, nofun⟩, rfl, rfl⟩
  | @blank b ts cs hb _ ih =>
    obtain ⟨lead, parts, hlead, hgaps, htokens, hts, hcs⟩ := ih
    refine ⟨_, parts, blanks_cons hb hlead, hgaps, htokens, hts, ?_⟩
    rw [String.toList_append, String.toList_ofList, List.cons_append, ← String.toList_append, hcs]
  | @last t ht =>
    refine ⟨"", [(String.ofList t, "")], nofun, ⟨?_, nofun, ?_⟩, ⟨?_, nofun⟩, ?_, ?_⟩
    · simp [Blanks]
    · simp
    · simpa using ht
    · simp
    · simp [laid]
  | @token t b ts cs ht heven hb _ ih =>
    -- the blanks in front of the rest are part of the gap behind this token
    obtain ⟨lead, parts, hlead, hgaps, htokens, rfl, rfl⟩ := ih
    rw [← @String.toList_ofList t] at ht heven
    refine ⟨"", (String.ofList t, String.ofList (b :: lead.toList)) :: parts, nofun,
      hgaps.cons (blanks_cons hb hlead) (by simp) heven, htokens.cons ht heven, ?_, ?_⟩
    · simp
    · simp [laid]

/-- Tokens that are parted by single blanks. -/
theorem TokenList.spaced_intercalate (h : TokenList ts) :
    Spaced (ts.map String.toList) (" ".intercalate ts).toList := by
  rw [String.toList_intercalate]
  induction ts with
  | nil => exact .done
  | cons t ts ih =>
    have htoken := h.token t List.mem_cons_self
    cases ts with
    | nil => simpa using Spaced.last htoken
    | cons t' ts =>
      rw [List.map_cons, List.map_cons, List.intercalate_cons_cons, List.append_assoc]
      exact .token htoken (h.even t List.mem_cons_self) (by decide) (ih h.tail)

theorem ofValue_of_spaced {value : String} (h : Spaced (ts.map String.toList) value.toList) :
    ofValue value = ts := by
  rw [ofValue, h.scan_eq, List.map_map]
  exact List.map_id'' (fun t => String.ofList_toList) ts

/-- What is cut out of a text is a list of tokens, and the text is those tokens with blanks in
front of them and gaps behind them. -/
theorem exists_laid_ofValue (value : String) :
    TokenList (ofValue value) ∧ ∃ lead parts, Blanks lead ∧ Gaps parts ∧
      parts.map Prod.fst = ofValue value ∧ lead ++ laid parts = value := by
  obtain ⟨lead, parts, hlead, hgaps, htokens, hts, hvalue⟩ := (scan_eq_iff.mp rfl).exists_laid
  have hparts : parts.map Prod.fst = ofValue value := by
    rw [ofValue, ← hts, List.map_map]
    exact List.map_congr_left fun p _ => String.ofList_toList.symm
  exact ⟨hparts ▸ htokens, lead, parts, hlead, hgaps, hparts, String.toList_inj.mp hvalue⟩

end Parts

/-- Cutting a text into tokens undoes writing tokens with blanks in front of them and gaps behind
them, and no text is of another form; so writing the tokens of a text with single blanks leaves
them as they are. -/
theorem ofValue_laid :
    (∀ lead parts, Blanks lead → Gaps parts → TokenList (parts.map Prod.fst) →
      ofValue (lead ++ laid parts) = parts.map Prod.fst) ∧
    (∀ value, TokenList (ofValue value) ∧ ∃ lead parts, Blanks lead ∧ Gaps parts ∧
      parts.map Prod.fst = ofValue value ∧ lead ++ laid parts = value) ∧
    ∀ value, ofValue (" ".intercalate (ofValue value)) = ofValue value := by
  refine ⟨fun lead parts hlead hgaps htokens => ?_, exists_laid_ofValue, fun value => ?_⟩
  · have hspaced := (spaced_laid htokens hgaps).blanks hlead
    refine ofValue_of_spaced ?_
    rw [List.map_map, String.toList_append]
    exact hspaced
  · exact ofValue_of_spaced (exists_laid_ofValue value).1.spaced_intercalate

/-- A quote that opens in the middle of a token, a gap of several blanks, and a last token whose
quote stays open. -/
theorem ofValue_laid_openEnd :
    let parts := [("x\"Hello World\"+s", " \u3000"), ("\"open end ", "")]
    Blanks "\t" ∧ Gaps parts ∧ TokenList (parts.map Prod.fst) ∧
      ofValue "\tx\"Hello World\"+s \u3000\"open end " = ["x\"Hello World\"+s", "\"open end "] := by
  have htoken : ∀ t ∈ ["x\"Hello World\"+s", "\"open end "], IsToken t.toList := by
    simp only [isToken_iff]
    decide
  have hlead : Blanks "\t" := List.all_eq_true.mp (by decide)
  have hgaps : Gaps [("x\"Hello World\"+s", " \u3000"), ("\"open end ", "")] := by
    refine ⟨?_, by decide, by simp⟩
    exact List.forall_mem_cons.mpr ⟨List.all_eq_true.mp (by decide),
      List.forall_mem_singleton.mpr (List.all_eq_true.mp (by decide))⟩
  have htokens : TokenList ["x\"Hello World\"+s", "\"open end "] := ⟨htoken, by decide⟩
  exact ⟨hlead, hgaps, htokens, ofValue_laid.1 _ _ hlead hgaps htokens⟩

end ParameterChain.Token
