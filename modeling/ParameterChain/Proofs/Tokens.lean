/-
# Tokens written out

A token holds no blank outside its quotes (`unbroken`), and of a text only the last token can
leave a quote open (`opens`).  Tokens that leave none open are read back from a text in which
blanks part them (`ofValue_intercalate`).

What the scanner does with a run of characters that it does not cut is one lemma,
`scanFrom_append`; what it returns for such texts comes from it.  A cursor hands out the tokens
of a value one by one (`Cursor.reads_skip`).
-/
import ParameterChain.Token

namespace ParameterChain.Token

variable {q : Bool} {cs xs ys w : List Char}

/-! ## Quotes -/

/-- Whether a quote is open after the characters; `q` if one was open before them. -/
def opens (q : Bool) (cs : List Char) : Bool :=
  cs.foldl (fun q c => q != (c == '"')) q

/-- No blank of the characters stands outside quotes; `q` if a quote was open before them. -/
def unbroken : Bool → List Char → Bool
  | _, [] => true
  | q, c :: cs => (q || !Text.isBlank c) && unbroken (q != (c == '"')) cs

theorem opens_append (q : Bool) (xs ys : List Char) :
    opens q (xs ++ ys) = opens (opens q xs) ys :=
  List.foldl_append

theorem unbroken_append (q : Bool) (xs ys : List Char) :
    unbroken q (xs ++ ys) = (unbroken q xs && unbroken (opens q xs) ys) := by
  induction xs generalizing q with
  | nil => rfl
  | cons x xs ih =>
    rw [List.cons_append, unbroken, unbroken, ih, Bool.and_assoc]
    rfl

/-- Two quotes close each other. -/
theorem opens_eq (q : Bool) (cs : List Char) :
    opens q cs = (q != (cs.count '"' % 2 == 1)) := by
  induction cs generalizing q with
  | nil => cases q <;> rfl
  | cons c cs ih =>
    rw [opens, List.foldl_cons, ← opens, ih, List.count_cons]
    by_cases hc : c = '"'
    · subst hc
      rcases Nat.mod_two_eq_zero_or_one (cs.count '"') with h | h <;> simp [Nat.add_mod, h]
    · rw [beq_eq_false_iff_ne.mpr hc, if_neg Bool.false_ne_true, Bool.bne_false, Nat.add_zero]

theorem opens_of_not_mem (h : '"' ∉ cs) : opens q cs = q := by
  rw [opens_eq, List.count_eq_zero_of_not_mem h]
  simp

theorem unbroken_of_not_blank (h : ∀ c ∈ cs, Text.isBlank c = false) : unbroken q cs = true := by
  induction cs generalizing q with
  | nil => rfl
  | cons c cs ih =>
    obtain ⟨hc, hcs⟩ := List.forall_mem_cons.mp h
    rw [unbroken, hc, ih hcs]
    simp

/-- Without a quote every blank counts. -/
theorem unbroken_of_not_mem (h : '"' ∉ cs) :
    unbroken q cs = (q || cs.all fun c => !Text.isBlank c) := by
  induction cs with
  | nil => simp [unbroken]
  | cons c cs ih =>
    obtain ⟨hc, hcs⟩ := not_or.mp fun hmem => h (List.mem_cons.mpr hmem)
    have hne : (c == '"') = false := beq_eq_false_iff_ne.mpr (Ne.symm hc)
    rw [unbroken, hne, Bool.bne_false, ih hcs, List.all_cons]
    cases q <;> simp

/-! ## The scanner -/

/-- A character that is not cut at goes to the token. -/
theorem scanFrom_cons {token : List Char} {c : Char} (h : (q || !Text.isBlank c) = true) :
    scanFrom q token (c :: cs) = scanFrom (q != (c == '"')) (c :: token) cs := by
  have hquote : decide (c = '"') = (c == '"') := rfl
  rw [scanFrom]
  cases q with
  | true => rw [if_pos rfl, decide_not, hquote, Bool.true_bne]
  | false =>
    have hblank : ¬ Text.isBlank c = true := by simpa using h
    rw [if_neg Bool.false_ne_true, if_neg hblank, hquote, Bool.false_bne]

theorem scanFrom_blank {token : List Char} {c : Char} (h : Text.isBlank c = true) :
    scanFrom false token (c :: cs) =
      if token.isEmpty then scan cs else token.reverse :: scan cs := by
  rw [scanFrom, if_neg Bool.false_ne_true, if_pos h]
  rfl

theorem scanFrom_nil {token : List Char} (h : token ≠ []) :
    scanFrom q token [] = [token.reverse] := by
  rw [scanFrom, if_neg (by simpa using h)]

/-- What is not broken goes to the token as it is. -/
theorem scanFrom_append {token rest : List Char} (h : unbroken q w = true) :
    scanFrom q token (w ++ rest) = scanFrom (opens q w) (w.reverse ++ token) rest := by
  induction w generalizing q token with
  | nil => rfl
  | cons c w ih =>
    obtain ⟨hc, hw⟩ := (Bool.and_eq_true _ _).mp h
    rw [List.cons_append, scanFrom_cons hc, ih hw, List.reverse_cons, List.append_assoc]
    rfl

/-- A text that is not broken is one token. -/
theorem scan_eq_singleton (hne : w ≠ []) (h : unbroken false w = true) : scan w = [w] := by
  have hscan : scanFrom false [] (w ++ []) = scanFrom (opens false w) (w.reverse ++ []) [] :=
    scanFrom_append h
  rw [List.append_nil, List.append_nil] at hscan
  rw [scan, hscan, scanFrom_nil (by simpa using hne), List.reverse_reverse]

/-- A blank ends a token whose quotes are closed. -/
theorem scan_append_blank {b : Char} {rest : List Char} (hne : w ≠ [])
    (h : unbroken false w = true) (hclosed : opens false w = false)
    (hb : Text.isBlank b = true) : scan (w ++ b :: rest) = w :: scan rest := by
  rw [scan, scanFrom_append h, hclosed, List.append_nil, scanFrom_blank hb,
    if_neg (by simpa using hne), List.reverse_reverse]

/-- Every token has a character and is not broken, if this holds of what is read so far. -/
theorem mem_scanFrom {token : List Char} (hq : opens false token.reverse = q)
    (htoken : unbroken false token.reverse = true) (hw : w ∈ scanFrom q token cs) :
    w ≠ [] ∧ unbroken false w = true := by
  induction cs generalizing q token with
  | nil =>
    rw [scanFrom] at hw
    split at hw
    · cases hw
    · next hne =>
      obtain rfl := List.mem_singleton.mp hw
      exact ⟨by simpa using hne, htoken⟩
  | cons c cs ih =>
    by_cases hc : (q || !Text.isBlank c) = true
    · rw [scanFrom_cons hc] at hw
      refine ih ?_ ?_ hw
      · rw [List.reverse_cons, opens_append, hq]
        rfl
      · rw [List.reverse_cons, unbroken_append, htoken, hq, unbroken, hc]
        rfl
    · obtain ⟨rfl, hblank⟩ : q = false ∧ Text.isBlank c = true := by simpa using hc
      have hrest : w ∈ scan cs → w ≠ [] ∧ unbroken false w = true :=
        @ih false [] rfl rfl
      rw [scanFrom_blank hblank] at hw
      split at hw
      · exact hrest hw
      · next hne =>
        rcases List.mem_cons.mp hw with rfl | hw
        · exact ⟨by simpa using hne, htoken⟩
        · exact hrest hw

theorem mem_scan (hw : w ∈ scan cs) : w ≠ [] ∧ unbroken false w = true :=
  @mem_scanFrom false cs w [] rfl rfl hw

/-- A token that has been begun is not lost. -/
theorem scanFrom_ne_nil {token : List Char} (h : token ≠ []) : scanFrom q token cs ≠ [] := by
  induction cs generalizing q token with
  | nil =>
    rw [scanFrom_nil h]
    exact List.cons_ne_nil _ _
  | cons c cs ih =>
    by_cases hc : (q || !Text.isBlank c) = true
    · rw [scanFrom_cons hc]
      exact ih (List.cons_ne_nil c token)
    · obtain ⟨rfl, hblank⟩ : q = false ∧ Text.isBlank c = true := by simpa using hc
      rw [scanFrom_blank hblank, if_neg (by simpa using h)]
      exact List.cons_ne_nil _ _

/-- There are no tokens exactly where all is blank. -/
theorem scan_eq_nil_iff : scan cs = [] ↔ ∀ c ∈ cs, Text.isBlank c = true := by
  induction cs with
  | nil => simp [scan, scanFrom]
  | cons c cs ih =>
    rw [List.forall_mem_cons]
    by_cases hblank : Text.isBlank c = true
    · rw [scan, scanFrom_blank hblank, if_pos List.isEmpty_nil, ih]
      exact (and_iff_right hblank).symm
    · have hc : (false || !Text.isBlank c) = true := by simpa using hblank
      rw [scan, scanFrom_cons hc]
      exact ⟨fun h => absurd h (scanFrom_ne_nil (List.cons_ne_nil c [])),
        fun h => absurd h.1 hblank⟩

/-! ## Reading in order -/

namespace Cursor

/-- The cursor behind the next `n` tokens. -/
def skip : Nat → Cursor → Cursor
  | 0, c => c
  | n + 1, c => skip n c.next.2

/-- What is left is the value without the tokens that were taken; of these the cursor still
knows. -/
theorem skip_eq (n : Nat) (c : Cursor) : c.skip n = ⟨c.tokens, c.rest.drop n⟩ := by
  induction n generalizing c with
  | zero => rfl
  | succ n ih => rw [skip, ih, next, List.drop_tail]

/-- Behind `n` tokens of a value a cursor shows the token with the number `n`.  Whether it is
taken as what may be missing or as a text, the cursor moves behind this one token; and whether
the value has tokens at all it tells of the value, however many have been taken. -/
theorem reads_skip (value : String) (n : Nat) :
    ((ofValue value).skip n).peek? = (Token.ofValue value)[n]? ∧
      ((ofValue value).skip n).next =
        ((Token.ofValue value)[n]?, (ofValue value).skip (n + 1)) ∧
      ((ofValue value).skip n).take =
        ((Token.ofValue value)[n]?.getD "", (ofValue value).skip (n + 1)) ∧
      (((ofValue value).skip n).isEmpty = true ↔ ∀ c ∈ value.toList, Text.isBlank c = true) := by
  have hpeek : ((ofValue value).skip n).peek? = (Token.ofValue value)[n]? := by
    rw [skip_eq, peek?, List.head?_drop]
    rfl
  have hmoved : ({ (ofValue value).skip n with rest := ((ofValue value).skip n).rest.tail } :
      Cursor) = (ofValue value).skip (n + 1) := by
    rw [skip_eq, skip_eq, List.tail_drop]
  refine ⟨hpeek, ?_, ?_, ?_⟩
  · rw [← hpeek, ← hmoved]
    rfl
  · rw [← hpeek, ← hmoved]
    rfl
  · rw [skip_eq, isEmpty, List.isEmpty_iff, ← scan_eq_nil_iff]
    exact List.map_eq_nil_iff

end Cursor

/-! ## Texts made of tokens -/

/-- A token that can be followed by another one. -/
structure Closed (t : String) : Prop where
  ne_nil : t.toList ≠ []
  unbroken : unbroken false t.toList = true
  closed : opens false t.toList = false

instance (t : String) : Decidable (Closed t) :=
  decidable_of_iff (t.toList ≠ [] ∧ unbroken false t.toList = true ∧ opens false t.toList = false)
    ⟨fun ⟨h, h', h''⟩ => ⟨h, h', h''⟩, fun ⟨h, h', h''⟩ => ⟨h, h', h''⟩⟩

theorem closed_of_plain {t : String} (hne : t ≠ "")
    (h : ∀ c ∈ t.toList, Text.isBlank c = false ∧ c ≠ '"') : Closed t where
  ne_nil := by simpa using hne
  unbroken := unbroken_of_not_blank fun c hc => (h c hc).1
  closed := opens_of_not_mem fun hmem => (h '"' hmem).2 rfl

theorem ofValue_eq_singleton {t : String} (hne : t ≠ "") (h : Token.unbroken false t.toList = true) :
    ofValue t = [t] := by
  have hnil : t.toList ≠ [] := by simpa using hne
  rw [ofValue, scan_eq_singleton hnil h, List.map_singleton, String.ofList_toList]

theorem Closed.ofValue {t : String} (h : Closed t) : ofValue t = [t] :=
  ofValue_eq_singleton (by simpa using h.ne_nil) h.unbroken

/-- A text is one token exactly if it is not broken. -/
theorem ofValue_eq_singleton_iff {t : String} :
    ofValue t = [t] ↔ t ≠ "" ∧ Token.unbroken false t.toList = true := by
  refine ⟨fun h => ?_, fun ⟨hne, h⟩ => ofValue_eq_singleton hne h⟩
  rw [ofValue] at h
  obtain ⟨w, hw, rfl⟩ := List.map_eq_singleton_iff.mp h
  have hmem := mem_scan (hw ▸ List.mem_singleton_self w)
  rw [String.toList_ofList]
  exact ⟨by simpa using hmem.1, hmem.2⟩

theorem scan_intercalate {ts : List String} (h : ∀ t ∈ ts, Closed t) :
    scan ([' '].intercalate (ts.map String.toList)) = ts.map String.toList := by
  induction ts with
  | nil => rfl
  | cons t ts ih =>
    obtain ⟨ht, hts⟩ := List.forall_mem_cons.mp h
    cases ts with
    | nil =>
      rw [List.map_singleton, List.intercalate_singleton, scan_eq_singleton ht.ne_nil ht.unbroken]
    | cons t' ts =>
      rw [List.map_cons, List.map_cons, List.intercalate_cons_cons, List.append_assoc,
        List.singleton_append, scan_append_blank ht.ne_nil ht.unbroken ht.closed (by decide)]
      exact congrArg (t.toList :: ·) (ih hts)

/-- Closed tokens that are parted by blanks are read back. -/
theorem ofValue_intercalate {ts : List String} (h : ∀ t ∈ ts, Closed t) :
    ofValue (" ".intercalate ts) = ts := by
  have htext : (" ".intercalate ts).toList = [' '].intercalate (ts.map String.toList) :=
    String.toList_intercalate
  rw [ofValue, htext, scan_intercalate h, List.map_map]
  exact List.map_id'' (fun t => String.ofList_toList) ts

end ParameterChain.Token
