/-
# Records survive writing and loading

A list of entries is written one after the other, each as its name, an equals sign between two
spaces and its value, and a line feed (`Entry.write`).  If names and values hold only what they
may hold, and no line of theirs begins or ends with a blank, the file is loaded as the same
entries, each with the number of its line (`Record.ofBytes_write`).

The text is its lines, each with a line feed (`Entry.toList_write`), so the proof goes line by
line: the first line of an entry starts a record, each further one continues it, and what comes
next, the first line of another entry or the empty line at the end, does neither.
-/
import Mathlib.Data.Bool.AllAny
import Mathlib.Data.List.TakeDrop
import Mathlib.Data.List.TakeWhile
import ParameterChain.Proofs.LineEnds

namespace ParameterChain

/-! ## Trimmed texts -/

namespace Text

variable {cs : List Char} {b : Char}

theorem trimmed_cons_blank (h : isBlank b = true) : trimmed (b :: cs) = trimmed cs := by
  rw [trimmed, dropBlanks, List.dropWhile_cons_of_pos h]
  rfl

theorem trimmed_append_blank (h : isBlank b = true) : trimmed (cs ++ [b]) = trimmed cs := by
  rw [trimmed, trimmed, dropBlanks, dropBlanks, List.dropWhile_append]
  split
  · next hnil =>
    rw [List.isEmpty_iff.mp hnil, List.dropWhile_cons_of_pos h]
    rfl
  · rw [dropTrailingBlanks, List.reverse_append, List.reverse_singleton, List.singleton_append,
      List.dropWhile_cons_of_pos h]
    rfl

/-- A text that is trimmed and not empty has a character that is no blank. -/
theorem exists_not_blank (h : trimmed cs = cs) (hne : cs ≠ []) : cs.all isBlank = false := by
  refine Bool.eq_false_iff.mpr fun hall => hne ?_
  have hdrop : dropBlanks cs = [] := List.dropWhile_eq_nil_iff.mpr (List.all_eq_true.mp hall)
  rw [← h, trimmed, hdrop]
  rfl

theorem trim_eq_iff {s : String} : trim s = s ↔ trimmed s.toList = s.toList := by
  rw [trim, ← String.toList_inj, String.toList_ofList]

end Text

namespace Record

/-! ## Lines -/

/-- A character that a line keeps as it is. -/
def isKept (c : Char) : Bool :=
  c != '\n' && c != '\r' && normalize c == c

theorem linesFrom_cons {line cs : List Char} {c : Char} (h : isKept c = true) :
    linesFrom line (c :: cs) = linesFrom (c :: line) cs := by
  simp only [isKept, Bool.and_eq_true, bne_iff_ne, beq_iff_eq] at h
  obtain ⟨⟨hn, hr⟩, hnormalize⟩ := h
  rw [linesFrom_of_ne hn hr, hnormalize]

theorem linesFrom_append {line l cs : List Char} (h : l.all isKept = true) :
    linesFrom line (l ++ '\n' :: cs) = (line.reverse ++ l) :: lines cs := by
  induction l generalizing line with
  | nil =>
    rw [List.nil_append, List.append_nil]
    rfl
  | cons c l ih =>
    obtain ⟨hc, hl⟩ := (Bool.and_eq_true _ _).mp h
    rw [List.cons_append, linesFrom_cons hc, ih hl]
    simp

/-- Lines that are written with a line feed after each are read back, and after them there is an
empty one. -/
theorem lines_flatMap {ls : List (List Char)} (h : ∀ l ∈ ls, l.all isKept = true) :
    lines (ls.flatMap (· ++ ['\n'])) = ls ++ [[]] := by
  induction ls with
  | nil => rfl
  | cons l ls ih =>
    obtain ⟨hl, hls⟩ := List.forall_mem_cons.mp h
    rw [List.flatMap_cons, List.append_assoc, List.singleton_append, lines, linesFrom_append hl,
      ih hls]
    rfl

theorem count_flatMap {ls : List (List Char)} (h : ∀ l ∈ ls, l.all isKept = true) :
    (ls.flatMap (· ++ ['\n'])).count '\n' = ls.length := by
  induction ls with
  | nil => rfl
  | cons l ls ih =>
    obtain ⟨hl, hls⟩ := List.forall_mem_cons.mp h
    have hnot : '\n' ∉ l := fun hmem => absurd (List.all_eq_true.mp hl _ hmem) (by decide)
    rw [List.flatMap_cons, List.count_append, List.count_append, ih hls,
      List.count_eq_zero_of_not_mem hnot, List.length_cons, List.count_singleton_self]
    omega

/-- The lines with their numbers, where `before` lines stand above them. -/
def numberedAfter (before : Nat) (ls : List (List Char)) : List Line :=
  (ls.zipIdx before).map fun (l, i) => ⟨i + 1, l⟩

theorem numberedAfter_cons (before : Nat) (l : List Char) (ls : List (List Char)) :
    numberedAfter before (l :: ls) = ⟨before + 1, l⟩ :: numberedAfter (before + 1) ls := rfl

theorem beforeComment_eq_self {cs : List Char} (h : '#' ∉ cs) : beforeComment cs = cs :=
  List.takeWhile_eq_self_iff.mpr fun _ hc => decide_eq_true fun heq => h (heq ▸ hc)

theorem isComment_eq_false {cs : List Char} (h : '#' ∉ cs) : isComment cs = false :=
  beq_eq_false_iff_ne.mpr fun hhead =>
    h (List.dropWhile_subset _ (List.mem_of_mem_head? hhead))

end Record

/-! ## Entries -/

/-- A record to be written: its name, and the lines of its value. -/
structure Entry where
  name : String
  first : String
  more : List String

namespace Entry

open Record

def value (e : Entry) : String :=
  "\n".intercalate (e.first :: e.more)

def text (e : Entry) : String :=
  e.name ++ " = " ++ e.value ++ "\n"

/-- The entries as the text of a file. -/
def write (es : List Entry) : String :=
  String.join (es.map text)

/-- The records of the entries, where `before` line feeds stand above them: a record has the
number of the line with its equals sign. -/
def recordsAfter (before : Nat) : List Entry → List Record
  | [] => []
  | e :: es => ⟨e.name, e.value, before + 1⟩ ::
      recordsAfter (before + e.text.toList.count '\n') es

/-- An entry that is read as it is written.  No character of it is forbidden or turned into
another, and nothing is trimmed off its lines; the first line of the value may be empty. -/
structure Plain (e : Entry) : Prop where
  name_ne : e.name ≠ ""
  name_trimmed : Text.trim e.name = e.name
  name_chars : ∀ c ∈ e.name.toList, c ∉ forbiddenInName ∧ normalize c = c
  first_trimmed : Text.trim e.first = e.first
  more_trimmed : ∀ l ∈ e.more, l ≠ "" ∧ Text.trim l = l
  value_chars : ∀ l ∈ e.first :: e.more, ∀ c ∈ l.toList,
    c ≠ '\n' ∧ c ∉ forbiddenInValue ∧ normalize c = c

/-- The lines of an entry. -/
def lines (e : Entry) : List (List Char) :=
  (e.name.toList ++ ' ' :: '=' :: ' ' :: e.first.toList) :: e.more.map String.toList

theorem intercalate_append (l : List Char) (ls : List (List Char)) :
    ['\n'].intercalate (l :: ls) ++ ['\n'] = (l :: ls).flatMap (· ++ ['\n']) := by
  induction ls generalizing l with
  | nil => simp
  | cons l' ls ih =>
    rw [List.intercalate_cons_cons, List.append_assoc, ih]
    simp

theorem toList_value (e : Entry) :
    e.value.toList = ['\n'].intercalate (e.first.toList :: e.more.map String.toList) := by
  rw [value, String.toList_intercalate]
  rfl

theorem toList_text (e : Entry) : e.text.toList = e.lines.flatMap (· ++ ['\n']) := by
  have hvalue : e.value.toList ++ ['\n'] =
      (e.first.toList :: e.more.map String.toList).flatMap (· ++ ['\n']) := by
    rw [toList_value, intercalate_append]
  have htext : e.text.toList = e.name.toList ++ ' ' :: '=' :: ' ' :: (e.value.toList ++ ['\n']) := by
    simp [text]
  rw [htext, hvalue, lines, List.flatMap_cons, List.flatMap_cons]
  simp

theorem toList_write (es : List Entry) :
    (write es).toList = (es.flatMap lines).flatMap (· ++ ['\n']) := by
  rw [write, String.toList_join, List.flatMap_map, List.flatMap_assoc]
  exact List.flatMap_congr fun e _ => toList_text e

section Plain

variable {e : Entry} (h : e.Plain)

include h

theorem Plain.isKept : ∀ l ∈ e.lines, l.all Record.isKept = true := by
  have hkept : ∀ {c : Char}, c ≠ '\n' → c ≠ '\r' → normalize c = c → Record.isKept c = true := by
    intro c hn hr hnormalize
    simp [Record.isKept, hn, hr, hnormalize]
  have hname : e.name.toList.all Record.isKept = true := by
    refine List.all_eq_true.mpr fun c hc => ?_
    obtain ⟨hallowed, hnormalize⟩ := h.name_chars c hc
    exact hkept (fun heq => hallowed (heq ▸ by decide)) (fun heq => hallowed (heq ▸ by decide))
      hnormalize
  have hvalue : ∀ l ∈ e.first :: e.more, l.toList.all Record.isKept = true := by
    intro l hl
    refine List.all_eq_true.mpr fun c hc => ?_
    obtain ⟨hn, hallowed, hnormalize⟩ := h.value_chars l hl c hc
    exact hkept hn (fun heq => hallowed (heq ▸ by decide)) hnormalize
  refine List.forall_mem_cons.mpr ⟨?_, List.forall_mem_map.mpr fun l hl => ?_⟩
  · rw [List.all_append, hname]
    exact hvalue e.first List.mem_cons_self
  · exact hvalue l (List.mem_cons_of_mem _ hl)

theorem Plain.not_mem_first : '#' ∉ e.name.toList ++ ' ' :: '=' :: ' ' :: e.first.toList := by
  have hname : '#' ∉ e.name.toList := fun hmem => (h.name_chars _ hmem).1 (by decide)
  have hfirst : '#' ∉ e.first.toList := fun hmem =>
    (h.value_chars _ List.mem_cons_self _ hmem).2.1 (by decide)
  simp [hname, hfirst]

/-- The first line is parted at its equals sign. -/
theorem Plain.span_first :
    (beforeComment (e.name.toList ++ ' ' :: '=' :: ' ' :: e.first.toList)).span (· ≠ '=') =
      (e.name.toList ++ [' '], '=' :: ' ' :: e.first.toList) := by
  have hbefore : ∀ c ∈ e.name.toList ++ [' '], decide (c ≠ '=') = true := by
    intro c hc
    have hname : '=' ∉ e.name.toList := fun hmem => (h.name_chars _ hmem).1 (by decide)
    have hequals : '=' ∉ e.name.toList ++ [' '] := by simp [hname]
    exact decide_eq_true fun heq => hequals (heq ▸ hc)
  have hline : e.name.toList ++ ' ' :: '=' :: ' ' :: e.first.toList =
      (e.name.toList ++ [' ']) ++ '=' :: ' ' :: e.first.toList := by simp
  rw [beforeComment_eq_self h.not_mem_first, List.span_eq_takeWhile_dropWhile, hline,
    List.takeWhile_append_of_pos hbefore, List.dropWhile_append_of_pos hbefore]
  simp

/-- A further line continues the value. -/
theorem Plain.continuation_cons {l : String} (hl : l ∈ e.more) (n : Nat) (ls : List Line) :
    continuation (⟨n, l.toList⟩ :: ls) =
      (l.toList :: (continuation ls).1, (continuation ls).2) := by
  obtain ⟨hne, htrim⟩ := h.more_trimmed l hl
  have htrimmed := Text.trim_eq_iff.mp htrim
  have hnil : l.toList ≠ [] := by simpa using hne
  have hclear : ∀ c ∈ forbiddenInValue, c ∉ l.toList := fun c hc hmem =>
    (h.value_chars l (List.mem_cons_of_mem _ hl) c hmem).2.1 hc
  have hends : endsValue l.toList = false := Text.exists_not_blank htrimmed hnil
  have hcomment : isComment l.toList = false := isComment_eq_false (hclear '#' (by decide))
  have hequals : (beforeComment l.toList).contains '=' = false := by
    rw [beforeComment_eq_self (hclear '#' (by decide))]
    simpa using hclear '=' (by decide)
  rw [continuation, hends, if_neg Bool.false_ne_true, hcomment, if_neg Bool.false_ne_true]
  simp only [hequals, Bool.false_eq_true, if_false]
  rw [beforeComment_eq_self (hclear '#' (by decide)), htrimmed, if_neg (by simpa using hne)]

theorem Plain.continuation_append (before : Nat) (more : List String)
    (hmore : more ⊆ e.more) (rest : List (List Char)) :
    continuation (numberedAfter before (more.map String.toList ++ rest)) =
      (more.map String.toList ++ (continuation (numberedAfter (before + more.length) rest)).1,
        (continuation (numberedAfter (before + more.length) rest)).2) := by
  induction more generalizing before with
  | nil => rfl
  | cons l more ih =>
    obtain ⟨hl, hrest⟩ := List.cons_subset.mp hmore
    rw [List.map_cons, List.cons_append, numberedAfter_cons, h.continuation_cons hl, ih _ hrest,
      List.length_cons, Nat.add_assoc, Nat.add_comm 1]
    rfl

/-- The record that the first line starts, continued by the others. -/
theorem Plain.assemble (n : Nat) :
    Record.assemble ⟨n, e.name.toList ++ ' ' :: '=' :: ' ' :: e.first.toList⟩
      (e.name.toList ++ [' ']) (' ' :: e.first.toList) (e.more.map String.toList) =
      ⟨e.name, e.value, n⟩ := by
  have hblank : Text.isBlank ' ' = true := by decide
  rw [Record.assemble, Text.trimmed_append_blank hblank, Text.trimmed_cons_blank hblank,
    Text.trim_eq_iff.mp h.name_trimmed, Text.trim_eq_iff.mp h.first_trimmed, ← toList_value,
    String.ofList_toList, String.ofList_toList]

theorem Plain.check (n : Nat) : Record.check ⟨e.name, e.value, n⟩ = .ok () := by
  refine check_eq_ok.mpr ⟨h.name_ne, fun c hc => (h.name_chars c hc).1, fun c hc => ?_⟩
  have hmem := List.mem_append_left ['\n'] hc
  rw [toList_value, intercalate_append, ← List.map_cons, List.flatMap_map] at hmem
  obtain ⟨l, hl, hc⟩ := List.mem_flatMap.mp hmem
  rcases List.mem_append.mp hc with hc | hc
  · exact (h.value_chars l hl c hc).2.1
  · rw [List.mem_singleton.mp hc]
    decide

theorem Plain.count : e.text.toList.count '\n' = e.more.length + 1 := by
  rw [toList_text, count_flatMap h.isKept, lines, List.length_cons, List.length_map]

end Plain

/-- After an entry there is the first line of the next one or the empty line at the end, and
neither continues it. -/
theorem continuation_lines {es : List Entry} (hes : ∀ e ∈ es, e.Plain) (before : Nat) :
    (continuation (numberedAfter before (es.flatMap lines ++ [[]]))).1 = [] ∧
      candidates (continuation (numberedAfter before (es.flatMap lines ++ [[]]))).2 =
        candidates (numberedAfter before (es.flatMap lines ++ [[]])) := by
  cases es with
  | nil => simp [numberedAfter, continuation, endsValue, candidates, beforeComment]
  | cons e es =>
    have he := hes e List.mem_cons_self
    have hends : endsValue (e.name.toList ++ ' ' :: '=' :: ' ' :: e.first.toList) = false := by
      have hequals : Text.isBlank '=' = false := by decide
      simp [endsValue, hequals]
    have hcomment : '#' ∉ e.name.toList ++ ' ' :: '=' :: ' ' :: e.first.toList := he.not_mem_first
    rw [List.flatMap_cons, lines, List.cons_append, List.cons_append, numberedAfter_cons,
      continuation, hends, if_neg Bool.false_ne_true, isComment_eq_false hcomment,
      if_neg Bool.false_ne_true, beforeComment_eq_self hcomment, if_pos (by simp)]
    exact ⟨rfl, rfl⟩

theorem candidates_lines {es : List Entry} (hes : ∀ e ∈ es, e.Plain) (before : Nat) :
    candidates (numberedAfter before (es.flatMap lines ++ [[]])) = recordsAfter before es := by
  induction es generalizing before with
  | nil => simp [numberedAfter, candidates, beforeComment, recordsAfter]
  | cons e es ih =>
    obtain ⟨he, hes⟩ := List.forall_mem_cons.mp hes
    obtain ⟨hnone, hrest⟩ := continuation_lines hes (before + 1 + e.more.length)
    have hlines : (e :: es).flatMap lines ++ [[]] =
        (e.name.toList ++ ' ' :: '=' :: ' ' :: e.first.toList) ::
          (e.more.map String.toList ++ (es.flatMap lines ++ [[]])) := by
      simp [lines]
    have hcount : before + 1 + e.more.length = before + e.text.toList.count '\n' := by
      rw [he.count]
      omega
    rw [hlines, numberedAfter_cons, candidates, he.span_first]
    simp only [he.continuation_append (before + 1) e.more (List.Subset.refl _), hnone, hrest,
      List.append_nil, he.assemble, ih hes]
    rw [hcount]
    rfl

theorem check_recordsAfter {es : List Entry} (hes : ∀ e ∈ es, e.Plain) (before : Nat) :
    ∀ r ∈ recordsAfter before es, r.check = .ok () := by
  induction es generalizing before with
  | nil => nofun
  | cons e es ih =>
    obtain ⟨he, hes⟩ := List.forall_mem_cons.mp hes
    exact List.forall_mem_cons.mpr ⟨he.check _, ih hes _⟩

end Entry

namespace Record

/-- What a text within the limits is read as, line by line. -/
theorem linesOf_toUTF8 {limits : Limits} {text : String}
    (hmark : text.toList.head? ≠ some '\uFEFF') (hsize : text.utf8ByteSize ≤ limits.fileSize)
    (hlength : ∀ l ∈ lines text.toList, byteLength l ≤ limits.lineLength) :
    linesOf limits text.toUTF8 = .ok (numberedLines text.toList) := by
  have hunmarked : withoutMark text.toList = text.toList := by
    unfold withoutMark
    split
    · next h => exact absurd (h ▸ rfl) hmark
    · rfl
  have hchecked : checkLengths limits.lineLength (numberedLines text.toList) = .ok () := by
    have hnone : (numberedLines text.toList).find?
        (fun l => limits.lineLength < byteLength l.chars) = none := by
      refine List.find?_eq_none.mpr fun l hl => ?_
      obtain ⟨⟨chars, i⟩, hmem, rfl⟩ := List.mem_map.mp hl
      have hle := hlength chars (List.fst_mem_of_mem_zipIdx hmem)
      simpa using hle
    rw [checkLengths, hnone]
  rw [linesOf_of_size_le hsize, hunmarked, hchecked]
  rfl

/-- Records survive writing and loading: entries that are plain, the first of which does not
begin with a byte-order mark, are loaded from their text as they are, if it is within the
limits. -/
theorem ofBytes_write {limits : Limits} {es : List Entry} (hes : ∀ e ∈ es, e.Plain)
    (hmark : ∀ e ∈ es.head?, e.name.toList.head? ≠ some '\uFEFF')
    (hsize : (Entry.write es).utf8ByteSize ≤ limits.fileSize)
    (hlength : ∀ l ∈ lines (Entry.write es).toList, byteLength l ≤ limits.lineLength) :
    ofBytes limits (Entry.write es).toUTF8 = .ok (Entry.recordsAfter 0 es) := by
  have hlines : lines (Entry.write es).toList = es.flatMap Entry.lines ++ [[]] := by
    rw [Entry.toList_write]
    refine lines_flatMap fun l hl => ?_
    obtain ⟨e, he, hl⟩ := List.mem_flatMap.mp hl
    exact (hes e he).isKept l hl
  have hcandidates := Entry.candidates_lines hes 0
  rw [← hlines] at hcandidates
  have hhead : (Entry.write es).toList.head? ≠ some '\uFEFF' := by
    cases es with
    | nil => nofun
    | cons e es =>
      have hne : e.name.toList ≠ [] := by simpa using (hes e List.mem_cons_self).name_ne
      rw [Entry.toList_write, List.flatMap_cons, Entry.lines, List.cons_append, List.flatMap_cons,
        List.append_assoc, List.append_assoc, List.head?_append_of_ne_nil _ hne]
      exact hmark e rfl
  exact ofBytes_eq_ok.mpr ⟨_, linesOf_toUTF8 hhead hsize hlength, hcandidates.symm,
    Entry.check_recordsAfter hes 0⟩

/-- A list of modules, one on each line, and a length after it. -/
def physics : List Entry :=
  [⟨"sv:Ph/Modules", "2", ["\"g4em\"", "\"g4 decay\""]⟩, ⟨"d:Ge/World/HLX", "1.0 m", []⟩,
    ⟨"s:Note", "", ["\"below\""]⟩]

theorem ofBytes_write_physics :
    (∀ e ∈ physics, e.Plain) ∧ (∀ e ∈ physics.head?, e.name.toList.head? ≠ some '\uFEFF') ∧
      (Entry.write physics).utf8ByteSize ≤ ({} : Limits).fileSize ∧
      (∀ l ∈ lines (Entry.write physics).toList, byteLength l ≤ ({} : Limits).lineLength) ∧
      ofBytes {} (Entry.write physics).toUTF8 = .ok [
        ⟨"sv:Ph/Modules", "2\n\"g4em\"\n\"g4 decay\"", 1⟩, ⟨"d:Ge/World/HLX", "1.0 m", 4⟩,
        ⟨"s:Note", "\n\"below\"", 5⟩] := by
  have hnames : ∀ e ∈ physics, e.name ≠ "" ∧ Text.trim e.name = e.name ∧
      (e.name.toList.all fun c => decide (c ∉ forbiddenInName ∧ normalize c = c)) = true := by
    decide
  have hvalues : ∀ e ∈ physics, Text.trim e.first = e.first ∧
      (∀ l ∈ e.more, l ≠ "" ∧ Text.trim l = l) ∧
      ∀ l ∈ e.first :: e.more, (l.toList.all fun c =>
        decide (c ≠ '\n' ∧ c ∉ forbiddenInValue ∧ normalize c = c)) = true := by
    decide
  have hplain : ∀ e ∈ physics, e.Plain := by
    intro e he
    obtain ⟨hne, htrimmed, hchars⟩ := hnames e he
    obtain ⟨hfirst, hmore, hlines⟩ := hvalues e he
    exact ⟨hne, htrimmed, List.all_iff_forall_prop.mp hchars, hfirst, hmore,
      fun l hl => List.all_iff_forall_prop.mp (hlines l hl)⟩
  have hmark : ∀ e ∈ physics.head?, e.name.toList.head? ≠ some '\uFEFF' := by decide
  have hsize : (Entry.write physics).utf8ByteSize ≤ ({} : Limits).fileSize := by decide
  have hlength : ∀ l ∈ lines (Entry.write physics).toList,
      byteLength l ≤ ({} : Limits).lineLength := by decide +kernel
  exact ⟨hplain, hmark, hsize, hlength, ofBytes_write hplain hmark hsize hlength⟩

end Record

end ParameterChain
