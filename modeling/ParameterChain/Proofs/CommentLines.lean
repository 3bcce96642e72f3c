/-
# Comment lines

Lines that hold nothing but a comment may be put anywhere between the lines of a file, above the
first, below the last and between the lines of a value too.  They carry nothing outside records,
they are passed over where a value is continued, and they do not end it, as a blank line does.
So a file with such lines is read as the same records, or refused for the same reason, and all
that changes are the numbers of the lines (`Record.ofBytes_insert`).

The lines of both files are related one by one (`Record.Annotates`): a line of the one stands in
the other under its new number, or a comment line stands in the other alone.  Reading the value of a
record keeps the relation (`Annotates.continuation`), and so each record of the one is a record of
the other (`Annotates.candidates`).
-/
import Mathlib.Data.List.Flatten
import ParameterChain.Proofs.WrittenRecords

namespace ParameterChain

/-! ## Line numbers -/

/-- The record with its line moved. -/
def Record.moved (place : Nat → Nat) (r : Record) : Record :=
  { r with line := place r.line }

/-- The failure with its line moved, if it names one. -/
def Failure.moved (place : Nat → Nat) (f : Failure) : Failure :=
  { f with context := { f.context with line := f.context.line.map place } }

namespace Record

@[simp] theorem moved_name (place : Nat → Nat) (r : Record) : (r.moved place).name = r.name := rfl

@[simp] theorem moved_value (place : Nat → Nat) (r : Record) :
    (r.moved place).value = r.value := rfl

/-- A record breaks a rule wherever it stands. -/
theorem check_moved (place : Nat → Nat) (r : Record) :
    (r.moved place).check = r.check.mapError (Failure.moved place) := by
  rw [check, check, moved_name, moved_value]
  by_cases hname : r.name.isEmpty = true
  · rw [if_pos hname, if_pos hname]
    rfl
  · rw [if_neg hname, if_neg hname]
    cases r.name.toList.find? forbiddenInName.contains with
    | some c => rfl
    | none => cases r.value.toList.find? forbiddenInValue.contains <;> rfl

theorem forM_check_moved (place : Nat → Nat) (rs : List Record) :
    (rs.map (moved place)).forM check = (rs.forM check).mapError (Failure.moved place) := by
  induction rs with
  | nil => rfl
  | cons r rs ih =>
    show ((r.moved place).check >>= fun _ => (rs.map (moved place)).forM check) =
      (r.check >>= fun _ => rs.forM check).mapError (Failure.moved place)
    rw [check_moved, ih]
    cases r.check <;> rfl

/-! ## Comment lines -/

section Comments

variable {cs : List Char}

theorem isBlank_normalize (c : Char) : Text.isBlank (normalize c) = Text.isBlank c := by
  rw [normalize]
  simp only [Bool.or_eq_true, Bool.and_eq_true, decide_eq_true_eq]
  split
  · next h =>
    have hblank : Text.isBlank c = false := by
      rcases h with ((h | h) | h) | h <;> simp [Text.isBlank, h]
    rw [hblank]
    rfl
  · split
    · next h =>
      have hblank : Text.isBlank c = false := by
        simp only [Text.isBlank, Bool.or_eq_false_iff, Bool.and_eq_false_iff,
          decide_eq_false_iff_not, beq_eq_false_iff_ne]
        omega
      rw [hblank]
      rfl
    · rfl

/-- A comment line is still one when its quotes and dashes are made plain. -/
theorem isComment_normalize (h : cs.find? (fun c => !Text.isBlank c) = some '#') :
    isComment (cs.map normalize) = true := by
  rw [List.find?_eq_head?_dropWhile_not] at h
  simp only [Bool.not_not] at h
  have hsame : Text.isBlank ∘ normalize = Text.isBlank := funext isBlank_normalize
  rw [isComment, Text.dropBlanks, List.dropWhile_map, hsame, List.head?_map, h]
  rfl

theorem exists_of_isComment (h : isComment cs = true) :
    ∃ blanks rest, cs = blanks ++ '#' :: rest ∧ ∀ c ∈ blanks, Text.isBlank c = true := by
  have hhead := beq_iff_eq.mp h
  obtain ⟨rest, hrest⟩ := List.head?_eq_some_iff.mp hhead
  refine ⟨cs.takeWhile Text.isBlank, rest, ?_, fun c hc => List.mem_takeWhile_imp hc⟩
  rw [← hrest, Text.dropBlanks, List.takeWhile_append_dropWhile]

theorem endsValue_of_isComment (h : isComment cs = true) : endsValue cs = false := by
  obtain ⟨blanks, rest, rfl, -⟩ := exists_of_isComment h
  have hmark : Text.isBlank '#' = false := by decide
  simp [endsValue, hmark]

/-- A comment line has no equals sign before its comment. -/
theorem span_of_isComment (h : isComment cs = true) :
    ((beforeComment cs).span (· ≠ '=')).2 = [] := by
  obtain ⟨blanks, rest, rfl, hblanks⟩ := exists_of_isComment h
  have hnot : ∀ {d : Char}, Text.isBlank d = false → ∀ c ∈ blanks, decide (c ≠ d) = true := by
    intro d hd c hc
    refine decide_eq_true fun heq => ?_
    rw [← heq, hblanks c hc] at hd
    cases hd
  have hbefore : beforeComment (blanks ++ '#' :: rest) = blanks := by
    rw [beforeComment, List.takeWhile_append_of_pos (hnot (by decide))]
    simp
  rw [hbefore, List.span_eq_takeWhile_dropWhile]
  exact List.dropWhile_eq_nil_iff.mpr (hnot (by decide))

theorem continuation_comment (h : isComment cs = true) (n : Nat) (ls : List Line) :
    continuation (⟨n, cs⟩ :: ls) = continuation ls := by
  rw [continuation, endsValue_of_isComment h, if_neg Bool.false_ne_true, if_pos h]

theorem candidates_comment (h : isComment cs = true) (n : Nat) (ls : List Line) :
    candidates (⟨n, cs⟩ :: ls) = candidates ls := by
  rw [candidates]
  split
  · rfl
  · next hspan =>
    have hnone := span_of_isComment h
    rw [hspan] at hnone
    cases hnone

end Comments

/-! ## Lines with comments between them -/

/-- The lines of one file stand in the other one, under the numbers that `place` gives them, and
what else the other one has are comment lines. -/
inductive Annotates (place : Nat → Nat) : List Line → List Line → Prop where
  | nil : Annotates place [] []
  | kept {n : Nat} {cs : List Char} {ls ms : List Line} : Annotates place ls ms →
      Annotates place (⟨n, cs⟩ :: ls) (⟨place n, cs⟩ :: ms)
  | comment {n : Nat} {cs : List Char} {ls ms : List Line} : isComment cs = true →
      Annotates place ls ms → Annotates place ls (⟨n, cs⟩ :: ms)

namespace Annotates

variable {place : Nat → Nat} {ls ms : List Line}

/-- Values are continued alike, and what is left is still related. -/
theorem continuation (h : Annotates place ls ms) :
    (Record.continuation ms).1 = (Record.continuation ls).1 ∧
      Annotates place (Record.continuation ls).2 (Record.continuation ms).2 := by
  induction h with
  | nil => exact ⟨rfl, .nil⟩
  | comment hc _ ih =>
    rw [continuation_comment hc]
    exact ih
  | kept h ih =>
    simp only [Record.continuation]
    split
    · exact ⟨rfl, h⟩
    · split
      · exact ih
      · split
        · exact ⟨rfl, .kept h⟩
        · exact ⟨by rw [ih.1], ih.2⟩

/-- The records are the same, each on its new line. -/
theorem candidates (h : Annotates place ls ms) :
    Record.candidates ms = (Record.candidates ls).map (moved place) := by
  induction ms using Record.candidates.induct generalizing ls with
  | case1 =>
    cases h
    rw [Record.candidates]
    rfl
  | case2 m ms name hspan ih =>
    cases h with
    | comment hc h =>
      rw [candidates_comment hc]
      exact ih h
    | kept h =>
      rw [Record.candidates, Record.candidates, hspan]
      exact ih h
  | case3 m ms name c start hspan ih =>
    cases h with
    | comment hc h =>
      have hnone := span_of_isComment hc
      rw [hspan] at hnone
      cases hnone
    | kept h =>
      obtain ⟨hpieces, hrest⟩ := h.continuation
      rw [Record.candidates, Record.candidates, hspan]
      simp only [hpieces, ih hrest, List.map_cons]
      rfl

/-- Comment lines may stand in front of lines that are related. -/
theorem append (h : Annotates place ls ms) {cs : List (List Char)}
    (hcs : ∀ c ∈ cs, isComment c = true) (before : Nat) :
    Annotates place ls (numberedAfter before cs ++ ms) := by
  induction cs generalizing before with
  | nil => exact h
  | cons c cs ih =>
    obtain ⟨hc, hcs⟩ := List.forall_mem_cons.mp hcs
    exact .comment hc (ih hcs (before + 1))

end Annotates

theorem numberedAfter_append (before : Nat) (ls ms : List (List Char)) :
    numberedAfter before (ls ++ ms) =
      numberedAfter before ls ++ numberedAfter (before + ls.length) ms := by
  rw [numberedAfter, List.zipIdx_append, List.map_append]
  rfl

/-! ## Pieces -/

/-- The pieces between the line feeds of a text make up the text. -/
theorem flatMap_splitOn (cs : List Char) :
    (cs.splitOn '\n').flatMap (· ++ ['\n']) = cs ++ ['\n'] := by
  obtain ⟨l, ls, hsplit⟩ := List.exists_cons_of_ne_nil (List.splitOn_ne_nil '\n' cs)
  rw [hsplit, ← Entry.intercalate_append, ← hsplit, List.intercalate_splitOn]

theorem lineFeed_not_mem_piece {cs l : List Char} (hl : l ∈ cs.splitOn '\n') : '\n' ∉ l := by
  induction cs generalizing l with
  | nil =>
    rw [List.splitOn_nil, List.mem_singleton] at hl
    exact hl ▸ List.not_mem_nil
  | cons c cs ih =>
    obtain ⟨first, more, hsplit⟩ := List.exists_cons_of_ne_nil (List.splitOn_ne_nil '\n' cs)
    rw [List.splitOn_cons_eq_if_modifyHead] at hl
    split at hl
    · rcases List.mem_cons.mp hl with rfl | hl
      · exact List.not_mem_nil
      · exact ih hl
    · next hne =>
      rw [hsplit] at hl ih
      rcases List.mem_cons.mp hl with rfl | hl
      · have hc : '\n' ≠ c := fun heq => hne (beq_iff_eq.mpr heq.symm)
        exact List.not_mem_cons_of_ne_of_not_mem hc (ih List.mem_cons_self)
      · exact ih (List.mem_cons_of_mem first hl)

/-! ## Texts with comment lines in them -/

/-- Comment lines for a text: those of number `i` are for the gap above its line `i`, where the
lines are counted from zero, and below the last line there is one more gap. -/
structure Remarks where
  above : Nat → List (List Char)
  comment : ∀ i, ∀ l ∈ above i, l.find? (fun c => !Text.isBlank c) = some '#'
  single : ∀ i, ∀ l ∈ above i, '\n' ∉ l ∧ '\r' ∉ l

namespace Remarks

variable (m : Remarks) {ls : List (List Char)}

/-- The lines from number `i` on with the comment lines put in. -/
def interleave (m : Remarks) (i : Nat) : List (List Char) → List (List Char)
  | [] => m.above i
  | l :: ls => m.above i ++ l :: interleave m (i + 1) ls

/-- The text, whose lines end with line feeds, with the comment lines put in. -/
def insert (text : String) : String :=
  String.ofList (['\n'].intercalate (m.interleave 0 (text.toList.splitOn '\n')))

/-- How many comment lines are put above the lines of the numbers below `n`. -/
def count (n : Nat) : Nat :=
  ((List.range n).flatMap m.above).length

/-- The number that the line `n` of the text, counted from one, has when the comment lines have
been put in. -/
def place (n : Nat) : Nat :=
  n + m.count n

theorem count_succ (n : Nat) : m.count (n + 1) = m.count n + (m.above n).length := by
  simp [count, List.range_succ]

theorem mem_interleave {i : Nat} {l : List Char} (hl : l ∈ m.interleave i ls) :
    (∃ j, l ∈ m.above j) ∨ l ∈ ls := by
  induction ls generalizing i with
  | nil => exact .inl ⟨i, hl⟩
  | cons l' ls ih =>
    rcases List.mem_append.mp hl with hl | hl
    · exact .inl ⟨i, hl⟩
    · rcases List.mem_cons.mp hl with rfl | hl
      · exact .inr List.mem_cons_self
      · exact (ih hl).imp_right (List.mem_cons_of_mem l')

theorem sublist_interleave (i : Nat) (ls : List (List Char)) : ls.Sublist (m.interleave i ls) := by
  induction ls generalizing i with
  | nil => exact List.nil_sublist _
  | cons l ls ih => exact List.sublist_append_of_sublist_right ((ih (i + 1)).cons_cons l)

variable {text : String}

/-- The lines of the text are related to the lines with the comment lines put in. -/
theorem annotates (i : Nat) (ls : List (List Char)) :
    Annotates m.place (numberedAfter i (ls.map (List.map normalize)))
      (numberedAfter (i + m.count i) ((m.interleave i ls).map (List.map normalize))) := by
  have hcomments : ∀ i, ∀ l ∈ (m.above i).map (List.map normalize), isComment l = true := by
    intro i l hl
    obtain ⟨raw, hraw, rfl⟩ := List.mem_map.mp hl
    exact isComment_normalize (m.comment i raw hraw)
  induction ls generalizing i with
  | nil =>
    have h := (@Annotates.nil m.place).append (hcomments i) (i + m.count i)
    rw [List.append_nil] at h
    exact h
  | cons l ls ih =>
    have hplace : i + m.count i + (m.above i).length + 1 = m.place (i + 1) := by
      rw [place, m.count_succ]
      omega
    have hrest := ih (i + 1)
    rw [← place, ← hplace] at hrest
    rw [interleave, List.map_append, numberedAfter_append, List.map_cons, List.map_cons,
      numberedAfter_cons, numberedAfter_cons, List.length_map, hplace]
    exact (Annotates.kept (hplace ▸ hrest)).append (hcomments i) _

/-! ### The text -/

theorem interleave_ne_nil (text : String) : m.interleave 0 (text.toList.splitOn '\n') ≠ [] := by
  intro hnil
  have hlines := m.sublist_interleave 0 (text.toList.splitOn '\n')
  rw [hnil, List.sublist_nil] at hlines
  exact List.splitOn_ne_nil '\n' text.toList hlines

theorem toList_insert (text : String) : (m.insert text).toList ++ ['\n'] =
    (m.interleave 0 (text.toList.splitOn '\n')).flatMap (· ++ ['\n']) := by
  obtain ⟨l, ls, hcons⟩ := List.exists_cons_of_ne_nil (m.interleave_ne_nil text)
  rw [insert, String.toList_ofList, hcons, Entry.intercalate_append]

theorem return_not_mem_insert (hreturn : '\r' ∉ text.toList) : '\r' ∉ (m.insert text).toList := by
  intro hmem
  have hlines := List.mem_append_left ['\n'] hmem
  rw [m.toList_insert] at hlines
  obtain ⟨l, hl, hchar⟩ := List.mem_flatMap.mp hlines
  have hreturn' : '\r' ∈ l := (List.mem_append.mp hchar).resolve_right (by decide)
  rcases m.mem_interleave hl with ⟨j, habove⟩ | hpiece
  · exact (m.single j l habove).2 hreturn'
  · have htext : '\r' ∈ (text.toList.splitOn '\n').flatMap (· ++ ['\n']) :=
      List.mem_flatMap.mpr ⟨l, hpiece, List.mem_append_left ['\n'] hreturn'⟩
    rw [flatMap_splitOn] at htext
    exact hreturn ((List.mem_append.mp htext).resolve_right (by decide))

/-- The lines are those of the text and the comment lines. -/
theorem lines_insert (hreturn : '\r' ∉ text.toList) : lines (m.insert text).toList =
    (m.interleave 0 (text.toList.splitOn '\n')).map (List.map normalize) := by
  have hsingle : ∀ l ∈ m.interleave 0 (text.toList.splitOn '\n'), '\n' ∉ l := by
    intro l hl
    rcases m.mem_interleave hl with ⟨j, habove⟩ | hpiece
    · exact (m.single j l habove).1
    · exact lineFeed_not_mem_piece hpiece
  rw [lines_eq_splitOn (m.return_not_mem_insert hreturn), insert, String.toList_ofList,
    List.splitOn_intercalate '\n' hsingle (m.interleave_ne_nil text)]

theorem utf8ByteSize_le_insert (text : String) :
    text.utf8ByteSize ≤ (m.insert text).utf8ByteSize := by
  have hlines := (m.sublist_interleave 0 (text.toList.splitOn '\n')).flatMap (· ++ ['\n'])
  rw [flatMap_splitOn, ← m.toList_insert] at hlines
  have hsize := String.utf8Len_le_of_sublist hlines
  rw [String.utf8Len_append, String.utf8Len_append, String.utf8Len_toList,
    String.utf8Len_toList] at hsize
  exact Nat.le_of_add_le_add_right hsize

/-- Comment lines put no byte-order mark at the start. -/
theorem head?_insert (hmark : text.toList.head? ≠ some '\uFEFF') :
    (m.insert text).toList.head? ≠ some '\uFEFF' := by
  have hended : ∀ cs : List Char,
      (cs ++ ['\n']).head? = some '\uFEFF' ↔ cs.head? = some '\uFEFF' := by
    intro cs
    cases cs <;> simp
  have hfirst : ∀ (l : List Char) (ls : List (List Char)),
      ((l :: ls).flatMap (· ++ ['\n'])).head? = some '\uFEFF' ↔ l.head? = some '\uFEFF' := by
    intro l ls
    cases l <;> simp
  obtain ⟨l, ls, hsplit⟩ := List.exists_cons_of_ne_nil (List.splitOn_ne_nil '\n' text.toList)
  rw [Ne, ← hended, ← flatMap_splitOn, hsplit, hfirst] at hmark
  rw [Ne, ← hended, m.toList_insert, hsplit, interleave]
  cases habove : m.above 0 with
  | nil => exact mt (hfirst l _).mp hmark
  | cons c cs =>
    rw [List.cons_append, hfirst]
    intro hhead
    obtain ⟨ds, rfl⟩ := List.head?_eq_some_iff.mp hhead
    have hcomment := m.comment 0 _ (habove ▸ List.mem_cons_self)
    have hfind : ('\uFEFF' :: ds).find? (fun c => !Text.isBlank c) = some '\uFEFF' :=
      List.find?_cons_of_pos (by decide)
    rw [hfind] at hcomment
    exact absurd hcomment (by decide)

end Remarks

/-! ## Files -/

/-- Comment lines are transparent.  A text without carriage returns and byte-order mark and the
same text with comment lines put in are read alike, if both are within the limits: as records with
the same names and values, or with the same failure, whose lines have moved down by as many lines
as were put in above them. -/
theorem ofBytes_insert {limits : Limits} {text : String} (hreturn : '\r' ∉ text.toList)
    (hmark : text.toList.head? ≠ some '\uFEFF') (m : Remarks)
    (hsize : (m.insert text).utf8ByteSize ≤ limits.fileSize)
    (hlength : ∀ l ∈ lines (m.insert text).toList, byteLength l ≤ limits.lineLength) :
    ofBytes limits (m.insert text).toUTF8 =
      ((ofBytes limits text.toUTF8).map (List.map (moved m.place))).mapError
        (Failure.moved m.place) := by
  have hold : ∀ l ∈ lines text.toList, byteLength l ≤ limits.lineLength := by
    rw [m.lines_insert hreturn] at hlength
    rw [lines_eq_splitOn hreturn]
    exact fun l hl => hlength l (((m.sublist_interleave 0 _).map _).mem hl)
  have hless := Nat.le_trans (m.utf8ByteSize_le_insert text) hsize
  have hannotates : Annotates m.place (numberedLines text.toList)
      (numberedLines (m.insert text).toList) := by
    rw [numberedLines, numberedLines, lines_eq_splitOn hreturn, m.lines_insert hreturn]
    exact m.annotates 0 _
  rw [ofBytes_of_linesOf (linesOf_toUTF8 (m.head?_insert hmark) hsize hlength),
    ofBytes_of_linesOf (linesOf_toUTF8 hmark hless hold), hannotates.candidates, forM_check_moved]
  cases (candidates (numberedLines text.toList)).forM check <;> rfl

/-- A number, a list on three lines that a blank one ends, and a number. -/
def unremarked : String :=
  "i:Ts/Seed = 1\nsv:Ph/Modules = 2\n  \"g4em\"\n  \"decay\"\n\ni:Ts/Runs = 3\n"

/-- A file whose last record has a blank in its name. -/
def unremarkedSplit : String :=
  "i:Ts/Seed = 1\ni:Ts/ Runs = 3\n"

/-- Comment lines above the first line, between those of the list, on both sides of the blank line
and below the last one, some of them with equals signs and quotes. -/
def remarks : Remarks where
  above
    | 0 => ["# seed = \"one\"".toList]
    | 2 => ["\t# sv:Ph/Modules = 1 \"x\"".toList, "#".toList]
    | 4 => ["  #decay".toList]
    | 5 => ["# = '".toList]
    | 7 => ["# end".toList]
    | _ => []
  comment i := by
    split <;> decide
  single i := by
    split <;> decide

theorem ofBytes_insert_remarks :
    (∀ text ∈ [unremarked, unremarkedSplit], '\r' ∉ text.toList ∧
      text.toList.head? ≠ some '\uFEFF' ∧
      (remarks.insert text).utf8ByteSize ≤ ({} : Limits).fileSize ∧
      ∀ l ∈ lines (remarks.insert text).toList, byteLength l ≤ ({} : Limits).lineLength) ∧
    ofBytes {} (remarks.insert unremarked).toUTF8 = .ok [⟨"i:Ts/Seed", "1", 2⟩,
      ⟨"sv:Ph/Modules", "2\n\"g4em\"\n\"decay\"", 3⟩, ⟨"i:Ts/Runs", "3", 11⟩] ∧
    ofBytes {} (remarks.insert unremarkedSplit).toUTF8 = .error
      (((Cause.forbiddenInName ' ').failure.atLine 3).about "i:Ts/ Runs") := by
  have hwithin : ∀ text ∈ [unremarked, unremarkedSplit], '\r' ∉ text.toList ∧
      text.toList.head? ≠ some '\uFEFF' ∧
      (remarks.insert text).utf8ByteSize ≤ ({} : Limits).fileSize ∧
      ∀ l ∈ lines (remarks.insert text).toList, byteLength l ≤ ({} : Limits).lineLength := by
    simp only [Remarks.insert, String.utf8ByteSize_ofList, String.toList_ofList]
    decide +kernel
  obtain ⟨hreturn, hmark, hsize, hlength⟩ := hwithin unremarked (by simp)
  obtain ⟨hreturn', hmark', hsize', hlength'⟩ := hwithin unremarkedSplit (by simp)
  refine ⟨hwithin, ?_, ?_⟩
  · rw [ofBytes_insert hreturn hmark remarks hsize hlength]
    decide +kernel
  · rw [ofBytes_insert hreturn' hmark' remarks hsize' hlength']
    decide +kernel

end Record

end ParameterChain
