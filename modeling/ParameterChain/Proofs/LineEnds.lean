/-
# Line ends

A line of a file ends with a line feed, a carriage return, or a carriage return and a line
feed.  In a text that has no carriage return the lines are what stands between its line feeds,
with quotes and dashes made plain (`Record.lines_eq_splitOn`).  If all line feeds of such a text
are written as one of the other ends, its lines stay what they are, and so does all that is read
from it, down to the numbers of the lines (`Record.ofBytes_write_lineEnd`).

One end is put for all line feeds.  Were a carriage return put for one of two line feeds that
follow each other, both together would be one end.
-/
import Mathlib.Data.String.Basic
import ParameterChain.Proofs.Records

namespace ParameterChain.Record

/-! ## Lines between line feeds -/

section Lines

variable {line cs : List Char} {c : Char}

theorem linesFrom_of_ne (hn : c ≠ '\n') (hr : c ≠ '\r') :
    linesFrom line (c :: cs) = linesFrom (normalize c :: line) cs := by
  rw [linesFrom]
  · rw [if_neg (by simp [hn, hr])]
  · rintro cs' rfl
    exact fun _ => hr rfl

theorem linesFrom_lineFeed : linesFrom line ('\n' :: cs) = line.reverse :: lines cs := rfl

/-- What is read of a text goes to the end of the line that was begun before it. -/
theorem linesFrom_eq_splitOn (h : '\r' ∉ cs) :
    linesFrom line cs =
      ((cs.splitOn '\n').map (List.map normalize)).modifyHead (line.reverse ++ ·) := by
  induction cs generalizing line with
  | nil => simp [linesFrom]
  | cons c cs ih =>
    obtain ⟨hr, hcs⟩ := not_or.mp (mt List.mem_cons.mpr h)
    obtain ⟨l, ls, hsplit⟩ := List.exists_cons_of_ne_nil (List.splitOn_ne_nil '\n' cs)
    rw [List.splitOn_cons_eq_if_modifyHead]
    by_cases hn : c = '\n'
    · subst hn
      rw [linesFrom_lineFeed, lines, ih hcs, hsplit]
      simp
    · rw [linesFrom_of_ne hn (Ne.symm hr), ih hcs, hsplit, if_neg (by simpa using hn)]
      simp

/-- The lines of a text without carriage returns stand between its line feeds. -/
theorem lines_eq_splitOn (h : '\r' ∉ cs) :
    lines cs = (cs.splitOn '\n').map (List.map normalize) := by
  obtain ⟨l, ls, hsplit⟩ := List.exists_cons_of_ne_nil (List.splitOn_ne_nil '\n' cs)
  rw [lines, linesFrom_eq_splitOn h, hsplit]
  rfl

end Lines

/-! ## Ends -/

/-- The ways to end a line. -/
inductive LineEnd where
  | lineFeed
  | carriageReturn
  | both
  deriving DecidableEq

namespace LineEnd

def chars : LineEnd → List Char
  | lineFeed => ['\n']
  | carriageReturn => ['\r']
  | both => ['\r', '\n']

/-- The characters of a text with the end `e` for every line feed. -/
def ending (e : LineEnd) (cs : List Char) : List Char :=
  cs.flatMap fun c => if c = '\n' then e.chars else [c]

/-- The text with the end `e` for every line feed. -/
def write (e : LineEnd) (text : String) : String :=
  String.ofList (e.ending text.toList)

variable {line cs : List Char} {c : Char}

theorem ending_cons_lineFeed (e : LineEnd) :
    e.ending ('\n' :: cs) = e.chars ++ e.ending cs := rfl

theorem ending_cons_of_ne (e : LineEnd) (hc : c ≠ '\n') :
    e.ending (c :: cs) = c :: e.ending cs := by
  rw [ending, List.flatMap_cons, if_neg hc]
  rfl

/-- Where carriage returns stand for all line feeds there is none of these left. -/
theorem lineFeed_not_mem (cs : List Char) : '\n' ∉ carriageReturn.ending cs := by
  intro hmem
  obtain ⟨c, -, hc⟩ := List.mem_flatMap.mp hmem
  split at hc
  · exact absurd hc (by decide)
  · next hne => exact hne (List.mem_singleton.mp hc).symm

theorem linesFrom_chars (e : LineEnd) :
    linesFrom line (e.chars ++ e.ending cs) = line.reverse :: lines (e.ending cs) := by
  cases e with
  | lineFeed => rfl
  | both => rfl
  | carriageReturn =>
    -- A line feed behind the carriage return would be taken up with it.
    have halone : ∀ cs', carriageReturn.ending cs ≠ '\n' :: cs' := fun cs' h =>
      lineFeed_not_mem cs (h ▸ List.mem_cons_self)
    show linesFrom line ('\r' :: carriageReturn.ending cs) = _
    rw [linesFrom]
    · rfl
    · exact fun cs' _ h => halone cs' h

/-- The lines of a text do not depend on how they are ended. -/
theorem lines_ending (e : LineEnd) (h : '\r' ∉ cs) : lines (e.ending cs) = lines cs := by
  have hfrom : ∀ line, linesFrom line (e.ending cs) = linesFrom line cs := by
    induction cs with
    | nil => exact fun _ => rfl
    | cons c cs ih =>
      intro line
      obtain ⟨hr, hcs⟩ := not_or.mp (mt List.mem_cons.mpr h)
      by_cases hn : c = '\n'
      · subst hn
        rw [ending_cons_lineFeed, linesFrom_chars, linesFrom_lineFeed]
        exact congrArg _ (ih hcs [])
      · rw [e.ending_cons_of_ne hn, linesFrom_of_ne hn (Ne.symm hr),
          linesFrom_of_ne hn (Ne.symm hr)]
        exact ih hcs _
  exact hfrom []

/-- A byte-order mark stays where it is. -/
theorem withoutMark_ending (e : LineEnd) (cs : List Char) :
    withoutMark (e.ending cs) = e.ending (withoutMark cs) := by
  have hother : ∀ {c cs}, c ≠ '\uFEFF' → withoutMark (c :: cs) = c :: cs := by
    intro c cs hc
    unfold withoutMark
    split
    · next h => exact absurd (List.cons.inj h).1 hc
    · rfl
  cases cs with
  | nil => rfl
  | cons c cs =>
    by_cases hmark : c = '\uFEFF'
    · subst hmark
      rfl
    · rw [hother hmark]
      by_cases hn : c = '\n'
      · subst hn
        rw [ending_cons_lineFeed]
        cases e <;> exact hother (by decide)
      · rw [e.ending_cons_of_ne hn, hother hmark]

/-- No end is shorter than a line feed. -/
theorem utf8ByteSize_le_write (e : LineEnd) (text : String) :
    text.utf8ByteSize ≤ (e.write text).utf8ByteSize := by
  rw [write, String.utf8ByteSize_ofList, ← String.utf8Len_toList]
  generalize text.toList = cs
  induction cs with
  | nil => exact Nat.le_refl _
  | cons c cs ih =>
    by_cases hn : c = '\n'
    · subst hn
      have hend : '\n'.utf8Size ≤ String.utf8Len e.chars := by cases e <;> decide
      rw [ending_cons_lineFeed, String.utf8Len_append, String.utf8Len_cons]
      omega
    · rw [e.ending_cons_of_ne hn, String.utf8Len_cons, String.utf8Len_cons]
      omega

end LineEnd

/-! ## Files -/

/-- Line ends do not matter.  A text without carriage returns and the same text with another end
for all of its line feeds are read alike, if both are within the size limit: as the same records,
with the same names, values and line numbers, or with the same failure. -/
theorem ofBytes_write_lineEnd {limits : Limits} {text : String} (hreturn : '\r' ∉ text.toList)
    (e : LineEnd) (hsize : (e.write text).utf8ByteSize ≤ limits.fileSize) :
    ofBytes limits (e.write text).toUTF8 = ofBytes limits text.toUTF8 := by
  have hunmarked : '\r' ∉ withoutMark text.toList := by
    unfold withoutMark
    split
    · next h => exact fun hmem => hreturn (h ▸ List.mem_cons_of_mem _ hmem)
    · exact hreturn
  have hlines : numberedLines (withoutMark (e.write text).toList) =
      numberedLines (withoutMark text.toList) := by
    rw [LineEnd.write, String.toList_ofList, e.withoutMark_ending, numberedLines, numberedLines,
      e.lines_ending hunmarked]
  have hless := Nat.le_trans (e.utf8ByteSize_le_write text) hsize
  rw [ofBytes_eq, ofBytes_eq, linesOf_of_size_le hsize, linesOf_of_size_le hless, hlines]

/-- A file with a byte-order mark, a value on several lines with a comment between them, and two
line feeds on end. -/
def ruled : String :=
  "\uFEFFsv:Ph/Modules = 2\n  “g4em”\n# and\n  “decay”\n\ni:Ts/Seed = –1\n"

theorem ofBytes_write_lineEnd_ruled :
    '\r' ∉ ruled.toList ∧
      (∀ e : LineEnd, (e.write ruled).utf8ByteSize ≤ ({} : Limits).fileSize) ∧
      ∀ e : LineEnd, ofBytes {} (e.write ruled).toUTF8 = .ok [
        ⟨"sv:Ph/Modules", "2\n\"g4em\"\n\"decay\"", 1⟩, ⟨"i:Ts/Seed", "-1", 6⟩] := by
  have hreturn : '\r' ∉ ruled.toList := by decide +kernel
  have hsize : ∀ e : LineEnd, (e.write ruled).utf8ByteSize ≤ ({} : Limits).fileSize := by
    intro e
    rw [LineEnd.write, String.utf8ByteSize_ofList]
    cases e <;> decide +kernel
  have hread : ofBytes {} ruled.toUTF8 = .ok [
      ⟨"sv:Ph/Modules", "2\n\"g4em\"\n\"decay\"", 1⟩, ⟨"i:Ts/Seed", "-1", 6⟩] := by
    decide +kernel
  refine ⟨hreturn, hsize, fun e => ?_⟩
  rw [ofBytes_write_lineEnd hreturn e (hsize e), hread]

end ParameterChain.Record
