/-
# What the records of a file are

Which lines make up which record does not depend on the rules that a record may break: a file
has its records first (`candidates`), and then they are checked in order, up to the first that
breaks a rule (`ofLines_eq`).

The rules on names leave out some blanks.  A name is trimmed of every blank and a value is cut
into tokens at every blank, but only four blanks may not stand in a name (space, tab, line feed
and carriage return).  So the names that can be written as one token of a value are those that
hold none of the other blanks either (`names_of_ofBytes`).
-/
import ParameterChain.Proofs.Refusals
import ParameterChain.Proofs.Tokens
import ParameterChain.Record

namespace ParameterChain.Record

/-! ## The records before they are checked -/

/-- The records that the lines hold, whatever is in them. -/
def candidates : List Line → List Record
  | [] => []
  | l :: ls =>
      match (beforeComment l.chars).span (· ≠ '=') with
      | (_, []) => candidates ls
      | (name, _ :: start) =>
          assemble l name start (continuation ls).1 :: candidates (continuation ls).2
termination_by ls => ls.length
decreasing_by
  · simp
  · have := length_continuation_le ls
    simp only [List.length_cons]
    omega

theorem ofLines_eq (ls : List Line) :
    ofLines ls = (do (candidates ls).forM check; return candidates ls) := by
  induction ls using candidates.induct with
  | case1 =>
    rw [ofLines, candidates]
    rfl
  | case2 l ls name hspan ih =>
    rw [ofLines, candidates, hspan]
    exact ih
  | case3 l ls name c start hspan ih =>
    rw [ofLines, candidates, hspan]
    simp only [ih, List.forM_eq_forM, List.forM_cons, bind_assoc, pure_bind]

/-- A text without the byte-order mark at its start, if there is one. -/
def withoutMark : List Char → List Char
  | '\uFEFF' :: cs => cs
  | cs => cs

/-- The lines of a file, if it is a text within the limits. -/
def linesOf (limits : Limits) (bytes : ByteArray) : Attempt (List Line) := do
  if limits.fileSize < bytes.size then
    (Cause.fileTooLarge limits.fileSize).raise
  match String.fromUTF8? bytes with
  | none => Cause.notUtf8.raise
  | some text =>
      let ls := numberedLines (withoutMark text.toList)
      checkLengths limits.lineLength ls
      return ls

/-- What a text that is not too large is read as, line by line. -/
theorem linesOf_of_size_le {limits : Limits} {text : String}
    (hsize : text.utf8ByteSize ≤ limits.fileSize) :
    linesOf limits text.toUTF8 = (do
      checkLengths limits.lineLength (numberedLines (withoutMark text.toList))
      return numberedLines (withoutMark text.toList)) := by
  have hread : String.fromUTF8? text.toUTF8 = some text := dif_pos text.isValidUTF8
  have hbytes : ¬ limits.fileSize < text.toUTF8.size := by
    rw [show text.toUTF8.size = text.utf8ByteSize from String.size_toByteArray]
    omega
  rw [linesOf, if_neg hbytes, hread]

/-- A file is read in three steps: its lines, the records that they hold, the checks. -/
theorem ofBytes_eq (limits : Limits) (bytes : ByteArray) :
    ofBytes limits bytes = (do
      let ls ← linesOf limits bytes
      (candidates ls).forM check
      return candidates ls) := by
  have htext : ∀ text : String, (match text.toList with
      | '\uFEFF' :: cs => ofText limits (String.ofList cs)
      | _ => ofText limits text) = (do
        let ls := numberedLines (withoutMark text.toList)
        checkLengths limits.lineLength ls
        (candidates ls).forM check
        return candidates ls) := by
    intro text
    unfold withoutMark
    split
    · rw [ofText, String.toList_ofList]
      simp only [ofLines_eq]
    · rw [ofText]
      simp only [ofLines_eq]
  rw [ofBytes, linesOf]
  split
  · rfl
  · cases String.fromUTF8? bytes with
    | none => rfl
    | some text =>
      simp only [bind_assoc, pure_bind]
      exact htext text

theorem ofBytes_of_linesOf {limits : Limits} {bytes : ByteArray} {ls : List Line}
    (hls : linesOf limits bytes = .ok ls) :
    ofBytes limits bytes = (do (candidates ls).forM check; return candidates ls) := by
  rw [ofBytes_eq, hls]
  rfl

/-! ## The checks -/

theorem check_eq_ok {r : Record} : r.check = .ok () ↔ r.name ≠ "" ∧
    (∀ c ∈ r.name.toList, c ∉ forbiddenInName) ∧ ∀ c ∈ r.value.toList, c ∉ forbiddenInValue := by
  have hclear : ∀ (cs forbidden : List Char), cs.find? forbidden.contains = none ↔
      ∀ c ∈ cs, c ∉ forbidden := by
    intro cs forbidden
    simp only [List.find?_eq_none, List.contains_iff_mem]
  rw [check, ← hclear, ← hclear]
  by_cases hname : r.name = ""
  · simp [hname]
  · have hne : r.name.isEmpty = false := by simpa using hname
    cases r.name.toList.find? forbiddenInName.contains <;>
      cases r.value.toList.find? forbiddenInValue.contains <;> simp [hname, hne]

/-- A record is refused for its name exactly if the name is empty or holds a character that is
forbidden there. -/
theorem check_eq_invalidName {r : Record} :
    (∃ f, r.check = .error f ∧ f.kind = .invalidName) ↔
      r.name = "" ∨ ∃ c ∈ r.name.toList, c ∈ forbiddenInName := by
  rw [check]
  by_cases hname : r.name = ""
  · have hempty : r.name.isEmpty = true := by simpa using hname
    rw [if_pos hempty]
    exact ⟨fun _ => .inl hname, fun _ => ⟨_, rfl, rfl⟩⟩
  · have hne : ¬ r.name.isEmpty = true := by simpa using hname
    rw [if_neg hne, or_iff_right hname]
    cases hfind : r.name.toList.find? forbiddenInName.contains with
    | some c =>
      have hmem := List.mem_of_find?_eq_some hfind
      have hc := List.contains_iff_mem.mp (List.find?_some hfind)
      exact ⟨fun _ => ⟨c, hmem, hc⟩, fun _ => ⟨_, rfl, rfl⟩⟩
    | none =>
      have hclear : ¬ ∃ c ∈ r.name.toList, c ∈ forbiddenInName := by
        rintro ⟨c, hc, hc'⟩
        exact List.find?_eq_none.mp hfind c hc (List.contains_iff_mem.mpr hc')
      refine iff_of_false ?_ hclear
      rintro ⟨f, hf, hkind⟩
      simp only at hf
      split at hf
      · cases hf
        cases hkind
      · cases hf

theorem ofBytes_eq_ok {limits : Limits} {bytes : ByteArray} {rs : List Record} :
    ofBytes limits bytes = .ok rs ↔
      ∃ ls, linesOf limits bytes = .ok ls ∧ rs = candidates ls ∧ ∀ r ∈ rs, r.check = .ok () := by
  simp only [ofBytes_eq, bind_eq_ok, pure_eq_ok]
  constructor
  · rintro ⟨ls, hls, ⟨⟩, hcheck, rfl⟩
    exact ⟨ls, hls, rfl, forM_eq_ok.mp hcheck⟩
  · rintro ⟨ls, hls, rfl, hcheck⟩
    exact ⟨ls, hls, (), forM_eq_ok.mpr hcheck, rfl⟩

/-- Lines are refused for the size of their file, for its bytes or for their own lengths. -/
theorem linesOf_failsOnly {P : Failure → Prop} {limits : Limits} (bytes : ByteArray)
    (hsize : P (Cause.fileTooLarge limits.fileSize).failure) (hbytes : P Cause.notUtf8.failure)
    (hlength : ∀ line, P ((Cause.lineTooLong limits.lineLength).failure.atLine line)) :
    FailsOnly P (linesOf limits bytes) := by
  have hlengths : ∀ ls, FailsOnly P (checkLengths limits.lineLength ls) := by
    intro ls
    rw [checkLengths]
    split
    · exact .error (hlength _)
    · exact .ok ()
  refine .guarded (.error hsize) ?_
  cases String.fromUTF8? bytes with
  | none => exact .error hbytes
  | some text => exact (hlengths _).bind fun _ => .ok _

/-- A file is refused as its lines are or as one of its records is. -/
theorem ofBytes_failsOnly {P : Failure → Prop} {limits : Limits} {bytes : ByteArray}
    (hlines : FailsOnly P (linesOf limits bytes)) (hcheck : ∀ r : Record, FailsOnly P r.check) :
    FailsOnly P (ofBytes limits bytes) := by
  rw [ofBytes_eq]
  exact .bind hlines fun ls => .bind (.forM fun r _ => hcheck r) fun _ => .ok _

theorem ofBytes_eq_invalidName {limits : Limits} {bytes : ByteArray} :
    (∃ f, ofBytes limits bytes = .error f ∧ f.kind = .invalidName) ↔
      ∃ ls pre r post, linesOf limits bytes = .ok ls ∧ candidates ls = pre ++ r :: post ∧
        (∀ p ∈ pre, p.check = .ok ()) ∧ ∃ f, r.check = .error f ∧ f.kind = .invalidName := by
  simp only [ofBytes_eq, bind_eq_error, forM_eq_error]
  constructor
  · rintro ⟨f, hls | ⟨ls, hls, ⟨pre, r, post, heq, hpre, hr⟩ | ⟨_, _, h⟩⟩, hkind⟩
    · have hother : f.kind ≠ .invalidName :=
        linesOf_failsOnly (P := fun f => f.kind ≠ .invalidName) bytes nofun nofun nofun f hls
      exact absurd hkind hother
    · exact ⟨ls, pre, r, post, hls, heq, hpre, f, hr, hkind⟩
    · cases h
  · rintro ⟨ls, pre, r, post, hls, heq, hpre, f, hr, hkind⟩
    exact ⟨f, .inr ⟨ls, hls, .inl ⟨pre, r, post, heq, hpre, hr⟩⟩, hkind⟩

/-! ## Names as tokens -/

/-- Names as tokens.  In a file that is accepted a name is one token of a value exactly if it
holds no blank at all.  A file is refused for a name exactly if its first record that breaks a
rule has an empty name or one with a forbidden character, which four of the blanks are. -/
theorem names_of_ofBytes (limits : Limits) (bytes : ByteArray) :
    (∀ rs, ofBytes limits bytes = .ok rs → ∀ r ∈ rs, r.name ≠ "" ∧
      (∀ c ∈ r.name.toList, c ∉ forbiddenInName) ∧
      (Token.ofValue r.name = [r.name] ↔ ∀ c ∈ r.name.toList, Text.isBlank c = false)) ∧
    ((∃ f, ofBytes limits bytes = .error f ∧ f.kind = .invalidName) ↔
      ∃ ls pre r post, linesOf limits bytes = .ok ls ∧ candidates ls = pre ++ r :: post ∧
        (∀ p ∈ pre, p.check = .ok ()) ∧
        (r.name = "" ∨ ∃ c ∈ r.name.toList, c ∈ forbiddenInName)) := by
  constructor
  · intro rs hrs r hr
    obtain ⟨ls, -, -, hcheck⟩ := ofBytes_eq_ok.mp hrs
    obtain ⟨hne, hname, -⟩ := check_eq_ok.mp (hcheck r hr)
    refine ⟨hne, hname, ?_⟩
    have hquote : '"' ∉ r.name.toList := fun hmem => hname '"' hmem (by decide)
    rw [Token.ofValue_eq_singleton_iff, and_iff_right hne, Token.unbroken_of_not_mem hquote]
    simp
  · simp only [ofBytes_eq_invalidName, check_eq_invalidName]

/-- A file that declares `A B`, with a no-break space in the name. -/
def brokenName : ByteArray :=
  "i:A\u00a0B = 1\n".toUTF8

/-- The name is accepted, but as a value it makes two tokens. -/
theorem names_of_ofBytes_brokenName :
    ∃ r, ofBytes {} brokenName = .ok [r] ∧ r.name = "i:A\u00a0B" ∧
      (Token.ofValue r.name = [r.name] ↔ ∀ c ∈ r.name.toList, Text.isBlank c = false) ∧
      Token.ofValue r.name ≠ [r.name] := by
  have hload : ofBytes {} brokenName = .ok [⟨"i:A\u00a0B", "1", 1⟩] := by decide +kernel
  obtain ⟨-, -, htoken⟩ :=
    (names_of_ofBytes {} brokenName).1 _ hload _ List.mem_cons_self
  exact ⟨_, hload, rfl, htoken, by decide +kernel⟩

end ParameterChain.Record
