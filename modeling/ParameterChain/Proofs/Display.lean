/-
# Written values are read back

Booleans, integers and texts are written exactly: the text of such a value, put down as the raw
value of a declaration of its kind, resolves to the literal that the value is
(`Resolution.resolve_display`).

Each scalar is written as one token that can stand before others (`Scalar.closed_display`) and
is read back from it (`Scalar.read?_display`); a vector is its count and its scalars, parted by
blanks.  The names that the resolver knows get in the way in one place only: `"True"`, with its
quotes, is the name of a boolean parameter before it is a literal.  No name with a quote, no
such parameter.

A text that has a double quote is not written exactly, since the quote is not escaped.  Real
numbers are no part of this: the unit of a dimensioned one is not written at all.
-/
import Mathlib.Algebra.Group.Nat.Defs
import ParameterChain.Proofs.Spelling
import ParameterChain.Proofs.Tokens
import ParameterChain.Proofs.Unambiguous

namespace ParameterChain

/-! ## Decimal digits -/

namespace Number

theorem natOfDigits_toDigits (n : Nat) : natOfDigits (Nat.toDigits 10 n) = n :=
  Nat.ofDigitChars_toDigits (by decide) (by decide)

/-- Digits carry no sign. -/
theorem splitSign_toDigits (n : Nat) : splitSign (Nat.toDigits 10 n) = (false, Nat.toDigits 10 n) := by
  have hdigits : ∀ c ∈ Nat.toDigits 10 n, c.isDigit = true := fun c hc =>
    Nat.isDigit_of_mem_toDigits (by decide) (by decide) hc
  unfold splitSign
  split
  · next h => exact absurd (hdigits '+' (h ▸ List.mem_cons_self)) (by decide)
  · next h => exact absurd (hdigits '-' (h ▸ List.mem_cons_self)) (by decide)
  · rfl

theorem toList_repr_ofNat (n : Nat) : (Int.repr (Int.ofNat n)).toList = Nat.toDigits 10 n :=
  String.toList_ofList

theorem toList_repr_negSucc (n : Nat) :
    (Int.repr (Int.negSucc n)).toList = '-' :: Nat.toDigits 10 (n + 1) := by
  simp [Int.repr, Nat.repr]

/-- An integer with at most 32 digits is read back from its decimal form. -/
theorem intOfChars?_repr {z : Int} (hz : z.natAbs < 10 ^ 32) :
    intOfChars? (Int.repr z).toList = some z := by
  have hdigits : ∀ n < 10 ^ 32, (1 ≤ (Nat.toDigits 10 n).length &&
      (Nat.toDigits 10 n).length ≤ 32 && (Nat.toDigits 10 n).all Char.isDigit) = true := by
    intro n hn
    simp only [Bool.and_eq_true, decide_eq_true_eq, List.all_eq_true]
    refine ⟨⟨Nat.length_toDigits_pos, ?_⟩, fun c hc => ?_⟩
    · exact (Nat.length_toDigits_le_iff (by decide) (by decide)).mpr hn
    · exact Nat.isDigit_of_mem_toDigits (by decide) (by decide) hc
  cases z with
  | ofNat n =>
    rw [toList_repr_ofNat, intOfChars?, splitSign_toDigits]
    simp only [hdigits n hz, if_true, natOfDigits_toDigits]
    rfl
  | negSucc n =>
    rw [toList_repr_negSucc, intOfChars?, splitSign]
    simp only [hdigits (n + 1) hz, if_true, natOfDigits_toDigits]
    rfl

theorem integerOf?_showInteger (n : Int64) : integerOf? (showInteger n) = some n := by
  have hmin : Int64.minValue.toInt = -2 ^ 63 := by decide
  have hmax : Int64.maxValue.toInt = 2 ^ 63 - 1 := by decide
  have hle := n.toInt_le
  have hge := n.le_toInt
  have hchars : intOfChars? (showInteger n).toList = some n.toInt := intOfChars?_repr (by omega)
  rw [integerOf?, hchars, Option.bind_some, if_pos, Int64.ofInt_toInt]
  rw [Bool.and_eq_true, decide_eq_true_eq, decide_eq_true_eq]
  omega

theorem plain_of_isDigit {c : Char} (h : c.isDigit = true) :
    Text.isBlank c = false ∧ c ≠ '"' := by
  have hrange : 48 ≤ c.toNat ∧ c.toNat ≤ 57 := by
    simpa [Char.isDigit, UInt32.le_iff_toNat_le] using h
  constructor
  · simp only [Text.isBlank, Bool.or_eq_false_iff, Bool.and_eq_false_iff, decide_eq_false_iff_not,
      beq_eq_false_iff_ne]
    omega
  · rintro rfl
    exact absurd h (by decide)

/-- A decimal form is a token that can stand before others. -/
theorem closed_repr (z : Int) : Token.Closed (Int.repr z) := by
  have hdigits : ∀ n, ∀ c ∈ Nat.toDigits 10 n, Text.isBlank c = false ∧ c ≠ '"' :=
    fun n c hc => plain_of_isDigit (Nat.isDigit_of_mem_toDigits (by decide) (by decide) hc)
  cases z with
  | ofNat n =>
    refine Token.closed_of_plain (fun hnil => ?_) ?_
    · have hpos : 1 ≤ (Nat.toDigits 10 n).length := Nat.length_toDigits_pos
      rw [← toList_repr_ofNat, hnil] at hpos
      exact absurd hpos (by decide)
    · rw [toList_repr_ofNat]
      exact hdigits n
  | negSucc n =>
    refine Token.closed_of_plain (by simp [Int.repr]) ?_
    rw [toList_repr_negSucc]
    exact List.forall_mem_cons.mpr ⟨by decide, hdigits (n + 1)⟩

end Number

/-! ## Scalars -/

/-- The sorts whose scalars are written exactly. -/
def Scalar.isExact : Scalar → Bool
  | .boolean | .integer | .text => true
  | .unitless | .dimensioned => false

/-- The scalar is no text with a double quote in it. -/
def Scalar.Quoteless : (s : Scalar) → s.Carrier → Prop
  | .text, t => '"' ∉ t.toList
  | _, _ => True

section Scalars

variable {s : Scalar} {x : s.Carrier}

theorem Token.quoted?_enclosed (t : String) : Token.quoted? ("\"" ++ t ++ "\"") = some t := by
  have hchars : ("\"" ++ t ++ "\"").toList = '"' :: (t.toList ++ ['"']) := by simp
  rw [quoted?, hchars]
  simp

theorem Token.closed_enclosed {t : String} (h : '"' ∉ t.toList) :
    Token.Closed ("\"" ++ t ++ "\"") := by
  have hchars : ("\"" ++ t ++ "\"").toList = ['"'] ++ t.toList ++ ['"'] := by simp
  have hopens : opens false (['"'] ++ t.toList) = true := by
    rw [opens_append]
    exact opens_of_not_mem h
  refine ⟨by simp, ?_, ?_⟩
  · rw [hchars, unbroken_append, unbroken_append, hopens]
    have hinner : unbroken (opens false ['"']) t.toList = true := unbroken_of_not_mem h
    rw [hinner]
    rfl
  · rw [hchars, opens_append, hopens]
    rfl

/-- A scalar is written as one token that can stand before others. -/
theorem Scalar.closed_display (hs : s.isExact = true) (hx : s.Quoteless x) :
    Token.Closed (s.display x) := by
  cases s with
  | boolean => cases x <;> decide
  | integer => exact Number.closed_repr _
  | text => exact Token.closed_enclosed hx
  | unitless | dimensioned => cases hs

/-- A scalar is read back from what is written. -/
theorem Scalar.read?_display {factor : Float} (hs : s.isExact = true) :
    s.read? factor (s.display x) = some x := by
  cases s with
  | boolean => cases x <;> rfl
  | integer => exact Number.integerOf?_showInteger x
  | text => exact Token.quoted?_enclosed x
  | unitless | dimensioned => cases hs

end Scalars

/-! ## Values -/

/-- The scalars of a shape, in order. -/
def Shape.elements {α : Type} : Shape α → List α
  | .one a => [a]
  | .many as => as

/-- A value that is written exactly: no real number, no text with a double quote in it, and no
vector without elements or with more than `maxLength`.  (No list in memory has `2 ^ 63`
elements.) -/
structure Value.WrittenExactly (v : Value) (maxLength : Nat) : Prop where
  exact : v.scalar.isExact = true
  quoteless : ∀ x ∈ v.shape.elements, v.scalar.Quoteless x
  length : v.kind.isVector = true → 1 ≤ v.size ∧ v.size ≤ maxLength ∧ v.size < 2 ^ 63

/-- Neither the declared name nor a name in scope has a double quote in it. -/
structure Resolution.Quoteless (r : Resolution) : Prop where
  declared : '"' ∉ r.declaration.name.text.toList
  named : ∀ name, (r.scope.kindOf (Key.ofText name)).isSome = true → '"' ∉ name.toList

namespace Resolution

variable {r : Resolution} {s : Scalar} {factor : Float}

/-- A token with a double quote in it names nothing. -/
theorem Quoteless.names_eq_false (h : r.Quoteless) {t : String} (ht : '"' ∈ t.toList)
    (hself : Text.sameAscii t inheritedName = false) (kinds : List Kind) :
    r.names kinds t = false := by
  have hkey : (Key.ofText t == r.declaration.key) = false := by
    refine beq_eq_false_iff_ne.mpr fun heq => h.declared ?_
    have hlower : Text.lowerCase t = Text.lowerCase r.declaration.name.text :=
      congrArg Key.text (heq.trans r.declaration.name.key_eq)
    exact Text.mem_of_mem_lowerCase (by decide) (hlower ▸ Text.mem_lowerCase_of_mem (by decide) ht)
  have hscope : r.scope.kindOf (Key.ofText t) = none :=
    Option.not_isSome_iff_eq_none.mp fun hsome => h.named t hsome ht
  rw [names, kindOf?, isSelf, hself, hkey, hscope]
  rfl

/-- A list of literals is a literal. -/
theorem ofElements_literals (xs : List s.Carrier) :
    Operand.ofElements (xs.map Element.literal) = .literal ⟨s, .many xs⟩ := by
  have hmap : (xs.map Element.literal).mapM Element.literal? = some xs := by
    induction xs with
    | nil => rfl
    | cons x xs ih =>
      rw [List.map_cons, List.mapM_cons, ih]
      rfl
  rw [Operand.ofElements, literalVector?, hmap]
  rfl

/-- A written scalar stands at the place of a literal. -/
theorem stands_display {x : s.Carrier} (hs : s.isExact = true) (hq : r.Quoteless) :
    r.Stands false factor (.literal s) [s.display x] (.literal ⟨s, .one x⟩) := by
  refine .literal (Scalar.read?_display hs) fun hboolean => ?_
  subst hboolean
  cases x
  · exact hq.names_eq_false (by decide) (by decide) _
  · exact hq.names_eq_false (by decide) (by decide) _

theorem lists_display (xs : List s.Carrier) (hs : s.isExact = true) :
    List.Forall₂ (r.Lists false factor) (xs.map s.display) (xs.map Element.literal) := by
  rw [List.forall₂_map_left_iff, List.forall₂_map_right_iff, List.forall₂_same]
  exact fun x _ => .literal (Scalar.read?_display hs)

/-- The number of elements is written as their count. -/
theorem counts_repr {n : Nat} (hpos : 1 ≤ n) (hmax : n ≤ r.maxLength) (hn : n < 2 ^ 63) :
    r.Counts (Nat.repr n) n := by
  have hmin : -2 ^ 63 ≤ (n : Int) := by omega
  have hlt : (n : Int) < 2 ^ 63 := by omega
  have htoInt : (Int64.ofInt n).toInt = n := Int64.toInt_ofInt_of_le hmin hlt
  have hread := Number.integerOf?_showInteger (Int64.ofInt n)
  rw [showInteger, htoInt] at hread
  refine ⟨?_, hpos, hmax⟩
  rw [show Nat.repr n = Int.repr n from rfl, hread, Option.map_some, htoInt]

theorem literal_mem_grammar (hs : s.isExact = true) :
    (⟨.literal s, .absent, none⟩ : Form) ∈ (Kind.one s).grammar := by
  cases s with
  | boolean | integer | text => decide
  | unitless | dimensioned => cases hs

/-- A list that starts with an asterisk is not read everywhere, but nothing is written so. -/
theorem values_mem_grammar (hs : s.isExact = true) :
    ∃ starred, (⟨.values s starred, .absent, none⟩ : Form) ∈ (Kind.many s).grammar ∧
      (starred = false → ∀ x, s.display x ≠ Operator.multiply.token) := by
  cases s with
  | boolean => exact ⟨true, by decide, nofun⟩
  | text => exact ⟨true, by decide, nofun⟩
  | integer =>
    refine ⟨false, by decide, fun _ x hx => ?_⟩
    have hread := Number.integerOf?_showInteger x
    rw [show showInteger x = "*" from hx] at hread
    cases hread
  | unitless | dimensioned => cases hs

/-- What is written is read back: a value that is written exactly, written as the raw value of
a declaration of its kind, resolves to the literal that it is. -/
theorem resolve_display {v : Value} (hkind : r.kind = v.kind)
    (hraw : r.declaration.rawValue = v.display) (hv : v.WrittenExactly r.maxLength)
    (hq : r.Quoteless) : r.resolve = .ok { plan := .literal v } := by
  obtain ⟨s, shape⟩ := v
  have hs : s.isExact = true := hv.exact
  have hclosed : ∀ x ∈ shape.elements, Token.Closed (s.display x) := fun x hx =>
    Scalar.closed_display hs (hv.quoteless x hx)
  rw [resolve_iff_applies]
  cases shape with
  | one x =>
    have htokens := (hclosed x List.mem_cons_self).ofValue
    exact ⟨_, _, hkind ▸ literal_mem_grammar hs, .alone .absent (stands_display hs hq),
      [], hraw ▸ htokens, rfl⟩
  | many xs =>
    obtain ⟨hpos, hmax, hlt⟩ := hv.length rfl
    obtain ⟨starred, hform, hstar⟩ := values_mem_grammar hs
    have hcount : r.Counts (Nat.repr xs.length) (xs.map s.display).length := by
      rw [List.length_map]
      exact counts_repr hpos hmax hlt
    have hhead : starred = false → (xs.map s.display).head? ≠ some Operator.multiply.token := by
      intro hstarred hhead
      obtain ⟨x, -, hx⟩ := List.mem_map.mp (List.mem_of_mem_head? hhead)
      exact hstar hstarred x hx
    have hstands : r.Stands false (scale none) (.values s starred)
        (Nat.repr xs.length :: xs.map s.display) (.literal ⟨s, .many xs⟩) :=
      ofElements_literals xs ▸ .values hcount hhead (lists_display xs hs)
    have htokens : Token.ofValue (Value.display ⟨s, .many xs⟩) =
        Nat.repr xs.length :: xs.map s.display := by
      refine Token.ofValue_intercalate fun t ht => ?_
      rcases List.mem_cons.mp ht with rfl | ht
      · exact Number.closed_repr xs.length
      · obtain ⟨x, hx, rfl⟩ := List.mem_map.mp ht
        exact hclosed x hx
    refine ⟨_, _, hkind ▸ hform, .alone .absent hstands, [], ?_, rfl⟩
    rw [hraw, htokens, List.append_nil, List.append_nil]

/-- Three texts, one with blanks, one empty and one with a line feed. -/
def labels : Value :=
  ⟨.text, .many ["Hello  World", "", "a\nb"]⟩

/-- Their declaration, where a boolean parameter is in scope. -/
def labelled : Resolution where
  declaration :=
    ⟨.ofText "Labels", some (.many .text), "3 \"Hello  World\" \"\" \"a\nb\"", false, 1⟩
  kind := .many .text
  scope := ⟨fun key => if key = Key.ofText "True" then some (.one .boolean) else none, none⟩
  maxLength := 3

theorem resolve_display_labels :
    labelled.kind = labels.kind ∧ labelled.declaration.rawValue = labels.display ∧
      labels.WrittenExactly labelled.maxLength ∧ labelled.Quoteless ∧
      labelled.resolve = .ok { plan := .literal labels } := by
  have hv : labels.WrittenExactly labelled.maxLength := by
    refine ⟨rfl, ?_, fun _ => ⟨by decide, by decide, by decide⟩⟩
    show ∀ t ∈ ["Hello  World", "", "a\nb"], '"' ∉ t.toList
    decide
  have hq : labelled.Quoteless := by
    refine ⟨by decide, fun name hname hmem => ?_⟩
    have hkey : Key.ofText name = Key.ofText "True" := by
      by_contra hne
      simp [labelled, hne] at hname
    have hquote := Text.mem_lowerCase_of_mem (by decide) hmem
    rw [show Text.lowerCase name = Text.lowerCase "True" from congrArg Key.text hkey] at hquote
    exact absurd hquote (by decide +kernel)
  exact ⟨rfl, rfl, hv, hq, resolve_display (r := labelled) (v := labels) rfl rfl hv hq⟩

end Resolution

end ParameterChain
