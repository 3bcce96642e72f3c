/-
# One form for each value

A value is resolved exactly if a form of its kind applies to it, and then to the plan and the
unit of that form (`Resolution.resolve_grammar`).  No two forms apply to one value.  What is
read is the same for both, since the readers are functions (`form_of_derives`); and a plan
shows the form that it comes from (`eq_of_derives`): two forms of a kind differ in their
operators or in the looks of their operands, or else ask a name for different kinds, and a
reference has one kind only.

The vectors of numbers have one rule that the text of the forms does not tell: a `*` after the
number at the start is an operator and never a value of a list, though a parameter may be
named so (`resolve_starValue`).
-/
import ParameterChain.Proofs.Accepted

namespace ParameterChain

/-! ## What a plan shows of its form -/

/-- What an operand shows of its place. -/
inductive Look where
  | literal (s : Scalar)
  | values (s : Scalar)
  | name
  deriving DecidableEq, Repr

def Place.look : Place → Look
  | .literal s => .literal s
  | .name _ _ _ => .name
  | .values s _ => .values s

def Operand.look : Operand → Look
  | .literal ⟨s, .one _⟩ => .literal s
  | .literal ⟨s, .many _⟩ => .values s
  | .list s _ => .values s
  | .param _ => .name

def Form.look (f : Form) : Look × Option (Operator × Look) :=
  (f.lhs.look, f.rest.map fun rest => (rest.1, rest.2.look))

/-- The operand that a plan is or begins with. -/
def Plan.lhs? : Plan → Option Operand
  | .literal v => some (.literal v)
  | .list s elements => some (.list s elements)
  | .reference ref => some (.param ref)
  | .binary lhs _ _ => some lhs
  | .feature _ => none

/-- The operator of a plan and the operand after it. -/
def Plan.rest? : Plan → Option (Operator × Operand)
  | .binary _ op rhs => some (op, rhs)
  | _ => none

theorem Operand.lhs?_toPlan (o : Operand) : o.toPlan.lhs? = some o := by
  cases o <;> rfl

theorem Operand.rest?_toPlan (o : Operand) : o.toPlan.rest? = none := by
  cases o <;> rfl

theorem Operand.look_ofElements {s : Scalar} (elements : List (Element s)) :
    (Operand.ofElements elements).look = .values s := by
  rw [ofElements]
  split
  · next v hv =>
    obtain ⟨xs, -, rfl⟩ := Option.map_eq_some_iff.mp hv
    rfl
  · rfl

/-- Both places choose the form by the kind of a name, and no kind is asked for at both. -/
def Place.excludes : Place → Place → Bool
  | .name kinds _ true, .name kinds' _ true => kinds.all fun k => !kinds'.contains k
  | _, _ => false

/-- The forms differ in their looks or in the kinds that they ask a name for. -/
def Form.apart (f g : Form) : Bool :=
  f.look != g.look || f.lhs.excludes g.lhs ||
    match f.rest, g.rest with
    | some (_, rhs), some (_, rhs') => rhs.excludes rhs'
    | _, _ => false

/-- Two forms of a kind can be told apart. -/
theorem Kind.grammar_apart (k : Kind) :
    ∀ f ∈ k.grammar, ∀ g ∈ k.grammar, f = g ∨ f.apart g = true := by
  obtain ⟨s, isVector⟩ := k
  cases s <;> cases isVector <;> decide +kernel

namespace Resolution

variable {r : Resolution} {strict : Bool} {factor factor' : Float} {place place' : Place}
  {kinds kinds' : List Kind} {t t' : String} {ts ts' : Tokens} {o : Operand} {ref : Ref}
  {f g : Form} {res res' : Resolved}

theorem Stands.look (h : r.Stands strict factor place ts o) : o.look = place.look := by
  cases h with
  | literal _ _ => rfl
  | name _ _ => rfl
  | values _ _ _ => exact Operand.look_ofElements _

theorem Stands.ne_nil (h : r.Stands strict factor place ts o) : ts ≠ [] := by
  cases h <;> exact List.cons_ne_nil _ _

/-- A reference is of one kind. -/
theorem Refers.common (h : r.Refers true kinds t ref) (h' : r.Refers true kinds' t' ref) :
    ∃ k ∈ kinds, k ∈ kinds' := by
  cases h with
  | self _ _ hkind =>
    cases h' with
    | self _ _ hkind' => exact ⟨r.kind, hkind rfl, hkind' rfl⟩
  | named _ _ hk hmem =>
    generalize hname : Name.ofText t = name at h'
    cases h' with
    | named _ _ hk' hmem' =>
      have hkey : Key.ofText t = Key.ofText t' := congrArg Name.key hname
      rw [hkey, hk'] at hk
      cases hk
      exact ⟨_, hmem, hmem'⟩

/-- Places that exclude each other stand for no common operand. -/
theorem Stands.not_excludes (h : r.Stands strict factor place ts o)
    (h' : r.Stands strict factor' place' ts' o) : place.excludes place' = false := by
  refine Bool.eq_false_iff.mpr fun hexcludes => ?_
  unfold Place.excludes at hexcludes
  split at hexcludes
  · obtain ⟨t, ref, -, -, href, rfl⟩ := stands_name_iff.mp h
    obtain ⟨t', ref', -, -, href', heq⟩ := stands_name_iff.mp h'
    cases heq
    rw [Bool.or_true] at href href'
    obtain ⟨k, hk, hk'⟩ := href.common href'
    have hnot := List.all_eq_true.mp hexcludes k hk
    simp [hk'] at hnot
  · cases hexcludes

end Resolution

namespace Form

open Resolution

variable {r : Resolution} {strict : Bool} {ts ts' : Tokens} {f g : Form} {res : Resolved}

theorem Derives.ne_nil (h : f.Derives r strict ts res) : ts ≠ [] := by
  cases h with
  | alone _ ho =>
    exact fun hnil => ho.ne_nil (List.append_eq_nil_iff.mp hnil).1
  | joined _ _ _ => simp

/-- The plan begins with what stands at the first place. -/
theorem Derives.lhs (h : f.Derives r strict ts res) :
    ∃ factor ls o, res.plan.lhs? = some o ∧ r.Stands strict factor f.lhs ls o := by
  cases h with
  | alone _ ho => exact ⟨_, _, _, Operand.lhs?_toPlan _, ho⟩
  | joined _ ho _ => exact ⟨_, _, _, rfl, ho⟩

/-- The plan goes on with the operator of the form and what stands at the second place. -/
theorem Derives.rest (h : f.Derives r strict ts res) :
    Option.Rel (fun p q => p.1 = q.1 ∧ ∃ factor rs, r.Stands strict factor p.2 rs q.2)
      f.rest res.plan.rest? := by
  cases h with
  | alone _ _ =>
    rw [Operand.rest?_toPlan]
    exact .none
  | joined _ _ ho' => exact .some ⟨rfl, _, _, ho'⟩

/-- Forms that derive the same plan are not apart. -/
theorem Derives.not_apart (h : f.Derives r strict ts res) (h' : g.Derives r strict ts' res) :
    f.apart g = false := by
  obtain ⟨_, _, o, hlhs, ho⟩ := h.lhs
  obtain ⟨_, _, o', hlhs', ho'⟩ := h'.lhs
  rw [hlhs] at hlhs'
  cases hlhs'
  have hlook : f.lhs.look = g.lhs.look := ho.look.symm.trans ho'.look
  have hexcludes := ho.not_excludes ho'
  have hrest := h.rest
  have hrest' := h'.rest
  rw [apart, Form.look, Form.look, hlook, hexcludes, Bool.or_false]
  generalize f.rest = frest, g.rest = grest, res.plan.rest? = rest at hrest hrest' ⊢
  cases hrest with
  | none =>
    cases hrest'
    simp
  | some hrhs =>
    cases hrest' with
    | some hrhs' =>
      obtain ⟨hop, _, _, ho⟩ := hrhs
      obtain ⟨hop', _, _, ho'⟩ := hrhs'
      have hlook : _ = _ := ho.look.symm.trans ho'.look
      simp [hop, hop', hlook, ho.not_excludes ho']

theorem eq_of_derives {k : Kind} (hf : f ∈ k.grammar) (hg : g ∈ k.grammar)
    (h : f.Derives r strict ts res) (h' : g.Derives r strict ts' res) : f = g := by
  rcases k.grammar_apart f hf g hg with heq | hapart
  · exact heq
  · exact absurd hapart (Bool.eq_false_iff.mp (h.not_apart h'))

end Form

namespace Resolution

variable {r : Resolution} {f g : Form} {ts rest : Tokens} {res : Resolved}

/-- A form of the kind applies to the value: it derives all tokens of the value up to a
comment. -/
structure Applies (r : Resolution) (f : Form) (ts : Tokens) (res : Resolved) : Prop where
  listed : f ∈ r.kind.grammar
  derives : f.Derives r false ts res
  ends : ∃ rest, Token.ofValue r.declaration.rawValue = ts ++ rest ∧ endsValue rest = true

theorem ofTokens_eq_ok : r.ofTokens ts = .ok res ↔
    ∃ rest, r.form ts = .ok (res, rest) ∧ endsValue rest = true := by
  rw [ofTokens]
  cases ts with
  | nil =>
    refine ⟨nofun, fun ⟨rest, hform, _⟩ => ?_⟩
    obtain ⟨f, -, pre, hpre, hderives⟩ := form_reads hform
    exact absurd (List.append_eq_nil_iff.mp hpre.symm).1 hderives.ne_nil
  | cons t ts =>
    rw [if_neg (by simp)]
    cases r.form (t :: ts) with
    | error c => simp
    | ok p =>
      obtain ⟨res', rest⟩ := p
      by_cases hends : endsValue rest = true <;> simp [hends]

theorem resolve_eq_ok : r.resolve = .ok res ↔
    ∃ rest, r.form (Token.ofValue r.declaration.rawValue) = .ok (res, rest) ∧
      endsValue rest = true := by
  rw [resolve, mapError_eq_ok, ofTokens_eq_ok]

/-- What a form that applies derives is what is read, up to a comment. -/
theorem Applies.form (h : r.Applies f ts res) : ∃ rest,
    Token.ofValue r.declaration.rawValue = ts ++ rest ∧ endsValue rest = true ∧
      r.form (Token.ofValue r.declaration.rawValue) = .ok (res, rest) := by
  obtain ⟨rest, hvalue, hends⟩ := h.ends
  exact ⟨rest, hvalue, hends, hvalue ▸ form_of_derives h.listed h.derives hends⟩

theorem resolve_iff_applies : r.resolve = .ok res ↔ ∃ f ts, r.Applies f ts res := by
  rw [resolve_eq_ok]
  constructor
  · rintro ⟨rest, hform, hends⟩
    obtain ⟨f, hf, pre, hpre, hderives⟩ := form_reads hform
    exact ⟨f, pre, hf, hderives, rest, hpre, hends⟩
  · rintro ⟨f, ts, happlies⟩
    obtain ⟨rest, -, hends, hform⟩ := happlies.form
    exact ⟨rest, hform, hends⟩

/-- At most one form applies to a value. -/
theorem Applies.unique {ts' : Tokens} {res' : Resolved} (h : r.Applies f ts res)
    (h' : r.Applies g ts' res') : f = g ∧ ts = ts' ∧ res = res' := by
  obtain ⟨rest, hvalue, -, hform⟩ := h.form
  obtain ⟨rest', hvalue', -, hform'⟩ := h'.form
  rw [hform] at hform'
  cases hform'
  have hts : ts = ts' := List.append_cancel_right (hvalue.symm.trans hvalue')
  exact ⟨Form.eq_of_derives h.listed h'.listed h.derives h'.derives, hts, rfl⟩

/-! ## The lists of a plan -/

end Resolution

/-- The number of elements of an operand that is a list. -/
def Operand.length? : Operand → Option Nat
  | .literal ⟨_, .many xs⟩ => some xs.length
  | .list _ elements => some elements.length
  | _ => none

theorem forall₂_of_mapM_eq_some {α β : Type} {f : α → Option β} {xs : List α} {ys : List β}
    (h : xs.mapM f = some ys) : List.Forall₂ (fun x y => f x = some y) xs ys := by
  induction xs generalizing ys with
  | nil =>
    cases h
    exact .nil
  | cons x xs ih =>
    simp only [List.mapM_cons, Option.bind_eq_bind, Option.bind_eq_some_iff, Option.pure_def,
      Option.some.injEq] at h
    obtain ⟨y, hy, ys, hys, rfl⟩ := h
    exact .cons hy (ih hys)

theorem Operand.length?_ofElements {s : Scalar} (elements : List (Element s)) :
    (Operand.ofElements elements).length? = some elements.length := by
  rw [ofElements]
  split
  · next v hv =>
    obtain ⟨xs, hxs, rfl⟩ := Option.map_eq_some_iff.mp hv
    exact congrArg some (forall₂_of_mapM_eq_some hxs).length_eq.symm
  · rfl

namespace Resolution

variable {r : Resolution} {f g : Form} {ts rest : Tokens} {res : Resolved}

/-- A list has as many elements as its count says. -/
theorem Stands.length {factor : Float} {s : Scalar} {starred : Bool} {o : Operand}
    (h : r.Stands false factor (.values s starred) ts o) :
    ∃ n, r.Counts (ts.headD "") n ∧ ts.length = n + 1 ∧ o.length? = some n := by
  obtain ⟨t, raw, elements, rfl, hcount, -, helements, rfl⟩ := stands_values_iff.mp h
  exact ⟨raw.length, hcount, rfl, by rw [Operand.length?_ofElements, helements.length_eq]⟩

/-- The resolver accepts the grammar.  The forms that a failed value is answered with are
those of the grammar.  A value resolves to a plan and a unit exactly if a form of its kind
applies to it and derives them; no second form applies; and every list that is derived has as
many elements as the count before it says. -/
theorem resolve_grammar (r : Resolution) :
    r.kind.forms = "\n  ".intercalate
        ((r.kind.scalar.title ++ (if r.kind.isVector then " vector" else "") ++
          " parameters may have values of the following forms:") ::
            r.kind.grammar.map Form.phrase) ∧
      (∀ res, r.resolve = .ok res ↔ ∃ f ts, r.Applies f ts res) ∧
      (∀ f g ts ts' res res', r.Applies f ts res → r.Applies g ts' res' →
        f = g ∧ ts = ts' ∧ res = res') ∧
      ∀ factor s starred ts o, r.Stands false factor (.values s starred) ts o →
        ∃ n, r.Counts (ts.headD "") n ∧ ts.length = n + 1 ∧ o.length? = some n := by
  exact ⟨forms_eq r.kind, fun _ => resolve_iff_applies,
    fun _ _ _ _ _ _ => Applies.unique, fun _ _ _ _ _ => Stands.length⟩

end Resolution

/-! ## A value that is named like an operator -/

/-- The form without the rule on a `*` in a list, as its text reads. -/
def Form.unruled (f : Form) : Form :=
  match f.lhs with
  | .values s _ => { f with lhs := .values s true }
  | _ => f

theorem Form.phrase_unruled (f : Form) : f.unruled.phrase = f.phrase := by
  obtain ⟨_ | _ | _, _, _⟩ := f <;> rfl

/-- A list of one value, the unitless number that is called `*`. -/
def starValue : Resolution where
  declaration := ⟨.ofText "V", some (.many .unitless), "1 *", true, 0⟩
  kind := .many .unitless
  scope := ⟨fun key => if key = Key.ofText "*" then some (.one .unitless) else none, none⟩
  maxLength := 10

/-- The number `1` and the `*` make a list of one value by the text of the forms, but they are
read as a factor and its operator. -/
theorem Resolution.resolve_starValue :
    (∃ f ∈ starValue.kind.grammar, f.unruled.phrase = f.phrase ∧ ∃ res,
      f.unruled.Derives starValue false (Token.ofValue starValue.declaration.rawValue) res) ∧
        ∀ res, starValue.resolve ≠ .ok res := by
  constructor
  · have hcount : starValue.Counts "1" 1 := ⟨by decide +kernel, by decide, by decide⟩
    have hself : starValue.isSelf "*" = false := by decide +kernel
    have hvalue : starValue.Lists false 1 (s := .unitless) "*" (.param (.named (.ofText "*"))) :=
      .name (by decide +kernel) (.named (by decide) hself rfl (by decide))
    have hstands : starValue.Stands false (scale none) (.values .unitless true) ["1", "*"]
        (.ofElements [.param (.named (.ofText "*"))]) :=
      .values hcount nofun (.cons hvalue .nil)
    have htokens : Token.ofValue starValue.declaration.rawValue = ["1", "*"] ++ [] := by
      decide +kernel
    have hderives := Form.Derives.alone .absent hstands
    rw [← htokens] at hderives
    exact ⟨⟨.values .unitless false, .absent, none⟩, by decide, Form.phrase_unruled _, _, hderives⟩
  · intro res h
    cases h

end ParameterChain
