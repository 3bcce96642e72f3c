/-
# Every form of a value fits its kind

A plan *fits* a kind if following it cannot go wrong by kinds: given that the names in
it have the kinds that they were looked up with, whatever it reads can be converted or
combined to a value of the kind.  A reference to the inherited value promises nothing
and is not judged.

Main statement: `form_fits`.  Each reader of `ParameterChain.Resolution` gives only
plans that fit; its cases are the readers, and in each the kinds that a name may have
are those that the reader asks for.
-/
import ParameterChain.Proofs.Kinds
import ParameterChain.Proofs.Success
import ParameterChain.Resolution

namespace ParameterChain

/-! ## Plans that fit

`has k a` says that the parameter with key `k` has kind `a`. -/

section Fits

variable (has : Key → Kind → Prop)

/-- What the reference names has one of the kinds. -/
def Ref.Within (kinds : List Kind) : Ref → Prop
  | .named name => ∃ a ∈ kinds, has name.key a
  | .inherited => True

/-- What the element gives converts to the sort of its list. -/
def Element.Fits {s : Scalar} : Element s → Prop
  | .literal _ => True
  | .param r => ∃ kinds, r.Within has kinds ∧ ∀ a ∈ kinds, a.Converts (Kind.one s)

def Operand.Within (kinds : List Kind) : Operand → Prop
  | .literal v => v.kind ∈ kinds
  | .list s elements => Kind.many s ∈ kinds ∧ ∀ e ∈ elements, e.Fits has
  | .param r => r.Within has kinds

/-- What the plan gives converts to the kind `k`.  The plan of a time feature is not
judged by kinds and fits none. -/
def Plan.Fits (k : Kind) : Plan → Prop
  | .literal v => v.kind.Converts k
  | .list s elements => (Kind.many s).Converts k ∧ ∀ e ∈ elements, e.Fits has
  | .reference r => ∃ kinds, r.Within has kinds ∧ ∀ a ∈ kinds, a.Converts k
  | .binary lhs op rhs => ∃ as bs, lhs.Within has as ∧ rhs.Within has bs ∧
      ∀ a ∈ as, ∀ b ∈ bs, k.combines a op b
  | .feature _ => False

end Fits

section Mono

variable {has has' : Key → Kind → Prop} (hmono : ∀ k a, has k a → has' k a)

include hmono

theorem Ref.Within.mono {kinds : List Kind} {r : Ref} (h : r.Within has kinds) :
    r.Within has' kinds := by
  cases r with
  | inherited => trivial
  | named name =>
    obtain ⟨a, ha, hname⟩ := h
    exact ⟨a, ha, hmono _ _ hname⟩

theorem Element.Fits.mono {s : Scalar} {e : Element s} (h : e.Fits has) : e.Fits has' := by
  cases e with
  | literal x => trivial
  | param r =>
    obtain ⟨kinds, hr, hkinds⟩ := h
    exact ⟨kinds, hr.mono hmono, hkinds⟩

theorem Operand.Within.mono {kinds : List Kind} {o : Operand} (h : o.Within has kinds) :
    o.Within has' kinds := by
  cases o with
  | literal v => exact h
  | list s elements => exact ⟨h.1, fun e he => (h.2 e he).mono hmono⟩
  | param r => exact Ref.Within.mono hmono h

theorem Plan.Fits.mono {k : Kind} {p : Plan} (h : p.Fits has k) : p.Fits has' k := by
  cases p with
  | literal v => exact h
  | list s elements => exact ⟨h.1, fun e he => (h.2 e he).mono hmono⟩
  | reference r =>
    obtain ⟨kinds, hr, hkinds⟩ := h
    exact ⟨kinds, hr.mono hmono, hkinds⟩
  | binary lhs op rhs =>
    obtain ⟨as, bs, hl, hr, hkinds⟩ := h
    exact ⟨as, bs, hl.mono hmono, hr.mono hmono, hkinds⟩
  | feature base => exact h

end Mono

section Refs

variable {has : Key → Kind → Prop} {name : Name}

theorem Element.Fits.of_mem_refs {s : Scalar} {elements : List (Element s)}
    (h : ∀ e ∈ elements, e.Fits has) (hname : .named name ∈ elements.filterMap Element.ref?) :
    ∃ a, has name.key a := by
  obtain ⟨e, he, href⟩ := List.mem_filterMap.mp hname
  cases e with
  | literal x => cases href
  | param r =>
    cases href
    obtain ⟨kinds, ⟨a, -, ha⟩, -⟩ := h _ he
    exact ⟨a, ha⟩

theorem Operand.Within.of_mem_refs {kinds : List Kind} {o : Operand} (h : o.Within has kinds)
    (hname : .named name ∈ o.refs) : ∃ a, has name.key a := by
  cases o with
  | literal v => exact absurd hname List.not_mem_nil
  | list s elements => exact Element.Fits.of_mem_refs h.2 hname
  | param r =>
    cases List.mem_singleton.mp hname
    obtain ⟨a, -, ha⟩ := h
    exact ⟨a, ha⟩

/-- What a plan that fits names has a kind. -/
theorem Plan.Fits.of_mem_refs {k : Kind} {p : Plan} (h : p.Fits has k)
    (hname : .named name ∈ p.refs) : ∃ a, has name.key a := by
  cases p with
  | literal v => exact absurd hname List.not_mem_nil
  | list s elements => exact Element.Fits.of_mem_refs h.2 hname
  | reference r =>
    cases List.mem_singleton.mp hname
    obtain ⟨kinds, ⟨a, -, ha⟩, -⟩ := h
    exact ⟨a, ha⟩
  | binary lhs op rhs =>
    obtain ⟨as, bs, hlhs, hrhs, -⟩ := h
    rcases List.mem_append.mp hname with hname | hname
    · exact hlhs.of_mem_refs hname
    · exact hrhs.of_mem_refs hname
  | feature base => exact h.elim

end Refs

namespace Resolution

variable {r : Resolution} {kinds : List Kind} {token first : String} {ts rest : Tokens}
  {res : Resolved} {s : Scalar} {factor : Float}

/-- The kind that a name was looked up with. -/
def Knows (r : Resolution) (k : Key) (a : Kind) : Prop :=
  r.scope.kindOf k = some a

/-! ## References and lists -/

theorem mem_of_operator? {ops : List Operator} {op : Operator}
    (h : operator? ops ts = some (op, rest)) : op ∈ ops := by
  cases ts with
  | nil => cases h
  | cons t ts =>
    simp only [operator?] at h
    split at h
    · split at h
      · next hmem =>
        cases h
        exact List.contains_iff_mem.mp hmem
      · cases h
    · cases h

theorem reference_within {ref : Ref} (h : r.reference kinds token = .ok ref) :
    ref.Within r.Knows kinds := by
  rw [reference] at h
  split at h
  · cases h
  split at h
  · cases h
    trivial
  split at h
  · cases h
  · next a hfound =>
    split at h
    · next hmem =>
      cases h
      exact ⟨a, List.contains_iff_mem.mp hmem, hfound⟩
    · cases h

theorem nextReference_within {ref : Ref} (h : r.nextReference kinds ts = .ok (ref, rest)) :
    ref.Within r.Knows kinds := by
  simp only [nextReference, bind_eq_ok, pure_eq_ok, Prod.mk.injEq] at h
  obtain ⟨ref', href, rfl, -⟩ := h
  exact reference_within href

theorem element_fits {e : Element s} (h : r.element s factor token = .ok e) :
    e.Fits r.Knows := by
  -- An element that is no literal was read by `reference`, with kinds that convert.
  have hparam : ∀ kinds, (∀ a ∈ kinds, a.Converts (Kind.one s)) →
      (r.reference kinds token >>= fun ref => pure (Element.param ref)) = .ok e →
        e.Fits r.Knows := by
    intro kinds hkinds hread
    obtain ⟨ref, href, heq⟩ := bind_eq_ok.mp hread
    cases pure_eq_ok.mp heq
    exact ⟨kinds, reference_within href, hkinds⟩
  have hliteral : ∀ {x : Except Cause s.Carrier},
      (x >>= fun x => pure (Element.literal x)) = .ok e → e.Fits r.Knows := by
    intro x hread
    obtain ⟨y, -, heq⟩ := bind_eq_ok.mp hread
    cases pure_eq_ok.mp heq
    trivial
  cases s with
  | dimensioned =>
    simp only [element] at h
    split at h
    · obtain ⟨y, -, heq⟩ := bind_eq_ok.mp h
      cases pure_eq_ok.mp heq
      trivial
    · exact hparam _ (by decide) h
  | unitless =>
    simp only [element] at h
    split at h
    · exact hliteral h
    · exact hparam _ (by decide) h
  | integer =>
    simp only [element] at h
    split at h
    · exact hliteral h
    · exact hparam _ (by decide) h
  | boolean =>
    simp only [element] at h
    split at h
    · cases pure_eq_ok.mp h
      trivial
    · exact hparam _ (by decide) h
  | text =>
    simp only [element] at h
    split at h
    · exact hliteral h
    split at h
    · exact hparam _ (by decide) h
    · cases pure_eq_ok.mp h
      trivial

theorem elements_fit {elements : List (Element s)} {tokens : Tokens}
    (h : r.elements s factor tokens = .ok elements) : ∀ e ∈ elements, e.Fits r.Knows := by
  intro e he
  obtain ⟨token, -, htoken⟩ := mem_of_mapM h he
  exact element_fits htoken

theorem kind_of_literalVector? {elements : List (Element s)} {v : Value}
    (h : literalVector? elements = some v) : v.kind = Kind.many s := by
  obtain ⟨xs, -, rfl⟩ := Option.map_eq_some_iff.mp h
  rfl

theorem listOperand_within {o : Operand} {tokens : Tokens}
    (h : r.listOperand s factor tokens = .ok o) : o.Within r.Knows [Kind.many s] := by
  obtain ⟨elements, helements, heq⟩ := bind_eq_ok.mp h
  cases pure_eq_ok.mp heq
  rw [Operand.ofElements]
  split
  · next v hv => exact List.mem_singleton.mpr (kind_of_literalVector? hv)
  · exact ⟨List.mem_singleton_self _, elements_fit helements⟩

theorem listPlan_fits {p : Plan} {tokens : Tokens}
    (h : r.listPlan s factor tokens = .ok p) : p.Fits r.Knows (Kind.many s) := by
  obtain ⟨elements, helements, heq⟩ := bind_eq_ok.mp h
  cases pure_eq_ok.mp heq
  rw [Plan.ofElements]
  split
  · next v hv =>
    show v.kind.Converts (Kind.many s)
    rw [kind_of_literalVector? hv]
    exact Kind.Converts.refl _
  · exact ⟨Kind.Converts.refl _, elements_fit helements⟩

/-! ## Scalar values -/

theorem dimensionedAfterNumber_fits {x : Float}
    (h : r.dimensionedAfterNumber x ts = .ok (res, rest)) :
    res.plan.Fits r.Knows (Kind.one .dimensioned) := by
  rw [dimensionedAfterNumber] at h
  split at h
  · simp only [bind_eq_ok, Prod.exists, pure_eq_ok, Prod.mk.injEq] at h
    obtain ⟨rhs, ts, hrhs, u, ts, -, rfl, -⟩ := h
    exact ⟨[Kind.one .unitless], _, List.mem_singleton_self _, nextReference_within hrhs,
      by decide⟩
  · simp only [bind_eq_ok, Prod.exists] at h
    obtain ⟨u, ts, -, h⟩ := h
    split at h
    · cases pure_eq_ok.mp h
      exact Kind.Converts.refl _
    · next op ts _ =>
      simp only [bind_eq_ok, Prod.exists, pure_eq_ok, Prod.mk.injEq] at h
      obtain ⟨rhs, ts, hrhs, rfl, -⟩ := h
      refine ⟨[Kind.one .dimensioned], _, List.mem_singleton_self _, nextReference_within hrhs, ?_⟩
      cases op <;> decide

theorem dimensionedAfterName_fits (h : r.dimensionedAfterName first ts = .ok (res, rest)) :
    res.plan.Fits r.Knows (Kind.one .dimensioned) := by
  rw [dimensionedAfterName] at h
  split at h
  · -- name * number unit
    simp only [bind_eq_ok, Prod.exists, pure_eq_ok, Prod.mk.injEq] at h
    obtain ⟨lhs, hlhs, x, -, u, ts, -, rfl, -⟩ := h
    exact ⟨_, [Kind.one .dimensioned], reference_within hlhs, List.mem_singleton_self _,
      by decide⟩
  · next op ts _ _ =>
    obtain ⟨lhs, hlhs, h⟩ := bind_eq_ok.mp h
    generalize take ts = next at h
    obtain ⟨second, ts⟩ := next
    simp only at h
    split at h
    · -- name + number unit
      simp only [bind_eq_ok, Prod.exists, pure_eq_ok, Prod.mk.injEq] at h
      obtain ⟨x, -, u, ts, -, rfl, -⟩ := h
      refine ⟨_, [Kind.one .dimensioned], reference_within hlhs, List.mem_singleton_self _, ?_⟩
      cases op <;> decide
    · -- name + name unit
      simp only [bind_eq_ok, Prod.exists, pure_eq_ok, Prod.mk.injEq] at h
      obtain ⟨rhs, hrhs, u, ts, -, rfl, -⟩ := h
      refine ⟨_, _, reference_within hlhs, reference_within hrhs, ?_⟩
      cases op <;> decide
  · simp only [bind_eq_ok, Prod.exists] at h
    obtain ⟨lhs, hlhs, u, ts, -, h⟩ := h
    split at h
    · cases pure_eq_ok.mp h
      exact ⟨_, reference_within hlhs, by decide⟩
    · next op ts _ =>
      split at h
      · -- name unit * number
        simp only [bind_eq_ok, pure_eq_ok, Prod.mk.injEq] at h
        obtain ⟨x, -, rfl, -⟩ := h
        refine ⟨_, [Kind.one .unitless], reference_within hlhs, List.mem_singleton_self _, ?_⟩
        cases op <;> decide
      · -- name unit * name
        simp only [bind_eq_ok, pure_eq_ok, Prod.mk.injEq] at h
        obtain ⟨rhs, hrhs, rfl, -⟩ := h
        refine ⟨_, _, reference_within hlhs, reference_within hrhs, ?_⟩
        cases op <;> decide

theorem dimensioned_fits (h : r.dimensioned ts = .ok (res, rest)) :
    res.plan.Fits r.Knows (Kind.one .dimensioned) := by
  simp only [dimensioned] at h
  split at h
  · obtain ⟨x, -, h⟩ := bind_eq_ok.mp h
    exact dimensionedAfterNumber_fits h
  · exact dimensionedAfterName_fits h

theorem unitless_fits (h : r.unitless ts = .ok (res, rest)) :
    res.plan.Fits r.Knows (Kind.one .unitless) := by
  simp only [unitless] at h
  split at h
  · obtain ⟨x, -, h⟩ := bind_eq_ok.mp h
    split at h
    · cases pure_eq_ok.mp h
      exact Kind.Converts.refl _
    · next op ts _ =>
      simp only [bind_eq_ok, Prod.exists, pure_eq_ok, Prod.mk.injEq] at h
      obtain ⟨rhs, ts, hrhs, rfl, -⟩ := h
      refine ⟨[Kind.one .unitless], _, List.mem_singleton_self _, nextReference_within hrhs, ?_⟩
      cases op <;> decide
  · obtain ⟨lhs, hlhs, h⟩ := bind_eq_ok.mp h
    split at h
    · cases pure_eq_ok.mp h
      exact ⟨_, reference_within hlhs, by decide⟩
    · next op ts _ =>
      split at h
      · simp only [bind_eq_ok, pure_eq_ok, Prod.mk.injEq] at h
        obtain ⟨x, -, rfl, -⟩ := h
        refine ⟨_, [Kind.one .unitless], reference_within hlhs, List.mem_singleton_self _, ?_⟩
        cases op <;> decide
      · simp only [bind_eq_ok, pure_eq_ok, Prod.mk.injEq] at h
        obtain ⟨rhs, hrhs, rfl, -⟩ := h
        refine ⟨_, _, reference_within hlhs, reference_within hrhs, ?_⟩
        cases op <;> decide

theorem integerValue_fits (h : r.integerValue ts = .ok (res, rest)) :
    res.plan.Fits r.Knows (Kind.one .integer) := by
  simp only [integerValue] at h
  split at h
  · obtain ⟨x, -, h⟩ := bind_eq_ok.mp h
    split at h
    · cases pure_eq_ok.mp h
      exact Kind.Converts.refl _
    · next op ts _ =>
      simp only [bind_eq_ok, Prod.exists, pure_eq_ok, Prod.mk.injEq] at h
      obtain ⟨rhs, ts, hrhs, rfl, -⟩ := h
      refine ⟨[Kind.one .integer], _, List.mem_singleton_self _, nextReference_within hrhs, ?_⟩
      cases op <;> decide
  · split at h
    · simp only [bind_eq_ok, pure_eq_ok, Prod.mk.injEq] at h
      obtain ⟨lhs, hlhs, rfl, -⟩ := h
      exact ⟨_, reference_within hlhs, by decide⟩
    · next op ts _ =>
      obtain ⟨lhs, hlhs, h⟩ := bind_eq_ok.mp h
      split at h
      · simp only [bind_eq_ok, pure_eq_ok, Prod.mk.injEq] at h
        obtain ⟨x, -, rfl, -⟩ := h
        refine ⟨_, [Kind.one .integer], reference_within hlhs, List.mem_singleton_self _, ?_⟩
        cases op <;> decide
      · simp only [bind_eq_ok, pure_eq_ok, Prod.mk.injEq] at h
        obtain ⟨rhs, hrhs, rfl, -⟩ := h
        refine ⟨_, _, reference_within hlhs, reference_within hrhs, ?_⟩
        cases op <;> decide

theorem boolean_fits (h : r.boolean ts = .ok (res, rest)) :
    res.plan.Fits r.Knows (Kind.one .boolean) := by
  simp only [boolean] at h
  split at h
  · obtain ⟨lhs, hlhs, h⟩ := bind_eq_ok.mp h
    split at h
    · cases pure_eq_ok.mp h
      exact ⟨_, reference_within hlhs, by decide⟩
    · next op ts hop =>
      cases List.mem_singleton.mp (mem_of_operator? hop)
      simp only [bind_eq_ok, Prod.exists, pure_eq_ok, Prod.mk.injEq] at h
      obtain ⟨rhs, ts, hrhs, rfl, -⟩ := h
      exact ⟨_, _, reference_within hlhs, nextReference_within hrhs, by decide⟩
  · split at h
    · cases pure_eq_ok.mp h
      exact Kind.Converts.refl _
    · split at h
      · obtain ⟨ref, -, h⟩ := bind_eq_ok.mp h
        cases h
      · cases h

theorem text_fits (h : r.text ts = .ok (res, rest)) :
    res.plan.Fits r.Knows (Kind.one .text) := by
  simp only [text] at h
  split at h
  · obtain ⟨x, -, h⟩ := bind_eq_ok.mp h
    split at h
    · cases pure_eq_ok.mp h
      exact Kind.Converts.refl _
    · next op ts hop =>
      cases List.mem_singleton.mp (mem_of_operator? hop)
      simp only [bind_eq_ok, Prod.exists, pure_eq_ok, Prod.mk.injEq] at h
      obtain ⟨rhs, ts, hrhs, rfl, -⟩ := h
      exact ⟨[Kind.one .text], _, List.mem_singleton_self _, nextReference_within hrhs,
        by decide⟩
  · obtain ⟨lhs, hlhs, h⟩ := bind_eq_ok.mp h
    split at h
    · cases pure_eq_ok.mp h
      exact ⟨_, reference_within hlhs, by decide⟩
    · next op ts hop =>
      cases List.mem_singleton.mp (mem_of_operator? hop)
      split at h
      · simp only [bind_eq_ok, pure_eq_ok, Prod.mk.injEq] at h
        obtain ⟨x, -, rfl, -⟩ := h
        exact ⟨_, [Kind.one .text], reference_within hlhs, List.mem_singleton_self _,
          by decide⟩
      · simp only [bind_eq_ok, pure_eq_ok, Prod.mk.injEq] at h
        obtain ⟨rhs, hrhs, rfl, -⟩ := h
        exact ⟨_, _, reference_within hlhs, reference_within hrhs, by decide⟩

/-! ## Vector values -/

theorem dimensionedsAfterNumber_fits
    (h : r.dimensionedsAfterNumber first ts = .ok (res, rest)) :
    res.plan.Fits r.Knows (Kind.many .dimensioned) := by
  rw [dimensionedsAfterNumber] at h
  split at h
  · next op ts _ =>
    simp only [bind_eq_ok, Prod.exists, pure_eq_ok, Prod.mk.injEq] at h
    obtain ⟨x, -, rhs, ts, hrhs, u, ts, -, rfl, -⟩ := h
    refine ⟨[Kind.one .unitless], _, List.mem_singleton_self _, nextReference_within hrhs, ?_⟩
    cases op <;> decide
  · simp only [bind_eq_ok, Prod.exists] at h
    obtain ⟨raw, ts, -, h⟩ := h
    split at h
    · next op ts _ =>
      -- count values * name unit
      simp only [bind_eq_ok, Prod.exists, pure_eq_ok, Prod.mk.injEq] at h
      obtain ⟨rhs, ts, hrhs, u, ts, -, lhs, hlhs, rfl, -⟩ := h
      refine ⟨_, _, listOperand_within hlhs, nextReference_within hrhs, ?_⟩
      cases op <;> decide
    · simp only [bind_eq_ok, Prod.exists] at h
      obtain ⟨u, ts, -, h⟩ := h
      split at h
      · simp only [bind_eq_ok, pure_eq_ok, Prod.mk.injEq] at h
        obtain ⟨p, hp, rfl, -⟩ := h
        exact listPlan_fits hp
      · next op ts _ =>
        simp only [bind_eq_ok, Prod.exists, pure_eq_ok, Prod.mk.injEq] at h
        obtain ⟨rhs, ts, hrhs, lhs, hlhs, rfl, -⟩ := h
        refine ⟨_, _, listOperand_within hlhs, nextReference_within hrhs, ?_⟩
        cases op <;> decide

theorem dimensionedsAfterName_fits (h : r.dimensionedsAfterName first ts = .ok (res, rest)) :
    res.plan.Fits r.Knows (Kind.many .dimensioned) := by
  rw [dimensionedsAfterName] at h
  split at h
  · next op ts _ =>
    split at h
    · -- name * count values unit
      simp only [bind_eq_ok, Prod.exists, pure_eq_ok, Prod.mk.injEq] at h
      obtain ⟨lhs, hlhs, raw, ts, -, u, ts, -, rhs, hrhs, rfl, -⟩ := h
      refine ⟨_, _, reference_within hlhs, listOperand_within hrhs, ?_⟩
      cases op <;> decide
    · -- name * name unit
      simp only [bind_eq_ok, Prod.exists, pure_eq_ok, Prod.mk.injEq] at h
      obtain ⟨lhs, hlhs, rhs, ts, hrhs, u, ts, -, rfl, -⟩ := h
      refine ⟨_, _, reference_within hlhs, nextReference_within hrhs, ?_⟩
      cases op <;> decide
  · simp only [bind_eq_ok, Prod.exists, pure_eq_ok, Prod.mk.injEq] at h
    obtain ⟨lhs, hlhs, u, ts, -, rfl, -⟩ := h
    exact ⟨_, reference_within hlhs, by decide⟩

theorem dimensioneds_fits (h : r.dimensioneds ts = .ok (res, rest)) :
    res.plan.Fits r.Knows (Kind.many .dimensioned) := by
  simp only [dimensioneds] at h
  split at h
  · exact dimensionedsAfterNumber_fits h
  · obtain ⟨u, -, h⟩ := bind_eq_ok.mp h
    exact dimensionedsAfterName_fits h

/-- A vector after a name fits if each of the factors may be multiplied with it. -/
theorem vectorAfterName_fits {factors : List Kind}
    (hfactors : ∀ op ∈ [Operator.multiply], ∀ a ∈ factors,
      ∀ b ∈ [Kind.many s], (Kind.many s).combines a op b)
    (h : r.vectorAfterName s factors first ts = .ok (res, rest)) :
    res.plan.Fits r.Knows (Kind.many s) := by
  obtain ⟨u, -, h⟩ := bind_eq_ok.mp h
  split at h
  · next op ts hop =>
    simp only [bind_eq_ok, Prod.exists, pure_eq_ok, Prod.mk.injEq] at h
    obtain ⟨lhs, hlhs, rhs, ts, hrhs, rfl, -⟩ := h
    exact ⟨_, _, reference_within hlhs, nextReference_within hrhs,
      hfactors op (mem_of_operator? hop)⟩
  · simp only [bind_eq_ok, pure_eq_ok, Prod.mk.injEq] at h
    obtain ⟨ref, href, rfl, -⟩ := h
    refine ⟨_, reference_within href, ?_⟩
    intro a ha
    rw [List.mem_singleton.mp ha]
    exact Kind.Converts.refl _

/-- A vector after its count fits if the list may be joined to each of the kinds. -/
theorem vectorAfterCount_fits {ops : List Operator}
    (hkinds : ∀ op ∈ ops, ∀ a ∈ [Kind.many s], ∀ b ∈ kinds, (Kind.many s).combines a op b)
    (h : r.vectorAfterCount s ops kinds first ts = .ok (res, rest)) :
    res.plan.Fits r.Knows (Kind.many s) := by
  simp only [vectorAfterCount, bind_eq_ok, Prod.exists] at h
  obtain ⟨raw, ts, -, h⟩ := h
  split at h
  · simp only [bind_eq_ok, pure_eq_ok, Prod.mk.injEq] at h
    obtain ⟨p, hp, rfl, -⟩ := h
    exact listPlan_fits hp
  · next op ts hop =>
    simp only [bind_eq_ok, Prod.exists, pure_eq_ok, Prod.mk.injEq] at h
    obtain ⟨rhs, ts, hrhs, lhs, hlhs, rfl, -⟩ := h
    exact ⟨_, _, listOperand_within hlhs, nextReference_within hrhs,
      hkinds op (mem_of_operator? hop)⟩

theorem scaledVector_fits {v : Value}
    (hfactor : ∀ b ∈ [Kind.many s], (Kind.many s).combines v.kind .multiply b)
    (h : r.scaledVector s v ts = .ok (res, rest)) :
    res.plan.Fits r.Knows (Kind.many s) := by
  simp only [scaledVector, bind_eq_ok, Prod.exists, pure_eq_ok, Prod.mk.injEq] at h
  obtain ⟨rhs, ts, hrhs, rfl, -⟩ := h
  refine ⟨[v.kind], _, List.mem_singleton_self _, nextReference_within hrhs, ?_⟩
  intro a ha
  rw [List.mem_singleton.mp ha]
  exact hfactor

theorem unitlesses_fits (h : r.unitlesses ts = .ok (res, rest)) :
    res.plan.Fits r.Knows (Kind.many .unitless) := by
  simp only [unitlesses] at h
  split at h
  · split at h
    · obtain ⟨x, -, h⟩ := bind_eq_ok.mp h
      refine scaledVector_fits (fun b hb => ?_) h
      rw [List.mem_singleton.mp hb]
      rfl
    · exact vectorAfterCount_fits (by decide) h
  · exact vectorAfterName_fits (by decide) h

theorem integers_fits (h : r.integers ts = .ok (res, rest)) :
    res.plan.Fits r.Knows (Kind.many .integer) := by
  simp only [integers] at h
  split at h
  · split at h
    · obtain ⟨x, -, h⟩ := bind_eq_ok.mp h
      refine scaledVector_fits (fun b hb => ?_) h
      rw [List.mem_singleton.mp hb]
      rfl
    · exact vectorAfterCount_fits (by decide) h
  split at h
  · cases h
  · exact vectorAfterName_fits (by decide) h

theorem booleans_fits (h : r.booleans ts = .ok (res, rest)) :
    res.plan.Fits r.Knows (Kind.many .boolean) := by
  simp only [booleans] at h
  split at h
  · exact vectorAfterCount_fits (by decide) h
  · simp only [bind_eq_ok, pure_eq_ok, Prod.mk.injEq] at h
    obtain ⟨u, -, ref, href, rfl, -⟩ := h
    exact ⟨_, reference_within href, by decide⟩

theorem texts_fits (h : r.texts ts = .ok (res, rest)) :
    res.plan.Fits r.Knows (Kind.many .text) := by
  simp only [texts] at h
  split at h
  · exact vectorAfterCount_fits (by decide) h
  · simp only [bind_eq_ok, pure_eq_ok, Prod.mk.injEq] at h
    obtain ⟨u, -, ref, href, rfl, -⟩ := h
    exact ⟨_, reference_within href, by decide⟩

/-! ## Whole values -/

/-- Every form gives a plan that fits the kind it is a form of. -/
theorem form_fits (h : r.form ts = .ok (res, rest)) : res.plan.Fits r.Knows r.kind := by
  obtain ⟨d, ⟨sort, isVector⟩, scope, maxLength⟩ := r
  cases isVector with
  | false =>
    cases sort with
    | boolean => exact boolean_fits h
    | integer => exact integerValue_fits h
    | unitless => exact unitless_fits h
    | dimensioned => exact dimensioned_fits h
    | text => exact text_fits h
  | true =>
    cases sort with
    | boolean => exact booleans_fits h
    | integer => exact integers_fits h
    | unitless => exact unitlesses_fits h
    | dimensioned => exact dimensioneds_fits h
    | text => exact texts_fits h

theorem resolve_fits (h : r.resolve = .ok res) : res.plan.Fits r.Knows r.kind := by
  have h := mapError_eq_ok.mp h
  rw [ofTokens] at h
  split at h
  · cases h
  split at h
  · cases h
  · next hform =>
    split at h
    · cases h
      exact form_fits hform
    · cases h

end Resolution

end ParameterChain
