/-
# Evaluation does not go wrong

In a session without time features, whose plans name all that they read, a visible
parameter evaluates to a value of its kind or runs into a bound: the limit on the depth
of references, or two vectors of different lengths.  It is never undefined and never of
the wrong kind, although its names were judged along the chain of the declaring file
and are looked up through the whole chain, where nearer files and edits stand before
the declarations that were judged.

Main statements: `evaluate_gives`, by induction on the depth that is left, and
`valueOf_run`.
-/
import ParameterChain.Proofs.Traced
import ParameterChain.Proofs.Typed
import ParameterChain.Proofs.Visible

namespace ParameterChain

/-! ## Results that do not go wrong -/

/-- The causes by which an evaluation runs into a bound. -/
def Cause.IsBound (limit : Nat) (c : Cause) : Prop :=
  c = .evaluationTooDeep limit ∨
    ∃ name expected found, c = .lengthMismatch name expected found

/-- From every trace the computation gives a result with `P` or runs into a bound. -/
def Traced.Gives {α : Type} (limit : Nat) (P : α → Prop) (x : Traced α) : Prop :=
  ∀ t, match (x.run t).1 with
    | .ok a => P a
    | .error e => e.cause.IsBound limit

namespace Traced

variable {α β : Type} {limit : Nat} {P : α → Prop} {Q : β → Prop}

theorem Gives.pure {a : α} (ha : P a) : Gives limit P (pure a : Traced α) :=
  fun _ => ha

theorem Gives.mono {P' : α → Prop} {x : Traced α} (hx : Gives limit P x)
    (hP : ∀ a, P a → P' a) : Gives limit P' x := by
  intro t
  have hxt := hx t
  rcases hrun : x.run t with ⟨result, m⟩
  rw [hrun] at hxt
  cases result with
  | ok a => exact hP a hxt
  | error e => exact hxt

theorem Gives.bind {x : Traced α} {f : α → Traced β} (hx : Gives limit P x)
    (hf : ∀ a, P a → Gives limit Q (f a)) : Gives limit Q (x >>= f) := by
  intro t
  have hxt := hx t
  rcases hrun : x.run t with ⟨result, m⟩
  rw [hrun] at hxt
  cases result with
  | ok a =>
    rw [run_bind_ok hrun]
    exact hf a hxt m
  | error e =>
    rw [run_bind_error hrun]
    exact hxt

theorem Gives.ofOption {c : Cause} {o : Option α} (ho : ∃ a, o = some a ∧ P a) :
    Gives limit P (Traced.ofOption c o) := by
  obtain ⟨a, rfl, ha⟩ := ho
  exact .pure ha

theorem Gives.ofCause {k : Kind} {r : Except Cause Value} (hr : Value.OfKind k r) :
    Gives limit (fun v => v.kind = k) (Traced.ofCause r) := by
  intro t
  cases r with
  | ok v => exact hr
  | error c => exact Or.inr hr

theorem Gives.mapM {f : α → Traced β} {xs : List α}
    (hf : ∀ x ∈ xs, Gives limit (fun _ => True) (f x)) :
    Gives limit (fun _ => True) (xs.mapM f) := by
  induction xs with
  | nil => exact .pure trivial
  | cons x xs ih =>
    rw [List.mapM_cons]
    refine (hf x List.mem_cons_self).bind ?_
    intro y _
    refine (ih fun z hz => hf z (List.mem_cons_of_mem x hz)).bind ?_
    intro ys _
    exact .pure trivial

end Traced

open Traced

namespace Graph

variable {g : Graph} {h : FileId} {k : Key} {p q : Parameter} {limit : Nat}

/-- Every plan names what it reads. -/
def NamesOnly (g : Graph) : Prop :=
  ∀ h k p, g.declared? h k = some p → Ref.inherited ∉ p.plan.refs

/-- What is visible under a key is of the one kind with which the key is declared. -/
theorem Whole.visible?_of_declares (hg : g.Whole) (ht : g.Typed) {a : Kind}
    (hk : g.Declares k a) : ∃ q, g.visible? k = some q ∧ g.Stored q ∧ q.kind = a := by
  obtain ⟨h, p, hp, rfl⟩ := hk
  obtain ⟨q, hq, hb⟩ := (hg.visible?_eq k).2 h p hp
  have hstored := hg.home.stored_of_visible? hq
  have hx : g.declared? q.file k = some q := (key_of_visible? hq) ▸ hstored
  refine ⟨q, hq, hstored, ?_⟩
  exact ht.kinds q.file (lt_size_of_declared? hx) q.file h k q p (Below.refl g q.file) hb hx hp

section Plans

variable (hg : g.Whole) (ht : g.Typed) {eval : Parameter → Traced Value}
  (heval : ∀ q, g.Stored q → Gives limit (fun v => v.kind = q.kind) (eval q))

include hg ht

/-- A reference that is within some kinds reads a parameter of one of them. -/
theorem target_gives {kinds : List Kind} {r : Ref} (hr : r.Within g.Declares kinds)
    (hne : r ≠ .inherited) :
    Gives limit (fun q => g.Stored q ∧ q.kind ∈ kinds) (g.target p r) := by
  cases r with
  | inherited => exact absurd rfl hne
  | named name =>
    obtain ⟨a, ha, hname⟩ := hr
    obtain ⟨q, hq, hstored, rfl⟩ := hg.visible?_of_declares ht hname
    exact .ofOption ⟨q, hq, hstored, ha⟩

include heval

theorem evalRef_gives {kinds : List Kind} {r : Ref} (hr : r.Within g.Declares kinds)
    (hne : r ≠ .inherited) :
    Gives limit (fun v => v.kind ∈ kinds) (g.evalRef eval p r) := by
  refine (target_gives hg ht hr hne).bind ?_
  intro q hq
  refine (heval q hq.1).mono ?_
  intro v hv
  rw [hv]
  exact hq.2

theorem evalElement_gives {s : Scalar} {e : Element s} (he : e.Fits g.Declares)
    (hne : e.ref? ≠ some .inherited) :
    Gives limit (fun _ => True) (g.evalElement eval p e) := by
  cases e with
  | literal x => exact .pure trivial
  | param r =>
    obtain ⟨kinds, hr, hkinds⟩ := he
    have hne : r ≠ .inherited := by
      rintro rfl
      exact hne rfl
    refine (target_gives hg ht hr hne).bind ?_
    intro q hq
    refine (heval q hq.1).bind ?_
    intro v hv
    obtain ⟨x, hx⟩ := Value.scalarAs?_of_converts (v := v) (hv ▸ hkinds q.kind hq.2)
    exact .ofOption ⟨x, hx, trivial⟩

theorem evalList_gives {s : Scalar} {elements : List (Element s)}
    (hfits : ∀ e ∈ elements, e.Fits g.Declares)
    (hne : Ref.inherited ∉ elements.filterMap Element.ref?) :
    Gives limit (fun v => v.kind = Kind.many s) (g.evalList eval p s elements) := by
  refine (Gives.mapM fun e he => ?_).bind fun xs _ => .pure rfl
  refine evalElement_gives hg ht heval (hfits e he) fun href => hne ?_
  exact List.mem_filterMap.mpr ⟨e, he, href⟩

theorem evalOperand_gives {kinds : List Kind} {o : Operand} (ho : o.Within g.Declares kinds)
    (hne : Ref.inherited ∉ o.refs) :
    Gives limit (fun v => v.kind ∈ kinds) (g.evalOperand eval p o) := by
  cases o with
  | literal v => exact .pure ho
  | list s elements =>
    refine (evalList_gives hg ht heval ho.2 hne).mono ?_
    intro v hv
    rw [hv]
    exact ho.1
  | param r =>
    refine evalRef_gives hg ht heval ho ?_
    rintro rfl
    exact hne (List.mem_singleton_self _)

theorem evalPlan_gives (hfits : p.plan.Fits g.Declares p.kind)
    (hne : Ref.inherited ∉ p.plan.refs) :
    Gives limit (fun v => v.kind.Converts p.kind) (g.evalPlan eval p) := by
  rw [evalPlan]
  cases hplan : p.plan with
  | literal v =>
    rw [hplan] at hfits
    exact .pure hfits
  | list s elements =>
    rw [hplan] at hfits hne
    refine (evalList_gives hg ht heval hfits.2 hne).mono ?_
    intro v hv
    rw [hv]
    exact hfits.1
  | reference r =>
    rw [hplan] at hfits hne
    obtain ⟨kinds, hr, hkinds⟩ := hfits
    have hne : r ≠ .inherited := by
      rintro rfl
      exact hne (List.mem_singleton_self _)
    exact (evalRef_gives hg ht heval hr hne).mono fun v hv => hkinds v.kind hv
  | binary lhs op rhs =>
    rw [hplan] at hfits hne
    obtain ⟨as, bs, hlhs, hrhs, hkinds⟩ := hfits
    have hnl : Ref.inherited ∉ lhs.refs := fun hmem => hne (List.mem_append_left _ hmem)
    have hnr : Ref.inherited ∉ rhs.refs := fun hmem => hne (List.mem_append_right _ hmem)
    refine (evalOperand_gives hg ht heval hlhs hnl).bind ?_
    intro v hv
    refine (evalOperand_gives hg ht heval hrhs hnr).bind ?_
    intro w hw
    have hcombined : Value.OfKind p.kind (Value.combine p.kind v op w (p.operandName rhs)) :=
      Value.combine_of_combines (hkinds v.kind hv w.kind hw)
    refine (Gives.ofCause hcombined).mono ?_
    intro u hu
    rw [hu]
    exact Kind.Converts.refl p.kind
  | feature base =>
    rw [hplan] at hfits
    exact hfits.elim

theorem evalWith_gives (hfits : p.plan.Fits g.Declares p.kind)
    (hne : Ref.inherited ∉ p.plan.refs) :
    Gives limit (fun v => v.kind = p.kind) (g.evalWith eval p) := by
  have hvisit : Gives limit (fun _ => True) (modify (Trace.visit · p.slot) : Traced PUnit) :=
    fun _ => trivial
  refine hvisit.bind ?_
  intro _ _
  refine (evalPlan_gives hg ht heval hfits hne).bind ?_
  intro v hv
  exact .ofOption (Value.coerce?_of_converts hv)

end Plans

/-- Evaluation gives a value of the parameter's kind or runs into a bound. -/
theorem evaluate_gives (hg : g.Whole) (ht : g.Typed) (hnames : g.NamesOnly) (fuel : Nat) :
    ∀ p, g.Stored p → Gives limit (fun v => v.kind = p.kind) (g.evaluate limit fuel p) := by
  induction fuel with
  | zero =>
    intro p _ t
    exact Or.inl rfl
  | succ fuel ih =>
    intro p hp
    exact evalWith_gives hg ht ih (ht.plans _ _ p hp) (hnames _ _ p hp)

end Graph

/-! ## Sessions -/

namespace Session

/-- Type soundness.  Let a session have been loaded and then edited at will, and let no
key be the root of a time feature and no plan refer to the inherited value.  Whatever
the limits are, every visible parameter evaluates to a value of its own kind, or the
references are too deep, or two vectors differ in length. -/
theorem valueOf_run {source : Source} {options : LoadOptions} {top : String} {s : Session}
    (hload : Session.load source options top = .ok s) (steps : List Step)
    (hfree : (s.run steps).graph.Featureless) (hnames : (s.run steps).graph.NamesOnly)
    {k : Key} {p : Parameter} (hp : (s.run steps).graph.visible? k = some p)
    (limits : Limits) (t : Trace) :
    (∃ v, (((s.run steps).graph.valueOf limits p).run t).1 = .ok v ∧ v.kind = p.kind) ∨
      ∃ e, (((s.run steps).graph.valueOf limits p).run t).1 = .error e ∧
        (e.cause = .evaluationTooDeep limits.evaluationDepth ∨
          ∃ name expected found, e.cause = .lengthMismatch name expected found) := by
  have hrooted : (s.run steps).graph.Rooted := rooted_run (rooted_load hload) steps
  have hgives : Traced.Gives limits.evaluationDepth (fun v => v.kind = p.kind)
      ((s.run steps).graph.valueOf limits p) :=
    Graph.evaluate_gives hrooted.whole (hrooted.typed hfree) hnames _ p
      (hrooted.whole.home.stored_of_visible? hp)
  have hgives := hgives t
  cases hr : (((s.run steps).graph.valueOf limits p).run t).1 with
  | ok v =>
    rw [hr] at hgives
    exact Or.inl ⟨v, rfl, hgives⟩
  | error e =>
    rw [hr] at hgives
    exact Or.inr ⟨e, rfl, hgives⟩

/-- What holds of every parameter in the files holds of what they declare. -/
theorem forall_declared {g : Graph} {test : Parameter → Bool}
    (htest : (g.files.toList.all fun file => file.parameters.all test) = true) {f : FileId}
    {k : Key} {p : Parameter} (hp : g.declared? f k = some p) : test p := by
  rw [Graph.declared?, Graph.parametersOf] at hp
  cases hfile : g.files[f]? with
  | none =>
    rw [hfile] at hp
    cases hp
  | some file =>
    rw [hfile] at hp
    have hmem : file ∈ g.files.toList := Array.mem_toList_iff.mpr (Array.mem_of_getElem? hfile)
    exact List.all_eq_true.mp (List.all_eq_true.mp htest file hmem) p (mem_of_rowOf? hp)

theorem valueOf_run_sharedArms :
    ∃ s p, Session.load sharedArms { withDefaults := false } "top" = .ok s ∧
      let g := (s.run sharedEdits).graph
      g.Featureless ∧ g.NamesOnly ∧ g.visible? ⟨"y"⟩ = some p ∧
        ((∃ v, ((g.valueOf {} p).run []).1 = .ok v ∧ v.kind = p.kind) ∨
          ∃ e, ((g.valueOf {} p).run []).1 = .error e ∧
            (e.cause = .evaluationTooDeep ({} : Limits).evaluationDepth ∨
              ∃ name expected found, e.cause = .lengthMismatch name expected found)) := by
  have hok : (match Session.load sharedArms { withDefaults := false } "top" with
      | .ok s =>
          ((s.run sharedEdits).graph.files.toList.all fun file => file.parameters.all fun p =>
            p.key.featureBase? == none && !p.plan.refs.contains .inherited) &&
            ((s.run sharedEdits).graph.visible? ⟨"y"⟩).isSome
      | .error _ => false) = true := by
    decide +kernel
  cases hload : Session.load sharedArms { withDefaults := false } "top" with
  | error e => exact nomatch hload ▸ hok
  | ok s =>
    rw [hload] at hok
    obtain ⟨hall, hsome⟩ := Bool.and_eq_true_iff.mp hok
    obtain ⟨p, hp⟩ := Option.isSome_iff_exists.mp hsome
    have hfree : (s.run sharedEdits).graph.Featureless := by
      intro h k q hq
      have htest := (Bool.and_eq_true_iff.mp (forall_declared hall hq)).1
      exact Graph.key_of_declared? hq ▸ beq_iff_eq.mp htest
    have hnames : (s.run sharedEdits).graph.NamesOnly := by
      intro h k q hq hmem
      have htest := (Bool.and_eq_true_iff.mp (forall_declared hall hq)).2
      simp [hmem] at htest
    exact ⟨s, p, rfl, hfree, hnames, hp, valueOf_run hload _ hfree hnames hp _ _⟩

end Session

end ParameterChain
