/-
# What an evaluation comes by

A parameter *reads* the parameters that evaluating it asks for by itself: what the
references of its plan refer to, and, if its plan is that of a time feature, the inputs of
the feature.  A successful evaluation follows all of them and nothing else, so its trace is
known before it is run: it is the closure of the parameter under reading.

The proof follows a predicate on computations, `Tracks S`: should the computation succeed,
then it has come by the slots in `S` and by no others.

Main statement: `evaluate_tracks`.
-/
import ParameterChain.Proofs.Evaluated
import ParameterChain.Proofs.Repeats

namespace ParameterChain

/-- The inputs that are read when a feature is evaluated, those that may be missing
included. -/
def TimeFeature.inputNames (f : TimeFeature) : List String :=
  if f.function = .step then [f.input "Times", f.input "Values"]
  else [f.input "RepetitionInterval", f.input "StartValue", f.input "Rate"]

namespace Traced

variable {α β : Type} {S T : Slot → Prop} {x : Traced α} {f : α → Traced β}

/-! ## Computations that come by given slots -/

/-- When `x` succeeds, it has come by the slots in `S` and no others, and a trace without
repeats is one still. -/
def Tracks (S : Slot → Prop) (x : Traced α) : Prop :=
  ∀ t a t', x.run t = (.ok a, t') → (∀ σ, σ ∈ t' ↔ σ ∈ t ∨ S σ) ∧ (t.Nodup → t'.Nodup)

theorem Tracks.congr (hx : Tracks S x) (hST : ∀ σ, S σ ↔ T σ) : Tracks T x := by
  intro t a t' hrun
  obtain ⟨hmem, hnodup⟩ := hx t a t' hrun
  refine ⟨?_, hnodup⟩
  intro σ
  rw [hmem, hST]

theorem Tracks.pure (a : α) : Tracks (fun _ => False) (pure a : Traced α) := by
  intro t b t' hrun
  cases hrun
  exact ⟨fun σ => ⟨Or.inl, fun h => h.elim id False.elim⟩, id⟩

theorem Tracks.fail (S : Slot → Prop) (c : Cause) : Tracks S (Traced.fail c : Traced α) := by
  intro t a t' hrun
  cases hrun

theorem Tracks.ofOption (c : Cause) (o : Option α) :
    Tracks (fun _ => False) (Traced.ofOption c o) := by
  cases o with
  | none => exact .fail _ c
  | some a => exact .pure a

theorem Tracks.ofCause (r : Except Cause α) : Tracks (fun _ => False) (Traced.ofCause r) := by
  cases r with
  | error c => exact .fail _ c
  | ok a => exact .pure a

theorem Tracks.visit (s : Slot) :
    Tracks (fun σ => σ = s) (modify (Trace.visit · s) : Traced PUnit) := by
  intro t a t' hrun
  cases hrun
  refine ⟨fun σ => mem_visit.trans or_comm, ?_⟩
  intro hnodup
  show (t.visit s).Nodup
  rw [Trace.visit]
  split
  · exact hnodup
  · next hs => exact List.nodup_cons.mpr ⟨fun hmem => hs (List.contains_iff_mem.mpr hmem), hnodup⟩

theorem Tracks.bind (hx : Tracks S x) (hf : ∀ a, Tracks T (f a)) :
    Tracks (fun σ => S σ ∨ T σ) (x >>= f) := by
  intro t b t' hrun
  obtain ⟨a, m, hfirst, hrest⟩ := run_bind_eq_ok.mp hrun
  obtain ⟨hmem, hnodup⟩ := hx t a m hfirst
  obtain ⟨hmem', hnodup'⟩ := hf a m b t' hrest
  refine ⟨?_, fun ht => hnodup' (hnodup ht)⟩
  intro σ
  rw [hmem', hmem, or_assoc]

/-- A computation that goes on to one that comes by nothing more. -/
theorem Tracks.bind_silent (hx : Tracks S x) (hf : ∀ a, Tracks (fun _ => False) (f a)) :
    Tracks S (x >>= f) :=
  (hx.bind hf).congr fun _ => ⟨fun h => h.elim id False.elim, Or.inl⟩

theorem Tracks.mapM {S : α → Slot → Prop} {xs : List α} (hf : ∀ x ∈ xs, Tracks (S x) (f x)) :
    Tracks (fun σ => ∃ x ∈ xs, S x σ) (xs.mapM f) := by
  induction xs with
  | nil => exact (Tracks.pure []).congr fun σ => by simp
  | cons x xs ih =>
    rw [List.mapM_cons]
    have hrest := ih fun y hy => hf y (List.mem_cons_of_mem x hy)
    refine ((hf x List.mem_cons_self).bind fun y => hrest.bind_silent fun ys => .pure _).congr ?_
    intro σ
    simp only [List.exists_mem_cons_iff]

/-- A look-up leaves no trace itself, so what goes on with what it found runs from where it
started. -/
theorem Finds.run_bind_eq_ok {P : Parameter → Prop} {x : Traced Parameter}
    {f : Parameter → Traced β} {t t' : Trace} {b : β} (hx : x.Finds P) :
    (x >>= f).run t = (.ok b, t') ↔ ∃ p, P p ∧ (f p).run t = (.ok b, t') := by
  obtain ⟨r, hfind, hr⟩ := hx
  cases r with
  | error e =>
    rw [run_bind_error (hfind t)]
    constructor
    · rintro ⟨⟩
    · rintro ⟨p, hp, -⟩
      cases (hr p).mpr hp
  | ok p =>
    rw [run_bind_ok (hfind t)]
    constructor
    · exact fun hrun => ⟨p, (hr p).mp rfl, hrun⟩
    · rintro ⟨q, hq, hrun⟩
      cases (hr q).mpr hq
      exact hrun

/-- What is found decides what is come by. -/
theorem Tracks.find {P : Parameter → Prop} {x : Traced Parameter} {f : Parameter → Traced β}
    (hx : x.Finds P) (hf : ∀ p, P p → Tracks S (f p)) : Tracks S (x >>= f) := by
  intro t b t' hrun
  obtain ⟨p, hp, hrest⟩ := (Finds.run_bind_eq_ok hx).mp hrun
  exact hf p hp t b t' hrest

end Traced

open Traced

namespace Graph

variable {g : Graph} {p q : Parameter}

/-! ## Reading -/

/-- Evaluating `p` asks for the value of `q`. -/
inductive Reads (g : Graph) (p : Parameter) : Parameter → Prop
  | ref {r : Ref} {q : Parameter} :
      r ∈ p.plan.refs → g.target? p r = some q → Reads g p q
  | input {base : Key} {f : TimeFeature} {name : String} {q : Parameter} :
      p.plan = .feature base → g.feature? base = some f → name ∈ f.inputNames →
      g.visible? (Key.ofText name) = some q → Reads g p q

/-- `q` is `p` or is read from it, directly or through others. -/
def Reaches (g : Graph) (p q : Parameter) : Prop :=
  Relation.ReflTransGen g.Reads p q

theorem reaches_iff {σ : Slot} :
    (∃ q, g.Reaches p q ∧ q.slot = σ) ↔
      σ = p.slot ∨ ∃ m, g.Reads p m ∧ ∃ q, g.Reaches m q ∧ q.slot = σ := by
  constructor
  · rintro ⟨q, hq, rfl⟩
    rcases Relation.ReflTransGen.cases_head hq with rfl | ⟨m, hm, hq⟩
    · exact Or.inl rfl
    · exact Or.inr ⟨m, hm, q, hq, rfl⟩
  · rintro (rfl | ⟨m, hm, q, hq, rfl⟩)
    · exact ⟨p, .refl, rfl⟩
    · exact ⟨q, .head hm hq, rfl⟩

/-- What is come by through a look-up that found `o`. -/
def Through (g : Graph) (o : Option Parameter) (σ : Slot) : Prop :=
  ∃ m, o = some m ∧ ∃ q, g.Reaches m q ∧ q.slot = σ

section Plans

variable {eval : Parameter → Traced Value}
  (heval : ∀ q, Tracks (fun σ => ∃ m, g.Reaches q m ∧ m.slot = σ) (eval q))

include heval

/-- Looking a parameter up, evaluating it and going on with its value. -/
theorem find_eval_tracks {β : Type} {x : Traced Parameter} {P : Parameter → Prop}
    {o : Option Parameter} {f : Parameter → Value → Traced β} (hx : x.Finds P)
    (ho : ∀ q, P q → o = some q) (hf : ∀ q v, Tracks (fun _ => False) (f q v)) :
    Tracks (g.Through o) (x >>= fun q => eval q >>= f q) := by
  refine .find hx ?_
  intro q hq
  refine ((heval q).bind_silent (hf q)).congr ?_
  intro σ
  constructor
  · rintro ⟨m, hm⟩
    exact ⟨q, ho q hq, m, hm⟩
  · rintro ⟨q', hq', m, hm⟩
    cases (ho q hq).symm.trans hq'
    exact ⟨m, hm⟩

theorem evalRef_tracks (p : Parameter) (r : Ref) :
    Tracks (g.Through (g.target? p r)) (g.evalRef eval p r) := by
  have h : Tracks (g.Through (g.target? p r)) (g.target p r >>= fun q => eval q >>= Pure.pure) :=
    find_eval_tracks heval .ofOption (fun _ h => h) fun _ v => .pure v
  simp only [bind_pure] at h
  exact h

theorem evalElement_tracks (p : Parameter) {s : Scalar} (e : Element s) :
    Tracks (fun σ => ∃ r, e.ref? = some r ∧ g.Through (g.target? p r) σ)
      (g.evalElement eval p e) := by
  cases e with
  | literal x =>
    refine (Tracks.pure x).congr ?_
    intro σ
    simp [Element.ref?]
  | param r =>
    refine (find_eval_tracks heval .ofOption (fun _ h => h) fun _ _ => .ofOption _ _).congr ?_
    intro σ
    simp [Element.ref?]

theorem evalList_tracks (p : Parameter) (s : Scalar) (elements : List (Element s)) :
    Tracks (fun σ => ∃ r ∈ elements.filterMap Element.ref?, g.Through (g.target? p r) σ)
      (g.evalList eval p s elements) := by
  refine ((Tracks.mapM fun e _ => evalElement_tracks heval p e).bind_silent
    fun xs => .pure _).congr ?_
  intro σ
  simp only [List.mem_filterMap]
  constructor
  · rintro ⟨e, he, r, hr, hσ⟩
    exact ⟨r, ⟨e, he, hr⟩, hσ⟩
  · rintro ⟨r, ⟨e, he, hr⟩, hσ⟩
    exact ⟨e, he, r, hr, hσ⟩

theorem evalOperand_tracks (p : Parameter) (o : Operand) :
    Tracks (fun σ => ∃ r ∈ o.refs, g.Through (g.target? p r) σ) (g.evalOperand eval p o) := by
  cases o with
  | literal v =>
    refine (Tracks.pure v).congr ?_
    intro σ
    simp [Operand.refs]
  | list s elements => exact evalList_tracks heval p s elements
  | param r =>
    refine (evalRef_tracks heval p r).congr ?_
    intro σ
    simp [Operand.refs]

/-! ## Time features -/

theorem evalDimensioned_tracks (name category : String) :
    Tracks (g.Through (g.visible? (Key.ofText name))) (g.evalDimensioned eval name category) :=
  find_eval_tracks heval (namedOfCategory_finds g name _ category) (fun _ h => h.1.1)
    fun _ _ => .ofOption _ _

theorem evalUnitless_tracks (name : String) :
    Tracks (g.Through (g.visible? (Key.ofText name))) (g.evalUnitless eval name) :=
  find_eval_tracks heval (namedOfKind_finds g name _) (fun _ h => h.1) fun _ _ => .ofOption _ _

theorem evalDimensioneds_tracks (name category : String) :
    Tracks (g.Through (g.visible? (Key.ofText name))) (g.evalDimensioneds eval name category) :=
  find_eval_tracks heval (namedOfCategory_finds g name _ category) (fun _ h => h.1.1)
    fun _ _ => .ofOption _ _

/-- A repetition interval that there is none of is not come by. -/
theorem evalRepetition_tracks (f : TimeFeature) (t : Float) :
    Tracks (g.Through (g.visible? (Key.ofText (f.input "RepetitionInterval"))))
      (g.evalRepetition eval f t) := by
  rw [evalRepetition]
  split
  · exact (evalDimensioned_tracks heval _ _).bind_silent fun x => .pure _
  · next hnone =>
    refine (Tracks.pure t).congr ?_
    intro σ
    rw [Option.not_isSome_iff_eq_none.mp hnone]
    simp [Through]

theorem evalStartAndRate_tracks (f : TimeFeature) :
    Tracks (fun σ => g.Through (g.visible? (Key.ofText (f.input "StartValue"))) σ ∨
        g.Through (g.visible? (Key.ofText (f.input "Rate"))) σ)
      (g.evalStartAndRate eval f) := by
  have hdimensioned := evalDimensioned_tracks heval
  unfold evalStartAndRate
  simp only
  split
  · exact (hdimensioned _ _).bind fun start => (hdimensioned _ _).bind_silent fun rate => .pure _
  split
  · exact (hdimensioned _ _).bind fun start => (hdimensioned _ _).bind_silent fun rate => .pure _
  · exact (evalUnitless_tracks heval _).bind fun start =>
      (hdimensioned _ _).bind_silent fun rate => .pure _

/-- A feature comes by what its inputs come by. -/
theorem evalFeature_tracks (f : TimeFeature) (t : Float) :
    Tracks (fun σ => ∃ name ∈ f.inputNames, g.Through (g.visible? (Key.ofText name)) σ)
      (g.evalFeature eval f t) := by
  rw [evalFeature, TimeFeature.inputNames]
  split
  · rw [evalStep]
    refine ((evalDimensioneds_tracks heval _ _).bind fun times =>
      find_eval_tracks heval (named_finds g _) (fun _ h => h) fun _ _ => .ofCause _).congr ?_
    intro σ
    simp
  · rw [evalClosedForm]
    refine ((evalRepetition_tracks heval f t).bind fun t =>
      (evalStartAndRate_tracks heval f).bind_silent fun inputs => .pure _).congr ?_
    intro σ
    simp

/-! ## Parameters -/

/-- A plan comes by what the parameters come by that it reads. -/
theorem evalPlan_tracks (p : Parameter) :
    Tracks (fun σ => ∃ m, g.Reads p m ∧ ∃ q, g.Reaches m q ∧ q.slot = σ)
      (g.evalPlan eval p) := by
  -- The references of a plan and the inputs of a feature are never both there.
  have hrefs : ∀ σ, (∀ base, p.plan ≠ .feature base) →
      ((∃ r ∈ p.plan.refs, g.Through (g.target? p r) σ) ↔
        ∃ m, g.Reads p m ∧ ∃ q, g.Reaches m q ∧ q.slot = σ) := by
    intro σ hplain
    constructor
    · rintro ⟨r, hr, m, hm, hσ⟩
      exact ⟨m, .ref hr hm, hσ⟩
    · rintro ⟨m, hm, hσ⟩
      cases hm with
      | ref hr hm => exact ⟨_, hr, m, hm, hσ⟩
      | input hplan => exact absurd hplan (hplain _)
  unfold evalPlan
  cases hplan : p.plan with
  | literal v =>
    refine (Tracks.pure v).congr ?_
    intro σ
    rw [← hrefs σ (by simp [hplan])]
    simp [hplan, Plan.refs]
  | list s elements =>
    refine (evalList_tracks heval p s elements).congr ?_
    intro σ
    rw [← hrefs σ (by simp [hplan]), hplan, Plan.refs]
  | reference r =>
    refine (evalRef_tracks heval p r).congr ?_
    intro σ
    rw [← hrefs σ (by simp [hplan])]
    simp [hplan, Plan.refs]
  | binary lhs op rhs =>
    refine ((evalOperand_tracks heval p lhs).bind fun a =>
      (evalOperand_tracks heval p rhs).bind_silent fun b => .ofCause _).congr ?_
    intro σ
    rw [← hrefs σ (by simp [hplan]), hplan, Plan.refs]
    simp only [List.mem_append, or_and_right, exists_or]
  | feature base =>
    simp only
    cases hf : g.feature? base with
    | none => exact .fail _ _
    | some f =>
      refine (evalFeature_tracks heval f g.clock).congr ?_
      intro σ
      constructor
      · rintro ⟨name, hname, m, hm, hσ⟩
        exact ⟨m, .input hplan hf hname hm, hσ⟩
      · rintro ⟨m, hm, hσ⟩
        cases hm with
        | ref hr => simp [hplan, Plan.refs] at hr
        | input hplan' hf' hname hm =>
          cases hplan.symm.trans hplan'
          cases hf.symm.trans hf'
          exact ⟨_, hname, m, hm, hσ⟩

theorem evalWith_tracks (p : Parameter) :
    Tracks (fun σ => ∃ q, g.Reaches p q ∧ q.slot = σ) (g.evalWith eval p) := by
  refine ((Tracks.visit p.slot).bind fun _ =>
    (evalPlan_tracks heval p).bind_silent fun v => .ofOption _ _).congr ?_
  intro σ
  exact reaches_iff.symm

end Plans

/-- An evaluation that succeeds has come by what its parameter reaches by reading, and by
nothing else, whatever the depth. -/
theorem evaluate_tracks (g : Graph) (limit fuel : Nat) (p : Parameter) :
    Tracks (fun σ => ∃ q, g.Reaches p q ∧ q.slot = σ) (g.evaluate limit fuel p) := by
  induction fuel generalizing p with
  | zero => exact .fail _ _
  | succ fuel ih => exact evalWith_tracks ih p

end Graph

/-! ## Readings that succeed -/

/-- What a reader takes for granted about a parameter, as a condition. -/
def Expectation.Admits : Expectation → Parameter → Prop
  | .any, _ => True
  | .ofKind k, p => p.kind = k
  | .ofCategory k category, p => p.kind = k ∧ p.category?.getD "" = category

/-- A reading gives the value of what is visible, if it is as expected. -/
theorem Graph.read_eq_ok {g : Graph} {limits : Limits} {name : String} {e : Expectation}
    {t t' : Trace} {v : Value} : (g.read limits name e).run t = (.ok v, t') ↔
      ∃ p, g.visible? (Key.ofText name) = some p ∧ e.Admits p ∧
        (g.valueOf limits p).run t = (.ok v, t') := by
  cases e with
  | any =>
    refine (named_finds g name).run_bind_eq_ok.trans (exists_congr fun p => ?_)
    simp only [Expectation.Admits, true_and]
  | ofKind k =>
    refine (namedOfKind_finds g name k).run_bind_eq_ok.trans (exists_congr fun p => ?_)
    exact and_assoc
  | ofCategory k category =>
    refine (namedOfCategory_finds g name k category).run_bind_eq_ok.trans (exists_congr fun p => ?_)
    simp only [Expectation.Admits, and_assoc]

/-! ## What a reader is given -/

/-- The elements of a value are seen as booleans exactly if they are. -/
theorem Value.booleans?_eq_some {v : Value} {elements : Shape Bool} :
    v.booleans? = some elements ↔ v = ⟨.boolean, elements⟩ := by
  constructor
  · obtain ⟨sort, shape⟩ := v
    intro h
    cases sort with
    | boolean =>
      cases h
      rfl
    | _ => cases h
  · rintro rfl
    rfl

/-- They are seen as strings exactly if they are texts, not if they are only written as such. -/
theorem Value.strings?_eq_some {v : Value} {elements : Shape String} :
    v.strings? = some elements ↔ v = ⟨.text, elements⟩ := by
  constructor
  · obtain ⟨sort, shape⟩ := v
    intro h
    cases sort with
    | text =>
      cases h
      rfl
    | _ => cases h
  · rintro rfl
    rfl

/-- Who asks for a kind is given a value of it, so that elements of its sort can be taken out, one
of them or a list as the kind says. -/
theorem Graph.elements_of_read {g : Graph} {limits : Limits} {name : String} {k : Kind}
    {t t' : Trace} {v : Value} (h : (g.read limits name (.ofKind k)).run t = (.ok v, t')) :
    v.kind = k ∧
      (k.scalar = .boolean →
        ∃ elements, v.booleans? = some elements ∧ elements.isMany = k.isVector) ∧
      (k.scalar = .text →
        ∃ elements, v.strings? = some elements ∧ elements.isMany = k.isVector) := by
  obtain ⟨p, -, hp, hvalue⟩ := read_eq_ok.mp h
  have hkind : v.kind = k := (kind_of_evaluate hvalue).trans hp
  obtain ⟨sort, shape⟩ := v
  subst hkind
  refine ⟨rfl, ?_, ?_⟩
  · rintro rfl
    exact ⟨shape, Value.booleans?_eq_some.mpr rfl, rfl⟩
  · rintro rfl
    exact ⟨shape, Value.strings?_eq_some.mpr rfl, rfl⟩

end ParameterChain
