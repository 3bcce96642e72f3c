/-
# What a self reference comes to

The resolver takes the inherited value of a parameter wherever a name may stand.  It asks
neither whether there is one nor whether its kind is one that the form has room for.  That is a
slip, for a parameter that is named in the same place is asked both.  So a file may be loaded in
which a parameter inherits what nothing above it declares, or is multiplied by itself.

Among what is let through are lists with the inherited value among their elements, though no list
has room for a vector (`Graph.Mixes.not_derives`).  To the check of the arms a list is an absolute
value, so that it may stand in a file whose includes disagree on its name.  For these lists an
exception has to be made where it is said that the order of includes does not matter
(`ParameterChain.Proofs.IncludeOrder`) and that inherited values follow the includes
(`ParameterChain.Proofs.HandedDown`).

What is true of the parameters of a load is said in `Session.inherited_run`.  A form derives
the value, and it does so by the kind of the parameter exactly if the plan does not misplace
the inherited value (`ParameterChain.Proofs.Admission`).  Whatever the includes of the file
show under the name is of that kind.  What is above a file stays as it was loaded through all
edits, so either the inherited value is there for good or no read of the parameter succeeds.
-/
import ParameterChain.Proofs.Admission
import ParameterChain.Proofs.Clock
import ParameterChain.Proofs.Edited
import ParameterChain.Proofs.Inherited
import ParameterChain.Proofs.Questions

namespace ParameterChain

/-! ## Computations that fail -/

namespace Traced

variable {α β : Type} {x : Traced α} {f : α → Traced β}

/-- Every run of the computation fails. -/
def Fails (x : Traced α) : Prop :=
  ∀ t, ∃ e t', x.run t = (.error e, t')

theorem Fails.fail (c : Cause) : Fails (Traced.fail c : Traced α) :=
  fun t => ⟨c.failure, t, rfl⟩

theorem Fails.bind (hx : Fails x) : Fails (x >>= f) := by
  intro t
  obtain ⟨e, t', h⟩ := hx t
  exact ⟨e, t', run_bind_error h⟩

theorem Fails.of_next (hf : ∀ a, Fails (f a)) : Fails (x >>= f) := by
  intro t
  rcases hx : x.run t with ⟨_ | a, m⟩
  · exact ⟨_, m, run_bind_error hx⟩
  · rw [run_bind_ok hx]
    exact hf a m

theorem Fails.mapM {γ : Type} {f : γ → Traced α} {xs : List γ} {y : γ} (hy : y ∈ xs)
    (hf : Fails (f y)) : Fails (xs.mapM f) := by
  induction xs with
  | nil => exact absurd hy List.not_mem_nil
  | cons x xs ih =>
    rw [List.mapM_cons]
    rcases List.mem_cons.mp hy with rfl | hy
    · exact hf.bind
    · exact .of_next fun _ => (ih hy).bind

end Traced

namespace Graph

variable {g : Graph} {eval : Parameter → Traced Value} {p : Parameter} {o : Operand}
  {limits : Limits}

/-! ## Reads with nothing above -/

section Undefined

variable (hnone : g.above? p.file p.key = none)

include hnone

theorem target_inherited : g.target p .inherited = Traced.fail (.undefined p.name.text) := by
  rw [target, target?, hnone]
  rfl

theorem evalOperand_fails (ho : .inherited ∈ o.refs) : (g.evalOperand eval p o).Fails := by
  cases o with
  | literal v => cases ho
  | list s elements =>
    obtain ⟨e, he, href⟩ := List.mem_filterMap.mp ho
    cases e with
    | literal x => cases href
    | param ref =>
      cases href
      refine Traced.Fails.bind (.mapM he ?_)
      rw [evalElement, target_inherited hnone]
      exact Traced.Fails.bind (.fail _)
  | param ref =>
    cases List.mem_singleton.mp ho
    rw [evalOperand, evalRef, target_inherited hnone]
    exact Traced.Fails.bind (.fail _)

theorem evalPlan_fails (hr : .inherited ∈ p.plan.refs) : (g.evalPlan eval p).Fails := by
  have hoperand : ∀ o : Operand, .inherited ∈ o.refs → (g.evalOperand eval p o).Fails :=
    fun _ => evalOperand_fails hnone
  rw [evalPlan]
  generalize hplan : p.plan = plan at hr
  cases plan with
  | literal v => cases hr
  | list s elements => exact hoperand (.list s elements) hr
  | reference ref => exact hoperand (.param ref) hr
  | binary lhs op rhs =>
    rcases List.mem_append.mp hr with hr | hr
    · exact (hoperand lhs hr).bind
    · exact .of_next fun _ => (hoperand rhs hr).bind
  | feature base => cases hr

/-- A parameter that refers to its inherited value has no value if nothing is above it. -/
theorem valueOf_fails (hr : .inherited ∈ p.plan.refs) (limits : Limits) :
    (g.valueOf limits p).Fails := by
  rw [valueOf]
  cases limits.evaluationDepth with
  | zero => exact .fail _
  | succ n => exact .of_next fun _ => (evalPlan_fails hnone hr).bind

/-! ### Where nothing else is referred to -/

theorem mapM_evalElement_undefined {s : Scalar} {elements : List (Element s)}
    (hr : .inherited ∈ elements.filterMap Element.ref?)
    (hall : ∀ ref ∈ elements.filterMap Element.ref?, ref = .inherited) :
    elements.mapM (g.evalElement eval p) = Traced.fail (.undefined p.name.text) := by
  induction elements with
  | nil => cases hr
  | cons e elements ih =>
    rw [List.mapM_cons]
    cases e with
    | literal x =>
      rw [evalElement, pure_bind, ih hr hall]
      rfl
    | param ref =>
      obtain rfl : ref = .inherited := hall ref List.mem_cons_self
      rw [evalElement, target_inherited hnone]
      rfl

theorem evalOperand_undefined (hr : .inherited ∈ o.refs) (hall : ∀ ref ∈ o.refs, ref = .inherited) :
    g.evalOperand eval p o = Traced.fail (.undefined p.name.text) := by
  cases o with
  | literal v => cases hr
  | list s elements =>
    rw [evalOperand, evalList, mapM_evalElement_undefined hnone hr hall]
    rfl
  | param ref =>
    cases List.mem_singleton.mp hr
    rw [evalOperand, evalRef, target_inherited hnone]
    rfl

omit hnone in
/-- An operand without references has a value. -/
theorem exists_evalOperand (ho : o.refs = []) : ∃ v, g.evalOperand eval p o = pure v := by
  cases o with
  | literal v => exact ⟨v, rfl⟩
  | param ref => cases ho
  | list s elements =>
    have hall : ∀ e ∈ elements, e.ref? = none := List.filterMap_eq_nil_iff.mp ho
    have hvalues : ∃ xs, elements.mapM (g.evalElement eval p) = pure xs := by
      clear ho
      induction elements with
      | nil => exact ⟨[], rfl⟩
      | cons e elements ih =>
        obtain ⟨he, hrest⟩ := List.forall_mem_cons.mp hall
        obtain ⟨xs, hxs⟩ := ih hrest
        cases e with
        | param ref => cases he
        | literal x =>
          refine ⟨x :: xs, ?_⟩
          rw [List.mapM_cons, evalElement, pure_bind, hxs, pure_bind]
    obtain ⟨xs, hxs⟩ := hvalues
    refine ⟨⟨s, .many xs⟩, ?_⟩
    rw [evalOperand, evalList, hxs, pure_bind]

theorem evalPlan_undefined (hr : .inherited ∈ p.plan.refs)
    (hall : ∀ ref ∈ p.plan.refs, ref = .inherited) :
    g.evalPlan eval p = Traced.fail (.undefined p.name.text) := by
  have hoperand : ∀ o : Operand, .inherited ∈ o.refs → (∀ ref ∈ o.refs, ref = .inherited) →
      g.evalOperand eval p o = Traced.fail (.undefined p.name.text) :=
    fun _ => evalOperand_undefined hnone
  rw [evalPlan]
  generalize p.plan = plan at hr hall
  cases plan with
  | literal v => cases hr
  | list s elements => exact hoperand (.list s elements) hr hall
  | reference ref => exact hoperand (.param ref) hr hall
  | binary lhs op rhs =>
    obtain ⟨hlhs, hrhs⟩ := List.forall_mem_append.mp hall
    by_cases hl : .inherited ∈ lhs.refs
    · simp only [hoperand lhs hl hlhs]
      rfl
    · have hnil : lhs.refs = [] := List.eq_nil_iff_forall_not_mem.mpr fun ref href =>
        hl (hlhs ref href ▸ href)
      have hvalue : ∃ v, g.evalOperand eval p lhs = pure v := exists_evalOperand hnil
      obtain ⟨v, hv⟩ := hvalue
      have hr : .inherited ∈ rhs.refs := (List.mem_append.mp hr).resolve_left hl
      simp only [hv, pure_bind, hoperand rhs hr hrhs]
      rfl
  | feature base => cases hr

/-- A parameter that refers to nothing but its inherited value is undefined if nothing is above
it. -/
theorem run_valueOf_undefined (hr : .inherited ∈ p.plan.refs)
    (hall : ∀ ref ∈ p.plan.refs, ref = .inherited) (hdepth : 0 < limits.evaluationDepth)
    (t : Trace) : ∃ t', (g.valueOf limits p).run t =
      (.error (Cause.undefined p.name.text).failure, t') := by
  obtain ⟨n, hn⟩ := Nat.exists_eq_succ_of_ne_zero (Nat.ne_of_gt hdepth)
  rw [valueOf, hn, evaluate, evalWith, evalPlan_undefined hnone hr hall]
  exact ⟨_, rfl⟩

end Undefined

/-! ## Resolutions of stored parameters -/

/-- `r` is how `p` was resolved, as far as the graph tells: from its own declaration, with each
name being of the kind of the parameter that the file of `p` shows under it. -/
structure Resolves (g : Graph) (r : Resolution) (p : Parameter) : Prop where
  name : r.declaration.name = p.name
  rawValue : r.declaration.rawValue = p.rawValue
  kind : r.kind = p.kind
  scope : ∀ name, r.scope.kindOf name = (g.firstFound? p.file name).map Parameter.kind

/-- A list that mixes its inherited value in has it where there is room for scalars only. -/
theorem Mixes.misplaces (hp : g.Mixes p) : p.plan.Misplaces p.kind := by
  obtain ⟨s, elements, hlist⟩ := hp.list
  have hr := hp.inherits
  rw [hlist] at hr ⊢
  have hinherits : (Operand.list s elements).inherits = true := List.contains_iff_mem.mpr hr
  simp [Plan.Misplaces, Plan.lhs?, Plan.rest?, Operand.look, Kind.misplaces, Look.mixes, hinherits]

/-- Read strictly, the form by which such a list was resolved does not derive it. -/
theorem Mixes.not_derives (hp : g.Mixes p) {r : Resolution} (hr : g.Resolves r p) {form : Form}
    {ts : Resolution.Tokens} (happlies : r.Applies form ts ⟨p.plan, p.unit⟩) :
    ¬ form.Derives r true ts ⟨p.plan, p.unit⟩ := by
  intro hderives
  have hplan := (happlies.derives.strict_iff happlies.listed).mp hderives
  rw [hr.kind] at hplan
  exact hplan hp.misplaces

section Origin

variable {source : Source} {options : LoadOptions} {ds : Declarations} {m : Graph} {done : Commit}
  {f : FileId} {q : Parameter} {i : FileId}

/-- The kinds that are known of names while a file is resolved are those of the parameters that
it shows in the end. -/
theorem Origin.kindOf_scope (ho : g.Origin source options f ds m done) (hg : g.Coherent)
    (hf : f < g.files.size) {o : Outline} {drafts : List Parameter}
    (hout : (m.addFile (g.nameOf f) (g.includesOf f)).outline f ds = .ok o)
    (hdraft : ((m.addFile (g.nameOf f) (g.includesOf f)).linearize f).draft options.limits f o =
      .ok drafts) (hdrafts : done.parameters = drafts) (k name : Key) :
    (((m.addFile (g.nameOf f) (g.includesOf f)).linearize f).scope f o.declarations k).kindOf
      name = (g.firstFound? f name).map Parameter.kind := by
  have hall := draft_eq_ok hdraft
  have hdeclared : g.declared? f name = rowOf? Parameter.key name drafts :=
    hdrafts ▸ ho.declared?_eq name
  change ((o.declarations.get? name).bind Declaration.kind).or
    (((m.addFile (g.nameOf f) (g.includesOf f)).linearize f).find? f name |>.map Parameter.kind) = _
  rw [hg.ordered.firstFound?_eq hf, hdeclared]
  cases hget : o.declarations.get? name with
  | some d =>
    obtain ⟨q, hq, hdrafted⟩ := exists_of_mapM hall (mem_of_rowOf? hget)
    obtain ⟨kind, resolved, hkind, -, rfl⟩ := draftOf_eq_ok.mp hdrafted
    have hds := distinct_declarations ho.declarations
    have hkey : d.key = name := key_of_rowOf? hget
    have hrow := (rowOf?_eq_some (hdrafts ▸ nodup_keys_commit hds ho.commit)).mpr ⟨hq, hkey⟩
    rw [hrow, Option.bind_some, hkind]
    rfl
  | none =>
    have hrow : rowOf? Parameter.key name drafts = none := by
      refine List.find?_eq_none.mpr fun q hq hkey => ?_
      have hmem : q.key ∈ o.declarations.rows.map Declaration.key :=
        keys_of_draft hall ▸ List.mem_map_of_mem hq
      obtain ⟨d, hd, hdkey⟩ := List.mem_map.mp hmem
      exact List.find?_eq_none.mp hget d hd (decide_eq_true (hdkey.trans (of_decide_eq_true hkey)))
    rw [hrow, ho.find?_eq hg hout hget]
    rfl

/-- A parameter that is no value of a time feature was resolved when its file was committed. -/
theorem Origin.exists_resolves (ho : g.Origin source options p.file ds m done) (hg : g.Coherent)
    (hp : g.Stored p) (hplan : ∀ base, p.plan ≠ .feature base) :
    ∃ r, g.Resolves r p ∧ r.resolve = .ok ⟨p.plan, p.unit⟩ := by
  have hf := lt_size_of_declared? hp
  have hmem : p ∈ done.parameters :=
    mem_of_rowOf? ((ho.declared?_eq p.key).symm.trans hp)
  obtain ⟨o, drafts, hout, hdraft, hdone⟩ := commit_eq_ok.mp ho.commit
  have hdrafts : done.parameters = drafts := by rw [← hdone]
  rw [hdrafts] at hmem
  obtain ⟨d, hd, hresolved⟩ := mem_of_mapM (draft_eq_ok hdraft) hmem
  obtain ⟨kind, resolved, hkind, hplanOf, heq⟩ := draftOf_eq_ok.mp hresolved
  rw [planOf] at hplanOf
  split at hplanOf
  · next feature hat =>
    rw [← pure_eq_ok.mp hplanOf] at heq
    exact absurd (congrArg Parameter.plan heq.symm) (hplan feature.key)
  · simp only [bind_eq_ok] at hplanOf
    obtain ⟨resolved', hresolve, hplanOf⟩ := hplanOf
    split at hplanOf
    · cases hplanOf
    obtain rfl : resolved' = resolved := pure_eq_ok.mp hplanOf
    have hsame : resolved' = ⟨p.plan, p.unit⟩ := by rw [← heq]
    rw [hsame] at hresolve
    refine ⟨_, ?_, hresolve⟩
    exact ⟨congrArg Parameter.name heq, congrArg Parameter.rawValue heq,
      congrArg Parameter.kind heq, ho.kindOf_scope hg hf hout hdraft hdrafts d.key⟩

/-- What the includes of its file show under the name of a parameter is of its kind. -/
theorem Origin.kind_of_shown (ho : g.Origin source options p.file ds m done) (hg : g.Coherent)
    (hp : g.Stored p) (hplan : ∀ base, p.plan ≠ .feature base) (hi : i ∈ g.includesOf p.file)
    (hq : g.firstFound? i p.key = some q) : q.kind = p.kind := by
  have hmem : p ∈ done.parameters :=
    mem_of_rowOf? ((ho.declared?_eq p.key).symm.trans hp)
  obtain ⟨o, drafts, hout, hdraft, hdone⟩ := commit_eq_ok.mp ho.commit
  have hdrafts : done.parameters = drafts := by rw [← hdone]
  rw [hdrafts] at hmem
  have hds := distinct_declarations ho.declarations
  rcases mem_draft_cases hds hout hdraft hmem with ⟨feature, -, hvalue⟩ | ⟨r, hr⟩
  · exact absurd hvalue.plan (hplan _)
  · refine (hr.agrees q ?_).symm
    rw [ho.ancestors_eq hg]
    exact List.mem_filterMap.mpr ⟨i, hi, hq⟩

end Origin

end Graph

namespace Session

open ParameterChain.Graph

variable {source : Source} {options : LoadOptions} {top : String} {s : Session} {f : FileId}
  {k : Key} {p : Parameter}

/-- Edits and moves of the clock leave the loaded files alone, and what is above a file. -/
theorem kept_run (hs : s.graph.Rooted) (steps : List Step) :
    (∀ f k, (s.run steps).graph.above? f k = s.graph.above? f k) ∧
      ∀ f k, f ≠ transientFile →
        (s.run steps).graph.declared? f k = s.graph.declared? f k := by
  refine (run_induction (P := fun s' => s'.graph.Rooted ∧
    (∀ f k, s'.graph.above? f k = s.graph.above? f k) ∧
      ∀ f k, f ≠ transientFile → s'.graph.declared? f k = s.graph.declared? f k)
    ?_ ?_ ?_ ⟨hs, fun _ _ => rfl, fun _ _ _ => rfl⟩ steps).2
  · intro s' consumer name e hs'
    rw [graph_read]
    exact hs'
  · rintro s' c ds d done ⟨hrooted, habove, hdeclared⟩ hc hdone
    refine ⟨.edit hrooted (distinct_of_declarations hc) hdone, fun f k => ?_, fun f k hf => ?_⟩
    · exact (above?_commit hrooted.whole hdone f k).trans (habove f k)
    · exact (declared?_commit_of_ne hdone hf).trans (hdeclared f k hf)
  · rintro s' t ⟨hrooted, habove, hdeclared⟩
    rw [graph_moveClock]
    exact ⟨.tick t hrooted, fun f k => (above?_tick _ t f k).trans (habove f k), hdeclared⟩

/-- What is true of self references.  Let a loaded parameter refer to its inherited value.

  * It was resolved by a form of its kind.  The form has room for the kind of the parameter where
    the inherited value stands exactly if the plan does not misplace it, and a product of two
    dimensioned operands does misplace it.
  * What an include of its file shows under its name is of its kind, and then something is above
    the file in the chain.
  * If the parameter is visible then an include of its file shows what is above it.
  * Whatever is done after the load, the parameter is there, its inherited value is what was above
    it, and if that is nothing then every read of the parameter fails: with the failure that it is
    undefined, if it refers to nothing else. -/
theorem inherited_run (hload : Session.load source options top = .ok s)
    (hp : s.graph.declared? f k = some p) (hr : .inherited ∈ p.plan.refs) :
    (∃ r form ts, s.graph.Resolves r p ∧ r.Applies form ts ⟨p.plan, p.unit⟩ ∧
      (form.Derives r true ts ⟨p.plan, p.unit⟩ ↔ ¬ p.plan.Misplaces p.kind) ∧
      ∀ o o', p.plan = .binary o .multiply o' → r.Dimensioned o → r.Dimensioned o' →
        p.plan.Misplaces p.kind) ∧
    (∀ i ∈ s.graph.includesOf f, ∀ q, s.graph.firstFound? i k = some q →
      q.kind = p.kind ∧ (s.graph.above? f k).isSome) ∧
    (s.graph.visible? k = some p → ∀ q, s.graph.above? f k = some q →
      ∃ i ∈ s.graph.includesOf f, s.graph.firstFound? i k = some q) ∧
    ∀ steps, (s.run steps).graph.declared? f k = some p ∧
      (s.run steps).graph.target? p .inherited = s.graph.above? f k ∧
      (s.graph.above? f k = none → ∀ limits t, ∃ e t',
        ((s.run steps).graph.valueOf limits p).run t = (.error e, t') ∧
          ((∀ ref ∈ p.plan.refs, ref = .inherited) → 0 < limits.evaluationDepth →
            e = (Cause.undefined p.name.text).failure)) := by
  have hrooted := rooted_load hload
  have hwhole := hrooted.whole
  obtain ⟨g, hg, rfl⟩ := load_eq_ok.mp hload
  obtain ⟨hsourced, hnone⟩ := sourced_of_load hg
  have hfile : p.file = f := hwhole.home f k p hp
  have hkey : p.key = k := key_of_declared? hp
  subst hfile hkey
  have hf := lt_size_of_declared? hp
  have hne : p.file ≠ transientFile := by
    intro heq
    rw [heq, hnone] at hp
    cases hp
  have hplan : ∀ base, p.plan ≠ .feature base := by
    intro base hplan
    rw [hplan] at hr
    cases hr
  obtain ⟨ds, m, done, horigin⟩ := hsourced.origin p.file hf hne
  refine ⟨?_, ?_, ?_, fun steps => ?_⟩
  · obtain ⟨r, hresolves, hresolve⟩ :=
      horigin.exists_resolves hwhole.toCoherent hp hplan
    obtain ⟨form, ts, happlies⟩ := Resolution.resolve_iff_applies.mp hresolve
    refine ⟨r, form, ts, hresolves, happlies, ?_, ?_⟩
    · rw [← hresolves.kind]
      exact happlies.derives.strict_iff happlies.listed
    · intro o o' hproduct ho ho'
      have hderives := happlies.derives
      rw [hproduct] at hderives ⊢
      rw [← hresolves.kind]
      exact hderives.misplaces_of_product happlies.listed ho ho'
  · intro i hi q hq
    refine ⟨horigin.kind_of_shown hwhole.toCoherent hp hplan hi hq, ?_⟩
    refine Option.isSome_iff_ne_none.mpr fun habove => ?_
    rw [hwhole.not_shown hf habove hi] at hq
    cases hq
  · intro hvisible q hq
    exact (hwhole.inLine_of_visible? hvisible).exists_shown hwhole hq
  · obtain ⟨habove, hdeclared⟩ := kept_run hrooted steps
    refine ⟨(hdeclared p.file p.key hne).trans hp, habove p.file p.key, fun hundefined => ?_⟩
    have hundefined := (habove p.file p.key).trans hundefined
    intro limits t
    obtain ⟨e, t', hrun⟩ := valueOf_fails hundefined hr limits t
    refine ⟨e, t', hrun, fun hall hdepth => ?_⟩
    obtain ⟨t'', hrun'⟩ := run_valueOf_undefined hundefined hr hall hdepth t
    rw [hrun] at hrun'
    exact (Except.error.inj (Prod.mk.inj hrun').1)

/-- A length whose inherited value is multiplied by another length, and in a file of its own a
number that refers to itself. -/
def misplacing : Source := fun spec =>
  if spec = "base" then .ok "d:X = 2 mm".toUTF8
  else if spec = "top" then .ok "includeFile = base\nd:X = InheritedValue * 3 mm".toUTF8
  else if spec = "lone" then .ok "i:Y = Y + 1".toUTF8
  else .error (.cannotOpen spec "no such file")

theorem inherited_run_misplacing :
    (∃ s p, Session.load misplacing { withDefaults := false } "top" = .ok s ∧
      s.graph.visible? ⟨"x"⟩ = some p ∧ .inherited ∈ p.plan.refs ∧
      ∃ r form ts, s.graph.Resolves r p ∧ r.Applies form ts ⟨p.plan, p.unit⟩ ∧
        ¬ form.Derives r true ts ⟨p.plan, p.unit⟩) ∧
    ∃ s p, Session.load misplacing { withDefaults := false } "lone" = .ok s ∧
      s.graph.visible? ⟨"y"⟩ = some p ∧ .inherited ∈ p.plan.refs ∧
      ∀ limits, 0 < limits.evaluationDepth → ∀ t, ∃ t', (s.graph.valueOf limits p).run t =
        (.error (Cause.undefined p.name.text).failure, t') := by
  have htop : ((Session.load misplacing { withDefaults := false } "top").toOption.any fun s =>
      (s.graph.visible? ⟨"x"⟩).any fun p =>
        p.plan.refs.contains .inherited && decide (p.plan.Misplaces p.kind)) = true := by
    decide +kernel
  have hlone : ((Session.load misplacing { withDefaults := false } "lone").toOption.any fun s =>
      (s.graph.visible? ⟨"y"⟩).any fun p => p.plan.refs.contains .inherited &&
        (p.plan.refs.all fun ref => decide (ref = .inherited)) &&
          (s.graph.above? p.file p.key).isNone) = true := by
    decide +kernel
  constructor
  · obtain ⟨s, hs, hok⟩ := (Option.any_eq_true _ _).mp htop
    obtain ⟨p, hp, hok⟩ := (Option.any_eq_true _ _).mp hok
    simp only [Bool.and_eq_true, List.contains_iff_mem, decide_eq_true_eq] at hok
    obtain ⟨hr, hmisplaces⟩ := hok
    have hload := toOption_eq_some.mp hs
    have hstored := (rooted_load hload).whole.home.stored_of_visible? hp
    obtain ⟨⟨r, form, ts, hresolves, happlies, hstrict, -⟩, -⟩ := inherited_run hload hstored hr
    exact ⟨s, p, hload, hp, hr, r, form, ts, hresolves, happlies,
      fun hderives => hstrict.mp hderives hmisplaces⟩
  · obtain ⟨s, hs, hok⟩ := (Option.any_eq_true _ _).mp hlone
    obtain ⟨p, hp, hok⟩ := (Option.any_eq_true _ _).mp hok
    simp only [Bool.and_eq_true, List.contains_iff_mem, decide_eq_true_eq, List.all_eq_true,
      Option.isNone_iff_eq_none] at hok
    obtain ⟨⟨hr, hall⟩, hnone⟩ := hok
    have hload := toOption_eq_some.mp hs
    have hstored := (rooted_load hload).whole.home.stored_of_visible? hp
    obtain ⟨-, -, -, hlater⟩ := inherited_run hload hstored hr
    refine ⟨s, p, hload, hp, hr, fun limits hdepth t => ?_⟩
    obtain ⟨e, t', hrun, he⟩ := (hlater []).2.2 hnone limits t
    exact ⟨t', he hall hdepth ▸ hrun⟩

end Session

end ParameterChain
