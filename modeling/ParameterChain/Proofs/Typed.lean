/-
# Kinds in a graph

A name has one kind throughout a graph: a declaration takes over the kind that the
includes show, and a file whose includes show different declarations has to declare the
name itself.  So the kind that a name had when a plan was made is the kind it has
whenever the plan is followed, whichever declaration is seen by then.

The declarations that time features bring with them are not judged in this way, so
graphs without time features are spoken of here (`Featureless`).

Main statement: `Rooted.typed`.  In a session every key has one kind, and every plan
fits the kind of its parameter.
-/
import ParameterChain.Proofs.Features
import ParameterChain.Proofs.Uniform

namespace ParameterChain.Graph

variable {g g' : Graph} {f h i : FileId} {k : Key} {ds : Declarations} {limits : Limits}
  {done : Commit} {p q : Parameter} {a : Kind}

/-- Some file declares `k` with kind `a`. -/
def Declares (g : Graph) (k : Key) (a : Kind) : Prop :=
  ∃ h p, g.declared? h k = some p ∧ p.kind = a

/-- No key that is declared is the root of a time feature. -/
def Featureless (g : Graph) : Prop :=
  ∀ h k p, g.declared? h k = some p → k.featureBase? = none

/-- Below `f` a key is declared with one kind only. -/
def OneKind (g : Graph) (f : FileId) : Prop :=
  ∀ h i k p q, g.Below f h → g.Below f i → g.declared? h k = some p →
    g.declared? i k = some q → p.kind = q.kind

structure Typed (g : Graph) : Prop where
  kinds : ∀ f < g.files.size, g.OneKind f
  plans : ∀ h k p, g.declared? h k = some p → p.plan.Fits g.Declares p.kind

theorem oneKind_iff : g.OneKind f ↔ ∀ k, g.Uniform Parameter.kind f k :=
  ⟨fun hone k h i => hone h i k, fun hu h i k => hu k h i⟩

theorem OneKind.congr (hsame : ∀ k, g.SameBelow g' f k) (hone : g.OneKind f) :
    g'.OneKind f := by
  rw [oneKind_iff] at hone ⊢
  exact fun k => (hone k).congr (hsame k)

/-- A walk finds a key with the kind of every declaration of it below. -/
theorem OneKind.exists_firstFound? (ho : g.Ordered) (hf : f < g.files.size)
    (hone : g.OneKind f) (hb : g.Below f h) (hp : g.declared? h k = some p) :
    ∃ q, g.firstFound? f k = some q ∧ p.kind = q.kind :=
  (oneKind_iff.mp hone k).exists_firstFound? ho hf hb hp

theorem Featureless.of_commit (hfree : done.graph.Featureless)
    (hc : g.commit limits f ds = .ok done) : g.Featureless := by
  intro h k p hp
  have hsome := isSome_declared?_of_commit hc (h := h) (k := k) (by simp [hp])
  obtain ⟨q, hq⟩ := Option.isSome_iff_exists.mp hsome
  exact hfree h k q hq

theorem Featureless.rows (hfree : done.graph.Featureless) (hf : f < g.files.size)
    (hc : g.commit limits f ds = .ok done) : ∀ d ∈ ds.rows, d.key.featureBase? = none := by
  intro d hd
  obtain ⟨q, hq⟩ := Option.isSome_iff_exists.mp (isSome_declared?_commit hc hf hd)
  exact hfree f d.key q hq

/-! ## What is committed -/

/-- What the plans of a commit take for granted: a name has the kind that the commit
itself gives it or, if it gives none, a kind that it had before. -/
def Promised (g : Graph) (done : Commit) (k : Key) (a : Kind) : Prop :=
  (∃ q ∈ done.parameters, q.key = k ∧ q.kind = a) ∨
    (∀ q ∈ done.parameters, q.key ≠ k) ∧ g.Declares k a

section Commit

variable (hrows : ∀ d ∈ ds.rows, d.key.featureBase? = none)
  (hc : g.commit limits f ds = .ok done)

include hrows hc

/-- What is committed has the kind of every parameter that it inherits from. -/
theorem kind_of_mem_parameters (hp : p ∈ done.parameters) :
    (∃ d ∈ ds.rows, p.key = d.key) ∧ ∀ q ∈ g.ancestors f p.key, p.kind = q.kind := by
  obtain ⟨o, drafts, ho, hdraft, rfl⟩ := commit_eq_ok.mp hc
  obtain ⟨-, hinherits⟩ := outline_eq_ok_of_featureless hrows ho
  obtain ⟨d', hd', hresolved⟩ := mem_of_mapM (draft_eq_ok hdraft) hp
  obtain ⟨d, hd, hdd'⟩ := exists_left_of_forall₂ hinherits hd'
  obtain ⟨kind, resolved, hkind, -, rfl⟩ := draftOf_eq_ok.mp hresolved
  refine ⟨⟨d, hd, hdd'.key⟩, ?_⟩
  intro q hq
  have hq : q ∈ g.ancestors f d.key := by
    rw [← hdd'.key]
    exact hq
  exact Option.some.inj (hkind.symm.trans (hdd'.agrees q hq).1)

theorem plan_of_mem_parameters (hds : ds.Distinct) (hp : p ∈ done.parameters) :
    p.plan.Fits (g.Promised done) p.kind := by
  obtain ⟨o, drafts, ho, hdraft, rfl⟩ := commit_eq_ok.mp hc
  obtain ⟨hfeatures, -⟩ := outline_eq_ok_of_featureless hrows ho
  rcases mem_draft_cases hds ho hdraft hp with ⟨feature, hfeature, -⟩ | ⟨r, hr⟩
  · rw [hfeatures] at hfeature
    exact absurd hfeature List.not_mem_nil
  rw [← hr.kind]
  refine (Resolution.resolve_fits hr.resolve).mono ?_
  intro name a hknows
  obtain ⟨q, hkind, hrow | ⟨hfresh, hq⟩⟩ := hr.exists_target hds ho hdraft hknows
  · exact Or.inl ⟨q, mem_of_rowOf? hrow, key_of_rowOf? hrow, hkind⟩
  · obtain ⟨x, -, hx⟩ := List.exists_of_findSome?_eq_some hq
    rw [linearize, declared?_link] at hx
    exact Or.inr ⟨hfresh, x, q, hx, hkind⟩

end Commit

theorem Promised.declares (hds : ds.Distinct) (hf : f < g.files.size)
    (hc : g.commit limits f ds = .ok done) (h : g.Promised done k a) :
    done.graph.Declares k a := by
  rcases h with ⟨q, hq, rfl, hkind⟩ | ⟨hfresh, x, q, hq, hkind⟩
  · exact ⟨f, q, declared?_of_mem_parameters hds hf hc hq, hkind⟩
  · refine ⟨x, q, ?_, hkind⟩
    rw [declared?_commit_of_fresh hc fun q hq hslot => hfresh q hq (congrArg Slot.key hslot)]
    exact hq

/-- A commit that replaces declarations only by declarations of the same kind leaves
every key the kinds it had. -/
theorem Declares.commit (hds : ds.Distinct) (hf : f < g.files.size)
    (hc : g.commit limits f ds = .ok done)
    (hsame : ∀ p ∈ done.parameters, ∀ q, g.declared? f p.key = some q → p.kind = q.kind)
    (h : g.Declares k a) : done.graph.Declares k a := by
  obtain ⟨x, q, hq, hkind⟩ := h
  by_cases hx : x = f
  · subst hx
    by_cases hfresh : ∀ q ∈ done.parameters, q.key ≠ k
    · refine ⟨x, q, ?_, hkind⟩
      rw [declared?_commit_of_fresh hc fun q hq hslot => hfresh q hq (congrArg Slot.key hslot)]
      exact hq
    · push Not at hfresh
      obtain ⟨p, hp, rfl⟩ := hfresh
      exact ⟨x, p, declared?_of_mem_parameters hds hf hc hp, (hsame p hp q hq).trans hkind⟩
  · exact ⟨x, q, (declared?_commit_of_ne hc hx).trans hq, hkind⟩

/-- The plans of a graph fit after such a commit if they did before it. -/
theorem plans_commit (hds : ds.Distinct) (hf : f < g.files.size)
    (hrows : ∀ d ∈ ds.rows, d.key.featureBase? = none)
    (hc : g.commit limits f ds = .ok done)
    (hsame : ∀ p ∈ done.parameters, ∀ q, g.declared? f p.key = some q → p.kind = q.kind)
    (hplans : ∀ h k p, g.declared? h k = some p → p.plan.Fits g.Declares p.kind) :
    ∀ h k p, done.graph.declared? h k = some p → p.plan.Fits done.graph.Declares p.kind := by
  intro h k p hp
  rcases declared?_commit_cases hc hp with ⟨hmem, -, -⟩ | hp
  · refine (plan_of_mem_parameters hrows hc hds hmem).mono ?_
    intro name a hname
    exact hname.declares hds hf hc
  · refine (hplans h k p hp).mono ?_
    intro name a hname
    exact hname.commit hds hf hc hsame

/-! ## Built graphs -/

theorem mem_ancestors (hf : f ≠ transientFile) (hi : i ∈ g.includesOf f)
    (hq : g.firstFound? i k = some q) : q ∈ g.ancestors f k := by
  rw [ancestors, rootsOf, if_neg hf]
  exact List.mem_filterMap.mpr ⟨i, hi, hq⟩

theorem Built.typed (hb : g.Built) (hfree : g.Featureless) : g.Typed := by
  induction hb with
  | empty =>
    have hnone : ∀ h k, ({} : Graph).declared? h k = none := by
      intro h k
      cases h <;> rfl
    refine ⟨?_, ?_⟩
    · intro f _ h i k p q _ _ hp _
      exact absurd ((hnone h k).symm.trans hp) (by simp)
    · intro h k p hp
      exact absurd ((hnone h k).symm.trans hp) (by simp)
  | @file g limits name includes ds done hb hincludes hds hc ih =>
    have hg := hb.coherent
    have hf : g.files.size < (g.addFile name includes).files.size := by simp
    have hrows := hfree.rows hf hc
    have htyped : g.Typed := by
      refine ih fun h k p hp => hfree.of_commit hc h k p ?_
      rw [declared?_addFile]
      exact hp
    constructor
    · intro f hlt
      refine oneKind_iff.mpr fun k => ?_
      refine uniform_file hg hincludes (fun f hf => oneKind_iff.mp (htyped.kinds f hf) k) hc ?_
        f hlt
      rintro p hp rfl i hi q hq
      have hne : g.files.size ≠ transientFile := Nat.ne_of_gt hg.ordered.transientFile_lt_size
      exact (kind_of_mem_parameters hrows hc hp).2 q (mem_ancestors hne hi hq)
    · refine plans_commit hds hf hrows hc ?_ ?_
      · intro p _ q hq
        rw [declared?_addFile, declared?_eq_none_of_size_le (Nat.le_refl _)] at hq
        cases hq
      · intro h k p hp
        rw [declared?_addFile] at hp
        refine (htyped.plans h k p hp).mono ?_
        intro name a hname
        obtain ⟨x, q, hq, hkind⟩ := hname
        exact ⟨x, q, (declared?_addFile g _ _ _ _).trans hq, hkind⟩

/-! ## Rooted graphs -/

theorem mem_ancestors_transientFile (hq : g.firstFound? transientFile k = some q) :
    q ∈ g.ancestors transientFile k := by
  rw [ancestors, rootsOf, if_pos rfl]
  exact List.mem_filterMap.mpr ⟨transientFile, List.mem_singleton_self _, hq⟩

/-- In a whole graph one kind below the transient file is one kind below every file. -/
theorem Whole.oneKind (hg : g.Whole) (hone : g.OneKind transientFile) :
    ∀ f < g.files.size, g.OneKind f := by
  intro f hf h i k p q hh hi
  exact hone h i k p q ((hg.below f hf).trans hh) ((hg.below f hf).trans hi)

theorem Rooted.typed (hr : g.Rooted) (hfree : g.Featureless) : g.Typed := by
  induction hr with
  | @root g limits top done hb htop hall hc =>
    have hwhole : done.graph.Whole := (Rooted.root hb htop hall hc).whole
    have hdeclared := declared?_root hc
    have htyped : g.Typed := by
      refine hb.typed fun h k p hp => hfree h k p ?_
      rw [hdeclared]
      exact hp
    refine ⟨hwhole.oneKind ?_, ?_⟩
    · intro h i k p q _ _ hp hq
      exact hb.uniform_root hall hc (oneKind_iff.mp (htyped.kinds top htop.2) k) hp hq
    · intro h k p hp
      rw [hdeclared] at hp
      refine (htyped.plans h k p hp).mono ?_
      intro name a hname
      obtain ⟨x, q, hq, hkind⟩ := hname
      exact ⟨x, q, (hdeclared x name).trans hq, hkind⟩
  | @edit g limits ds done hr hds hc ih =>
    have hwhole : done.graph.Whole := (hr.edit hds hc).whole
    have hg := hr.whole
    have htyped := ih (hfree.of_commit hc)
    have hf := hg.ordered.transientFile_lt_size
    have hrows := hfree.rows hf hc
    have hone := htyped.kinds transientFile hf
    have hagree : ∀ p ∈ done.parameters, ∀ h q, g.declared? h p.key = some q →
        p.kind = q.kind := by
      intro p hp h q hq
      have hb := hg.below_of_declared? hq
      obtain ⟨r, hr, hkind⟩ := hone.exists_firstFound? hg.ordered hf hb hq
      have hsame := (kind_of_mem_parameters hrows hc hp).2 r (mem_ancestors_transientFile hr)
      exact hsame.trans hkind.symm
    refine ⟨hwhole.oneKind ?_, plans_commit hds hf hrows hc ?_ htyped.plans⟩
    · intro h i k p q _ _ hp hq
      have hkp : p.key = k := key_of_declared? hp
      have hkq : q.key = k := key_of_declared? hq
      rcases declared?_commit_cases hc hp with ⟨hnew, rfl, -⟩ | hold
      · rcases declared?_commit_cases hc hq with ⟨-, rfl, -⟩ | hold'
        · rw [Option.some.inj (hp.symm.trans hq)]
        · exact hagree p hnew i q (hkp ▸ hold')
      · rcases declared?_commit_cases hc hq with ⟨hnew, -, -⟩ | hold'
        · exact (hagree q hnew h p (hkq ▸ hold)).symm
        · have hh := hg.below_of_declared? hold
          have hi := hg.below_of_declared? hold'
          exact hone h i k p q hh hi hold hold'
    · exact fun p hp q hq => hagree p hp transientFile q hq
  | @tick g t hr ih =>
    have htyped := ih hfree
    exact ⟨(hr.tick t).whole.oneKind ((htyped.kinds transientFile
      hr.whole.ordered.transientFile_lt_size).congr fun k h _ => ⟨rfl, rfl⟩), htyped.plans⟩

end ParameterChain.Graph
