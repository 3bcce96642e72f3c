/-
# Declared lengths and evaluated ones

When a file is resolved the two sides of an operator on vectors are compared in length, as far
as declarations tell how long they are.  Such a length is followed from reference to reference,
and each name is looked up along the chain of the file that it stands in, without the drafts of
the file that is being resolved; only the names in the value that is judged see these.  Reads
look every name up from the root instead.

So a declared length is the length of the value as long as the names that are followed stand for
the same parameters from their files as from the root (`Graph.SeenAlike`).  Then a value that is
refused for the lengths of its operands could not be evaluated either, had it been stored.
Where a nearer file overrides what a name stands for further below, neither need be the case.

Main statement: `lengthMismatch_of_process`.
-/
import Mathlib.Data.List.Find
import ParameterChain.Proofs.Conflicts
import ParameterChain.Proofs.Evaluated
import ParameterChain.Proofs.Overlay
import ParameterChain.Proofs.Rows

namespace ParameterChain

/-! ## Following lengths -/

/-- The references that the length of a plan is told from. -/
def Plan.lengthRefs : Plan → List Ref
  | .reference r => [r]
  | .binary lhs _ rhs => lhs.ref?.toList ++ rhs.ref?.toList
  | _ => []

namespace Graph

variable {g s : Graph} {f h : FileId} {k : Key} {ds : Declarations} {limits : Limits}
  {o : Outline} {drafts : List Parameter} {p q u : Parameter} {r : Ref} {e : Failure}
  {limit fuel hops n : Nat} {t t' : Trace} {v : Value}

/-- `u` is come by when the declared length of `p` is followed. -/
inductive Follows (g : Graph) : Parameter → Parameter → Prop where
  | refl (p : Parameter) : g.Follows p p
  | step {p q u : Parameter} {r : Ref} : r ∈ p.plan.lengthRefs →
      g.draftTarget? p.file [] p r = some q → g.Follows q u → g.Follows p u

/-- The names that are followed for the length of `p` in `g` stand for what reads see under
them in `s`. -/
def SeenAlike (g s : Graph) (p : Parameter) : Prop :=
  ∀ u, g.Follows p u → ∀ name, .named name ∈ u.plan.lengthRefs →
    ∀ q, g.find? u.file name.key = some q → s.visible? name.key = some q

/-- The references that are followed for the length of `p` in `g` are read alike in `s`. -/
def FollowedAlike (g s : Graph) (p : Parameter) : Prop :=
  ∀ u, g.Follows p u → ∀ r ∈ u.plan.lengthRefs,
    ∀ q, g.draftTarget? u.file [] u r = some q → s.target? u r = some q

/-- Inherited values are looked up alike anyway. -/
theorem SeenAlike.followedAlike (hseen : g.SeenAlike g p) : g.FollowedAlike g p := by
  intro u hu r hr q hq
  cases r with
  | named name => exact hseen u hu name hr q hq
  | inherited => exact hq

/-- Nothing is followed from a plan that tells its length itself. -/
theorem SeenAlike.of_lengthRefs_eq_nil (hnil : p.plan.lengthRefs = []) : g.SeenAlike s p := by
  intro u hu name hname
  cases hu with
  | refl => exact absurd hname (hnil ▸ List.not_mem_nil)
  | step hr _ _ => exact absurd hr (hnil ▸ List.not_mem_nil)

theorem FollowedAlike.next (hfollowed : g.FollowedAlike s p) (hr : r ∈ p.plan.lengthRefs)
    (hq : g.draftTarget? p.file [] p r = some q) : g.FollowedAlike s q :=
  fun u hu => hfollowed u (.step hr hq hu)

/-! ## Lengths of evaluated operands -/

/-- If the lengths of references are those of their values, so are the lengths of operands. -/
theorem size_of_evalOperand {eval : Parameter → Traced Value} {ofRef : Ref → Option Nat}
    {operand : Operand} (hlength : operandLength? ofRef operand = some n)
    (href : ∀ r, operand.ref? = some r → ∀ n, ofRef r = some n → ∀ t t' v,
      (s.evalRef eval p r).run t = (.ok v, t') → v.kind.isVector ∧ v.size = n)
    (hrun : (s.evalOperand eval p operand).run t = (.ok v, t')) :
    v.kind.isVector ∧ v.size = n := by
  cases operand with
  | literal w =>
    rw [operandLength?] at hlength
    split at hlength
    · next hvector =>
      cases hlength
      cases hrun
      exact ⟨hvector, rfl⟩
    · cases hlength
  | list sort elements =>
    cases hlength
    rw [evalOperand, evalList] at hrun
    obtain ⟨values, m, hvalues, hrun⟩ := Traced.run_bind_eq_ok.mp hrun
    cases hrun
    exact ⟨rfl, Traced.length_of_run_mapM hvalues⟩
  | param r => exact href r rfl n hlength t t' v hrun

/-- Only vectors have declared lengths. -/
theorem isVector_of_declaredLength? (hlength : g.declaredLength? hops p = some n) :
    p.kind.isVector := by
  cases hops with
  | zero => cases hlength
  | succ hops =>
    rw [declaredLength?] at hlength
    split at hlength
    · next hvector => exact hvector
    · cases hlength

/-- The reference stands for a parameter whose declared length is that of its value. -/
theorem size_of_evalRef {found : Option Parameter}
    (hlength : found.bind (g.declaredLength? hops) = some n)
    (htarget : ∀ q, found = some q → s.target? p r = some q)
    (hsize : ∀ q n, found = some q → g.declaredLength? hops q = some n → ∀ t t' v,
      (s.evaluate limit fuel q).run t = (.ok v, t') → v.size = n)
    (hrun : (s.evalRef (s.evaluate limit fuel) p r).run t = (.ok v, t')) :
    v.kind.isVector ∧ v.size = n := by
  obtain ⟨q, hq, hlength⟩ := Option.bind_eq_some_iff.mp hlength
  obtain ⟨q', m, hfound, hrun⟩ := Traced.run_bind_eq_ok.mp hrun
  rw [target, htarget q hq] at hfound
  cases hfound
  refine ⟨?_, hsize q n hq hlength _ _ _ hrun⟩
  rw [kind_of_evaluate hrun]
  exact isVector_of_declaredLength? hlength

/-- A declared length is that of the value, if the references that are followed are read
alike.  The induction is on the references that may still be followed. -/
theorem size_of_declaredLength? (hfollowed : g.FollowedAlike s p)
    (hlength : g.declaredLength? hops p = some n)
    (hrun : (s.evaluate limit fuel p).run t = (.ok v, t')) : v.size = n := by
  induction hops generalizing p n fuel t t' v with
  | zero => cases hlength
  | succ hops ih =>
    obtain ⟨rest, m, w, rfl, hplan, hcoerce⟩ := exists_of_evaluate hrun
    have hvector := isVector_of_declaredLength? hlength
    rw [Value.size_of_coerce? hcoerce]
    rw [declaredLength?, if_pos hvector] at hlength
    -- What is said of the references of the plan, the first step of the way.
    have href : ∀ r ∈ p.plan.lengthRefs, ∀ n,
        (g.draftTarget? p.file [] p r).bind (g.declaredLength? hops) = some n → ∀ t t' v,
        (s.evalRef (s.evaluate limit rest) p r).run t = (.ok v, t') →
          v.kind.isVector ∧ v.size = n := by
      intro r hr n hlength t t' v hrun
      refine size_of_evalRef hlength (hfollowed p (.refl p) r hr) ?_ hrun
      intro q n hq hlength t t' v hrun
      exact ih (hfollowed.next hr hq) hlength hrun
    rw [evalPlan] at hplan
    cases hcase : p.plan with
    | literal value =>
      rw [hcase] at hlength hplan
      cases hlength
      cases hplan
      rfl
    | list sort elements =>
      rw [hcase] at hlength hplan
      cases hlength
      obtain ⟨values, m', hvalues, hplan⟩ := Traced.run_bind_eq_ok.mp hplan
      cases hplan
      exact Traced.length_of_run_mapM hvalues
    | reference r =>
      rw [hcase] at hlength hplan href
      exact (href r List.mem_cons_self n hlength _ _ _ hplan).2
    | binary lhs op rhs =>
      rw [hcase] at hlength hplan href
      obtain ⟨a, m₁, ha, hplan⟩ := Traced.run_bind_eq_ok.mp hplan
      obtain ⟨b, m₂, hb, hplan⟩ := Traced.run_bind_eq_ok.mp hplan
      obtain ⟨hcombine, -⟩ := Traced.run_ofCause_eq_ok.mp hplan
      obtain ⟨hleft, hright⟩ := Value.size_of_combine hcombine
      rcases Option.or_eq_some_iff.mp hlength with hlength | ⟨-, hlength⟩
      · obtain ⟨hvector, hsize⟩ := size_of_evalOperand hlength (fun r hr => href r
          (List.mem_append_left _ (Option.mem_toList.mpr hr))) ha
        rw [hleft hvector, hsize]
      · obtain ⟨hvector, hsize⟩ := size_of_evalOperand hlength (fun r hr => href r
          (List.mem_append_right _ (Option.mem_toList.mpr hr))) hb
        rw [hright hvector, hsize]
    | feature base =>
      rw [hcase] at hlength
      cases hlength

/-- If the lengths of two operands differ, the value cannot be evaluated. -/
theorem fails_of_checkLengths (hcheck : g.checkLengths f drafts p = .error e)
    (htarget : ∀ r ∈ p.plan.lengthRefs, ∀ q, g.draftTarget? f drafts p r = some q →
      s.target? p r = some q ∧ g.FollowedAlike s q) (limit fuel : Nat) (t : Trace) :
    ∃ e' t', (s.evaluate limit fuel p).run t = (.error e', t') := by
  rcases hrun : (s.evaluate limit fuel p).run t with ⟨result, t'⟩
  cases result with
  | error e' => exact ⟨e', t', rfl⟩
  | ok v =>
    exfalso
    obtain ⟨rest, m, w, rfl, hplan, -⟩ := exists_of_evaluate hrun
    have href : ∀ r ∈ p.plan.lengthRefs, ∀ n,
        (g.draftTarget? f drafts p r).bind (g.declaredLength? lengthHops) = some n →
          ∀ t t' v, (s.evalRef (s.evaluate limit rest) p r).run t = (.ok v, t') →
            v.kind.isVector ∧ v.size = n := by
      intro r hr n hlength t t' v hrun
      refine size_of_evalRef hlength (fun q hq => (htarget r hr q hq).1) ?_ hrun
      intro q n hq hlength t t' v hrun
      exact size_of_declaredLength? (htarget r hr q hq).2 hlength hrun
    rw [checkLengths] at hcheck
    split at hcheck
    · next lhs op rhs _ hcase =>
      rw [evalPlan, hcase] at hplan
      rw [hcase] at href
      obtain ⟨a, m₁, ha, hplan⟩ := Traced.run_bind_eq_ok.mp hplan
      obtain ⟨b, m₂, hb, hplan⟩ := Traced.run_bind_eq_ok.mp hplan
      obtain ⟨hcombine, -⟩ := Traced.run_ofCause_eq_ok.mp hplan
      obtain ⟨hleft, hright⟩ := Value.size_of_combine hcombine
      split at hcheck
      · next left right hlhs hrhs =>
        split at hcheck
        · cases hcheck
        next hne =>
        obtain ⟨hvector, hsize⟩ := size_of_evalOperand hlhs (fun r hr => href r
          (List.mem_append_left _ (Option.mem_toList.mpr hr))) ha
        obtain ⟨hvector', hsize'⟩ := size_of_evalOperand hrhs (fun r hr => href r
          (List.mem_append_right _ (Option.mem_toList.mpr hr))) hb
        -- What is combined is as long as each of the two.
        exact hne (hsize.symm.trans ((hleft hvector).symm.trans ((hright hvector').trans hsize')))
      · cases hcheck
    · cases hcheck

/-! ## Storing at the root -/

/-- Reads of `s` see the drafts of `f` and, behind them, what `g` shows from `f`. -/
structure InFront (g s : Graph) (f : FileId) (drafts : List Parameter) : Prop where
  visible : ∀ k, s.visible? k = (rowOf? Parameter.key k drafts).or (g.find? f k)
  above : ∀ h ∈ g.chain f, ∀ k, s.above? h k = g.above? h k
  closed : ∀ h ∈ g.chain f, ∀ k q, g.find? h k = some q ∨ g.above? h k = some q →
    q.file ∈ g.chain f
  start : f ∈ g.chain f

/-- A graph is linked along the order, which repeats no file. -/
structure Lined (g : Graph) (order : List FileId) : Prop where
  nodup : order.Nodup
  length_le : order.length ≤ g.files.size
  linked : g.Linked order

theorem Ordered.lined_linearize (ho : g.Ordered) (hf : f < g.files.size) :
    (g.linearize f).Lined (g.linearOrder f) where
  nodup := nodup_lastPlaces _
  length_le := by
    rw [Graph.linearize, size_link]
    exact ho.length_linearOrder_le hf
  linked := ho.linked_linearize hf

theorem findSome?_cons_eq_or {α β : Type} (u : α → Option β) (x : α) (xs : List α) :
    (x :: xs).findSome? u = (u x).or (xs.findSome? u) := by
  rw [List.findSome?_cons]
  cases u x <;> rfl

/-- Where a file stands in the chain of `f`, its look-ups go through the rest of it, and so they do
when other files are put in front. -/
theorem Lined.exists_rest (before : List FileId) {tail : List FileId} (hg : g.Lined (f :: tail))
    (hs : s.Lined (before ++ f :: tail)) (hh : h ∈ f :: tail) :
    ∃ rest, rest ⊆ tail ∧ ∀ k,
      g.find? h k = (h :: rest).findSome? (g.declared? · k) ∧
      g.above? h k = rest.findSome? (g.declared? · k) ∧
      s.above? h k = rest.findSome? (s.declared? · k) := by
  obtain ⟨front, rest, hsplit⟩ := List.append_of_mem hh
  have hgl := hg
  have hsl := hs
  rw [hsplit] at hgl hsl
  rw [← List.append_assoc] at hsl
  refine ⟨rest, ?_, fun k => ?_⟩
  · intro x hx
    cases front with
    | nil => exact (List.cons.inj hsplit).2 ▸ hx
    | cons a front =>
      rw [(List.cons.inj hsplit).2]
      exact List.mem_append_right _ (List.mem_cons_of_mem _ hx)
  · obtain ⟨hfind, habove⟩ := hgl.linked.look_up front hgl.nodup hgl.length_le k
    exact ⟨hfind, habove, (hsl.linked.look_up _ hsl.nodup hsl.length_le k).2⟩

/-- The file `f` leads its chain in `g`.  In `s`, where maybe other files come before it, it has
its drafts, and nothing else of the chain has changed. -/
theorem inFront_of_lined (before : List FileId) {tail : List FileId} (hhome : g.AtHome)
    (hg : g.Lined (f :: tail)) (hs : s.Lined (before ++ f :: tail))
    (hroot : (before ++ f :: tail).head? = some transientFile)
    (hbefore : ∀ h ∈ before, ∀ k, s.declared? h k = none)
    (hdrafts : ∀ k, s.declared? f k = (rowOf? Parameter.key k drafts).or (g.declared? f k))
    (htail : ∀ h ∈ tail, ∀ k, s.declared? h k = g.declared? h k) : g.InFront s f drafts := by
  obtain ⟨hnot, -⟩ := List.nodup_cons.mp hg.nodup
  have hchain : g.chain f = f :: tail := by
    rw [chain, parentsFrom_of_linked hg.nodup hg.linked hg.length_le]
  have htailSame : ∀ k, tail.findSome? (s.declared? · k) = tail.findSome? (g.declared? · k) :=
    fun k => findSome?_congr fun h hh => htail h hh k
  refine ⟨?_, ?_, ?_, hchain ▸ List.mem_cons_self⟩
  · intro k
    have hwhole : s.visible? k = (before ++ f :: tail).findSome? (s.declared? · k) := by
      obtain ⟨rest, hrest⟩ := List.head?_eq_some_iff.mp hroot
      rw [hrest] at hs ⊢
      exact (hs.linked.look_up [] hs.nodup hs.length_le k).1
    obtain ⟨hfind, -⟩ := hg.linked.look_up [] hg.nodup hg.length_le k
    have hnone : before.findSome? (s.declared? · k) = none :=
      List.findSome?_eq_none_iff.mpr fun h hh => hbefore h hh k
    rw [hwhole, List.findSome?_append, hnone, Option.none_or, findSome?_cons_eq_or, hdrafts,
      htailSame, hfind, findSome?_cons_eq_or, Option.or_assoc]
  · intro h hh k
    obtain ⟨rest, hsub, hrest⟩ := hg.exists_rest before hs (hchain ▸ hh)
    rw [(hrest k).2.1, (hrest k).2.2]
    exact findSome?_congr fun x hx => htail x (hsub hx) k
  · intro h hh k q hq
    rw [hchain] at hh ⊢
    obtain ⟨rest, hsub, hrest⟩ := hg.exists_rest before hs hh
    have hfound : (h :: rest).findSome? (g.declared? · k) = some q ∨
        rest.findSome? (g.declared? · k) = some q := by
      rw [← (hrest k).1, ← (hrest k).2.1]
      exact hq
    have hin : ∃ x ∈ h :: rest, g.declared? x k = some q := by
      rcases hfound with hfound | hfound
      · exact List.exists_of_findSome?_eq_some hfound
      · obtain ⟨x, hx, hq⟩ := List.exists_of_findSome?_eq_some hfound
        exact ⟨x, List.mem_cons_of_mem _ hx, hq⟩
    obtain ⟨x, hx, hq⟩ := hin
    rw [hhome x k q hq]
    rcases List.mem_cons.mp hx with rfl | hx
    · exact hh
    · exact List.mem_cons_of_mem _ (hsub hx)

/-- What is followed from a file of the chain stays in the chain. -/
theorem InFront.file_of_follows (hs : g.InFront s f drafts) (hu : g.Follows p u)
    (hp : p.file ∈ g.chain f) : u.file ∈ g.chain f := by
  induction hu with
  | refl p => exact hp
  | @step p q u r _ hq _ ih =>
    refine ih ?_
    cases r with
    | named name => exact hs.closed p.file hp name.key q (Or.inl hq)
    | inherited => exact hs.closed p.file hp p.key q (Or.inr hq)

theorem InFront.followedAlike (hs : g.InFront s f drafts) (hseen : g.SeenAlike s p)
    (hp : p.file ∈ g.chain f) : g.FollowedAlike s p := by
  intro u hu r hr q hq
  cases r with
  | named name => exact hseen u hu name hr q hq
  | inherited =>
    have hfile := hs.file_of_follows hu hp
    exact (hs.above u.file hfile u.key).trans hq

/-- A draft that is refused for its lengths could not be evaluated either. -/
theorem InFront.fails (hs : g.InFront s f drafts) (hfiles : ∀ q ∈ drafts, q.file = f)
    (hp : p ∈ drafts) (hcheck : g.checkLengths f drafts p = .error e)
    (hseen : ∀ r ∈ p.plan.lengthRefs, ∀ q, g.draftTarget? f drafts p r = some q →
      g.SeenAlike s q) (limit fuel : Nat) (t : Trace) :
    ∃ e' t', (s.evaluate limit fuel p).run t = (.error e', t') := by
  refine fails_of_checkLengths hcheck ?_ limit fuel t
  intro r hr q hq
  have hfile : q.file ∈ g.chain f := by
    cases r with
    | named name =>
      rcases Option.or_eq_some_iff.mp hq with hq | ⟨-, hq⟩
      · rw [hfiles q (mem_of_rowOf? hq)]
        exact hs.start
      · exact hs.closed f hs.start name.key q (Or.inl hq)
    | inherited => exact hs.closed f hs.start p.key q (Or.inr hq)
  refine ⟨?_, hs.followedAlike (hseen r hr q hq) hfile⟩
  cases r with
  | named name => exact (hs.visible name.key).trans hq
  | inherited =>
    rw [target?, hfiles p hp]
    exact (hs.above f hs.start p.key).trans hq

/-! ## What is refused for lengths -/

theorem outline_failsOnly (g : Graph) (f : FileId) (ds : Declarations) :
    FailsOnly SparesLengths (g.outline f ds) := by
  rw [outline]
  refine .bind ((contested_failsOnly g f ds).mono fun _ => And.right) ?_
  intro ks
  refine .bind ((inheritKinds_failsOnly g f ds).mono fun _ => And.right) ?_
  intro ds
  exact .bind ((featureRows_failsOnly ds).mono fun _ => And.right) fun rows => .ok _

/-- Only the last step of a draft refuses for lengths, when everything is resolved. -/
theorem exists_of_draft (hdraft : g.draft limits f o = .error e)
    (hkind : e.kind = .lengthMismatch) :
    ∃ drafts p, o.declarations.rows.mapM (g.draftOf limits f o) = .ok drafts ∧ p ∈ drafts ∧
      g.checkLengths f drafts p = .error e := by
  have hfails : FailsOnly (fun e => SparesLengths e ∨
      ∃ drafts p, o.declarations.rows.mapM (g.draftOf limits f o) = .ok drafts ∧ p ∈ drafts ∧
        g.checkLengths f drafts p = .error e) (g.draft limits f o) := by
    rw [draft]
    refine .bind_of_ok (.mapM fun d _ => (draftOf_failsOnly g limits f o d).mono
      fun _ he => Or.inl he.2) ?_
    intro drafts hdrafts
    refine .bind (.forM fun p _ => (checkUnits_failsOnly g f drafts p).mono
      fun _ he => Or.inl he.2) ?_
    intro _
    refine .bind (.forM ?_) fun _ => .ok _
    intro p hp e he
    exact Or.inr ⟨drafts, p, hdrafts, hp, he⟩
  exact (hfails e hdraft).resolve_left (not_not_intro hkind)

theorem parameter_of_checkLengths (hcheck : g.checkLengths f drafts p = .error e) :
    e.context.parameter = some p.qualified := by
  rw [checkLengths] at hcheck
  split at hcheck
  · split at hcheck
    · split at hcheck
      · cases hcheck
      · cases hcheck
        rfl
    · cases hcheck
  · cases hcheck

/-- What is refused for lengths when a file is processed is one of its drafts. -/
theorem exists_of_process {keeps : Bool} (h : (g.process limits f ds keeps).1 = .error e)
    (hkind : e.kind = .lengthMismatch) :
    ∃ o drafts p e', g.outline f ds = .ok o ∧
      o.declarations.rows.mapM ((if keeps then g.linearize f else g).draftOf limits f o) =
        .ok drafts ∧
      p ∈ drafts ∧ e.context.parameter = some p.qualified ∧
      (if keeps then g.linearize f else g).checkLengths f drafts p = .error e' := by
  rw [process] at h
  simp only at h
  cases ho : g.outline f ds with
  | error e' =>
    rw [ho] at h
    cases h
    exact absurd hkind (outline_failsOnly g f ds e' ho)
  | ok o =>
    rw [ho] at h
    cases hdraft : (if keeps then g.linearize f else g).draft limits f o with
    | error e' =>
      simp only [Attempt.locate, Except.mapError, hdraft] at h
      cases h
      obtain ⟨drafts, p, hdrafts, hp, hcheck⟩ := exists_of_draft hdraft hkind
      have hparameter : e'.context.parameter = some p.qualified :=
        parameter_of_checkLengths hcheck
      exact ⟨o, drafts, p, e', rfl, hdrafts, hp, hparameter, hcheck⟩
    | ok drafts =>
      simp only [Attempt.locate, Except.mapError, hdraft] at h
      cases h

/-! ## Files at the root -/

/-- The file `f` of `g` is processed at the root of its chain: it has just been added behind
loaded files, or it is the transient file of a session. -/
inductive AtRoot : Graph → FileId → Prop
  | top {b : Graph} {name : String} {includes : List FileId} :
      Built b → (∀ i ∈ includes, i ≠ transientFile ∧ i < b.files.size) →
      AtRoot (b.addFile name includes) b.files.size
  | edit {g : Graph} : Rooted g → AtRoot g transientFile

/-- The graph in which drafts of the file `f`, with the features of their outline, are stored
and seen by reads: the transient file is put in front of a file that was loaded. -/
def storedAtRoot (g : Graph) (f : FileId) (drafts : List Parameter)
    (features : List TimeFeature) : Graph :=
  let stored := (g.linearize f).storeAll drafts features
  if f = transientFile then stored
  else (stored.setIncludes transientFile [f]).linearize transientFile

/-- Drafts of a file with distinct keys are found there, and nowhere else. -/
theorem declared?_storeAll_of_file (hnodup : (drafts.map Parameter.key).Nodup)
    (hfiles : ∀ q ∈ drafts, q.file = f) (features : List TimeFeature) (hh : h < g.files.size)
    (k : Key) :
    (g.storeAll drafts features).declared? h k =
      if h = f then (rowOf? Parameter.key k drafts).or (g.declared? h k) else g.declared? h k := by
  rw [declared?_storeAll _ _ _ _ _ hh]
  split
  · next heq =>
    rw [← rowOf?_perm (List.reverse_perm drafts) hnodup, rowOf?]
    congr 1
    refine List.find?_congr ?_
    intro q hq
    simp only [Parameter.slot, Slot.mk.injEq, hfiles q (List.mem_reverse.mp hq), heq, true_and]
  · next hne =>
    have hnone : (drafts.reverse.find? fun q => q.slot = ⟨h, k⟩) = none := by
      refine List.find?_eq_none.mpr fun q hq hslot => hne ?_
      have hslot := of_decide_eq_true hslot
      exact (congrArg Slot.file hslot).symm.trans (hfiles q (List.mem_reverse.mp hq))
    rw [hnone, Option.none_or]

theorem Lined.storeAll {order : List FileId} (hg : g.Lined order) (drafts : List Parameter)
    (features : List TimeFeature) : (g.storeAll drafts features).Lined order where
  nodup := hg.nodup
  length_le := by
    rw [size_storeAll]
    exact hg.length_le
  linked := hg.linked.congr fun h => parentOf?_storeAll g drafts features h

theorem AtRoot.ordered (hg : g.AtRoot f) : g.Ordered ∧ f < g.files.size ∧ g.AtHome := by
  cases hg with
  | @top b name includes hb hincludes =>
    have hcoherent := hb.coherent
    exact ⟨ordered_addFile hcoherent.ordered hincludes, by simp,
      hcoherent.home.addFile name includes⟩
  | edit hr =>
    have hwhole := hr.whole
    exact ⟨hwhole.ordered, hwhole.ordered.transientFile_lt_size, hwhole.home⟩

theorem declared?_storedAtRoot (g : Graph) (f : FileId) (drafts : List Parameter)
    (features : List TimeFeature) (h : FileId) (k : Key) :
    (g.storedAtRoot f drafts features).declared? h k =
      ((g.linearize f).storeAll drafts features).declared? h k := by
  rw [storedAtRoot]
  split
  · rfl
  · rw [linearize, declared?_link, declared?_setIncludes]

/-- Where a file other than the transient one is stored, the chain of that one goes on with the
linear order of the file. -/
theorem Ordered.lined_storedAtRoot (ho : g.Ordered) (hne : f ≠ transientFile)
    (hf : f < g.files.size) (drafts : List Parameter) (features : List TimeFeature) :
    (g.storedAtRoot f drafts features).Lined (transientFile :: g.linearOrder f) := by
  rw [storedAtRoot, if_neg hne]
  generalize hm : (g.linearize f).storeAll drafts features = m
  have hsize : m.files.size = g.files.size := by rw [← hm, size_storeAll, Graph.linearize, size_link]
  have hincludes : ∀ h, m.includesOf h = g.includesOf h := by
    intro h
    rw [← hm, includesOf_storeAll, Graph.linearize, includesOf_link]
  have hmo := ho.congr hsize hincludes
  have hmf : f < m.files.size := hsize ▸ hf
  have hro := ordered_setIncludes hmo ⟨hne, hmf⟩
  rw [← linearOrder_congr hsize hincludes, ← hmo.linearOrder_setIncludes hne hmf]
  exact hro.lined_linearize hro.transientFile_lt_size

/-- Once the drafts of a file at the root are stored, reads see them before all else. -/
theorem AtRoot.inFront (hg : g.AtRoot f) (hnodup : (drafts.map Parameter.key).Nodup)
    (hfiles : ∀ q ∈ drafts, q.file = f) (features : List TimeFeature) :
    (g.linearize f).InFront (g.storedAtRoot f drafts features) f drafts := by
  obtain ⟨ho, hf, hhome⟩ := hg.ordered
  have hlined := ho.lined_linearize hf
  obtain ⟨tail, htail⟩ := ho.linearOrder_eq_cons hf
  rw [htail] at hlined
  have hhome : (g.linearize f).AtHome := by
    intro h k p hp
    rw [linearize, declared?_link] at hp
    exact hhome h k p hp
  have hstored : ∀ h < g.files.size, ∀ k, (g.storedAtRoot f drafts features).declared? h k =
      if h = f then (rowOf? Parameter.key k drafts).or ((g.linearize f).declared? h k)
      else (g.linearize f).declared? h k := by
    intro h hh k
    rw [declared?_storedAtRoot]
    refine declared?_storeAll_of_file hnodup hfiles features ?_ k
    rwa [linearize, size_link]
  have hdrafts : ∀ k, (g.storedAtRoot f drafts features).declared? f k =
      (rowOf? Parameter.key k drafts).or ((g.linearize f).declared? f k) := by
    intro k
    rw [hstored f hf, if_pos rfl]
  have hbehind : ∀ h ∈ tail, ∀ k, (g.storedAtRoot f drafts features).declared? h k =
      (g.linearize f).declared? h k := by
    intro h hh k
    have hbelow := (ho.mem_linearOrder hf).mp (htail ▸ List.mem_cons_of_mem f hh)
    have hne : h ≠ f := by
      rintro rfl
      exact (List.nodup_cons.mp hlined.nodup).1 hh
    rw [hstored h (ho.lt_size_of_below hf hbelow), if_neg hne]
  cases hg with
  | edit hr =>
    have hs : (g.storedAtRoot transientFile drafts features).Lined (transientFile :: tail) := by
      rw [storedAtRoot, if_pos rfl]
      exact hlined.storeAll drafts features
    exact inFront_of_lined [] hhome hlined hs rfl (fun h hh => absurd hh List.not_mem_nil) hdrafts
      hbehind
  | @top b name includes hb hincludes =>
    have hfront : b.files.size ≠ transientFile :=
      Nat.ne_of_gt hb.coherent.ordered.transientFile_lt_size
    have hs := ho.lined_storedAtRoot hfront hf drafts features
    rw [htail] at hs
    refine inFront_of_lined [transientFile] hhome hlined hs rfl ?_ hdrafts hbehind
    intro h hh k
    rw [List.mem_singleton.mp hh, hstored _ ho.transientFile_lt_size, if_neg hfront.symm, linearize,
      declared?_link, declared?_addFile, hb.declared?_transientFile]

/-- A value that is refused for the lengths of its operands when a file is processed at the root
could not be evaluated either, had the file been stored, if the names that its declared lengths
were followed through stand for the same there; what nearer files override may stand for
vectors of other lengths.  Under the same condition a declared length is the length of the
value. -/
theorem lengthMismatch_of_process (g : Graph) :
    (∀ f, g.AtRoot f → ∀ (limits : Limits) (ds : Declarations) (keeps : Bool), ds.Distinct →
      (keeps = false → f = transientFile) →
      ∀ e, (g.process limits f ds keeps).1 = .error e → e.kind = .lengthMismatch →
        ∃ o drafts p, g.outline f ds = .ok o ∧
          o.declarations.rows.mapM ((g.linearize f).draftOf limits f o) = .ok drafts ∧
          p ∈ drafts ∧ e.context.parameter = some p.qualified ∧
          let stored := g.storedAtRoot f drafts o.features
          (∀ r ∈ p.plan.lengthRefs, ∀ q, (g.linearize f).draftTarget? f drafts p r = some q →
            (g.linearize f).SeenAlike stored q) →
          ∀ limit fuel t, ∃ e' t', (stored.evaluate limit fuel p).run t = (.error e', t')) ∧
    ∀ (p : Parameter) (hops n : Nat), g.SeenAlike g p →
      g.declaredLength? hops p = some n →
      ∀ limit fuel t t' v, (g.evaluate limit fuel p).run t = (.ok v, t') → v.size = n := by
  constructor
  · intro f hg limits ds keeps hds hkeeps e he hkind
    have hlinear : (if keeps then g.linearize f else g) = g.linearize f := by
      cases keeps with
      | true => rfl
      | false =>
        -- What is only tried goes along the chain as it stands, which is linear in a session.
        cases hg with
        | top hb _ =>
          exact absurd (hkeeps rfl) (Nat.ne_of_gt hb.coherent.ordered.transientFile_lt_size)
        | edit hr => exact hr.whole.linearize_eq.symm
    obtain ⟨o, drafts, p, e', ho, hdrafts, hp, hparameter, hcheck⟩ := exists_of_process he hkind
    rw [hlinear] at hdrafts hcheck
    have hnodup : (drafts.map Parameter.key).Nodup := by
      rw [keys_of_draft hdrafts]
      exact distinct_outline hds ho
    have hfiles : ∀ q ∈ drafts, q.file = f := fun q hq => file_of_draft hdrafts hq
    refine ⟨o, drafts, p, ho, hdrafts, hp, hparameter, ?_⟩
    intro stored hseen limit fuel t
    exact (hg.inFront hnodup hfiles o.features).fails hfiles hp hcheck hseen limit fuel t
  · intro p hops n hseen hlength limit fuel t t' v hrun
    exact size_of_declaredLength? hseen.followedAlike hlength hrun

/-! ### Three numbers and two -/

/-- A vector of two. -/
def pair : Source := fun spec =>
  if spec = "top" then .ok "iv:A = 2 1 2".toUTF8
  else .error (.cannotOpen spec "no such file")

/-- A vector of three to which it cannot be added. -/
def triple : Declarations :=
  { rows := [⟨Name.ofText "C", some (Kind.many .integer), "3 1 1 1 + A", false, 1⟩] }

theorem lengthMismatch_of_process_pair :
    ∃ session q, Session.load pair { withDefaults := false } "top" = .ok session ∧
      let g := session.graph
      g.visible? ⟨"a"⟩ = some q ∧ g.declaredLength? 1 q = some 2 ∧
      (∀ limit fuel t t' v, (g.evaluate limit fuel q).run t = (.ok v, t') → v.size = 2) ∧
      ∃ e, (g.process {} transientFile triple true).1 = .error e ∧ e.kind = .lengthMismatch ∧
        ∃ o : Outline, ∃ drafts, ∃ p ∈ drafts, ∀ limit fuel t, ∃ e' t',
          ((g.storedAtRoot transientFile drafts o.features).evaluate limit fuel p).run t =
            (.error e', t') := by
  have hok : ((Session.load pair { withDefaults := false } "top").toOption.any fun session =>
      let g := session.graph
      ((g.visible? ⟨"a"⟩).any fun q => q.plan.lengthRefs.isEmpty &&
        g.declaredLength? 1 q == some 2) &&
      failsWhere (fun e => e.kind == .lengthMismatch) (g.process {} transientFile triple true).1 &&
      ((g.outline transientFile triple).toOption.all fun o =>
        let g := g.linearize transientFile
        (o.declarations.rows.mapM (g.draftOf {} transientFile o)).toOption.all fun drafts =>
          drafts.all fun p => p.plan.lengthRefs.all fun r =>
            (g.draftTarget? transientFile drafts p r).all fun q => q.plan.lengthRefs.isEmpty)) =
      true := by
    decide +kernel
  obtain ⟨session, hs, hok⟩ := (Option.any_eq_true _ _).mp hok
  have hload := toOption_eq_some.mp hs
  simp only [Bool.and_eq_true, Option.any_eq_true, beq_iff_eq, List.isEmpty_iff] at hok
  obtain ⟨⟨⟨q, hq, hnil, hlength⟩, hfails⟩, hplans⟩ := hok
  obtain ⟨hprocess, hsize⟩ := lengthMismatch_of_process session.graph
  refine ⟨session, q, hload, hq, hlength, ?_, ?_⟩
  · exact hsize q 1 2 (.of_lengthRefs_eq_nil hnil) hlength
  · obtain ⟨e, he, htest⟩ := failsWhere_eq_true.mp hfails
    have hkind := beq_iff_eq.mp htest
    obtain ⟨o, drafts, p, ho, hdrafts, hp, -, himpossible⟩ := hprocess _
      (.edit (Session.rooted_load hload)) {} triple true (List.nodup_singleton _)
      (fun hkeeps => absurd hkeeps.symm Bool.false_ne_true) e he hkind
    refine ⟨e, he, hkind, o, drafts, p, hp, himpossible ?_⟩
    rw [toOption_eq_some.mpr ho, Option.all_some, toOption_eq_some.mpr hdrafts,
      Option.all_some] at hplans
    intro r hr q hq
    have hall := List.all_eq_true.mp (List.all_eq_true.mp hplans p hp) r hr
    rw [hq, Option.all_some] at hall
    exact .of_lengthRefs_eq_nil (List.isEmpty_iff.mp hall)

end Graph

end ParameterChain
