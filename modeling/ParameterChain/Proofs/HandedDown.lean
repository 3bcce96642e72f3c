/-
# Inherited values come from the includes of the declaring file

The parameter above a file is looked up along the final chain, where the next file may be a
sibling that the file knows nothing of.  A parameter that reads come by, straight or through
inherited values, is *handed down* (`Graph.HandedDown`).  If its plan refers to the inherited
value, or joins it with something, then the includes of its file agree on its key, and what
is above it in the final chain is what a walk of these includes finds.

This holds in every state of a session.  Edits go to the transient file, which has a single
include, and change nothing below the other files, so what the check of the arms settled when
a file was loaded stays settled (`Graph.Decided`).

A list with the inherited value among its elements is another matter.  It ought not to be there:
no list has room for a vector, and that the resolver lets it through is the slip that
`ParameterChain.Proofs.SelfReference` describes and `Session.inherited_run` bounds
(`Graph.Mixes.not_derives`).  Let through, it passes for an absolute value in the check of the arms.
Where the includes of its file show different parameters, what it inherits then depends on the
chain, and what that one inherits may come from a sibling (`Session.siblingArms`).  Reads that come
by such a list are left out of the statement; were it refused, nothing would have to be.

Main statement: `Session.above?_run`.
-/
import ParameterChain.Proofs.Admission
import ParameterChain.Proofs.Conflicts
import ParameterChain.Proofs.Inherited

namespace ParameterChain

namespace Graph

variable {g g' : Graph} {f i j : FileId} {k : Key} {p q : Parameter} {done : Commit}

/-! ## Decided keys -/

/-- If `f` declares `k` by way of other parameters then its includes agree on `k`. -/
def Decided (g : Graph) (f : FileId) (k : Key) : Prop :=
  ∀ p, g.declared? f k = some p → p.plan.RefersOrJoins →
    ∀ i ∈ g.includesOf f, ∀ j ∈ g.includesOf f, g.AgreeOn k i j

theorem AgreeOn.congr (hi : g'.firstFound? i k = g.firstFound? i k)
    (hj : g'.firstFound? j k = g.firstFound? j k) (h : g.AgreeOn k i j) : g'.AgreeOn k i j := by
  intro p q hp hq
  exact h p q (hi ▸ hp) (hj ▸ hq)

theorem Decided.congr (ho : g.Ordered) (ho' : g'.Ordered) (hsize : g.files.size ≤ g'.files.size)
    (hsame : g.SameBelow g' f k) (h : g.Decided f k) : g'.Decided f k := by
  intro p hp hplan i hi j hj
  obtain ⟨hincludes, hdeclared⟩ := hsame f (Below.refl g f)
  rw [hincludes] at hi hj
  have hfound : ∀ i ∈ g.includesOf f, g'.firstFound? i k = g.firstFound? i k := by
    intro i hi
    have hlt := ho.lt_size_of_include hi
    exact (hsame.include hi).firstFound?_eq ho ho' hlt (Nat.lt_of_lt_of_le hlt hsize)
  exact (h p (hdeclared ▸ hp) hplan i hi j hj).congr (hfound i hi) (hfound j hj)

theorem decided_of_single (hf : g.includesOf f = [i]) : g.Decided f k := by
  intro p _ _ x hx y hy
  rw [hf, List.mem_singleton] at hx hy
  rw [hx, hy]
  exact AgreeOn.refl g k i

/-- After a commit to a file that is below none of its includes, the file is decided on all
keys: those that the includes contest are declared in absolute terms. -/
theorem decided_commit {limits : Limits} {ds : Declarations} (ho : g.Ordered)
    (hlone : ∀ i ∈ g.includesOf f, ¬ g.Below i f) (hc : g.commit limits f ds = .ok done) :
    done.graph.Decided f k := by
  have ho' : done.graph.Ordered := ordered_commit ho hc
  intro p hp hplan i hi j hj
  rw [includesOf_commit hc] at hi hj
  have hfound : ∀ i ∈ g.includesOf f, done.graph.firstFound? i k = g.firstFound? i k := by
    intro i hi
    have hlt := ho.lt_size_of_include hi
    exact (sameBelow_commit hc (hlone i hi) k).firstFound?_eq ho ho' hlt (size_commit hc ▸ hlt)
  refine AgreeOn.congr (hfound i hi) (hfound j hj) ?_
  intro x y hx hy
  by_contra hne
  obtain ⟨r, hr, habsolute⟩ := declared?_of_contested hc hi hj hx hy hne
  cases hp.symm.trans hr
  exact habsolute hplan

/-- In a graph that was loaded every file is decided on all keys. -/
theorem Built.decided (hb : g.Built) : ∀ f < g.files.size, ∀ k, g.Decided f k := by
  induction hb with
  | empty =>
    intro f hf k p hp
    obtain rfl : f = transientFile := Nat.lt_one_iff.mp hf
    cases hp
  | @file g limits name includes ds done hb hincludes _ hc ih =>
    have hg := hb.coherent
    have ho : (g.addFile name includes).Ordered := ordered_addFile hg.ordered hincludes
    have hsize : done.graph.files.size = g.files.size + 1 := by simpa using size_commit hc
    intro f hf k
    rcases Nat.lt_succ_iff_lt_or_eq.mp (hsize ▸ hf) with hlt | rfl
    · exact (ih f hlt k).congr hg.ordered (ordered_commit ho hc)
        (hsize ▸ Nat.le_succ g.files.size) (sameBelow_file hg hlt hc k)
    · refine decided_commit ho (fun i hi => ?_) hc
      have hlt := lt_size_of_include_addFile hg.ordered hincludes hi
      exact not_below_addFile hg.ordered hlt name includes

/-- The transient file has a single include, the top file. -/
theorem Rooted.exists_includes (hr : g.Rooted) : ∃ top, g.includesOf transientFile = [top] := by
  induction hr with
  | @root g limits top done hb _ _ hc =>
    refine ⟨top, ?_⟩
    rw [includesOf_commit hc,
      includesOf_setIncludes g _ _ _ hb.coherent.ordered.transientFile_lt_size, if_pos rfl]
  | edit _ _ hc ih =>
    obtain ⟨top, htop⟩ := ih
    exact ⟨top, by rw [includesOf_commit hc, htop]⟩
  | tick _ _ ih => exact ih

/-- In the graph of a session every file is decided on all keys, whatever was edited. -/
theorem Rooted.decided (hr : g.Rooted) : ∀ f < g.files.size, ∀ k, g.Decided f k := by
  have htransient := hr.exists_includes
  intro f hf k
  by_cases hne : f = transientFile
  · obtain ⟨top, htop⟩ := htransient
    exact decided_of_single (hne ▸ htop)
  -- Nothing but the transient file is ever touched, and that file is below no other.
  clear htransient
  induction hr with
  | @root g limits top done hb htop _ hc =>
    have hg := hb.coherent
    have ho := ordered_setIncludes hg.ordered htop
    have hsize : done.graph.files.size = g.files.size := by simpa using size_commit hc
    have hsame := (sameBelow_setIncludes hg.ordered hne [top] k).trans
      (sameBelow_commit hc (ho.transientFile_not_below hne) k)
    exact (hb.decided f (hsize ▸ hf) k).congr hg.ordered (ordered_commit ho hc)
      (Nat.le_of_eq hsize.symm) hsame
  | @edit g limits ds done hr _ hc ih =>
    have ho := hr.whole.ordered
    exact (ih (size_commit hc ▸ hf)).congr ho (ordered_commit ho hc)
      (Nat.le_of_eq (size_commit hc).symm)
      (sameBelow_commit hc (ho.transientFile_not_below hne) k)
  | tick t hr ih =>
    exact (ih hf).congr hr.whole.ordered (hr.whole.tick t).ordered (Nat.le_refl _)
      fun _ _ => ⟨rfl, rfl⟩

/-! ## What is handed down -/

/-- `p` is visible, or it is the inherited value of a parameter that is handed down, each
parameter on the way being one that `through` allows. -/
inductive HandedDown (g : Graph) (through : Parameter → Prop) : Parameter → Prop
  | visible {k : Key} {p : Parameter} : g.visible? k = some p → HandedDown g through p
  | above {p q : Parameter} : HandedDown g through p → through p → .inherited ∈ p.plan.refs →
      g.above? p.file p.key = some q → HandedDown g through q

/-- A plan that refers to the inherited value is no time feature, and if it is no list then it
is a reference or joins operands. -/
theorem refersOrJoins_of_inherited {plan : Plan} (hr : .inherited ∈ plan.refs)
    (hlist : ∀ s elements, plan ≠ .list s elements) : plan.RefersOrJoins := by
  cases plan with
  | literal v => cases hr
  | list s elements => exact absurd rfl (hlist s elements)
  | reference r => exact Or.inl ⟨r, rfl⟩
  | binary lhs op rhs => exact Or.inr ⟨lhs, op, rhs, rfl⟩
  | feature base => cases hr

theorem refersOrJoins_of_relative {plan : Plan} (hplan : plan.isRelative = true)
    (hr : .inherited ∈ plan.refs) : plan.RefersOrJoins := by
  refine refersOrJoins_of_inherited hr ?_
  rintro s elements rfl
  cases hplan

/-- Where a parameter refers to its inherited value, the includes of its file agree on its key
or it is a list that mixes what they show. -/
theorem agreeAbove_or_mixes (hdecided : ∀ f < g.files.size, ∀ k, g.Decided f k)
    (hp : g.Stored p) (hr : .inherited ∈ p.plan.refs) : g.AgreeAbove p ∨ g.Mixes p := by
  by_cases hlist : ∃ s elements, p.plan = .list s elements
  · by_cases hagree : g.AgreeAbove p
    · exact Or.inl hagree
    · exact Or.inr ⟨hlist, hr, hagree⟩
  · push Not at hlist
    exact Or.inl (hdecided p.file (lt_size_of_declared? hp) p.key p hp
      (refersOrJoins_of_inherited hr hlist))

/-- What is handed down without a list that mixes is in line. -/
theorem HandedDown.inLine (hg : g.Whole) (hdecided : ∀ f < g.files.size, ∀ k, g.Decided f k)
    (hp : g.HandedDown (fun p => ¬ g.Mixes p) p) : g.InLine p := by
  induction hp with
  | visible hp => exact hg.inLine_of_visible? hp
  | above _ hmixes hr hq ih =>
    have hagree := (agreeAbove_or_mixes hdecided ih.stored hr).resolve_right hmixes
    refine ih.above hg hagree ?_ hq
    intro base hplan
    rw [hplan] at hr
    cases hr

end Graph

namespace Session

open ParameterChain.Graph

/-- Inherited values follow the includes of the declaring file.  Let a session have been
loaded and then edited at will, and let a parameter be visible, or be reached from a visible
one through inherited values, none of them that of a list which mixes it in where the includes of
its file disagree: such a list is there by the slip of the resolver only.  If the plan of the
parameter is a reference or joins operands, then its inherited value, which evaluation reads along
the final chain, is what the includes of its file show first, or neither is there. -/
theorem above?_run {source : Source} {options : LoadOptions} {top : String} {s : Session}
    (hload : Session.load source options top = .ok s) (steps : List Step) {p : Parameter}
    (hp : (s.run steps).graph.HandedDown (fun q => ¬ (s.run steps).graph.Mixes q) p)
    (hplan : p.plan.RefersOrJoins) :
    (s.run steps).graph.above? p.file p.key =
      ((s.run steps).graph.includesOf p.file).findSome?
        ((s.run steps).graph.firstFound? · p.key) := by
  have hrooted : (s.run steps).graph.Rooted := rooted_run (rooted_load hload) steps
  have hline := hp.inLine hrooted.whole hrooted.decided
  have hagree := hrooted.decided p.file (lt_size_of_declared? hline.stored) p.key p
    hline.stored hplan
  exact hline.above?_eq hrooted.whole hagree

/-! ### A sibling that is inherited from -/

/-- The arm `b` adds to what `base` declares, the arm `a` has a vector of its own, and the file
that includes both has a list with the inherited value in it. -/
def siblingArms : Source := fun spec =>
  if spec = "base" then .ok "uv:X = 2 7 7".toUTF8
  else if spec = "a" then .ok "includeFile = base\nuv:X = 3 5 5 5".toUTF8
  else if spec = "b" then .ok "includeFile = base\nuv:X = 2 1 1 + InheritedValue".toUTF8
  else if spec = "top" then .ok "includeFile = b a\nuv:X = 2 InheritedValue 1".toUTF8
  else .error (.cannotOpen spec "no such file")

/-- By way of the list in `top`, which misplaces its inherited value, the arm `b` is reached and
comes to inherit from `a`, which it does not include. -/
theorem above?_siblingArms :
    ∃ s p q r, Session.load siblingArms { withDefaults := false } "top" = .ok s ∧
      s.graph.HandedDown (fun q => q.plan.Misplaces q.kind) p ∧ p.plan.RefersOrJoins ∧
      .inherited ∈ p.plan.refs ∧ s.graph.above? p.file p.key = some q ∧
      (s.graph.includesOf p.file).findSome? (s.graph.firstFound? · p.key) = some r ∧
      q.slot ≠ r.slot := by
  have hok : ((Session.load siblingArms { withDefaults := false } "top").toOption.any fun s =>
      (s.graph.visible? ⟨"x"⟩).any fun top =>
        (top.plan.refs.contains .inherited && decide (top.plan.Misplaces top.kind)) &&
        (s.graph.above? top.file top.key).any fun p => p.plan.refs.contains .inherited &&
          p.plan.isRelative && (s.graph.above? p.file p.key).any fun q =>
            ((s.graph.includesOf p.file).findSome? (s.graph.firstFound? · p.key)).any fun r =>
              q.slot != r.slot) = true := by
    decide +kernel
  obtain ⟨s, hs, hok⟩ := (Option.any_eq_true _ _).mp hok
  obtain ⟨top, htop, hok⟩ := (Option.any_eq_true _ _).mp hok
  obtain ⟨htops, hok⟩ := Bool.and_eq_true_iff.mp hok
  obtain ⟨hinherits, hmisplaces⟩ := Bool.and_eq_true_iff.mp htops
  obtain ⟨p, hp, hok⟩ := (Option.any_eq_true _ _).mp hok
  obtain ⟨hplan, hok⟩ := Bool.and_eq_true_iff.mp hok
  obtain ⟨hr, hrelative⟩ := Bool.and_eq_true_iff.mp hplan
  obtain ⟨q, hq, hok⟩ := (Option.any_eq_true _ _).mp hok
  obtain ⟨r, hfound, hne⟩ := (Option.any_eq_true _ _).mp hok
  have hr := List.contains_iff_mem.mp hr
  exact ⟨s, p, q, r, toOption_eq_some.mp hs,
    .above (.visible htop) (of_decide_eq_true hmisplaces) (List.contains_iff_mem.mp hinherits) hp,
    refersOrJoins_of_relative hrelative hr, hr, hq, hfound, bne_iff_ne.mp hne⟩

/-- One more vector on top of what `b` shows. -/
def addingEdit : List Step :=
  [.change ⟨"X", "2 2 2 + InheritedValue", true⟩]

theorem above?_run_addingEdit :
    ∃ s p, Session.load siblingArms { withDefaults := false } "b" = .ok s ∧
      let g := (s.run addingEdit).graph
      g.HandedDown (fun q => ¬ g.Mixes q) p ∧ p.plan.RefersOrJoins ∧
        .inherited ∈ p.plan.refs ∧ p.file ≠ transientFile ∧
        g.above? p.file p.key = (g.includesOf p.file).findSome? (g.firstFound? · p.key) := by
  have hok : ((Session.load siblingArms { withDefaults := false } "b").toOption.any fun s =>
      ((s.run addingEdit).graph.visible? ⟨"x"⟩).any fun edit =>
        (edit.plan.refs.contains .inherited && edit.plan.isRelative) &&
          ((s.run addingEdit).graph.above? edit.file edit.key).any fun p =>
            (p.plan.refs.contains .inherited && p.plan.isRelative) &&
              p.file != transientFile) = true := by
    decide +kernel
  obtain ⟨s, hs, hok⟩ := (Option.any_eq_true _ _).mp hok
  obtain ⟨edit, hedit, hok⟩ := (Option.any_eq_true _ _).mp hok
  obtain ⟨hadds, hok⟩ := Bool.and_eq_true_iff.mp hok
  obtain ⟨hinherits, hadds⟩ := Bool.and_eq_true_iff.mp hadds
  obtain ⟨p, hp, hok⟩ := (Option.any_eq_true _ _).mp hok
  obtain ⟨hplan, hfile⟩ := Bool.and_eq_true_iff.mp hok
  obtain ⟨hr, hrelative⟩ := Bool.and_eq_true_iff.mp hplan
  have hload := toOption_eq_some.mp hs
  have hr := List.contains_iff_mem.mp hr
  have hjoins := refersOrJoins_of_relative hrelative hr
  have hmixes : ¬ (s.run addingEdit).graph.Mixes edit := by
    rintro ⟨⟨scalar, elements, hlist⟩, -, -⟩
    rw [hlist] at hadds
    cases hadds
  have hdown : (s.run addingEdit).graph.HandedDown
      (fun q => ¬ (s.run addingEdit).graph.Mixes q) p :=
    .above (.visible hedit) hmixes (List.contains_iff_mem.mp hinherits) hp
  exact ⟨s, p, hload, hdown, hjoins, hr, bne_iff_ne.mp hfile, above?_run hload _ hdown hjoins⟩

end Session

end ParameterChain
