/-
# What a parameter inherits

The parameters that a read comes by after a load are *in line*: all else that is declared under
the key of such a parameter is below its file, or it is above and is not the value of a time
feature (`Graph.InLine`).  What reads see is in line, and from there inherited values lead on
to parameters in line.

The inherited value of a parameter in line is shown by one of the includes of its file.  If
these agree on the key it is what all of them show.  If they do not, the parameter has been
given an absolute value.  It may be a list still, with the inherited value among its elements
(`Graph.Mixes`), though no list has room for a vector: the resolver does not ask, by the slip that
`ParameterChain.Proofs.SelfReference` describes.

Main statement: `InLine.inherits`.
-/
import ParameterChain.Proofs.Moved
import ParameterChain.Proofs.Twins

namespace ParameterChain.Graph

variable {source : Source} {options : LoadOptions} {g : Graph} {f h i w : FileId} {k : Key}
  {p q : Parameter}

/-! ## The chain above a file -/

theorem Followed.of_append {before rest : List FileId} (h : g.Followed (before ++ rest)) :
    g.Followed rest := by
  induction before with
  | nil => exact h
  | cons _ before ih => exact ih h.2

/-- From every file on, the chain of a whole graph holds what is below the file, in front of
its includes. -/
theorem Whole.exists_rest (hg : g.Whole) (hf : f < g.files.size) :
    ∃ rest, (f :: rest).Nodup ∧ g.Followed (f :: rest) ∧
      ∀ k, g.above? f k = rest.findSome? (g.declared? · k) := by
  have hnonempty := hg.ordered.transientFile_lt_size
  have hmem := (hg.ordered.mem_linearOrder hnonempty).mpr (hg.below f hf)
  have hnodup : (g.linearOrder transientFile).Nodup := nodup_lastPlaces _
  have hfollowed := hg.ordered.followed_linearOrder hnonempty
  have hlength := hg.ordered.length_linearOrder_le hnonempty
  have hlinked := hg.linked
  obtain ⟨before, rest, heq⟩ := List.append_of_mem hmem
  rw [heq] at hnodup hfollowed hlength hlinked
  refine ⟨rest, (List.nodup_append.mp hnodup).2.1, hfollowed.of_append, fun k => ?_⟩
  exact (hlinked.look_up before hnodup hlength k).2

/-- If nothing is above a file then none of its includes shows anything. -/
theorem Whole.not_shown (hg : g.Whole) (hf : f < g.files.size) (hnone : g.above? f k = none)
    (hi : i ∈ g.includesOf f) : g.firstFound? i k = none := by
  obtain ⟨rest, -, hfollowed, habove⟩ := hg.exists_rest hf
  rw [habove] at hnone
  refine (hg.ordered.firstFound?_eq_none_iff (hg.ordered.lt_size_of_include hi)).mpr ?_
  intro h hb
  exact List.findSome?_eq_none_iff.mp hnone h
    (hfollowed.2.mem_of_below (hfollowed.1 i hi) hb)

/-! ## Parameters in line -/

/-- Whatever else is declared under the key of `p` is below the file of `p`, or it is above and
no value of a time feature. -/
structure InLine (g : Graph) (p : Parameter) : Prop where
  stored : g.Stored p
  others : ∀ h q, g.declared? h p.key = some q →
    g.Below p.file h ∨ g.Below h p.file ∧ ∀ base, q.plan ≠ .feature base

/-- The includes of the file of `p` agree on its key. -/
def AgreeAbove (g : Graph) (p : Parameter) : Prop :=
  ∀ i ∈ g.includesOf p.file, ∀ j ∈ g.includesOf p.file, g.AgreeOn p.key i j

/-- `p` is a list that has the inherited value among its elements, and the includes of its file
show different ones. -/
structure Mixes (g : Graph) (p : Parameter) : Prop where
  list : ∃ s elements, p.plan = .list s elements
  inherits : .inherited ∈ p.plan.refs
  disagree : ¬ g.AgreeAbove p

/-- What reads see is in line. -/
theorem Whole.inLine_of_visible? (hg : g.Whole) (hp : g.visible? k = some p) : g.InLine p where
  stored := hg.home.stored_of_visible? hp
  others := by
    intro h q hq
    rw [key_of_visible? hp] at hq
    obtain ⟨p', hp', hb⟩ := (hg.visible?_eq k).2 h q hq
    cases hp.symm.trans hp'
    exact Or.inl hb

theorem Below.eq_or_include (hb : g.Below f h) : h = f ∨ ∃ i ∈ g.includesOf f, g.Below i h :=
  (below_iff.mp hb).imp_left Eq.symm

section InLine

variable (hg : g.Whole) (hp : g.InLine p)

include hg hp

/-- What is above a parameter in line is shown by one of the includes of its file. -/
theorem InLine.exists_shown (hq : g.above? p.file p.key = some q) :
    ∃ i ∈ g.includesOf p.file, g.firstFound? i p.key = some q := by
  obtain ⟨rest, hnodup, hfollowed, habove⟩ := hg.exists_rest (lt_size_of_declared? hp.stored)
  rw [habove] at hq
  obtain ⟨hnot, hrest⟩ := List.nodup_cons.mp hnodup
  obtain ⟨before, x, after, rfl, hx, hnone⟩ := List.findSome?_eq_some_iff.mp hq
  have hmem : x ∈ before ++ x :: after := List.mem_append_right _ List.mem_cons_self
  -- The file that declares it comes after that of `p`, so it is below and not above.
  have hb : g.Below p.file x := by
    refine (hp.others x q hx).resolve_right ?_
    rintro ⟨hb, -⟩
    exact hnot (hfollowed.2.mem_of_below hmem hb)
  rcases hb.eq_or_include with rfl | ⟨i, hi, hb⟩
  · exact absurd hmem hnot
  have hlt := hg.ordered.lt_size_of_include hi
  refine ⟨i, hi, ?_⟩
  rcases hg.settled i hlt p.key with hempty | ⟨w, hlead, hw⟩
  · cases hx.symm.trans ((hg.ordered.firstFound?_eq_none_iff hlt).mp hempty x hb)
  -- The file that leads below the include is the first of the chain to declare the key.
  have hwx : g.Below w x := hlead.above x hb (by rw [hx]; rfl)
  have hwmem := hfollowed.2.mem_of_below (hfollowed.1 i hi) hlead.below
  rcases List.mem_append.mp hwmem with hwmem | hwmem
  · have hdeclares := hlead.declares
    rw [hnone w hwmem] at hdeclares
    cases hdeclares
  · rcases List.mem_cons.mp hwmem with rfl | hwmem
    · exact hw.trans hx
    · have hfollowed := hfollowed.2.of_append.2
      have hdouble := hfollowed.mem_of_below hwmem hwx
      exact absurd hdouble (List.nodup_cons.mp (List.nodup_append.mp hrest).2.1).1

/-- If nothing is above a parameter in line then no include of its file shows its key. -/
theorem InLine.not_shown (hnone : g.above? p.file p.key = none) (hi : i ∈ g.includesOf p.file) :
    g.firstFound? i p.key = none :=
  hg.not_shown (lt_size_of_declared? hp.stored) hnone hi

variable (hagree : g.AgreeAbove p)

include hagree

theorem InLine.eq_of_shown (hq : g.above? p.file p.key = some q) (hi : i ∈ g.includesOf p.file)
    {q' : Parameter} (hq' : g.firstFound? i p.key = some q') : q = q' := by
  obtain ⟨j, hj, hshown⟩ := hp.exists_shown hg hq
  have hlt := fun i hi => hg.ordered.lt_size_of_include (f := p.file) (i := i) hi
  exact (hagree j hj i hi).eq hg.toCoherent (hlt j hj) (hlt i hi) hshown hq'

/-- Where the includes agree, the inherited value is what they show. -/
theorem InLine.above?_eq :
    g.above? p.file p.key = (g.includesOf p.file).findSome? (g.firstFound? · p.key) := by
  cases hq : g.above? p.file p.key with
  | none =>
    exact (List.findSome?_eq_none_iff.mpr fun i hi => hp.not_shown hg hq hi).symm
  | some q =>
    obtain ⟨j, hj, hshown⟩ := hp.exists_shown hg hq
    cases hfound : (g.includesOf p.file).findSome? (g.firstFound? · p.key) with
    | none => cases hshown.symm.trans (List.findSome?_eq_none_iff.mp hfound j hj)
    | some q' =>
      obtain ⟨i, hi, hq'⟩ := List.exists_of_findSome?_eq_some hfound
      rw [hp.eq_of_shown hg hagree hq hi hq']

/-- Where the includes agree, the inherited value is in line again. -/
theorem InLine.above (hplan : ∀ base, p.plan ≠ .feature base)
    (hq : g.above? p.file p.key = some q) : g.InLine q := by
  obtain ⟨j, hj, hshown⟩ := hp.exists_shown hg hq
  obtain ⟨x, hxj, hx⟩ := hg.ordered.below_of_firstFound? (hg.ordered.lt_size_of_include hj) hshown
  have hkey : q.key = p.key := key_of_declared? hx
  have hfile : q.file = x := hg.home x p.key q hx
  have hqp : g.Below p.file q.file := hfile ▸ hxj.head hj
  refine ⟨hg.home.stored hx, ?_⟩
  intro h r hr
  rw [hkey] at hr
  rcases hp.others h r hr with hb | ⟨hb, hr⟩
  · rcases hb.eq_or_include with rfl | ⟨i, hi, hb⟩
    · cases hp.stored.symm.trans hr
      exact Or.inr ⟨hqp, hplan⟩
    · have hlt := hg.ordered.lt_size_of_include hi
      rcases hg.settled i hlt p.key with hempty | ⟨w, hlead, hw⟩
      · cases hr.symm.trans ((hg.ordered.firstFound?_eq_none_iff hlt).mp hempty h hb)
      obtain ⟨q', hq'⟩ := Option.isSome_iff_exists.mp hlead.declares
      cases hp.eq_of_shown hg hagree hq hi (hw.trans hq')
      have hsame : q.file = w := hg.home w p.key q hq'
      rw [hsame]
      exact Or.inl (hlead.above h hb (by rw [hr]; rfl))
  · exact Or.inr ⟨hb.trans hqp, hr⟩

end InLine

/-! ## Inherited values -/

/-- A parameter in line that refers to its inherited value inherits what the includes of its
file agree on, or it is a list and what it inherits is a vector. -/
theorem InLine.inherits (hg : g.Whole) (hsourced : g.Sourced source options)
    (hp : g.InLine p) (hne : p.file ≠ transientFile) (hr : .inherited ∈ p.plan.refs) :
    g.AgreeAbove p ∨ g.Mixes p ∧ g.RefersToVector p .inherited := by
  by_cases hagree : g.AgreeAbove p
  · exact Or.inl hagree
  refine Or.inr ?_
  obtain ⟨ds, m, done, ho⟩ :=
    hsourced.origin p.file (lt_size_of_declared? hp.stored) hne
  have hmem : p ∈ done.parameters :=
    mem_of_rowOf? ((ho.declared?_eq p.key).symm.trans hp.stored)
  have hds := distinct_declarations ho.declarations
  obtain ⟨o, drafts, hout, hdraft, hdone⟩ := commit_eq_ok.mp ho.commit
  have hmem : p ∈ drafts := by
    rw [← hdone] at hmem
    exact hmem
  rcases mem_draft_cases hds hout hdraft hmem with ⟨feature, -, hvalue⟩ | ⟨r, hresolved⟩
  · rw [hvalue.plan] at hr
    cases hr
  have hcontested : p.key ∈ o.contested := by
    rw [AgreeAbove] at hagree
    push Not at hagree
    obtain ⟨i, hi, j, hj, hdisagree⟩ := hagree
    exact ((ho.agreeOn hg.toCoherent hout hi hj p.key).resolve_left hdisagree).1
  have habsolute := hresolved.absolute hcontested
  have hlist : ∃ s elements, p.plan = .list s elements := by
    cases hplan : p.plan with
    | literal v =>
      rw [hplan] at hr
      cases hr
    | list s elements => exact ⟨s, elements, rfl⟩
    | reference r =>
      rw [hplan] at habsolute
      cases habsolute
    | binary lhs op rhs =>
      rw [hplan] at habsolute
      cases habsolute
    | feature base =>
      rw [hplan] at habsolute
      cases habsolute
  refine ⟨⟨hlist, hr, hagree⟩, ?_⟩
  intro q hq
  obtain ⟨i, hi, hshown⟩ := hp.exists_shown hg hq
  have hshown : q ∈ (m.addFile (g.nameOf p.file) (g.includesOf p.file)).ancestors p.file p.key := by
    rw [ho.ancestors_eq hg.toCoherent]
    exact List.mem_filterMap.mpr ⟨i, hi, hshown⟩
  obtain ⟨s, elements, hplan⟩ := hlist
  have hfits := Resolution.resolve_fits hresolved.resolve
  rw [hresolved.kind, hplan] at hfits
  rw [← hresolved.agrees q hshown]
  exact hfits.1.1.symm

/-! ## Time features -/

/-- Of the files that describe a time feature, that of a value in line is the last. -/
theorem InLine.le_file_of_defines (ho : g.Ordered) (hp : g.InLine p) (hne : p.file ≠ transientFile)
    {base : Key} (hkey : p.key = base.ofValue) (hh : g.Defines h base) : h ≤ p.file := by
  obtain ⟨q, hq, hplan⟩ := hh
  have hb : g.Below p.file h := by
    refine (hp.others h q (hkey ▸ hq)).resolve_right ?_
    rintro ⟨-, hplain⟩
    exact hplain base hplan
  have hhne : h ≠ transientFile := by
    rintro rfl
    exact ho.transientFile_not_below hne hb
  have hle := ho.rank_le_of_below hb
  rwa [rank, rank, if_neg hhne, if_neg hne] at hle

/-- The feature of a value in line is the one that its own file describes. -/
theorem InLine.feature?_eq (ho : g.Ordered) (hsourced : g.Sourced source options)
    (hp : g.InLine p) (hne : p.file ≠ transientFile) {base : Key}
    (hkey : p.key = base.ofValue) (hplan : p.plan = .feature base) :
    ∃ ds m done, g.Origin source options p.file ds m done ∧
      g.feature? base = done.features.reverse.find? fun x => x.key = base := by
  have hself : g.Defines p.file base := ⟨p, hkey ▸ hp.stored, hplan⟩
  cases hfeature : g.feature? base with
  | none => exact absurd hself (hsourced.unfeatured base hfeature p.file)
  | some feature =>
    obtain ⟨f, ds, m, done, horigin, hdefines, hlast, hall⟩ :=
      hsourced.featured base feature hfeature
    obtain rfl : f = p.file :=
      Nat.le_antisymm (hp.le_file_of_defines ho hne hkey hdefines) (hall p.file hself)
    exact ⟨ds, m, done, horigin, hlast.symm⟩

end ParameterChain.Graph
