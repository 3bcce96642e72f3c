/-
# Graphs that were loaded alike

Two sources have the same declarations under every spec and list the same specs, in any order,
and a graph is loaded from each, with the same top file.  Then twins answer to one another in
both graphs, as long as they are in line: what they read are such twins again
(`LoadedAlike.target`), and so are the inputs of time features.

The one exception is what a list inherits in a file whose includes show different things.  A
list has no room for what it inherits there, so it cannot be evaluated in either graph; but
which failure it is depends on the order.  So there are two ways to evaluate the graphs in
parallel: every failure answers to every other (`LoadedAlike.parallel`), or nothing that is
read mixes (`LoadedAlike.parallel_of_unmixed`).
-/
import ParameterChain.Proofs.Clock
import ParameterChain.Proofs.Inherited

namespace ParameterChain.Graph

variable {source source' : Source} {options : LoadOptions} {g g' : Graph} {f f' : FileId}
  {k : Key} {p p' q : Parameter} {top : String}

/-- Plans with references are not those of time features. -/
theorem plan_ne_feature {r : Ref} (hr : r ∈ p.plan.refs) (base : Key) : p.plan ≠ .feature base := by
  intro hplan
  rw [hplan] at hr
  cases hr

/-! ## Loading -/

/-- The graphs were loaded from sources that list the same specs in different orders, and show
twins. -/
structure LoadedAlike (options : LoadOptions) (source source' : Source) (g g' : Graph) :
    Prop where
  alike : Source.ListsAlike options.limits source source'
  rooted : g.Rooted
  rooted' : g'.Rooted
  sourced : g.Sourced source options
  sourced' : g'.Sourced source' options
  catalogued : Catalogued options g
  catalogued' : Catalogued options g'
  visible : ∀ k, Option.Rel (g.Twins g') (g.visible? k) (g'.visible? k)
  clock : g'.clock = g.clock

theorem Built.clock (hb : g.Built) : g.clock = 0 := by
  induction hb with
  | empty => rfl
  | file _ _ _ hc ih =>
    rw [clock_commit hc]
    exact ih

/-- No time has passed in a graph that has just been loaded. -/
theorem clock_of_load (hl : source.load options top = .ok g) : g.clock = 0 := by
  simp only [Source.load, bind_eq_ok, pure_eq_ok] at hl
  obtain ⟨⟨t, m⟩, hload, done, hc, rfl⟩ := hl
  rw [clock_commit hc]
  exact (grown_loadFile options.limits.includeDepth [] top {} t m .empty hload).built.clock

/-- What reads see is what the top file shows. -/
theorem visible?_eq_of_front {t : FileId} (hg : g.Whole)
    (hempty : g.declared? transientFile k = none) (hfront : g.includesOf transientFile = [t]) :
    g.visible? k = g.firstFound? t k := by
  rw [(hg.visible?_eq k).1, hg.ordered.firstFound?_eq hg.ordered.transientFile_lt_size, hempty,
    hfront, Option.none_or, List.findSome?_singleton]

theorem loadedAlike_of_load (hs : Source.ListsAlike options.limits source source')
    (hl : source.load options top = .ok g) (hl' : source'.load options top = .ok g') :
    LoadedAlike options source source' g g' := by
  obtain ⟨t, htop⟩ := topFile_of_load hl
  obtain ⟨t', htop'⟩ := topFile_of_load hl'
  obtain ⟨hsourced, hempty⟩ := sourced_of_load hl
  obtain ⟨hsourced', hempty'⟩ := sourced_of_load hl'
  have hg := rooted_of_load hl
  have hg' := rooted_of_load hl'
  have hname : g'.nameOf t' = g.nameOf t :=
    (nameOf_of_fileOf? htop'.title).trans (nameOf_of_fileOf? htop.title).symm
  have htops : g.TwinFiles g' t t' :=
    ⟨fileOf?_eq_some htop.title, fileOf?_eq_some htop'.title, hname⟩
  have hshown := htops.shows hg.whole.toCoherent hg'.whole.toCoherent hsourced hsourced' hs
  refine ⟨hs, hg, hg', hsourced, hsourced', htop.catalogued, htop'.catalogued, ?_, ?_⟩
  · intro k
    rw [visible?_eq_of_front hg.whole (hempty k) htop.front,
      visible?_eq_of_front hg'.whole (hempty' k) htop'.front]
    exact (hshown.2 k).2
  · rw [clock_of_load hl, clock_of_load hl']

namespace LoadedAlike

variable (hg : LoadedAlike options source source' g g')

include hg

theorem symm : LoadedAlike options source' source g' g where
  alike := hg.alike.symm
  rooted := hg.rooted'
  rooted' := hg.rooted
  sourced := hg.sourced'
  sourced' := hg.sourced
  catalogued := hg.catalogued'
  catalogued' := hg.catalogued
  visible := fun k => rel_mono (rel_swap (hg.visible k)) fun _ _ _ _ htwins => htwins.symm
  clock := hg.clock.symm

theorem shownAlike (hf : g.TwinFiles g' f f') : g.ShownAlike g' f f' :=
  (hf.shows hg.rooted.whole.toCoherent hg.rooted'.whole.toCoherent hg.sourced hg.sourced'
    hg.alike).1

/-- A file has one twin. -/
theorem twin_unique {h' : FileId} (hf : g.TwinFiles g' f f') (hh : g.TwinFiles g' f h') :
    f' = h' := by
  have hfound := hg.catalogued'.found f' hf.loaded'.2 hf.loaded'.1
  have hfound' := hg.catalogued'.found h' hh.loaded'.2 hh.loaded'.1
  rw [hf.name] at hfound
  rw [hh.name, hfound] at hfound'
  exact Option.some.inj hfound'

/-- Where the includes of a file agree, those of its twin agree. -/
theorem agreeAbove (hp : g.Twins g' p p') (h : g.AgreeAbove p) : g'.AgreeAbove p' := by
  have hshown := hg.shownAlike hp.files
  intro i' hi' j' hj' a' b' ha' hb'
  rw [hp.key] at ha' hb'
  obtain ⟨i, hi, hrel⟩ := hshown.back i' hi'
  obtain ⟨j, hj, hrel'⟩ := hshown.back j' hj'
  obtain ⟨a, ha, hab⟩ := rel_of_eq_some' (hrel p.key) ha'
  obtain ⟨b, hb, hba⟩ := rel_of_eq_some' (hrel' p.key) hb'
  have hlt := fun i hi => hg.rooted.whole.ordered.lt_size_of_include (f := p.file) (i := i) hi
  cases (h i hi j hj).eq hg.rooted.whole.toCoherent (hlt i hi) (hlt j hj) ha hb
  have hfile := hg.twin_unique hab.files hba.files
  have hkey : a'.key = b'.key := hab.key.trans hba.key.symm
  rw [Parameter.slot, Parameter.slot, hfile, hkey]

end LoadedAlike

/-! ## Twins in line -/

/-- Twins that are in line in both graphs. -/
structure Paired (g g' : Graph) (p p' : Parameter) : Prop where
  twins : g.Twins g' p p'
  inLine : g.InLine p
  inLine' : g'.InLine p'

namespace LoadedAlike

variable (hg : LoadedAlike options source source' g g')

include hg

theorem visible_paired (k : Key) : Option.Rel (g.Paired g') (g.visible? k) (g'.visible? k) := by
  refine rel_mono (hg.visible k) fun p p' hp hp' htwins => ?_
  exact ⟨htwins, hg.rooted.whole.inLine_of_visible? hp, hg.rooted'.whole.inLine_of_visible? hp'⟩

/-- Twins in line read twins in line, unless they are lists that inherit vectors. -/
theorem target (hp : g.Paired g' p p') {r : Ref} (hr : r ∈ p.plan.refs) :
    Option.Rel (g.Paired g') (g.target? p r) (g'.target? p' r) ∨
      g.Mixes p ∧ g.RefersToVector p r ∧ g'.RefersToVector p' r := by
  cases r with
  | named name => exact Or.inl (hg.visible_paired name.key)
  | inherited =>
    have hwhole := hg.rooted.whole
    have hwhole' := hg.rooted'.whole
    have hr' : .inherited ∈ p'.plan.refs := by
      rw [hp.twins.plan]
      exact hr
    have hne := hp.twins.files.loaded.1
    have hne' := hp.twins.files.loaded'.1
    rcases hp.inLine.inherits hwhole hg.sourced hne hr with hagree | ⟨hmix, hvector⟩
    · have hagree' := hg.agreeAbove hp.twins hagree
      have hfound : Option.Rel (g.Twins g') (g.above? p.file p.key)
          (g'.above? p'.file p'.key) := by
        rw [hp.inLine.above?_eq hwhole hagree, hp.inLine'.above?_eq hwhole' hagree', hp.twins.key]
        exact (hg.shownAlike hp.twins.files).findSome? hwhole.toCoherent hagree
      refine Or.inl (rel_mono hfound fun q q' hq hq' htwins => ⟨htwins, ?_, ?_⟩)
      · exact hp.inLine.above hwhole hagree (plan_ne_feature hr) hq
      · exact hp.inLine'.above hwhole' hagree' (plan_ne_feature hr') hq'
    · refine Or.inr ⟨hmix, hvector, ?_⟩
      rcases hp.inLine'.inherits hwhole' hg.sourced' hne' hr' with hagree' | h
      · exact absurd (hg.symm.agreeAbove hp.twins.symm hagree') hmix.disagree
      · exact h.2

/-- The values of time features in line belong to the same features. -/
theorem feature (hp : g.Paired g' p p') {base : Key} (hplan : p.plan = .feature base) :
    g'.feature? base = g.feature? base := by
  have hkey : p.key = base.ofValue := (hg.rooted.holdsValue hp.inLine.stored base hplan).2
  obtain ⟨ds, m, done, ho, hfeature⟩ := hp.inLine.feature?_eq hg.rooted.whole.ordered hg.sourced
    hp.twins.files.loaded.1 hkey hplan
  obtain ⟨ds', m', done', ho', hfeature'⟩ := hp.inLine'.feature?_eq hg.rooted'.whole.ordered
    hg.sourced' hp.twins.files.loaded'.1 (hp.twins.key.trans hkey) (hp.twins.plan.trans hplan)
  obtain ⟨hrows, -⟩ := hg.alike _ _ _ ho.declarations (hp.twins.files.name ▸ ho'.declarations)
  have hsame := (ho.committed_twins ho' hg.rooted.whole.toCoherent hg.rooted'.whole.toCoherent
    (hg.shownAlike hp.twins.files) hrows).2
  rw [hfeature, hfeature', hsame]

/-! ## Evaluation -/

/-- The graphs are evaluated in parallel, as far as values go. -/
theorem parallel : Parallel (fun _ _ => True) (g.Paired g') g g' where
  failure := fun _ => trivial
  same := fun _ _ hp => hp.twins.same
  target := by
    intro p p' hp r hr
    exact (hg.target hp hr).imp_right fun ⟨hmix, hvectors⟩ =>
      ⟨fun _ _ => trivial, hmix.list, hvectors⟩
  feature := fun _ _ hp _ hplan => hg.feature hp hplan
  input := fun _ _ _ _ _ _ _ _ _ => hg.visible_paired _
  clock := hg.clock

/-- Where nothing that is read mixes, the graphs are evaluated in parallel, failures
included. -/
theorem parallel_of_unmixed :
    Parallel Eq (fun p p' => g.Paired g' p p' ∧ ∀ q, g.Reaches p q → ¬ g.Mixes q) g g' where
  failure := fun _ => rfl
  same := fun _ _ hp => hp.1.twins.same
  target := by
    rintro p p' ⟨hp, hunmixed⟩ r hr
    refine Or.inl ?_
    rcases hg.target hp hr with htarget | ⟨hmix, -⟩
    · refine rel_mono htarget fun q q' hq _ hpaired => ⟨hpaired, fun x hx => hunmixed x ?_⟩
      exact .head (.ref hr hq) hx
    · exact absurd hmix (hunmixed p .refl)
  feature := fun _ _ hp _ hplan => hg.feature hp.1 hplan
  input := by
    rintro p p' ⟨-, hunmixed⟩ base f hplan hf name hname
    refine rel_mono (hg.visible_paired _) fun q q' hq _ hpaired => ⟨hpaired, fun x hx => ?_⟩
    exact hunmixed x (.head (.input hplan hf hname hq) hx)
  clock := hg.clock

end LoadedAlike

/-! ## The clock -/

theorem visible?_tick (g : Graph) (t : Float) (k : Key) :
    ({ g with clock := t } : Graph).visible? k = g.visible? k :=
  find?_tick g t transientFile k

theorem target?_tick (g : Graph) (t : Float) (p : Parameter) (r : Ref) :
    ({ g with clock := t } : Graph).target? p r = g.target? p r := by
  cases r with
  | named name => exact visible?_tick g t name.key
  | inherited => exact above?_tick g t p.file p.key

/-- Graphs that are evaluated in parallel are so at every time. -/
theorem Parallel.tick {E : Failure → Failure → Prop} {R : Parameter → Parameter → Prop}
    (hg : Parallel E R g g') (t : Float) :
    Parallel E R { g with clock := t } { g' with clock := t } where
  failure := hg.failure
  same := hg.same
  target := by
    intro p p' hp r hr
    simp only [RefersToVector, target?_tick]
    exact hg.target p p' hp r hr
  feature := hg.feature
  input := by
    intro p p' hp base f hplan hf name hname
    rw [visible?_tick g, visible?_tick g']
    exact hg.input p p' hp base f hplan hf name hname
  clock := rfl

end ParameterChain.Graph
