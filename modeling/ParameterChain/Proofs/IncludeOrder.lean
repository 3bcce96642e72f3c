/-
# The order of includes

A file lists the specs that it includes, and in which order it does has no bearing on values.
Let the specs that the files of a source list be put in another order.  If both sources can be
loaded, from the same top file, then every key resolves in both to the same parameter of the
same file, and every reading gives the same value at any time, or fails in both
(`Session.read_of_relisted`).

Which failure it is may depend on the order (`mixedArms`).  It does not, unless the reading comes
by a list that has its inherited value among its elements, in a file whose includes show
different values under its name.  That there are such lists is the slip of the resolver that
`ParameterChain.Proofs.SelfReference` describes and `Session.inherited_run` bounds: the list
misplaces its inherited value (`Graph.Mixes.not_derives`), for no list has room for a vector, yet
the resolver does not ask.  Let through, it passes for an absolute value, which the check of the
arms is content with, and what it inherits is what the first of the includes shows.  Were it
refused, as a named vector is in its place, the order could not be seen at all.
-/
import ParameterChain.Proofs.Admission
import ParameterChain.Proofs.DeclarationOrder
import ParameterChain.Proofs.LoadedAlike
import ParameterChain.Proofs.Unused

namespace ParameterChain

variable {source source' : Source} {options : LoadOptions} {limits : Limits} {spec : String}
  {rs rs' : List Record} {ds ds' m : Declarations} {r : Record}

/-! ## Records -/

/-- The records list the same specs, in any order, and all other records are the same. -/
structure Record.Relisted (rs rs' : List Record) : Prop where
  specs : (rs'.flatMap Record.specs).Perm (rs.flatMap Record.specs)
  others : (rs'.filter fun r => !r.listsIncludes) = rs.filter fun r => !r.listsIncludes

instance (rs rs' : List Record) : Decidable (Record.Relisted rs rs') :=
  decidable_of_iff (_ ∧ _) ⟨fun h => ⟨h.1, h.2⟩, fun h => ⟨h.specs, h.others⟩⟩

namespace Declarations

/-- The table without the specs of its includes. -/
def withoutIncludes (ds : Declarations) : Declarations :=
  { ds with includes := [] }

/-- A record that lists includes declares nothing. -/
theorem extend_of_listsIncludes (hr : r.listsIncludes = true) (h : ds.extend r = .ok m) :
    m = { ds with includes := ds.includes ++ r.specs } := by
  have hlists : Text.sameAscii r.name includeName = true := hr
  rw [extend, add, if_pos hlists] at h
  rw [Record.specs, if_pos hr]
  exact (Except.ok.inj h).symm

/-- Any other record declares the same whatever is listed. -/
theorem extend_of_declares (hr : r.listsIncludes = false) (h : ds.extend r = .ok m) :
    m.includes = ds.includes ∧ ds.withoutIncludes.extend r = .ok m.withoutIncludes := by
  have hlists : ¬ Text.sameAscii r.name includeName = true := Bool.eq_false_iff.mp hr
  rw [extend, add, if_neg hlists] at h ⊢
  have hsame : ds.withoutIncludes.declare r.name r.value r.line =
      ds.declare r.name r.value r.line := rfl
  rw [hsame]
  cases hd : ds.declare r.name r.value r.line with
  | error c =>
    rw [hd] at h
    cases h
  | ok d =>
    rw [hd] at h
    cases h
    exact ⟨rfl, rfl⟩

/-- A table lists what the records list, and declares what the other records declare. -/
theorem foldlM_extend_split (h : rs.foldlM extend ds = .ok ds') :
    ds'.includes = ds.includes ++ rs.flatMap Record.specs ∧
      (rs.filter fun r => !r.listsIncludes).foldlM extend ds.withoutIncludes =
        .ok ds'.withoutIncludes := by
  induction rs generalizing ds with
  | nil =>
    rw [List.foldlM_nil, pure_eq_ok] at h
    rw [h]
    exact ⟨(List.append_nil _).symm, rfl⟩
  | cons r rs ih =>
    rw [List.foldlM_cons, bind_eq_ok] at h
    obtain ⟨m, hfirst, hrest⟩ := h
    obtain ⟨hincludes, hfold⟩ := ih hrest
    rw [List.flatMap_cons, ← List.append_assoc]
    cases hr : r.listsIncludes with
    | true =>
      cases extend_of_listsIncludes hr hfirst
      refine ⟨hincludes, ?_⟩
      rw [List.filter_cons_of_neg (by rw [hr]; decide)]
      exact hfold
    | false =>
      obtain ⟨hsame, hextend⟩ := extend_of_declares hr hfirst
      have hspecs : r.specs = [] := by
        rw [Record.specs, hr]
        rfl
      refine ⟨by rw [hincludes, hsame, hspecs, List.append_nil], ?_⟩
      rw [List.filter_cons_of_pos (by rw [hr]; rfl), List.foldlM_cons, hextend]
      exact hfold

/-- Records that list their specs in another order declare the same. -/
theorem alike_of_relisted (hrs : Record.Relisted rs rs') (h : rs.foldlM extend {} = .ok ds)
    (h' : rs'.foldlM extend {} = .ok ds') :
    ds'.rows = ds.rows ∧ ds'.includes.Perm ds.includes := by
  obtain ⟨hincludes, hfold⟩ := foldlM_extend_split h
  obtain ⟨hincludes', hfold'⟩ := foldlM_extend_split h'
  rw [hrs.others, hfold] at hfold'
  have hsame : ds'.withoutIncludes.rows = ds.withoutIncludes.rows := by
    rw [Except.ok.inj hfold']
  refine ⟨hsame, ?_⟩
  rw [hincludes, hincludes']
  exact hrs.specs

end Declarations

/-! ## Sources -/

/-- Where both sources have a file that can be read under a spec, the files list the same specs,
in any order, and have the same records otherwise. -/
def Source.Relisted (limits : Limits) (source source' : Source) : Prop :=
  ∀ spec rs rs', source.Reads limits spec rs → source'.Reads limits spec rs' →
    Record.Relisted rs rs'

theorem Source.Relisted.listsAlike (hs : Source.Relisted limits source source') :
    Source.ListsAlike limits source source' := by
  intro spec ds ds' hds hds'
  obtain ⟨rs, hrs, hfold⟩ := Source.declarations_eq_ok.mp hds
  obtain ⟨rs', hrs', hfold'⟩ := Source.declarations_eq_ok.mp hds'
  exact Declarations.alike_of_relisted (hs spec rs rs' hrs hrs') hfold hfold'

/-! ## Readings -/

/-- What a reading gives at a time. -/
def Graph.resultAt (g : Graph) (limits : Limits) (time : Float) (name : String)
    (e : Expectation) : Attempt Value :=
  ((({ g with clock := time } : Graph).read limits name e).run []).1

/-- The order in which files list their includes does not change values.  Let two sources differ
in that order only, and let both be loaded.  Then every key resolves to the same parameter of
the same file, and every reading gives the same value at any time, or fails in both.  It fails
in the same way if it does not come by a list that mixes its inherited value in where the
includes of its file disagree, which is a list that the resolver lets through by its slip. -/
theorem Session.read_of_relisted (hs : Source.Relisted options.limits source source')
    {top : String} {s s' : Session} (hload : Session.load source options top = .ok s)
    (hload' : Session.load source' options top = .ok s') :
    (∀ k, Option.Rel (s.graph.Twins s'.graph) (s.graph.visible? k) (s'.graph.visible? k)) ∧
      ∀ (time : Float) (name : String) (e : Expectation),
        (s'.graph.resultAt s'.limits time name e).toOption =
            (s.graph.resultAt s.limits time name e).toOption ∧
          ((∀ p q, s.graph.visible? (Key.ofText name) = some p → s.graph.Reaches p q →
              ¬ s.graph.Mixes q) →
            s'.graph.resultAt s'.limits time name e = s.graph.resultAt s.limits time name e) := by
  obtain ⟨g, hl, rfl⟩ := load_eq_ok.mp hload
  obtain ⟨g', hl', rfl⟩ := load_eq_ok.mp hload'
  have hg := Graph.loadedAlike_of_load hs.listsAlike hl hl'
  refine ⟨hg.visible, fun time name e => ⟨?_, fun hunmixed => ?_⟩⟩
  · refine ((hg.parallel.tick time).corresponds_read _ e ?_).toOption_eq
    rw [Graph.visible?_tick g, Graph.visible?_tick g']
    exact hg.visible_paired _
  · refine ((hg.parallel_of_unmixed.tick time).corresponds_read _ e ?_).eq
    rw [Graph.visible?_tick g, Graph.visible?_tick g']
    refine rel_mono (hg.visible_paired _) fun p p' hp _ hpaired => ⟨hpaired, ?_⟩
    exact fun q hq => hunmixed p q hp hq

/-! ### Two arms, in either order -/

/-- The file `top` includes the files `a` and `b`, in the order that is given. -/
def twoArms (a b own order : String) : Source := fun spec =>
  if spec = "base" then .ok "uv:X = 2 3 4".toUTF8
  else if spec = "a" then .ok a.toUTF8
  else if spec = "b" then .ok b.toUTF8
  else if spec = "top" then .ok ("includeFile = " ++ order ++ "\n" ++ own).toUTF8
  else .error (.cannotOpen spec "no such file")

/-- Both arms show what `base` declares, and the top file makes something of it. -/
def agreeingArms : String → Source :=
  twoArms "includeFile = base" "includeFile = base" "uv:X = 2 * InheritedValue"

/-- The arms show different vectors, and the top file has a list with the inherited value in it,
where there is no room for a vector. -/
def mixedArms : String → Source :=
  twoArms "uv:X = 1 5" "uv:X = 2 1 1 + InheritedValue" "uv:X = 2 InheritedValue 1"

/-- No parameter is a list with references. -/
def Graph.listless (g : Graph) : Bool :=
  (List.range g.files.size).all fun f => (g.parametersOf f).all fun p =>
    match p.plan with
    | .list _ _ => false
    | _ => true

theorem Graph.not_mixes_of_listless {g : Graph} {p : Parameter} (hg : g.listless)
    (hp : g.Stored p) : ¬ g.Mixes p := by
  rintro ⟨⟨s, elements, hlist⟩, -, -⟩
  have hfile := List.all_eq_true.mp hg p.file (List.mem_range.mpr (lt_size_of_declared? hp))
  have hplan := List.all_eq_true.mp hfile p (mem_of_rowOf? hp)
  rw [hlist] at hplan
  cases hplan

/-- Only the top file depends on the order. -/
theorem relisted_twoArms {a b own order order' : String}
    (hok : (((twoArms a b own order).contents "top").toOption.bind fun bytes =>
      (Record.ofBytes limits bytes).toOption).any fun rs =>
        (((twoArms a b own order').contents "top").toOption.bind fun bytes =>
          (Record.ofBytes limits bytes).toOption).any fun rs' =>
            decide (Record.Relisted rs rs')) :
    Source.Relisted limits (twoArms a b own order) (twoArms a b own order') := by
  intro spec rs rs' hrs hrs'
  by_cases htop : spec = "top"
  · subst htop
    obtain ⟨top, htop, hok⟩ := (Option.any_eq_true _ _).mp hok
    obtain ⟨top', htop', hok⟩ := (Option.any_eq_true _ _).mp hok
    rw [hrs.unique (Source.reads_of_eq_some htop), hrs'.unique (Source.reads_of_eq_some htop')]
    exact of_decide_eq_true hok
  · have hsame : (twoArms a b own order').contents spec = (twoArms a b own order).contents spec := by
      simp only [Source.contents, twoArms, if_neg htop]
    obtain ⟨bytes, hbytes, hread⟩ := hrs'
    rw [hsame] at hbytes
    rw [hrs.unique ⟨bytes, hbytes, hread⟩]
    exact ⟨.refl _, rfl⟩

/-- Through the slip of the resolver the order of the includes can be seen in a failure: the first
arm shows a vector that finds no room in the list, and the second one fails by itself. -/
theorem Session.read_of_relisted_mixedArms :
    ∃ s s', Session.load (mixedArms "a b") { withDefaults := false } "top" = .ok s ∧
      Session.load (mixedArms "b a") { withDefaults := false } "top" = .ok s' ∧
      Source.Relisted {} (mixedArms "a b") (mixedArms "b a") ∧
      (∃ p, s.graph.visible? ⟨"x"⟩ = some p ∧ p.plan.Misplaces p.kind) ∧
      s.graph.resultAt s.limits 0 "X" .any =
        .error (Cause.wrongKind "X" (Kind.one .unitless) (Kind.many .unitless)).failure ∧
      s'.graph.resultAt s'.limits 0 "X" .any = .error (Cause.lengthMismatch "X" 2 1).failure ∧
      s'.graph.resultAt s'.limits 0 "X" .any ≠ s.graph.resultAt s.limits 0 "X" .any := by
  have hrelisted : Source.Relisted {} (mixedArms "a b") (mixedArms "b a") :=
    relisted_twoArms (by decide +kernel)
  have hok : ((Session.load (mixedArms "a b") { withDefaults := false } "top").toOption.any
      fun s => ((s.graph.visible? ⟨"x"⟩).any fun p => decide (p.plan.Misplaces p.kind)) &&
        failsWhere (fun e => decide
            (e = (Cause.wrongKind "X" (Kind.one .unitless) (Kind.many .unitless)).failure))
          (s.graph.resultAt s.limits 0 "X" .any)) = true := by
    decide +kernel
  have hok' : ((Session.load (mixedArms "b a") { withDefaults := false } "top").toOption.any
      fun s => failsWhere (fun e => decide (e = (Cause.lengthMismatch "X" 2 1).failure))
        (s.graph.resultAt s.limits 0 "X" .any)) = true := by
    decide +kernel
  obtain ⟨s, hs, hok⟩ := (Option.any_eq_true _ _).mp hok
  obtain ⟨hlist, hfails⟩ := Bool.and_eq_true_iff.mp hok
  obtain ⟨p, hp, hmisplaces⟩ := (Option.any_eq_true _ _).mp hlist
  obtain ⟨s', hs', hfails'⟩ := (Option.any_eq_true _ _).mp hok'
  obtain ⟨e, hresult, he⟩ := failsWhere_eq_true.mp hfails
  obtain ⟨e', hresult', he'⟩ := failsWhere_eq_true.mp hfails'
  obtain rfl := of_decide_eq_true he
  obtain rfl := of_decide_eq_true he'
  refine ⟨s, s', toOption_eq_some.mp hs, toOption_eq_some.mp hs', hrelisted,
    ⟨p, hp, of_decide_eq_true hmisplaces⟩, hresult, hresult', ?_⟩
  rw [hresult, hresult']
  intro heq
  cases congrArg Failure.cause (Except.error.inj heq)

theorem Session.read_of_relisted_agreeingArms :
    ∃ s s' v, Session.load (agreeingArms "a b") { withDefaults := false } "top" = .ok s ∧
      Session.load (agreeingArms "b a") { withDefaults := false } "top" = .ok s' ∧
      Source.Relisted {} (agreeingArms "a b") (agreeingArms "b a") ∧
      (∀ k, Option.Rel (s.graph.Twins s'.graph) (s.graph.visible? k) (s'.graph.visible? k)) ∧
      (∀ time name e,
        s'.graph.resultAt s'.limits time name e = s.graph.resultAt s.limits time name e) ∧
      s'.graph.resultAt s'.limits 0 "X" .any = .ok v := by
  have hrelisted : Source.Relisted ({ withDefaults := false } : LoadOptions).limits
      (agreeingArms "a b") (agreeingArms "b a") :=
    relisted_twoArms (by decide +kernel)
  have hok : ((Session.load (agreeingArms "a b") { withDefaults := false } "top").toOption.any
      fun s => s.graph.listless) = true := by
    decide +kernel
  have hok' : ((Session.load (agreeingArms "b a") { withDefaults := false } "top").toOption.any
      fun s => (s.graph.resultAt s.limits 0 "X" .any).toOption.isSome) = true := by
    decide +kernel
  obtain ⟨s, hs, hlistless⟩ := (Option.any_eq_true _ _).mp hok
  obtain ⟨s', hs', hvalue⟩ := (Option.any_eq_true _ _).mp hok'
  obtain ⟨v, hv⟩ := Option.isSome_iff_exists.mp hvalue
  have hload := toOption_eq_some.mp hs
  have hload' := toOption_eq_some.mp hs'
  obtain ⟨hvisible, hreads⟩ := Session.read_of_relisted hrelisted hload hload'
  have hhome := (rooted_load hload).whole.home
  refine ⟨s, s', v, hload, hload', hrelisted, hvisible, ?_, toOption_eq_some.mp hv⟩
  intro time name e
  refine (hreads time name e).2 fun p q hp hq => ?_
  exact Graph.not_mixes_of_listless hlistless (hq.stored hhome (hhome.stored_of_visible? hp))

end ParameterChain
