/-
# Where the features of a loaded graph belong

The features of all files are kept in one table, where the file that was loaded last has the
last word on a base.  The values of the features are parameters, which belong to files, and
what reads see is the declaration of the nearest file.  After a load the two agree: of the
files that describe a feature with the base of a visible value, the nearest was loaded last
(`InLine.feature?_eq`), and of two descriptions in one file the later one counts for both.

The feature of a visible value has the kind and the unit of the value, so evaluating the value
is evaluating the feature.  For a closed form nothing more is to be said.  A step takes its
value out of what reads see as the table `Values` of the base; that is of the kind which the
feature took over from the table it was described by, provided that this stands under the very
same name (`Declaration.spellingOf`).

Main statement: `feature_of_visible`.
-/
import ParameterChain.Proofs.DeclarationOrder
import ParameterChain.Proofs.Evaluated
import ParameterChain.Proofs.FeatureNames
import ParameterChain.Proofs.LoadedAlike
import ParameterChain.Proofs.OneType

namespace ParameterChain

variable {source : Source} {options : LoadOptions} {g : Graph} {f : FileId} {base : Key}
  {ds kinds : Declarations} {limits : Limits} {done : Commit} {p q : Parameter}
  {d : Declaration} {feature : TimeFeature}

/-! ## The kind of a feature's value -/

namespace TimeFeature

theorem kind_closedForm (hkind : feature.kind = Kind.one .dimensioned ∨
    feature.kind = Kind.one .unitless) (t start rate : Float) :
    (feature.closedForm t start rate).kind = feature.kind := by
  rw [closedForm]
  rcases hkind with hkind | hkind
  · rw [if_pos hkind, hkind]
    rfl
  · have hne : feature.kind ≠ Kind.one .dimensioned := by
      rw [hkind]
      decide
    rw [if_neg hne, hkind]
    rfl

theorem kind_stepValue {times : List Float} {values v : Value} {t : Float}
    (h : stepValue times values t = .ok v) : v.kind = values.kind.element := by
  rw [stepValue] at h
  split at h
  · cases h
  split at h
  · cases h
  split at h
  · next hv =>
    cases h
    obtain ⟨sort, shape⟩ := values
    rw [Value.element?] at hv
    cases shape with
    | one a => cases hv
    | many as =>
      obtain ⟨a, -, rfl⟩ := Option.map_eq_some_iff.mp hv
      rfl
  · cases h

end TimeFeature

namespace Graph

/-- What reads see as the table of the feature, if there is one, has values of the kind of the
feature.  A closed form has no table, but it can only be a length of some sort or a number. -/
def TablesAgree (g : Graph) (feature : TimeFeature) : Prop :=
  if feature.function = .step then
    ∀ q, g.visible? (Key.ofText (feature.input "Values")) = some q → q.kind.element = feature.kind
  else feature.kind = Kind.one .dimensioned ∨ feature.kind = Kind.one .unitless

theorem kind_of_evalFeature (htables : g.TablesAgree feature) {limit fuel : Nat} {time : Float}
    {t t' : Trace} {v : Value}
    (h : (g.evalFeature (g.evaluate limit fuel) feature time).run t = (.ok v, t')) :
    v.kind = feature.kind := by
  rw [evalFeature] at h
  rw [TablesAgree] at htables
  by_cases hstep : feature.function = .step
  · rw [if_pos hstep] at h htables
    rw [evalStep] at h
    obtain ⟨times, m₁, -, h⟩ := Traced.run_bind_eq_ok.mp h
    obtain ⟨q, m₂, hq, h⟩ := Traced.run_bind_eq_ok.mp h
    obtain ⟨values, m₃, hvalues, h⟩ := Traced.run_bind_eq_ok.mp h
    obtain ⟨hv, -⟩ := Traced.run_ofCause_eq_ok.mp h
    cases hvisible : g.visible? (Key.ofText (feature.input "Values")) with
    | none =>
      rw [named, hvisible] at hq
      cases hq
    | some q' =>
      rw [named, hvisible] at hq
      cases hq
      rw [TimeFeature.kind_stepValue hv, kind_of_evaluate hvalues]
      exact htables q hvisible
  · rw [if_neg hstep] at h htables
    rw [evalClosedForm] at h
    obtain ⟨time', m₁, -, h⟩ := Traced.run_bind_eq_ok.mp h
    obtain ⟨⟨start, rate⟩, m₂, -, h⟩ := Traced.run_bind_eq_ok.mp h
    cases h
    exact TimeFeature.kind_closedForm htables _ _ _

/-- To evaluate the value of a feature is to evaluate the feature. -/
theorem IsValueOf.run_evaluate (hvalue : IsValueOf feature p)
    (hfound : g.feature? feature.key = some feature) (htables : g.TablesAgree feature)
    (limit fuel : Nat) (t : Trace) :
    (g.evaluate limit (fuel + 1) p).run t =
      (g.evalFeature (g.evaluate limit fuel) feature g.clock).run (t.visit p.slot) := by
  have hplan := hvalue.evalPlan_eq hfound (g.evaluate limit fuel)
  rw [evaluate, evalWith, Traced.run_bind_ok (Traced.run_visit p.slot t), hplan]
  rcases hrun : (g.evalFeature (g.evaluate limit fuel) feature g.clock).run (t.visit p.slot) with
    ⟨result, t'⟩
  cases result with
  | error e => rw [Traced.run_bind_error hrun]
  | ok v =>
    have hkind : v.kind = p.kind := (kind_of_evalFeature htables hrun).trans hvalue.kind.symm
    have hcoerce : v.coerce? p.kind = some v := if_pos hkind
    rw [Traced.run_bind_ok hrun, hcoerce]
    rfl

/-! ## Tables beside their features -/

/-- The value of a feature is no table. -/
theorem ofValue_ne_values (base base' : Key) : base.ofValue ≠ ⟨base'.text ++ "/" ++ "values"⟩ := by
  intro h
  have hlast := congrArg (fun k : Key => k.text.toList.getLast?) h
  simp [Key.ofValue] at hlast

/-- A declaration that is not of the value of a feature is stored with its own kind. -/
theorem exists_declared?_commit (hds : ds.Distinct) (hf : f < g.files.size)
    (hc : g.commit limits f ds = .ok done) (hkinds : g.inheritKinds f ds = .ok kinds)
    (hd : d ∈ kinds.rows) (hplain : ∀ base : Key, base.ofValue ≠ d.key) :
    ∃ q, done.graph.declared? f d.key = some q ∧ d.kind = some q.kind := by
  obtain ⟨o, drafts, ho, hdraft, hdone⟩ := commit_eq_ok.mp hc
  have hparameters : done.parameters = drafts := by rw [← hdone]
  have hrow : o.declarations.get? d.key = some d := by
    obtain ⟨ks, kinds', rows, -, hkinds', -, rfl⟩ := outline_eq_ok.mp ho
    cases hkinds.symm.trans hkinds'
    rw [Declarations.get?_foldl_insert]
    have hnone : (rows.reverse.find? fun row =>
        Key.ofText row.feature.valueName = d.key) = none := by
      refine List.find?_eq_none.mpr fun row _ => ?_
      rw [row.feature.key_valueName]
      exact fun h => hplain _ (of_decide_eq_true h)
    rw [hnone, Option.map_none, Option.none_or]
    exact rowOf?_key (Declarations.distinct_inheritKinds hds hkinds) hd
  obtain ⟨q, hq, hresolved⟩ := exists_of_mapM (draft_eq_ok hdraft) (mem_of_rowOf? hrow)
  have hdeclared := declared?_of_mem_parameters hds hf hc (hparameters ▸ hq)
  obtain ⟨kind, resolved, hkind, -, rfl⟩ := draftOf_eq_ok.mp hresolved
  exact ⟨_, hdeclared, hkind⟩

/-- If a feature that is kept was described by a table under its own base, then what reads see
as its table is of that kind. -/
theorem Rooted.tablesAgree (hr : g.Rooted) {source : FeatureSource}
    (hdescribed : feature.DescribedBy d base source) (hown : source = .values →
      feature.key = base ∧ ∃ q, g.declared? f ⟨base.text ++ "/" ++ "values"⟩ = some q ∧
        d.kind = some q.kind) : g.TablesAgree feature := by
  rw [TablesAgree]
  cases source with
  | function =>
    have hstep : feature.function ≠ .step := by
      intro hstep
      cases hdescribed.step_iff.mp hstep
    rw [if_neg hstep]
    exact (hdescribed.closed rfl).imp And.left And.left
  | values =>
    rw [if_pos (hdescribed.step_iff.mpr rfl)]
    obtain ⟨hkey, q, hq, hkind⟩ := hown rfl
    obtain ⟨k, hk, -, helement, -⟩ := hdescribed.table rfl
    intro q' hq'
    rw [feature.key_input, hkey] at hq'
    have hstored : g.declared? q'.file ⟨base.text ++ "/" ++ "values"⟩ = some q' := by
      have h := hr.whole.home.stored_of_visible? hq'
      rwa [Stored, key_of_visible? hq'] at h
    -- A key that is no value of a feature has one type in all files.
    have huntimed : g.Untimed ⟨base.text ++ "/" ++ "values"⟩ :=
      fun feature _ => ofValue_ne_values feature.key base
    have htype := (Prod.mk.inj (hr.type_eq huntimed hq hstored)).1
    cases hk.symm.trans hkind
    rw [helement, htype]

end Graph

/-! ## Loaded graphs -/

open ParameterChain.Graph

/-- After a load the feature of a visible value is the one that the table of features has under
the base.  It was read off a declaration of `Function` or `Values` of the very file that declares
the value, with what that inherits from the includes of the file, and its kind and unit are those
of the value; so evaluating the value comes down to evaluating the feature.  A step that is
described under its own base, and every closed form, moreover evaluates to the kind of the
value, at all times. -/
theorem feature_of_visible {top : String} (hl : source.load options top = .ok g) {k : Key}
    (hp : g.visible? k = some p) (hplan : p.plan = .feature base) :
    ∃ ds d₀ d feature, source.declarations options.limits (g.nameOf p.file) = .ok ds ∧
      d₀ ∈ ds.rows ∧
      d₀.Inherits ((g.includesOf p.file).filterMap (g.firstFound? · d₀.key)) d ∧
      d.key.featureBase?.isSome ∧ TimeFeature.ofDeclaration d = .ok (some feature) ∧
      g.feature? base = some feature ∧ feature.key = base ∧ feature.kind = p.kind ∧
      feature.unit = p.unit ∧
      (∀ eval, g.evalPlan eval p = g.evalFeature eval feature g.clock) ∧
      ((feature.function = .step → d.key.featureBase? = some (base, .values)) →
        ∀ time limit fuel t, let g := { g with clock := time }
          (g.evaluate limit (fuel + 1) p).run t =
            (g.evalFeature (g.evaluate limit fuel) feature time).run (t.visit p.slot)) := by
  have hr := rooted_of_load hl
  have hg := hr.whole
  obtain ⟨hsourced, hempty⟩ := sourced_of_load hl
  have hline := hg.inLine_of_visible? hp
  have hne : p.file ≠ transientFile := by
    intro htransient
    have hstored := hline.stored
    rw [Stored, htransient, hempty] at hstored
    cases hstored
  have hkey := (hr.holdsValue hline.stored base hplan).2
  obtain ⟨ds, m, done, horigin, hlast⟩ := hline.feature?_eq hg.ordered hsourced hne hkey hplan
  have hmem : p ∈ done.parameters :=
    mem_of_rowOf? ((horigin.declared?_eq p.key).symm.trans hline.stored)
  have hds := distinct_declarations horigin.declarations
  obtain ⟨feature, hfound, hvalue⟩ := isValueOf_of_mem_parameters hds horigin.commit hmem hplan
  have hbase : feature.key = base := by simpa using List.find?_some hfound
  have hstored : g.feature? base = some feature := hlast.trans hfound
  -- The declaration that the feature was read off.
  obtain ⟨o, -, ho, -, -⟩ := commit_eq_ok.mp horigin.commit
  obtain ⟨ks, kinds, rows, -, hkinds, -, -⟩ := outline_eq_ok.mp ho
  obtain ⟨d, hd, hdescribes⟩ := (mem_features_commit hkinds horigin.commit).mp
    (List.mem_reverse.mp (List.mem_of_find?_eq_some hfound))
  obtain ⟨d₀, hd₀, hinherits⟩ := exists_left_of_forall₂ (inheritKinds_eq_ok hkinds) hd
  rw [horigin.ancestors_eq hg.toCoherent] at hinherits
  obtain ⟨base', source', hbase', hdescribed⟩ := TimeFeature.ofDeclaration_eq_ok hdescribes
  refine ⟨ds, d₀, d, feature, horigin.declarations, hd₀, hinherits, by rw [hbase']; rfl,
    hdescribes, hstored, hbase, hvalue.kind.symm, hvalue.unit.symm, ?_, ?_⟩
  · exact hvalue.evalPlan_eq (hbase ▸ hstored)
  · intro hown time limit fuel t
    have htables : g.TablesAgree feature := by
      refine hr.tablesAgree (f := p.file) hdescribed ?_
      rintro rfl
      have hvalues := hown (hdescribed.step_iff.mpr rfl)
      cases hbase'.symm.trans hvalues
      have htext : d.key = ⟨base.text ++ "/" ++ "values"⟩ :=
        congrArg Key.mk (Key.text_of_featureBase? hvalues)
      obtain ⟨q, hq, hkind⟩ := exists_declared?_commit hds horigin.lt_size_addFile
        horigin.commit hkinds hd (fun base' => htext ▸ ofValue_ne_values base' base)
      rw [← (horigin.same d.key p.file (Below.refl _ _)).2, htext] at hq
      exact ⟨hbase, q, hq, hkind⟩
    have htick : ({ g with clock := time } : Graph).TablesAgree feature := by
      rw [TablesAgree, visible?_tick]
      exact htables
    exact hvalue.run_evaluate (g := { g with clock := time }) (hbase ▸ hstored) htick limit fuel t

/-- Two declarations of one feature in a file, a function and after it a table of steps. -/
def twofold : Source := fun spec =>
  if spec = "top" then
    .ok "s:Tf/Steps/Function = \"Linear\"\niv:Tf/Steps/Values = 2 3 4".toUTF8
  else .error (.cannotOpen spec "no such file")

/-- The plan is the time feature with the base. -/
def Plan.isFeature (base : Key) : Plan → Bool
  | .feature base' => base' == base
  | _ => false

theorem Plan.eq_of_isFeature {plan : Plan} (h : plan.isFeature base = true) :
    plan = .feature base := by
  cases plan with
  | feature base' => exact congrArg Plan.feature (beq_iff_eq.mp h)
  | _ => cases h

/-- The table, which comes later, is what the feature is built from. -/
theorem feature_of_visible_twofold :
    ∃ g p feature, twofold.load { withDefaults := false } "top" = .ok g ∧
      g.visible? ⟨"tf/steps/value"⟩ = some p ∧ p.plan = .feature ⟨"tf/steps"⟩ ∧
      g.feature? ⟨"tf/steps"⟩ = some feature ∧ feature.function = .step ∧
      feature.kind = p.kind ∧
      ∀ limit fuel t, (g.evaluate limit (fuel + 1) p).run t =
        (g.evalFeature (g.evaluate limit fuel) feature g.clock).run (t.visit p.slot) := by
  have hok : ((twofold.loadFile { withDefaults := false } ({} : Limits).includeDepth [] "top").run
      {}).toOption.any fun loaded =>
        let g := (loaded.2.setIncludes transientFile [loaded.1]).linearize transientFile
        ((g.visible? ⟨"tf/steps/value"⟩).any fun p =>
          g.nameOf p.file == "top" && p.plan.isFeature ⟨"tf/steps"⟩) &&
        (g.feature? ⟨"tf/steps"⟩).any fun feature => feature.function == .step := by
    decide +kernel
  have hbases : (twofold.declarations {} "top").toOption.all fun ds => ds.rows.all fun d =>
      d.key.featureBase?.all fun described => described.1 == ⟨"tf/steps"⟩ := by
    decide +kernel
  obtain ⟨⟨f, m⟩, hm, hg⟩ := (Option.any_eq_true _ _).mp hok
  have hload := load_eq_ok_of_loadFile (toOption_eq_some.mp hm)
  simp only [Bool.and_eq_true, Option.any_eq_true, beq_iff_eq] at hg
  obtain ⟨⟨p, hp, hname, hplan⟩, stepped, hstepped, hstep⟩ := hg
  have hplan := Plan.eq_of_isFeature hplan
  obtain ⟨ds, d₀, d, feature, hds, hd₀, hinherits, -, hdescribes, hfound, -, hkind, -, -, heval⟩ :=
    feature_of_visible hload hp hplan
  have hstep : feature.function = .step :=
    Option.some.inj (hstepped.symm.trans hfound) ▸ hstep
  obtain ⟨base, source, hbase, hdescribed⟩ := TimeFeature.ofDeclaration_eq_ok hdescribes
  have hown : d.key.featureBase? = some (⟨"tf/steps"⟩, .values) := by
    rw [hname] at hds
    rw [toOption_eq_some.mpr hds] at hbases
    have hall := List.all_eq_true.mp hbases d₀ hd₀
    rw [← hinherits.key, hbase] at hall
    have hall : base = ⟨"tf/steps"⟩ := beq_iff_eq.mp hall
    rw [hbase, hall, hdescribed.step_iff.mp hstep]
  exact ⟨_, p, feature, hload, hp, hplan, hfound, hstep, hkind, heval (fun _ => hown) _⟩

end ParameterChain
