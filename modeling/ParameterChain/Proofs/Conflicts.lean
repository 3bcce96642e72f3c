/-
# The check of the arms finds every conflict and no other

The arms of a file are compared once, before anything else is known of its declarations, and
a name that they contest is judged only after its value has been resolved.  In between the
table of declarations changes: kinds are filled in and the values of time features are put
in the place of what was declared under their names.  None of this loses a contested name,
and nothing but a contested name is ever refused for being ambiguous.

Main statement: `conflicts_of_arms`.
-/
import ParameterChain.Proofs.Built
import ParameterChain.Proofs.Refusals
import ParameterChain.Proofs.Shown
import ParameterChain.Proofs.Visible

namespace ParameterChain

variable {g : Graph} {f i j : FileId} {k : Key} {ds : Declarations} {limits : Limits}
  {p q : Parameter} {o : Outline}

/-- The plan refers to one other parameter, or joins two operands. -/
def Plan.RefersOrJoins (plan : Plan) : Prop :=
  (∃ r, plan = .reference r) ∨ ∃ lhs op rhs, plan = .binary lhs op rhs

theorem Plan.isRelative_of_refersOrJoins {plan : Plan} (h : plan.RefersOrJoins) :
    plan.isRelative = true := by
  rcases h with ⟨r, rfl⟩ | ⟨lhs, op, rhs, rfl⟩ <;> rfl

namespace Graph

/-! ## Contested names are declared, and not by way of others -/

/-- The plan of a contested name is none that refers to another parameter. -/
theorem not_refersOrJoins_of_contested {d : Declaration} (hk : d.key ∈ o.contested)
    (hd : g.draftOf limits f o d = .ok p) : ¬ p.plan.RefersOrJoins := by
  obtain ⟨kind, resolved, -, hplan, rfl⟩ := draftOf_eq_ok.mp hd
  rw [planOf] at hplan
  intro hplain
  split at hplan
  · -- A declaration that was replaced by the value of a time feature.
    cases pure_eq_ok.mp hplan
    rcases hplain with ⟨r, hr⟩ | ⟨lhs, op, rhs, hr⟩ <;> cases hr
  · obtain ⟨resolved', -, hplan⟩ := bind_eq_ok.mp hplan
    split at hplan
    · cases hplan
    next habsolute =>
    cases pure_eq_ok.mp hplan
    refine habsolute ?_
    rw [Bool.and_eq_true]
    exact ⟨List.contains_iff_mem.mpr hk, Plan.isRelative_of_refersOrJoins hplain⟩

/-- A key that two includes of a file show from different places is contested, and it is
declared in the outline. -/
theorem contested_of_outline (ho : g.outline f ds = .ok o) (hi : i ∈ g.includesOf f)
    (hj : j ∈ g.includesOf f) (hp : g.firstFound? i k = some p) (hq : g.firstFound? j k = some q)
    (hne : p.slot ≠ q.slot) :
    k ∈ o.contested ∧ k ∈ o.declarations.rows.map Declaration.key := by
  obtain ⟨ks, ds', rows, hks, -, -, hout⟩ := outline_eq_ok.mp ho
  rcases agreeOn_of_contested (k := k) hks hi hj with hagree | ⟨hk, hdecl⟩
  · exact absurd (hagree p q hp hq) hne
  obtain ⟨d, hd⟩ := Option.isSome_iff_exists.mp hdecl
  have hkey : d.key = k := key_of_rowOf? hd
  refine ⟨?_, hkey ▸ mem_keys_outline ho (mem_of_rowOf? hd)⟩
  rw [← hout]
  exact hk

/-- What is drafted for a key that two includes show from different places. -/
theorem mem_draft_of_contested {g' : Graph} {drafts : List Parameter}
    (ho : g.outline f ds = .ok o) (hdraft : g'.draft limits f o = .ok drafts)
    (hi : i ∈ g.includesOf f) (hj : j ∈ g.includesOf f) (hp : g.firstFound? i k = some p)
    (hq : g.firstFound? j k = some q) (hne : p.slot ≠ q.slot) :
    (∃ r ∈ drafts, r.key = k) ∧ ∀ r ∈ drafts, r.key = k → ¬ r.plan.RefersOrJoins := by
  obtain ⟨hcontested, hdeclared⟩ := contested_of_outline ho hi hj hp hq hne
  constructor
  · obtain ⟨d, hd, hkey⟩ := List.mem_map.mp hdeclared
    obtain ⟨r, hr, hresolved⟩ := exists_of_mapM (draft_eq_ok hdraft) hd
    obtain ⟨kind, resolved, -, -, rfl⟩ := draftOf_eq_ok.mp hresolved
    exact ⟨_, hr, hkey⟩
  · intro r hr hkey
    obtain ⟨d, -, hresolved⟩ := mem_of_mapM (draft_eq_ok hdraft) hr
    have hname : r.key = d.key := by
      obtain ⟨kind, resolved, -, -, rfl⟩ := draftOf_eq_ok.mp hresolved
      rfl
    refine not_refersOrJoins_of_contested ?_ hresolved
    rw [← hname, hkey]
    exact hcontested

/-! ## Selectors -/

/-- Whatever an arm shows has been judged against all other arms. -/
theorem exists_judged {arms : List FileId} {ks : List Key}
    (h : g.contestedFrom f ds arms = .ok ks) (hi : i ∈ arms) (hp : p ∈ g.shownBy i) :
    ∃ later c, g.contestedName f ds i later ((g.includesOf f).filter (· ≠ i)) p = .ok c := by
  induction arms generalizing ks with
  | nil => exact absurd hi List.not_mem_nil
  | cons arm later ih =>
    simp only [contestedFrom, bind_eq_ok] at h
    obtain ⟨here, hhere, rest, hrest, -⟩ := h
    rcases List.mem_cons.mp hi with rfl | hi
    · obtain ⟨c, -, hc⟩ := exists_of_mapM hhere hp
      exact ⟨later, c, hc⟩
    · exact ih hrest hi

theorem modifier?_of_contestedName {later others : List FileId} {c : Option Key}
    (h : g.contestedName f ds i later others p = .ok c) (hp : p.key.isSelector) :
    g.modifier? i p others = none := by
  cases hmodifier : g.modifier? i p others with
  | none => rfl
  | some found =>
    rw [contestedName] at h
    simp only [hp, hmodifier, if_true] at h
    split at h
    · split at h <;> cases h
    · cases h

/-- An arm that shows a selector shows every name of its family that another arm shows, and
from the same place. -/
theorem slot_of_selector {ks : List Key} {k' : Key} (h : g.contested f ds = .ok ks)
    (hi : i ∈ g.includesOf f) (hj : j ∈ g.includesOf f) (hij : i ≠ j)
    (hp : g.firstFound? i k = some p) (hk : k.isSelector) (hq : g.firstFound? j k' = some q)
    (hfamily : family k'.text = family k.text) :
    ∃ q', g.firstFound? i k' = some q' ∧ q'.slot = q.slot := by
  have hkey : p.key = k := key_of_firstFound? hp
  have hkey' : q.key = k' := key_of_firstFound? hq
  obtain ⟨later, c, hjudged⟩ := exists_judged h hi (mem_shownBy hp)
  have hnone := modifier?_of_contestedName hjudged (hkey.symm ▸ hk)
  rw [modifier?, List.findSome?_eq_none_iff] at hnone
  have hmem : j ∈ (g.includesOf f).filter (· ≠ i) := by
    simp [hj, Ne.symm hij]
  have hall := List.find?_eq_none.mp (Option.map_eq_none_iff.mp (hnone j hmem)) q (mem_shownBy hq)
  rw [hkey', hkey] at hall
  have hsame : (g.firstFound? i k').map Parameter.slot = some q.slot := by
    by_contra hdiffers
    exact hall (by simp [hfamily, hdiffers])
  obtain ⟨q', hq', hslot⟩ := Option.map_eq_some_iff.mp hsame
  exact ⟨q', hq', hslot⟩

/-! ## Arms that agree -/

/-- The includes of a file agree on every name. -/
def ArmsAgree (g : Graph) (f : FileId) : Prop :=
  ∀ i ∈ g.includesOf f, ∀ j ∈ g.includesOf f, ∀ k, g.AgreeOn k i j

/-- A failure that is not for being ambiguous. -/
abbrev Unambiguous (e : Failure) : Prop :=
  e.kind ≠ .ambiguousChain

theorem disagreeing?_eq_none {later : List FileId} (hp : p ∈ g.shownBy i)
    (hagree : ∀ j ∈ later, ∀ k, g.AgreeOn k i j) : g.disagreeing? p later = none := by
  refine List.find?_eq_none.mpr ?_
  intro j hj hany
  obtain ⟨q, hq, hne⟩ := (Option.any_eq_true _ _).mp hany
  have hslot := hagree j hj p.key p q (mem_shownBy_iff.mp hp) hq
  exact of_decide_eq_true hne hslot.symm

theorem contestedName_of_agree {later others : List FileId} (hp : p ∈ g.shownBy i)
    (hagree : ∀ j ∈ later, ∀ k, g.AgreeOn k i j) :
    FailsOnly Unambiguous (g.contestedName f ds i later others p) ∧
      ∀ c, g.contestedName f ds i later others p = .ok c → c = none := by
  have hnone := disagreeing?_eq_none hp hagree
  refine ⟨?_, ?_⟩
  · rw [contestedName]
    simp only [hnone]
    split
    · split
      · exact .error (by simp [Unambiguous, Failure.kind, Cause.kind, Cause.failure, Failure.about])
      · exact .ok _
    · exact .ok _
  · intro c hc
    obtain ⟨rfl, -⟩ := contestedName_eq_ok hc
    rw [hnone, Option.map_none]

/-- Where the arms agree nothing is contested. -/
theorem contestedFrom_of_agree {arms : List FileId} (harms : arms ⊆ g.includesOf f)
    (hagree : g.ArmsAgree f) :
    FailsOnly Unambiguous (g.contestedFrom f ds arms) ∧
      ∀ ks, g.contestedFrom f ds arms = .ok ks → ks = [] := by
  induction arms with
  | nil =>
    refine ⟨.ok [], ?_⟩
    intro ks hks
    exact (Except.ok.inj hks).symm
  | cons i later ih =>
    obtain ⟨hi, hlater⟩ := List.cons_subset.mp harms
    obtain ⟨hfails, hnil⟩ := ih hlater
    have hname : ∀ p ∈ g.shownBy i,
        FailsOnly Unambiguous (g.contestedName f ds i later ((g.includesOf f).filter (· ≠ i)) p) ∧
          ∀ c, g.contestedName f ds i later ((g.includesOf f).filter (· ≠ i)) p = .ok c →
            c = none := by
      intro p hp
      refine contestedName_of_agree hp ?_
      intro j hj
      exact hagree i hi j (hlater hj)
    constructor
    · rw [contestedFrom]
      refine .bind (.mapM fun p hp => (hname p hp).1) ?_
      intro here
      refine .bind hfails ?_
      intro rest
      exact .ok _
    · intro ks hks
      simp only [contestedFrom, bind_eq_ok, pure_eq_ok] at hks
      obtain ⟨here, hhere, rest, hrest, rfl⟩ := hks
      have hempty : here.reduceOption = [] := by
        refine List.eq_nil_iff_forall_not_mem.mpr ?_
        intro k hk
        obtain ⟨p, hp, hjudged⟩ := mem_of_mapM hhere (List.reduceOption_mem_iff.mp hk)
        cases (hname p hp).2 _ hjudged
      rw [hempty, hnil rest hrest, List.append_nil]

/-! ## No other step calls a name ambiguous -/

/-- A failure that lies in a declaration: neither is it for being ambiguous, nor for an include
that is not followed. -/
abbrev LiesInDeclaration (e : Failure) : Prop :=
  Unambiguous e ∧ e.cause.refusesInclude = false

/-- A failure that is not for the length of a vector. -/
abbrev SparesLengths (e : Failure) : Prop :=
  e.kind ≠ .lengthMismatch

theorem liesInDeclaration_of_liesInValue {e : Failure} (he : e.cause.LiesInValue) :
    LiesInDeclaration e ∧ SparesLengths e := by
  obtain ⟨hkind, hfollowed⟩ := he
  refine ⟨⟨?_, hfollowed⟩, ?_⟩
  · intro hambiguous
    rw [← Failure.kind, hambiguous] at hkind
    exact absurd hkind (by decide)
  · intro hlength
    rw [← Failure.kind, hlength] at hkind
    exact absurd hkind (by decide)

/-- The check of the arms refuses them for nothing else than what they show. -/
theorem contested_failsOnly (g : Graph) (f : FileId) (ds : Declarations) :
    FailsOnly (fun e => e.cause.refusesInclude = false ∧ SparesLengths e) (g.contested f ds) := by
  rw [contested]
  induction g.includesOf f with
  | nil => exact .ok []
  | cons arm later ih =>
    rw [contestedFrom]
    refine .bind (.mapM fun p _ => ?_) fun here => .bind ih fun rest => .ok _
    rw [contestedName]
    split
    · split
      · exact .error ⟨rfl, by rintro ⟨⟩⟩
      · split
        · split
          · exact .error ⟨rfl, by rintro ⟨⟩⟩
          · exact .ok _
        · exact .ok _
    · split
      · split
        · exact .error ⟨rfl, by rintro ⟨⟩⟩
        · exact .ok _
      · exact .ok _

theorem inheritKinds_failsOnly (g : Graph) (f : FileId) (ds : Declarations) :
    FailsOnly (fun e => LiesInDeclaration e ∧ SparesLengths e) (g.inheritKinds f ds) := by
  refine .bind (.mapM ?_) fun rows => .ok _
  intro d _
  refine .foldlM ?_ d
  intro d p _
  rw [Declaration.inherit]
  split
  · exact .ok _
  split
  · exact .error (of_decide_eq_true rfl)
  split
  · split <;> exact .error (of_decide_eq_true rfl)
  · exact .ok _

theorem featureRows_failsOnly (ds : Declarations) :
    FailsOnly (fun e => LiesInDeclaration e ∧ SparesLengths e) ds.featureRows := by
  refine .bind (.mapM ?_) fun rows => .ok _
  intro d _
  split
  · exact .ok _
  · next c hc =>
    refine .error (liesInDeclaration_of_liesInValue ?_)
    exact TimeFeature.ofDeclaration_failsOnly d c hc

/-- The outline of a file whose arms agree has no contested names. -/
theorem outline_of_agree (hagree : g.ArmsAgree f) (ds : Declarations) :
    FailsOnly Unambiguous (g.outline f ds) ∧
      ∀ o, g.outline f ds = .ok o → o.contested = [] := by
  obtain ⟨hfails, hnil⟩ := contestedFrom_of_agree (List.Subset.refl _) hagree
  constructor
  · rw [outline]
    refine .bind hfails ?_
    intro ks
    refine .bind ((inheritKinds_failsOnly g f ds).mono fun _ he => he.1.1) ?_
    intro ds
    exact .bind ((featureRows_failsOnly ds).mono fun _ he => he.1.1) fun rows => .ok _
  · intro o ho
    obtain ⟨ks, ds', rows, hks, -, -, rfl⟩ := outline_eq_ok.mp ho
    exact hnil ks hks

/-- A failure that lies in a declaration, or a contested name that is not set absolutely. -/
abbrev RefusesDraft (o : Outline) (e : Failure) : Prop :=
  LiesInDeclaration e ∨ o.contested ≠ [] ∧ e.cause = .mustBeAbsolute

theorem draftOf_failsOnly (g : Graph) (limits : Limits) (f : FileId) (o : Outline)
    (d : Declaration) :
    FailsOnly (fun e => RefusesDraft o e ∧ SparesLengths e) (g.draftOf limits f o d) := by
  rw [draftOf]
  split
  · exact .error ⟨Or.inl (of_decide_eq_true rfl), of_decide_eq_true rfl⟩
  next kind _ =>
  refine .bind ?_ fun resolved => .ok _
  rw [planOf]
  split
  · exact .ok _
  · refine .bind ((Resolution.resolve_failsOnly _).mono fun e he =>
      (liesInDeclaration_of_liesInValue he).imp_left Or.inl) ?_
    intro resolved
    split
    · next hcontested =>
      refine .error ⟨Or.inr ⟨?_, rfl⟩, of_decide_eq_true rfl⟩
      intro hnone
      simp [hnone] at hcontested
    · exact .ok _

theorem checkUnits_failsOnly (g : Graph) (f : FileId) (drafts : List Parameter) (p : Parameter) :
    FailsOnly (fun e => LiesInDeclaration e ∧ SparesLengths e) (g.checkUnits f drafts p) := by
  rw [checkUnits]
  split
  · next c hc =>
    obtain ⟨q, -, hq⟩ := List.exists_of_findSome?_eq_some hc
    rw [disagreement?] at hq
    split at hq
    · split at hq
      · split at hq
        · cases hq
        · cases hq
          exact .error (of_decide_eq_true rfl)
      · cases hq
    · cases hq
  · exact .ok _

theorem checkLengths_failsOnly (g : Graph) (f : FileId) (drafts : List Parameter) (p : Parameter) :
    FailsOnly LiesInDeclaration (g.checkLengths f drafts p) := by
  rw [checkLengths]
  split
  · split
    · split
      · exact .ok _
      · exact .error (of_decide_eq_true rfl)
    · exact .ok _
  · exact .ok _

theorem draft_failsOnly (g : Graph) (limits : Limits) (f : FileId) (o : Outline) :
    FailsOnly (RefusesDraft o) (g.draft limits f o) := by
  rw [draft]
  refine .bind (.mapM fun d _ => (draftOf_failsOnly g limits f o d).mono fun _ => And.left) ?_
  intro drafts
  refine .bind (.forM fun p _ => (checkUnits_failsOnly g f drafts p).mono fun _ he =>
    Or.inl he.1) ?_
  intro _
  refine .bind (.forM fun p _ => (checkLengths_failsOnly g f drafts p).mono fun _ => Or.inl) ?_
  intro _
  exact .ok _

theorem unambiguous_of_refusesDraft (hnone : o.contested = []) {e : Failure}
    (he : RefusesDraft o e) : Unambiguous e := by
  rcases he with he | ⟨hcontested, -⟩
  · exact he.1
  · exact absurd hnone hcontested

/-- Whatever is committed to a file whose arms agree, or tried, is not refused for being
ambiguous. -/
theorem commit_failsOnly (hagree : g.ArmsAgree f) (limits : Limits) (ds : Declarations) :
    FailsOnly Unambiguous (g.commit limits f ds) ∧
      FailsOnly Unambiguous (g.trial limits f ds) := by
  obtain ⟨hfails, hnil⟩ := outline_of_agree hagree ds
  constructor
  · refine .mapError (.bind_of_ok hfails ?_) fun e he => he
    intro o ho
    exact .bind ((draft_failsOnly _ limits f o).mono fun e =>
      unambiguous_of_refusesDraft (hnil o ho)) fun drafts => .ok _
  · refine .mapError (.bind_of_ok hfails ?_) fun e he => he
    intro o ho
    exact .bind ((draft_failsOnly _ limits f o).mono fun e =>
      unambiguous_of_refusesDraft (hnil o ho)) fun drafts => .ok _

/-! ## Successes -/

theorem trial_eq_ok :
    g.trial limits f ds = .ok () ↔
      ∃ o drafts, g.outline f ds = .ok o ∧ g.draft limits f o = .ok drafts := by
  simp only [trial, locate_eq_ok, bind_eq_ok]
  constructor
  · rintro ⟨o, ho, drafts, hdraft, -⟩
    exact ⟨o, drafts, ho, hdraft⟩
  · rintro ⟨o, drafts, ho, hdraft⟩
    exact ⟨o, ho, drafts, hdraft, rfl⟩

/-- The name of a conflict is declared in the file after a commit, in absolute terms. -/
theorem declared?_of_contested {done : Commit} (hc : g.commit limits f ds = .ok done)
    (hi : i ∈ g.includesOf f) (hj : j ∈ g.includesOf f) (hp : g.firstFound? i k = some p)
    (hq : g.firstFound? j k = some q) (hne : p.slot ≠ q.slot) :
    ∃ r, done.graph.declared? f k = some r ∧ ¬ r.plan.RefersOrJoins := by
  obtain ⟨o, drafts, ho, hdraft, rfl⟩ := commit_eq_ok.mp hc
  obtain ⟨⟨r, hr, hkey⟩, hall⟩ := mem_draft_of_contested ho hdraft hi hj hp hq hne
  have hf : f < g.files.size := by
    refine Nat.lt_of_not_le ?_
    intro hge
    rw [includesOf_of_size_le hge] at hi
    exact List.not_mem_nil hi
  have hfile : r.file = f := file_of_commit hc hr
  rw [declared?_commit hc hf]
  -- Of several drafts with the key the last one is stored; all of them are absolute.
  cases hlast : drafts.reverse.find? fun x => x.slot = ⟨f, k⟩ with
  | none =>
    have hnone := List.find?_eq_none.mp hlast r (List.mem_reverse.mpr hr)
    exact absurd (by simp [Parameter.slot, hfile, hkey]) hnone
  | some x =>
    have hx : x.slot = ⟨f, k⟩ := by simpa using List.find?_some hlast
    refine ⟨x, rfl, hall x ?_ (congrArg Slot.key hx)⟩
    exact List.mem_reverse.mp (List.mem_of_find?_eq_some hlast)

end Graph

/-- The check of the arms is complete and raises no false alarm.  For every graph, file and
table of declarations:

  * if the declarations are committed, or could be, then a key that two includes show from
    different places is declared in the file itself, and its plan neither refers to another
    parameter nor joins operands;
  * then, too, an include that shows a selector shows every name of its family that another
    include shows, from the same place;
  * if the includes agree on every key, neither a commit nor a trial fails for being
    ambiguous. -/
theorem conflicts_of_arms (g : Graph) (limits : Limits) (f : FileId) (ds : Declarations) :
    (∀ i ∈ g.includesOf f, ∀ j ∈ g.includesOf f, ∀ k p q, g.firstFound? i k = some p →
      g.firstFound? j k = some q → p.slot ≠ q.slot →
        (∀ done, g.commit limits f ds = .ok done →
          ∃ r, done.graph.declared? f k = some r ∧ ¬ r.plan.RefersOrJoins) ∧
        (g.trial limits f ds = .ok () → ∃ o drafts, g.outline f ds = .ok o ∧
          g.draft limits f o = .ok drafts ∧ ∃ r ∈ drafts, r.key = k ∧ ¬ r.plan.RefersOrJoins)) ∧
    (((∃ done, g.commit limits f ds = .ok done) ∨ g.trial limits f ds = .ok ()) →
      ∀ i ∈ g.includesOf f, ∀ j ∈ g.includesOf f, i ≠ j → ∀ k p, g.firstFound? i k = some p →
        k.isSelector → ∀ k' q, g.firstFound? j k' = some q → family k'.text = family k.text →
          ∃ q', g.firstFound? i k' = some q' ∧ q'.slot = q.slot) ∧
    ((∀ i ∈ g.includesOf f, ∀ j ∈ g.includesOf f, ∀ k, g.AgreeOn k i j) →
      (∀ e, g.commit limits f ds = .error e → e.kind ≠ .ambiguousChain) ∧
        ∀ e, g.trial limits f ds = .error e → e.kind ≠ .ambiguousChain) := by
  refine ⟨?_, ?_, ?_⟩
  · intro i hi j hj k p q hp hq hne
    refine ⟨fun done hc => Graph.declared?_of_contested hc hi hj hp hq hne, ?_⟩
    intro ht
    obtain ⟨o, drafts, ho, hdraft⟩ := Graph.trial_eq_ok.mp ht
    obtain ⟨⟨r, hr, hkey⟩, hall⟩ := Graph.mem_draft_of_contested ho hdraft hi hj hp hq hne
    exact ⟨o, drafts, ho, hdraft, r, hr, hkey, hall r hr hkey⟩
  · intro hdone i hi j hj hij k p hp hk k' q hq hfamily
    have houtline : ∃ o, g.outline f ds = .ok o := by
      rcases hdone with ⟨done, hc⟩ | ht
      · obtain ⟨o, drafts, ho, -, -⟩ := Graph.commit_eq_ok.mp hc
        exact ⟨o, ho⟩
      · obtain ⟨o, drafts, ho, -⟩ := Graph.trial_eq_ok.mp ht
        exact ⟨o, ho⟩
    obtain ⟨o, ho⟩ := houtline
    obtain ⟨ks, ds', rows, hks, -, -, -⟩ := Graph.outline_eq_ok.mp ho
    exact Graph.slot_of_selector hks hi hj hij hp hk hq hfamily
  · intro hagree
    exact Graph.commit_failsOnly hagree limits ds

/-! ## Arms that conflict and arms that do not -/

/-- Two pairs of arms: `left` and `right` show a selector from one place, `one` and `two` give
one name two values, and the file that includes these gives it a third. -/
def pairedArms : Source := fun spec =>
  if spec = "base" then .ok "s:Ge/Box/Type = \"TsBox\"".toUTF8
  else if spec = "left" then .ok "includeFile = base".toUTF8
  else if spec = "right" then .ok "includeFile = base".toUTF8
  else if spec = "same" then .ok "includeFile = left right".toUTF8
  else if spec = "one" then .ok "i:X = 1".toUTF8
  else if spec = "two" then .ok "i:X = 2".toUTF8
  else if spec = "other" then .ok "includeFile = one two\ni:X = 3".toUTF8
  else .error (.cannotOpen spec "no such file")

/-- A new value for the name that `one` and `two` contest. -/
def settling : Declarations :=
  { rows := [⟨Name.ofText "X", some (Kind.one .integer), "4", false, 1⟩] }

theorem conflicts_of_arms_pairedArms :
    (∃ s done p q, Session.load pairedArms { withDefaults := false } "other" = .ok s ∧
      s.graph.commit {} 3 settling = .ok done ∧ s.graph.firstFound? 1 ⟨"x"⟩ = some p ∧
      s.graph.firstFound? 2 ⟨"x"⟩ = some q ∧ p.slot ≠ q.slot ∧
      ∃ r, done.graph.declared? 3 ⟨"x"⟩ = some r ∧ ¬ r.plan.RefersOrJoins) ∧
    ∃ s done p q, Session.load pairedArms { withDefaults := false } "same" = .ok s ∧
      s.graph.commit {} 4 {} = .ok done ∧ s.graph.firstFound? 2 ⟨"ge/box/type"⟩ = some p ∧
      s.graph.firstFound? 3 ⟨"ge/box/type"⟩ = some q ∧
      (∃ q', s.graph.firstFound? 2 ⟨"ge/box/type"⟩ = some q' ∧ q'.slot = q.slot) ∧
      ∀ e, s.graph.commit {} 2 settling = .error e → e.kind ≠ .ambiguousChain := by
  constructor
  · have hok : ((Session.load pairedArms { withDefaults := false } "other").toOption.any fun s =>
        s.graph.includesOf 3 == [1, 2] && (s.graph.commit {} 3 settling).toOption.isSome &&
          ((s.graph.firstFound? 1 ⟨"x"⟩).any fun p => (s.graph.firstFound? 2 ⟨"x"⟩).any fun q =>
            p.slot != q.slot)) = true := by
      decide +kernel
    obtain ⟨s, hs, hok⟩ := (Option.any_eq_true _ _).mp hok
    simp only [Bool.and_eq_true, beq_iff_eq, Option.isSome_iff_exists, Option.any_eq_true,
      bne_iff_ne] at hok
    obtain ⟨⟨hincludes, done, hdone⟩, p, hp, q, hq, hne⟩ := hok
    have hc := toOption_eq_some.mp hdone
    obtain ⟨hconflict, -, -⟩ := conflicts_of_arms s.graph {} 3 settling
    refine ⟨s, done, p, q, toOption_eq_some.mp hs, hc, hp, hq, hne, ?_⟩
    exact (hconflict 1 (by simp [hincludes]) 2 (by simp [hincludes]) _ p q hp hq hne).1 done hc
  · have hok : ((Session.load pairedArms { withDefaults := false } "same").toOption.any fun s =>
        s.graph.includesOf 4 == [2, 3] && s.graph.includesOf 2 == [1] &&
          (s.graph.commit {} 4 {}).toOption.isSome &&
          (s.graph.firstFound? 2 ⟨"ge/box/type"⟩).isSome &&
          (s.graph.firstFound? 3 ⟨"ge/box/type"⟩).isSome) = true := by
      decide +kernel
    obtain ⟨s, hs, hok⟩ := (Option.any_eq_true _ _).mp hok
    simp only [Bool.and_eq_true, beq_iff_eq, Option.isSome_iff_exists] at hok
    obtain ⟨⟨⟨⟨hsame, hleft⟩, done, hdone⟩, p, hp⟩, q, hq⟩ := hok
    have hc := toOption_eq_some.mp hdone
    obtain ⟨-, hselector, -⟩ := conflicts_of_arms s.graph {} 4 {}
    obtain ⟨-, -, hfails⟩ := conflicts_of_arms s.graph {} 2 settling
    refine ⟨s, done, p, q, toOption_eq_some.mp hs, hc, hp, hq, ?_, ?_⟩
    · exact hselector (Or.inl ⟨done, hc⟩) 2 (by simp [hsame]) 3 (by simp [hsame]) (by decide) _ p hp
        (by decide +kernel) _ q hq rfl
    · refine (hfails ?_).1
      intro i hi j hj k
      rw [hleft, List.mem_singleton] at hi hj
      rw [hi, hj]
      exact Graph.AgreeOn.refl s.graph k 1

end ParameterChain
