/-
# What `set` reports

The command `set` makes an edit and then reads a name to report on it.  The edit takes the name
as written apart at its *first* colon, the report at its *last*.  Where the declared name has no
colon of its own the two agree, and the report is on the parameter that has just been declared.
Where it has one, the report is on whatever goes by the part behind the last colon, if anything
does.

Main statement: `outcome_set`.
-/
import Mathlib.Data.List.TakeWhile
import ParameterChain.CommandLine
import ParameterChain.Proofs.FeatureNames
import ParameterChain.Proofs.History
import ParameterChain.Proofs.Nameable
import ParameterChain.Proofs.Queries

namespace ParameterChain

/-! ## The parts of a name -/

/-- What follows a separator, read from the end, does not depend on what comes before it. -/
theorem takeWhile_append_separator {α : Type} {p : α → Bool} {x : α} (hx : p x = false)
    (xs ys : List α) : (xs ++ x :: ys).takeWhile p = xs.takeWhile p := by
  induction xs with
  | nil => exact List.takeWhile_cons_of_neg (by simp [hx])
  | cons a xs ih =>
    rw [List.cons_append, List.takeWhile_cons, List.takeWhile_cons, ih]

namespace CommandLine

/-- A name is reported on as it is exactly if it has no colon. -/
theorem bareName_eq_iff {name : String} : bareName name = name ↔ ':' ∉ name.toList := by
  rw [bareName, ← String.toList_inj, String.toList_ofList, List.reverse_eq_iff,
    List.takeWhile_eq_self_iff]
  simp only [List.mem_reverse, decide_eq_true_eq]
  exact ⟨fun h hcolon => h ':' hcolon rfl, fun h c hc heq => h (heq ▸ hc)⟩

/-- The kind in front of a name is not reported on. -/
theorem bareName_of_heading {text : String} {h : Heading} (hh : Heading.ofText text = .ok h) :
    bareName text = bareName h.name := by
  rcases Heading.name_of_ofText hh with hname | ⟨code, -, htext⟩
  · rw [hname]
  · have hstops : decide (':' ≠ ':') = false := rfl
    rw [bareName, bareName, htext, List.reverse_append, List.reverse_cons, List.append_assoc,
      List.singleton_append,
      takeWhile_append_separator (p := fun c => decide (c ≠ ':')) hstops]

end CommandLine

/-! ## What an edit declares -/

/-- The declaration of a time feature is not that of the value of one. -/
theorem Key.featureBase?_ofValue (base : Key) : base.ofValue.featureBase? = none := by
  cases hbase : base.ofValue.featureBase? with
  | none => rfl
  | some described =>
    obtain ⟨base', source⟩ := described
    have hlast := congrArg (fun t => t.toList.getLast?) (Key.text_of_featureBase? hbase)
    cases source <;> simp [Key.ofValue, FeatureSource.ending, List.getLast?_append] at hlast

namespace Graph

variable {g : Graph} {limits : Limits} {ds : Declarations} {d : Declaration} {done : Commit}

/-- Whatever else a single declaration gives rise to, it is committed under its name. -/
theorem exists_declared_of_commit (hds : ds.rows = [d])
    (hc : g.commit limits transientFile ds = .ok done) :
    ∃ p ∈ done.parameters, p.name = d.name ∧ p.rawValue = d.rawValue := by
  have hdistinct : ds.Distinct := by
    rw [Declarations.Distinct, hds]
    exact List.nodup_singleton _
  have hrows : ∀ d' ∈ ds.rows, d' = d := by
    rw [hds]
    exact fun d' => List.mem_singleton.mp
  obtain ⟨o, drafts, ho, hdraft, rfl⟩ := commit_eq_ok.mp hc
  have hmem : d.key ∈ o.declarations.rows.map Declaration.key :=
    mem_keys_outline ho (hds ▸ List.mem_singleton_self d)
  obtain ⟨e, he, hkey⟩ := List.mem_map.mp hmem
  rcases mem_rows_cases hdistinct ho he with ⟨feature, hfeature, -, line, rfl⟩ | ⟨-, d₀, hd₀, hinherits⟩
  · -- The declaration would have to be that of a feature and that of its value.
    obtain ⟨ks, kinds, rows, -, hkinds, hfeatures, rfl⟩ := outline_eq_ok.mp ho
    obtain ⟨d', hd', hdescribes⟩ := (Declarations.mem_features hfeatures).mp hfeature
    obtain ⟨d₀, hd₀, hinherits⟩ := exists_left_of_forall₂ (inheritKinds_eq_ok hkinds) hd'
    obtain ⟨base, source, hbase, -⟩ := TimeFeature.ofDeclaration_eq_ok hdescribes
    have hvalue : d'.key = feature.key.ofValue := by
      rw [hinherits.key, hrows d₀ hd₀, ← hkey]
      exact feature.key_valueName
    rw [hvalue, Key.featureBase?_ofValue] at hbase
    cases hbase
  · obtain rfl := hrows d₀ hd₀
    obtain ⟨p, hp, hresolved⟩ := exists_of_mapM (draft_eq_ok hdraft) he
    obtain ⟨kind, resolved, -, -, rfl⟩ := draftOf_eq_ok.mp hresolved
    exact ⟨_, hp, hinherits.name, hinherits.rawValue⟩

end Graph

namespace Session

variable {s s' : Session} {c : Change} {n : Name}

/-- What an edit declares is what reads of its name see from then on. -/
theorem exists_visible?_of_edit (hg : s.graph.Whole) (hedit : s.edit c = .ok (s', n)) :
    ∃ p, s'.graph.visible? n.key = some p ∧ p.file = transientFile ∧ p.name = n ∧
      p.rawValue = c.rawValue := by
  obtain ⟨ds, d, done, hc, -, hdone, rfl, rfl⟩ := edit_eq_ok.mp hedit
  have hsize := hg.ordered.transientFile_lt_size
  obtain ⟨p, hp, hname, hraw⟩ :=
    Graph.exists_declared_of_commit (rows_of_declarations hc) hdone
  have hkey : p.key = d.name.key := congrArg Name.key hname
  have hdeclared := Graph.declared?_of_mem_parameters (distinct_of_declarations hc) hsize hdone hp
  obtain ⟨rest, hrest, -⟩ := hg.exists_chain
  refine ⟨p, ?_, Graph.file_of_commit hdone hp, hname, hraw.trans (rawValue_of_declarations hc)⟩
  show done.graph.visible? d.name.key = some p
  rw [Graph.visible?, Graph.find?, Graph.chain_commit hg hdone, hrest, ← hkey]
  simp [hdeclared]

/-- A name that nothing goes by cannot be read. -/
theorem run_read_of_undeclared {name : String} (hname : s.find? name = none) (t : Trace) :
    (s.graph.read s.limits name .any).run t = (.error (Cause.undefined name).failure, t) := by
  have hnamed : s.graph.named name = Traced.fail (.undefined name) := by
    show Traced.ofOption _ (s.find? name) = _
    rw [hname]
    rfl
  rw [Graph.read]
  show (s.graph.named name >>= s.graph.valueOf s.limits).run t = _
  rw [hnamed]
  rfl

end Session

/-! ## Reports -/

namespace CommandLine

variable {s s' : Session} {c : Change} {n : Name} {name : String} {q : Parameter} {v : Value}
  {e : Failure}

/-- What a command ends with that writes nothing before its result. -/
def Outcome.ofResult : Except CommandError (List String) → Outcome
  | .ok ls => ⟨0, lines ls, ""⟩
  | .error e => ⟨1, "", lines ["Error: " ++ e.message]⟩

/-- What `set` ends with, once its file has been loaded. -/
def setOutcome (s : Session) (c : Change) : Outcome :=
  .ofResult (CommandLine.set s c)

/-- The report that `name` has the value `v` of `q`, after an edit of `n`. -/
def report (s : Session) (n : Name) (name : String) (q : Parameter) (v : Value) : Outcome :=
  ⟨0, lines [name ++ " = " ++ q.shown v, tally "Notified" (s.notices n.text).length], ""⟩

theorem run_set {d : Disk} {limit : Nat} {file : String} (hload : load d limit file = .ok s) :
    (Command.set file c false).run d limit = setOutcome s c := by
  have houtput : (Command.set file c false).output d limit = (CommandLine.set s c).map lines := by
    rw [Command.output, hload]
    show (CommandLine.set s c >>= fun ls => pure (lines ls)) = _
    cases CommandLine.set s c <;> rfl
  rw [Command.run, houtput, setOutcome]
  cases CommandLine.set s c <;> rfl

theorem valueText_of_ok (hq : s.find? name = some q)
    (hv : ((s.graph.valueOf s.limits q).run []).1 = .ok v) :
    valueText s name = .ok (q.shown v) := by
  have hread := Session.fst_read s none name .any
  have hfind := congrFun (Session.find?_read s none name .any) name
  rw [Session.run_read_of_find? hq, hv] at hread
  rw [valueText]
  rcases hresult : s.read none name .any with ⟨result, s'⟩
  rw [hresult] at hread hfind
  obtain rfl : result = .ok v := hread
  exact congrArg Except.ok (Session.display_of_find? (hfind.trans hq) v)

theorem valueText_of_error (he : ((s.graph.read s.limits name .any).run []).1 = .error e) :
    valueText s name = .error (.unresolved e) := by
  have hread := Session.fst_read s none name .any
  rw [he] at hread
  rw [valueText]
  rcases hresult : s.read none name .any with ⟨result, s'⟩
  rw [hresult] at hread
  obtain rfl : result = .error e := hread
  rfl

/-- The edit is made, and then the part of the declared name behind its last colon is read. -/
theorem set_of_edit (hedit : s.edit c = .ok (s', n)) :
    CommandLine.set s c = (valueText s' (bareName c.name)).map fun t =>
      [bareName c.name ++ " = " ++ t, tally "Notified" (s'.notices n.text).length] := by
  have hchange : s.change c = .ok (s', s'.notices n.text) := by
    rw [Session.change, hedit]
    rfl
  rw [CommandLine.set, hchange]
  show (valueText s' (bareName c.name) >>= fun t => pure _) = _
  cases valueText s' (bareName c.name) <;> rfl

theorem setOutcome_of_ok (hedit : s.edit c = .ok (s', n)) (hq : s'.find? (bareName c.name) = some q)
    (hv : ((s'.graph.valueOf s'.limits q).run []).1 = .ok v) :
    setOutcome s c = report s' n (bareName c.name) q v := by
  rw [setOutcome, set_of_edit hedit, valueText_of_ok hq hv]
  rfl

theorem setOutcome_of_error (hedit : s.edit c = .ok (s', n))
    (he : ((s'.graph.read s'.limits (bareName c.name) .any).run []).1 = .error e) :
    setOutcome s c = ⟨1, "", lines ["Error: " ++ e.report]⟩ := by
  rw [setOutcome, set_of_edit hedit, valueText_of_error he]
  rfl

/-- Let an edit of a loaded session succeed.  Reads of the declared name then see the parameter
that the edit declares, but `set` reads and reports on the part of that name behind its last
colon:

  * if the declared name has no colon, the two are one, and wherever the parameter can be
    evaluated the command ends well and reports its name and its value;
  * in any case it ends well exactly if a parameter goes by that part and can be evaluated, and
    then reports on this one, which is under another name if the declared name has a colon. -/
theorem outcome_set {source : Source} {options : LoadOptions} {top : String}
    (hload : Session.load source options top = .ok s) (happly : s.apply c true = (.ok n, s')) :
    (∃ h, Heading.ofText c.name = .ok h ∧ n = Name.ofText h.name) ∧
    (bareName c.name = bareName n.text ∧ (bareName n.text = n.text ↔ ':' ∉ n.text.toList)) ∧
    (∃ p, s'.graph.visible? n.key = some p ∧ p.file = transientFile ∧ p.name = n ∧
      p.rawValue = c.rawValue ∧
      (':' ∉ n.text.toList → ∀ v, ((s'.graph.valueOf s'.limits p).run []).1 = .ok v →
        setOutcome s c = report s' n n.text p v)) ∧
    (∀ q v, s'.find? (bareName n.text) = some q →
      ((s'.graph.valueOf s'.limits q).run []).1 = .ok v →
        setOutcome s c = report s' n (bareName n.text) q v) ∧
    (∀ e, ((s'.graph.read s'.limits (bareName n.text) .any).run []).1 = .error e →
      setOutcome s c = ⟨1, "", lines ["Error: " ++ e.report]⟩) ∧
    ∀ (d : Disk) (limit : Nat) (file : String), load d limit file = .ok s →
      (Command.set file c false).run d limit = setOutcome s c := by
  have hg := (Session.rooted_load hload).whole
  have hedit := (Session.apply_eq_ok hg).mp happly
  obtain ⟨h, hheading, hname⟩ : ∃ h, Heading.ofText c.name = .ok h ∧ n = Name.ofText h.name := by
    obtain ⟨ds, d, done, hc, -, -, -, rfl⟩ := Session.edit_eq_ok.mp hedit
    obtain ⟨-, hdeclare, -⟩ := Session.declarations_eq_ok.mp hc
    obtain ⟨h, hheading, -, -, rfl⟩ := Declarations.declare_eq_ok.mp hdeclare
    exact ⟨h, hheading, rfl⟩
  have hbare : bareName c.name = bareName n.text := by
    rw [bareName_of_heading hheading, hname]
    rfl
  obtain ⟨p, hp, hfile, hpname, hraw⟩ := Session.exists_visible?_of_edit hg hedit
  refine ⟨⟨h, hheading, hname⟩, ⟨hbare, bareName_eq_iff⟩, ⟨p, hp, hfile, hpname, hraw, ?_⟩, ?_, ?_,
    fun d limit file => run_set⟩
  · intro hcolon v hv
    have hwhole : bareName c.name = n.text := hbare.trans (bareName_eq_iff.mpr hcolon)
    have hfind : s'.find? (bareName c.name) = some p := by
      rw [Session.find?, hwhole, ← n.key_eq]
      exact hp
    rw [setOutcome_of_ok hedit hfind hv, hwhole]
  · intro q v hq hv
    rw [← hbare] at hq ⊢
    exact setOutcome_of_ok hedit hq hv
  · intro e he
    rw [← hbare] at he
    exact setOutcome_of_error hedit he

/-- A change whose declared name is `A:B`. -/
def colonChange : Change := ⟨"u:A:B", "1", false⟩

/-- The edit of `A:B` succeeds and the parameter is there to be read, but `set` ends with the
failure that there is no `B`. -/
theorem outcome_set_colonChange :
    ∃ s s' n, Session.load Session.sharedArms { withDefaults := false } "top" = .ok s ∧
      s.apply colonChange true = (.ok n, s') ∧ n.text = "A:B" ∧ bareName n.text = "B" ∧
      (∃ p, s'.graph.visible? n.key = some p ∧ p.file = transientFile ∧ p.rawValue = "1" ∧
        ((s'.graph.valueOf s'.limits p).run []).1.toOption.isSome) ∧
      setOutcome s colonChange =
        ⟨1, "", lines ["Error: " ++ (Cause.undefined "B").failure.report]⟩ := by
  have hok : ((Session.load Session.sharedArms { withDefaults := false } "top").toOption.any
      fun s =>
        (s.apply colonChange true).1.toOption.any (fun n => n.text == "A:B") &&
        ((s.apply colonChange true).2.graph.visible? ⟨"a:b"⟩).any (fun p =>
          (((s.apply colonChange true).2.graph.valueOf
            (s.apply colonChange true).2.limits p).run []).1.toOption.isSome) &&
        ((s.apply colonChange true).2.graph.visible? ⟨"b"⟩).isNone) = true := by
    decide +kernel
  obtain ⟨s, hs, hok⟩ := (Option.any_eq_true _ _).mp hok
  have hload := toOption_eq_some.mp hs
  simp only [Bool.and_eq_true, Option.any_eq_true, beq_iff_eq, Option.isNone_iff_eq_none] at hok
  obtain ⟨⟨⟨n, hn, hname⟩, p, hp, hvalue⟩, hnone⟩ := hok
  have happly : s.apply colonChange true = (.ok n, (s.apply colonChange true).2) :=
    Prod.ext (toOption_eq_some.mp hn) rfl
  have hkey : n.key = ⟨"a:b"⟩ := by
    rw [n.key_eq, hname]
    decide
  have hbare : bareName n.text = "B" := by
    rw [hname]
    decide
  obtain ⟨-, -, ⟨p', hp', hfile, -, hraw, -⟩, -, herror, -⟩ := outcome_set hload happly
  obtain rfl : p = p' := Option.some.inj (hp.symm.trans (hkey ▸ hp'))
  refine ⟨s, _, n, hload, happly, hname, hbare, ⟨p, hp', hfile, hraw, hvalue⟩, herror _ ?_⟩
  have hundeclared : (s.apply colonChange true).2.find? "B" = none := hnone
  rw [hbare, Session.run_read_of_undeclared hundeclared]

end CommandLine

end ParameterChain
