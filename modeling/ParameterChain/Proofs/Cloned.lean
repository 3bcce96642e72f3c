/-
# Clones read what they were made of

A clone is made by writing: the name as it was given, with the unit of the parameter behind it
if there is one, becomes the raw value of a new declaration of the same kind.  So it has to be
read back.  A name that reads as one token, and not as a number, a quoted text or the word for
the inherited value, is read as a reference in every one of the ten kinds, and the unit behind
it is found in the table.

There is one name more that is not read back.  A double quote inside a token opens a text, and
if it is not closed by the end of the name, the unit belongs to the text.

The clone is stored under a name that nothing was visible under.  No stored plan names it, for
what a plan names is visible, and no time feature has an input there.  So nothing else reads
the clone, and every name reads as it did.

Main statement: `Session.clone_run`.
-/
import Mathlib.Data.Bool.AllAny
import Mathlib.Data.List.TakeDrop
import ParameterChain.Proofs.Depth
import ParameterChain.Proofs.LoadedAlike
import ParameterChain.Proofs.Nameable
import ParameterChain.Proofs.Tokens

namespace ParameterChain

/-! ## Names as values -/

/-- The name can be written where an operand begins: it has no blank, reads neither as a number
nor as a quoted text, and is not the word for the inherited value. -/
structure IsOperand (name : String) : Prop where
  unblank : ∀ c ∈ name.toList, Text.isBlank c = false
  number : Number.isReal name = false
  quote : Token.opensQuote name = false
  inherited : Text.sameAscii name inheritedName = false

/-- In every kind the name of a parameter of that kind is a value, with a unit behind it if the
kind has units. -/
theorem Kind.reference_mem_grammar (k : Kind) : ∃ kinds barred chosen,
    (⟨.name kinds barred chosen, if k.hasUnit then .inner else .absent, none⟩ : Form) ∈ k.grammar ∧
      k ∈ kinds ∧ .truth ∉ barred := by
  obtain ⟨s, isVector⟩ := k
  cases isVector with
  | false =>
    cases s with
    | boolean => exact ⟨[one .boolean], [], true, by decide⟩
    | integer => exact ⟨[one .integer], [.number], true, by decide⟩
    | unitless => exact ⟨[one .unitless, one .integer], [.number], false, by decide⟩
    | dimensioned => exact ⟨[one .dimensioned], [.number], false, by decide⟩
    | text => exact ⟨[one .integer, one .text], [.quote], false, by decide⟩
  | true =>
    cases s with
    | boolean => exact ⟨[many .boolean], [.integer, .quote], false, by decide⟩
    | integer => exact ⟨[many .integer], [.number, .quote], false, by decide⟩
    | unitless => exact ⟨[many .unitless], [.number, .quote], false, by decide⟩
    | dimensioned => exact ⟨[many .dimensioned], [.number, .quote], true, by decide⟩
    | text => exact ⟨[many .text], [.integer, .quote], false, by decide⟩

namespace Resolution

variable {r : Resolution} {name : String} {u : Option MeasureUnit}

/-- A name of the kind that is asked for, alone or with a unit, is read as a reference. -/
theorem resolve_reference (hname : IsOperand name) (hne : name ≠ "")
    (hother : Key.ofText name ≠ r.declaration.key)
    (hkind : r.scope.kindOf (Key.ofText name) = some r.kind)
    (hunit : u.isSome = r.kind.hasUnit) (hmeasures : ∀ u' ∈ u, r.Measures u'.symbol u')
    (htokens : Token.ofValue r.declaration.rawValue = name :: (u.map MeasureUnit.symbol).toList) :
    r.resolve = .ok ⟨.reference (.named (.ofText name)), u.map MeasureUnit.symbol⟩ := by
  obtain ⟨kinds, barred, chosen, hform, hlisted, htruth⟩ := r.kind.reference_mem_grammar
  have hself : r.isSelf name = false := by
    rw [isSelf, hname.inherited, Bool.false_or]
    exact beq_eq_false_iff_ne.mpr hother
  have hspelling : ∀ spelling ∈ barred, spelling.test name = false := by
    intro spelling hspelling
    cases spelling with
    | number => exact hname.number
    | integer =>
      exact Bool.eq_false_iff.mpr fun hint => by
        simpa [hname.number] using Number.isReal_of_isInteger hint
    | quote => exact hname.quote
    | truth => exact absurd hspelling htruth
  have hstands : r.Stands false (scale u) (.name kinds barred chosen) [name]
      (.param (.named (.ofText name))) :=
    .name hspelling (.named hne hself hkind hlisted)
  have hplaced : r.Placed (if r.kind.hasUnit then .inner else .absent)
      (u.map MeasureUnit.symbol).toList [] u := by
    rw [← hunit]
    cases u with
    | none => exact .absent
    | some u => exact .inner (hmeasures u rfl)
  refine resolve_iff_applies.mpr ⟨_, _, hform, .alone hplaced hstands, [], ?_, rfl⟩
  rw [htokens, List.append_nil]
  rfl

end Resolution

/-- A unit is one token. -/
theorem MeasureUnit.closed_symbol {t : String} {u : MeasureUnit}
    (h : MeasureUnit.ofSymbol? t = some u) : Token.Closed u.symbol := by
  have hall : (MeasureUnit.table.all fun u => decide (Token.Closed u.symbol)) = true := by
    decide +kernel
  exact of_decide_eq_true (List.all_eq_true.mp hall u (List.mem_of_find?_eq_some h))

/-- What is written to refer to a parameter by a name: the name, and the unit if there is
one. -/
def Parameter.written (p : Parameter) (name : String) : String :=
  match p.unit with
  | some unit => name ++ " " ++ unit
  | none => name

/-- The name and the unit are read back as they are written, if quotes in the name are closed
before the unit. -/
theorem Parameter.ofValue_written {p : Parameter} {name : String} {u : Option MeasureUnit}
    (hname : IsOperand name) (hne : name ≠ "")
    (hquotes : p.unit.isSome = true → name.toList.count '"' % 2 = 0)
    (hunit : p.unit = u.map MeasureUnit.symbol)
    (hu : ∀ u' ∈ u, MeasureUnit.ofSymbol? u'.symbol = some u') :
    Token.ofValue (p.written name) = name :: (u.map MeasureUnit.symbol).toList := by
  have hunbroken := Token.unbroken_of_not_blank (q := false) hname.unblank
  cases u with
  | none =>
    rw [Parameter.written, hunit]
    exact Token.ofValue_eq_singleton hne hunbroken
  | some u =>
    have hclosed : Token.Closed name := by
      refine ⟨by simpa using hne, hunbroken, ?_⟩
      rw [Token.opens_eq, hquotes (by rw [hunit]; rfl)]
      rfl
    have hsymbol := MeasureUnit.closed_symbol (hu u rfl)
    have hwritten : p.written name = " ".intercalate [name, u.symbol] := by
      rw [Parameter.written, hunit]
      rfl
    rw [hwritten]
    refine Token.ofValue_intercalate ?_
    intro t ht
    rcases List.mem_cons.mp ht with rfl | ht
    · exact hclosed
    · exact List.mem_singleton.mp ht ▸ hsymbol

/-! ## The declaration of a clone -/

/-- A name behind the code of a kind and a colon is taken apart there. -/
theorem Heading.ofText_code {k : Kind} {name : String} {h : Heading}
    (hh : Heading.ofText (k.code ++ ":" ++ name) = .ok h) : h = ⟨some k, false, name⟩ := by
  have hcolon : ∀ c ∈ k.code.toList, decide (c ≠ ':') = true := by
    refine List.all_eq_true.mp ?_
    obtain ⟨s, isVector⟩ := k
    cases s <;> cases isVector <;> decide
  have hletters : splitMarker k.code.toList = (k.code.toList, false) := by
    obtain ⟨s, isVector⟩ := k
    cases s <;> cases isVector <;> decide
  have hcode : Kind.ofCode? k.code = some k := by
    obtain ⟨s, isVector⟩ := k
    cases s <;> cases isVector <;> decide
  have hspan : (k.code ++ ":" ++ name).toList.span (· ≠ ':') =
      (k.code.toList, ':' :: name.toList) := by
    rw [List.span_eq_takeWhile_dropWhile, String.toList_append, String.toList_append,
      List.append_assoc, List.takeWhile_append_of_pos hcolon, List.dropWhile_append_of_pos hcolon]
    simp
  rw [Heading.ofText, hspan] at hh
  simp only [hletters, String.ofList_toList, hcode] at hh
  split at hh
  · cases hh
  split at hh
  · cases hh
  split at hh
  · cases hh
  · exact (Except.ok.inj hh).symm

namespace Parameter

/-- The declaration that makes `copy` another name for the value of `p`, which goes by `name`. -/
def cloning (p : Parameter) (name copy : String) : Declaration where
  name := .ofText copy
  kind := some p.kind
  rawValue := p.written name
  changeable := false
  line := 0

/-- The parameter with the name `copy` that refers to `p` by `name`. -/
def cloned (p : Parameter) (name copy : String) : Parameter where
  name := .ofText copy
  kind := p.kind
  changeable := false
  unit := p.unit
  rawValue := p.written name
  file := transientFile
  plan := .reference (.named (.ofText name))

end Parameter

namespace Graph

variable {g : Graph} {p : Parameter} {name copy : String} {ds : Declarations} {limits : Limits}

theorem ne_of_visible? {j k : Key} (hj : g.visible? j = some p) (hk : g.visible? k = none) :
    k ≠ j := by
  rintro rfl
  cases hk.symm.trans hj

section Commit

variable (hr : g.Rooted) (hp : g.visible? (Key.ofText name) = some p)
  (hnew : g.visible? (Key.ofText copy) = none)

include hp hnew

/-- The clone has a unit of the same category as the parameter that it refers to. -/
theorem checkUnits_cloned :
    g.checkUnits transientFile [p.cloned name copy] (p.cloned name copy) = .ok () := by
  have hother : (p.cloned name copy).key ≠ (Name.ofText name).key := ne_of_visible? hp hnew
  have htarget : g.draftTarget? transientFile [p.cloned name copy] (p.cloned name copy)
      (.named (.ofText name)) = some p := by
    rw [draftTarget?, rowOf?, List.find?_cons_of_neg (by simpa using hother)]
    exact hp
  have hagree : disagreement? (p.cloned name copy) p = none := disagreement?_of_measure? rfl
  rw [checkUnits, show (p.cloned name copy).plan.refs = [.named (.ofText name)] from rfl,
    List.filterMap_cons, htarget]
  simp only [List.filterMap_nil, List.findSome?_singleton, hagree]

variable (hname : IsOperand name) (hne : name ≠ "")
  (hquotes : p.unit.isSome = true → name.toList.count '"' % 2 = 0)
  (hds : ds.rows = [p.cloning name copy])

include hr hname hne hquotes hds

/-- The declaration of a clone is resolved to a reference, with the unit of the parameter. -/
theorem Rooted.resolve_cloning (maxLength : Nat) :
    ({ declaration := p.cloning name copy
       kind := p.kind
       scope := g.scope transientFile ds (Key.ofText copy)
       maxLength } : Resolution).resolve = .ok ⟨.reference (.named (.ofText name)), p.unit⟩ := by
  have hother : (p.cloning name copy).key ≠ Key.ofText name := ne_of_visible? hp hnew
  have habove : g.above? transientFile (Key.ofText copy) = none := by
    cases hq : g.above? transientFile (Key.ofText copy) with
    | none => rfl
    | some q =>
      obtain ⟨h, hh, -⟩ := exists_of_inherited (p := p.cloned name copy) hq
      obtain ⟨seen, hseen, -⟩ := (hr.whole.visible?_eq _).2 h q hh
      cases hnew.symm.trans hseen
  have hkind : (g.scope transientFile ds (Key.ofText copy)).kindOf (Key.ofText name) =
      some p.kind := by
    have hnone : ds.get? (Key.ofText name) = none := by
      rw [Declarations.get?, hds, rowOf?, List.find?_cons_of_neg (by simpa using hother)]
      rfl
    simp only [scope, hnone]
    exact congrArg (Option.map Parameter.kind) hp
  obtain ⟨u, hunit, hsome, hu⟩ := hr.exists_unit (hr.whole.home.stored_of_visible? hp)
  rw [hunit]
  refine Resolution.resolve_reference hname hne (Ne.symm hother) hkind hsome ?_
    (Parameter.ofValue_written hname hne hquotes hunit hu)
  intro u' hu'
  refine ⟨hu u' hu', fun category hcategory => ?_⟩
  simp only [scope, habove] at hcategory
  cases hcategory

theorem Rooted.draftOf_cloning (limits : Limits) :
    g.draftOf limits transientFile ⟨ds, [], []⟩ (p.cloning name copy) =
      .ok (p.cloned name copy) := by
  refine draftOf_eq_ok.mpr ⟨p.kind, ⟨.reference (.named (.ofText name)), p.unit⟩, rfl, ?_, rfl⟩
  simp only [planOf, Outline.featureAt?, List.reverse_nil, List.find?_nil]
  rw [show (p.cloning name copy).key = Key.ofText copy from rfl,
    hr.resolve_cloning hp hnew hname hne hquotes hds limits.vectorLength]
  rfl

/-- The declaration of a clone is committed as the clone. -/
theorem Rooted.exists_commit_cloned (hfree : (Key.ofText copy).featureBase? = none)
    (limits : Limits) :
    ∃ done, g.commit limits transientFile ds = .ok done ∧
      done.parameters = [p.cloned name copy] ∧ done.features = [] := by
  have hrows : ds.rows.mapM (g.draftOf limits transientFile ⟨ds, [], []⟩) =
      .ok [p.cloned name copy] := by
    rw [hds, List.mapM_cons, hr.draftOf_cloning hp hnew hname hne hquotes hds]
    rfl
  have hlengths : g.checkLengths transientFile [p.cloned name copy] (p.cloned name copy) =
      .ok () := by
    rw [checkLengths]
    cases (p.cloned name copy).kind.isVector <;> rfl
  have hdraft : g.draft limits transientFile ⟨ds, [], []⟩ = .ok [p.cloned name copy] :=
    draft_eq_ok_iff.mpr ⟨hrows, List.forall_mem_singleton.mpr (checkUnits_cloned hp hnew),
      List.forall_mem_singleton.mpr hlengths⟩
  refine ⟨_, commit_eq_ok.mpr ⟨_, _, hr.outline_of_new hds hfree hnew, ?_, rfl⟩, rfl, rfl⟩
  rw [hr.whole.linearize_eq]
  exact hdraft

end Commit

end Graph

/-! ## Reading a clone -/

/-- A clone is of the kind of the parameter and has its unit, so the same is expected of it. -/
theorem Expectation.admits_cloned {e : Expectation} {p : Parameter} {name copy : String} :
    e.Admits (p.cloned name copy) ↔ e.Admits p := by
  cases e <;> exact Iff.rfl

namespace Graph

variable {g : Graph} {p : Parameter} {name copy : String} {limits : Limits} {e : Expectation}
  {v : Value} {n : Nat}

/-- A reading gives the value of what is visible, if it is as expected; traces aside. -/
theorem fst_read_eq_ok : ((g.read limits name e).run []).1 = .ok v ↔
    ∃ p, g.visible? (Key.ofText name) = some p ∧ e.Admits p ∧
      ((g.valueOf limits p).run []).1 = .ok v := by
  constructor
  · intro hread
    obtain ⟨p, hp, hadmits, hvalue⟩ := read_eq_ok.mp (Prod.ext hread rfl)
    exact ⟨p, hp, hadmits, congrArg Prod.fst hvalue⟩
  · rintro ⟨p, hp, hadmits, hvalue⟩
    exact congrArg Prod.fst (read_eq_ok.mpr ⟨p, hp, hadmits, Prod.ext hvalue rfl⟩)

/-- A value is found again with more depth, whatever has been come by before. -/
theorem fst_evaluate_of_less (hhome : g.AtHome) (hp : g.Stored p) {limit m : Nat} {t : Trace}
    (hnm : n ≤ m) (hvalue : ((g.evaluate limit n p).run t).1 = .ok v) (limit' : Nat) (u : Trace) :
    ((g.evaluate limit' m p).run u).1 = .ok v := by
  rcases hrun : (g.evaluate limit n p).run t with ⟨result, t'⟩
  rw [hrun] at hvalue
  obtain rfl : result = .ok v := hvalue
  have hagain := (evaluate_mono hhome n n (Nat.le_refl n) p hp).same t v t' hrun
    (fun _ _ => trivial) u
  rcases evaluate_deepens g limit limit' hnm p u with hsame | ⟨m', hdeep⟩
  · rw [← hsame]
    exact hagain
  · rw [hdeep] at hagain
    cases hagain

/-- A parameter that refers to one of its kind has the value that the other has with one level of
depth less. -/
theorem fst_evaluate_of_reference {q : Parameter} {r : Ref} {limit m : Nat} {t : Trace}
    (hplan : p.plan = .reference r) (hq : g.target? p r = some q) (hkind : q.kind = p.kind)
    (hvalue : ((g.evaluate limit m q).run (t.visit p.slot)).1 = .ok v) :
    ((g.evaluate limit (m + 1) p).run t).1 = .ok v := by
  rcases hrun : (g.evaluate limit m q).run (t.visit p.slot) with ⟨result, t'⟩
  rw [hrun] at hvalue
  obtain rfl : result = .ok v := hvalue
  have hsame : v.kind = p.kind := (givesKinds_evaluate g limit m q _ v t' hrun).trans hkind
  have hrefers : (g.evalPlan (g.evaluate limit m) p).run (t.visit p.slot) = (.ok v, t') := by
    rw [evalPlan, hplan]
    show (g.evalRef _ p r).run _ = _
    rw [evalRef, target, hq]
    exact hrun
  rw [evaluate, evalWith, Traced.run_bind_ok (Traced.run_visit p.slot t),
    Traced.run_bind_ok hrefers, Value.coerce?, if_pos hsame]
  rfl

/-- With one level of depth to spare a clone has the value of the parameter: the level is spent
on the reference. -/
theorem fst_valueOf_cloned (hhome : g.AtHome) (hp : g.visible? (Key.ofText name) = some p)
    (hn : n < limits.evaluationDepth)
    (hvalue : ((g.valueOf { limits with evaluationDepth := n } p).run []).1 = .ok v) :
    ((g.valueOf limits (p.cloned name copy)).run []).1 = .ok v := by
  obtain ⟨m, hm⟩ := Nat.exists_eq_add_of_lt hn
  rw [valueOf, hm]
  refine fst_evaluate_of_reference (q := p) rfl hp rfl ?_
  exact fst_evaluate_of_less hhome (hhome.stored_of_visible? hp) (Nat.le_add_right n m) hvalue _ _

end Graph

/-! ## Graphs that gain a parameter -/

theorem TimeFeature.isBelow_of_mem_inputNames (f : TimeFeature) {name : String}
    (hname : name ∈ f.inputNames) : (Key.ofText name).isBelow f.key = true := by
  have hinput : ∀ ending, (Key.ofText (f.input ending)).isBelow f.key = true := by
    intro ending
    rw [f.key_input, Key.isBelow, Key.startsWith, List.isPrefixOf_iff_prefix]
    simp
  rw [inputNames] at hname
  split at hname
  · simp only [List.mem_cons, List.not_mem_nil, or_false] at hname
    rcases hname with rfl | rfl
    · exact hinput _
    · exact hinput _
  · simp only [List.mem_cons, List.not_mem_nil, or_false] at hname
    rcases hname with rfl | rfl | rfl
    · exact hinput _
    · exact hinput _
    · exact hinput _

namespace Graph

variable {g g' : Graph} {q : Parameter} {ds : Declarations} {limits : Limits} {done : Commit}

/-- What is stored answers to itself. -/
theorem rel_of_stored {o : Option Parameter} (ho : ∀ p, o = some p → g.Stored p) :
    Option.Rel (fun p p' => p' = p ∧ g.Stored p) o o := by
  cases o with
  | none => exact .none
  | some p => exact .some ⟨rfl, ho p rfl⟩

/-- `g'` is `g` with the parameter `q`, under a key that nothing was visible under. -/
structure Gains (g : Graph) (q : Parameter) (g' : Graph) : Prop where
  unseen : g.visible? q.key = none
  seen : g'.visible? q.key = some q
  others : ∀ k, k ≠ q.key → g'.visible? k = g.visible? k
  above : ∀ f k, g'.above? f k = g.above? f k
  features : g'.features = g.features
  clock : g'.clock = g.clock

theorem gains_commit (hg : g.Whole) (hc : g.commit limits transientFile ds = .ok done)
    (hone : done.parameters = [q]) (hnone : done.features = []) (hnew : g.visible? q.key = none) :
    g.Gains q done.graph := by
  have hover := overwritten_commit hg hc hone hnone
  exact
    { unseen := hnew
      seen := hover.visible?_key hg hc
      others := fun k hk => Overwritten.visible?_of_ne hg hc hone hk
      above := above?_commit hg hc
      features := hover.features
      clock := hover.clock }

namespace Gains

variable (h : g.Gains q g') (hr : g.Rooted)

include h

/-- What was visible is so still. -/
theorem visible?_eq {k : Key} {p : Parameter} (hp : g.visible? k = some p) :
    g'.visible? k = some p :=
  (h.others k (Ne.symm (ne_of_visible? hp h.unseen))).trans hp

include hr

/-- What was stored is evaluated as before: it names what was visible already, and what a time
feature has below its base is not new. -/
theorem parallel (hapart : ∀ f ∈ g.features, q.key.isBelow f.key = false) :
    Parallel Eq (fun p p' => p' = p ∧ g.Stored p) g g' where
  failure := fun _ => rfl
  same := by
    rintro p _ ⟨rfl, -⟩
    rfl
  target := by
    rintro _ p ⟨rfl, hp⟩ r hr'
    have htarget : g'.target? p r = g.target? p r := by
      cases r with
      | named name =>
        obtain ⟨seen, hseen⟩ := hr.exists_visible?_named hp hr'
        exact (h.visible?_eq hseen).trans hseen.symm
      | inherited => exact h.above p.file p.key
    rw [htarget]
    exact Or.inl (rel_of_stored fun _ => hr.whole.home.stored_of_target?)
  feature := by
    intro _ _ _ base _
    rw [feature?, feature?, h.features]
  input := by
    rintro p _ ⟨rfl, -⟩ base f - hf name hname
    have hbelow := f.isBelow_of_mem_inputNames hname
    have hne : Key.ofText name ≠ q.key := by
      intro hkey
      rw [hkey, hapart f (mem_of_rowOf? hf)] at hbelow
      cases hbelow
    rw [h.others _ hne]
    exact rel_of_stored fun _ => hr.whole.home.stored_of_visible?
  clock := h.clock

/-- Readings of the names that were visible give what they gave, failures included. -/
theorem fst_run_read (hapart : ∀ f ∈ g.features, q.key.isBelow f.key = false) (time : Float)
    (limits : Limits) {name : String} {p : Parameter} (hp : g.visible? (Key.ofText name) = some p)
    (e : Expectation) :
    ((({ g' with clock := time } : Graph).read limits name e).run []).1 =
      ((({ g with clock := time } : Graph).read limits name e).run []).1 := by
  have hname : Option.Rel (fun p p' => p' = p ∧ g.Stored p)
      (({ g with clock := time } : Graph).visible? (Key.ofText name))
      (({ g' with clock := time } : Graph).visible? (Key.ofText name)) := by
    rw [visible?_tick g', visible?_tick g, h.visible?_eq hp, hp]
    exact .some ⟨rfl, hr.whole.home.stored_of_visible? hp⟩
  exact (((h.parallel hr hapart).tick time).corresponds_read limits e hname).eq

end Gains

end Graph

/-! ## Sessions -/

namespace Session

variable {s s' : Session} {p : Parameter} {old new : String}

/-- The name is free for a parameter of kind `k`: nothing goes by it, a declaration of it is
accepted, and it neither describes a time feature nor lies below the base of one. -/
structure Free (s : Session) (k : Kind) (name : String) : Prop where
  unseen : s.find? name = none
  accepted : ∃ rawValue line ds d,
    ({} : Declarations).add (k.code ++ ":" ++ name) rawValue line = .ok (ds, some d)
  plain : (Key.ofText name).featureBase? = none
  apart : ∀ f ∈ s.graph.features, (Key.ofText name).isBelow f.key = false

/-- The session with another limit on the depth of references. -/
def withDepth (s : Session) (n : Nat) : Session :=
  { s with limits := { s.limits with evaluationDepth := n } }

/-- In `s'` the parameter `p`, which goes by `old` in `s`, has been cloned to `new`. -/
structure Cloned (s : Session) (p : Parameter) (old new : String) (s' : Session) : Prop where
  kind : s'.kindOf new = .ok p.kind
  unit : s'.unitOf new = .ok p.unit
  fixed : s'.isChangeable new = false
  /-- With a level of depth to spare both names read the same, at any time. -/
  value : ∀ n < s.limits.evaluationDepth, ∀ time consumer consumer' reading v,
    (((s'.withDepth n).atTime time).get consumer old reading).1 = .ok v →
      ((s'.atTime time).get consumer' old reading).1 = .ok v ∧
        ((s'.atTime time).get consumer' new reading).1 = .ok v
  /-- What was there already reads as before. -/
  kept : ∀ name, s.has name = true → s'.find? name = s.find? name ∧
    ∀ time consumer reading, ((s'.atTime time).get consumer name reading).1 =
      ((s.atTime time).get consumer name reading).1

/-- A reading that succeeds does so wherever the value is the same that it starts from. -/
theorem fst_get_eq_ok {consumer consumer' : Option String} {name name' : String}
    (hread : ∀ e v, (s.read consumer name e).1 = .ok v → (s'.read consumer' name' e).1 = .ok v)
    {reading : Reading} {v : Value} (h : (s.get consumer name reading).1 = .ok v) :
    (s'.get consumer' name' reading).1 = .ok v := by
  cases reading with
  | any => exact hread .any v h
  | ofKind k => exact hread (.ofKind k) v h
  | ofCategory k category => exact hread (.ofCategory k category) v h
  | inUnit unit =>
    simp only [get] at h ⊢
    cases hunit : MeasureUnit.ofSymbol? unit with
    | none =>
      rw [hunit] at h
      cases h
    | some u =>
      rw [hunit] at h
      obtain ⟨w, hw, rfl⟩ := map_eq_ok.mp h
      exact map_eq_ok.mpr ⟨w, hread _ w hw, rfl⟩
  | ofLength n category =>
    simp only [get] at h ⊢
    obtain ⟨w, hw, hlength⟩ := bind_eq_ok.mp h
    rw [hread _ w hw]
    show (if w.size = n then _ else _) = _
    split at hlength
    · next hsize =>
      rw [if_pos hsize]
      exact hlength
    · cases hlength

/-- The change that clones a parameter declares the clone. -/
theorem Free.declarations (h : s.Free p.kind new) (old : String) :
    Change.declarations ⟨p.kind.code ++ ":" ++ new, p.written old, false⟩ =
      .ok ({ rows := [p.cloning old new], redefinable := true }, p.cloning old new) := by
  obtain ⟨rawValue, line, ds, d, hadd⟩ := h.accepted
  rw [Declarations.add] at hadd
  split at hadd
  · cases hadd
  next hinclude =>
  split at hadd
  · next d' hdeclare =>
    obtain ⟨heading, hheading, -, -, -⟩ := Declarations.declare_eq_ok.mp hdeclare
    obtain rfl := Heading.ofText_code hheading
    exact declarations_eq_ok.mpr ⟨Bool.eq_false_iff.mpr hinclude,
      Declarations.declare_eq_ok.mpr ⟨_, hheading, rfl, rfl, rfl⟩, rfl⟩
  · cases hadd

theorem cloning_of_find? (hfind : s.find? old = some p) :
    s.cloning old new = .ok ⟨p.kind.code ++ ":" ++ new, p.written old, false⟩ := by
  rw [cloning, find, hfind]
  rfl

/-- Where the graph has gained the clone, both names read the same and nothing else has
changed. -/
theorem cloned_of_gains (hr : s.graph.Rooted) (hr' : s'.graph.Rooted)
    (hlimits : s'.limits = s.limits) (hfind : s.find? old = some p) (hfree : s.Free p.kind new)
    (h : s.graph.Gains (p.cloned old new) s'.graph) : s.Cloned p old new s' := by
  have hnew : s'.find? new = some (p.cloned old new) := h.seen
  have hold : s'.find? old = some p := h.visible?_eq hfind
  refine ⟨?_, ?_, ?_, ?_, ?_⟩
  · rw [kindOf, find, hnew]
    rfl
  · rw [unitOf, find, hnew]
    rfl
  · rw [isChangeable, hnew]
    rfl
  · intro n hn time consumer consumer' reading v hget
    have hdepth : n < s'.limits.evaluationDepth := hlimits ▸ hn
    have hhome := (hr'.tick time).whole.home
    have hold := (Graph.visible?_tick s'.graph time _).trans hold
    have hnew := (Graph.visible?_tick s'.graph time _).trans hnew
    refine ⟨fst_get_eq_ok (fun e w hread => ?_) hget, fst_get_eq_ok (fun e w hread => ?_) hget⟩
    all_goals
      rw [fst_read] at hread ⊢
      obtain ⟨q, hq, hadmits, hvalue⟩ := Graph.fst_read_eq_ok.mp hread
      cases hold.symm.trans hq
    · exact Graph.fst_read_eq_ok.mpr ⟨p, hold, hadmits, Graph.fst_evaluate_of_less hhome
        (hhome.stored_of_visible? hold) (Nat.le_of_lt hdepth) hvalue _ _⟩
    · exact Graph.fst_read_eq_ok.mpr ⟨_, hnew, Expectation.admits_cloned.mpr hadmits,
        Graph.fst_valueOf_cloned hhome hold hdepth hvalue⟩
  · intro name hhas
    obtain ⟨q, hq⟩ := Option.isSome_iff_exists.mp hhas
    refine ⟨(h.visible?_eq hq).trans hq.symm, fun time consumer reading => ?_⟩
    refine fst_get_of_fst_read (fun e => ?_) reading
    rw [fst_read, fst_read, atTime, atTime, hlimits]
    exact h.fst_run_read hr hfree.apart time s.limits hq e

/-- Cloning keeps the value.  Whatever has been done to a loaded session, let a parameter exist
whose name can be written as an operand and, if the parameter has a unit, closes its quotes, and
let another name be free.  Then the parameter can be cloned to that name.  The clone has its kind
and unit and is not changeable, with a level of depth to spare it reads the same, and nothing
else reads otherwise than before. -/
theorem clone_run {source : Source} {options : LoadOptions} {top : String}
    (hload : Session.load source options top = .ok s) (steps : List Step)
    (hfind : (s.run steps).find? old = some p) (hold : IsOperand old)
    (hquotes : p.unit.isSome = true → old.toList.count '"' % 2 = 0)
    (hnew : (s.run steps).Free p.kind new) :
    ∃ c s', (s.run steps).cloning old new = .ok c ∧
      (s.run steps).apply c true = (.ok (Name.ofText new), s') ∧
        (s.run steps).Cloned p old new s' := by
  have hr := rooted_run (rooted_load hload) steps
  have hne : old ≠ "" := by
    rintro rfl
    cases (find?_run_empty hload steps).symm.trans hfind
  have hc := hnew.declarations old
  obtain ⟨done, hdone, hone, hnone⟩ := hr.exists_commit_cloned hfind hnew.unseen hold hne hquotes
    (rows_of_declarations hc) hnew.plain (s.run steps).limits
  have hpermitted : (s.run steps).requireChangeable
      ⟨p.kind.code ++ ":" ++ new, p.written old, false⟩ (p.cloning old new) = .ok () := by
    have hunseen : (s.run steps).graph.visible? (p.cloning old new).key = none := hnew.unseen
    rw [requireChangeable, hunseen]
    simp
  have happly := (apply_eq_ok hr.whole).mpr
    (edit_eq_ok.mpr ⟨_, _, done, hc, hpermitted, hdone, rfl, rfl⟩)
  have hgains := Graph.gains_commit hr.whole hdone hone hnone hnew.unseen
  exact ⟨_, _, cloning_of_find? hfind, happly,
    cloned_of_gains hr (.edit hr (distinct_of_declarations hc) hdone) rfl hfind hnew hgains⟩

/-- The value of a time feature is cloned, by a name in another case than it is stored in. -/
theorem clone_run_ramp :
    ∃ s p c s' v, Session.load still { withDefaults := false } "top" = .ok s ∧
      (s.run rampEdits).find? "TF/Ramp/value" = some p ∧ IsOperand "TF/Ramp/value" ∧
      (p.unit.isSome = true ∧ "TF/Ramp/value".toList.count '"' % 2 = 0) ∧
      (s.run rampEdits).Free p.kind "Ge/Shift" ∧
      (s.run rampEdits).cloning "TF/Ramp/value" "Ge/Shift" = .ok c ∧
      (s.run rampEdits).apply c true = (.ok (Name.ofText "Ge/Shift"), s') ∧
      (s.run rampEdits).Cloned p "TF/Ramp/value" "Ge/Shift" s' ∧
      ((s'.withDepth 2).get none "TF/Ramp/value" .any).1 = .ok v ∧
      (s'.get none "Ge/Shift" .any).1 = .ok v := by
  have hok : (Session.load still { withDefaults := false } "top").toOption.any fun s =>
      let u := s.run rampEdits
      (u.find? "TF/Ramp/value").any fun p =>
        decide (p.kind = .one .dimensioned) && p.unit.isSome && (u.find? "Ge/Shift").isNone &&
          u.graph.features.all (fun f => !(Key.ofText "Ge/Shift").isBelow f.key) &&
          decide (2 < u.limits.evaluationDepth) &&
          (u.cloning "TF/Ramp/value" "Ge/Shift").toOption.any fun c =>
            (((u.apply c true).2.withDepth 2).get none "TF/Ramp/value" .any).1.toOption.isSome := by
    decide +kernel
  obtain ⟨s, hs, hok⟩ := (Option.any_eq_true _ _).mp hok
  have hload := toOption_eq_some.mp hs
  obtain ⟨p, hp, hok⟩ := (Option.any_eq_true _ _).mp hok
  simp only [Bool.and_eq_true, decide_eq_true_eq, List.all_eq_true, Bool.not_eq_true',
    Option.isNone_iff_eq_none] at hok
  obtain ⟨⟨⟨⟨⟨hkind, hunit⟩, hunseen⟩, hapart⟩, hdepth⟩, hgives⟩ := hok
  have hold : IsOperand "TF/Ramp/value" := by
    refine ⟨List.all_iff_forall_prop.mp ?_, ?_, ?_, ?_⟩ <;> decide +kernel
  have hnew : (s.run rampEdits).Free p.kind "Ge/Shift" :=
    ⟨hunseen, ⟨"", 0, _, _, by rw [hkind]; rfl⟩, by decide, hapart⟩
  obtain ⟨c, s', hc, happly, hcloned⟩ :=
    clone_run hload rampEdits hp hold (fun _ => by decide) hnew
  obtain ⟨c', hc', hgives⟩ := (Option.any_eq_true _ _).mp hgives
  cases hc.symm.trans (toOption_eq_some.mp hc')
  rw [happly] at hgives
  obtain ⟨v, hv⟩ := Option.isSome_iff_exists.mp hgives
  have hread := toOption_eq_some.mp hv
  exact ⟨s, p, c, s', v, hload, hp, hold, ⟨hunit, by decide⟩, hnew, hc, happly, hcloned, hread,
    (hcloned.value 2 hdepth s'.graph.clock none none .any v hread).2⟩

/-- An edit that adds a length with a quote in its name. -/
def openEdits : List Step :=
  [.change ⟨"d:a\"b", "1 mm", true⟩]

/-- A length is not cloned if a quote stays open in its name: the unit behind the name is taken
for more of the name. -/
theorem not_clone_open :
    ∃ s p c, Session.load still { withDefaults := false } "top" = .ok s ∧
      (s.run openEdits).find? "a\"b" = some p ∧ IsOperand "a\"b" ∧
      (s.run openEdits).Free p.kind "B" ∧ (s.run openEdits).cloning "a\"b" "B" = .ok c ∧
      ∀ n s', (s.run openEdits).apply c true ≠ (.ok n, s') := by
  have hok : (Session.load still { withDefaults := false } "top").toOption.any fun s =>
      let u := s.run openEdits
      (u.find? "a\"b").any fun p =>
        decide (p.kind = .one .dimensioned) && (u.find? "B").isNone && u.graph.features.isEmpty &&
          (u.cloning "a\"b" "B").toOption.any fun c => !(u.apply c true).1.toOption.isSome := by
    decide +kernel
  obtain ⟨s, hs, hok⟩ := (Option.any_eq_true _ _).mp hok
  obtain ⟨p, hp, hok⟩ := (Option.any_eq_true _ _).mp hok
  simp only [Bool.and_eq_true, decide_eq_true_eq, Option.isNone_iff_eq_none,
    List.isEmpty_iff] at hok
  obtain ⟨⟨⟨hkind, hunseen⟩, hnone⟩, hfails⟩ := hok
  obtain ⟨c, hc, hfails⟩ := (Option.any_eq_true _ _).mp hfails
  refine ⟨s, p, c, toOption_eq_some.mp hs, hp, ?_, ?_, toOption_eq_some.mp hc, ?_⟩
  · refine ⟨List.all_iff_forall_prop.mp ?_, ?_, ?_, ?_⟩ <;> decide +kernel
  · refine ⟨hunseen, ⟨"", 0, _, _, by rw [hkind]; rfl⟩, by decide, ?_⟩
    rw [hnone]
    exact fun f hf => absurd hf List.not_mem_nil
  · intro n s' happly
    rw [happly] at hfails
    cases hfails

end Session

end ParameterChain
