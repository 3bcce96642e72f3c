/-
# The history of edits mirrors the transient file

A session keeps what it was asked to declare, name and value as they were written, beside the
transient file, which holds what these declarations were resolved to.  Both are tables in which
a later row takes the place of an earlier one with the same key, and both are written only by
an edit that succeeds.  So, whatever is called in between and however it ends, they hold the
same keys in the same order with the same raw values (`Session.Mirrored`), as long as no edit
declares a time feature, which would bring a second parameter with it.

The calls of a run leave a *history*, the edits that were made, the first one first
(`Session.history`).  What a session keeps is the latest edit of each key, in the order in which
the keys were first edited.

Main statement: `Session.edits_after`.
-/
import Mathlib.Data.List.Induction
import ParameterChain.Proofs.DeclarationOrder
import ParameterChain.Proofs.Overwritten

namespace ParameterChain

/-! ## Rows put one after the other -/

section Keyed

variable {α β κ : Type} [DecidableEq κ] {key : α → κ}

/-- A table into which rows are put one after the other has their keys in the order in which
they come first. -/
theorem keys_foldl_put (key : α → κ) (xs : List α) :
    (xs.foldl (fun rows x => put key x rows) []).map key = (xs.map key).eraseDups := by
  induction xs using List.reverseRecOn with
  | nil => rfl
  | append_singleton xs x ih =>
    rw [List.foldl_append, List.foldl_cons, List.foldl_nil, keys_put, ih, List.map_append,
      List.eraseDups_append]
    by_cases hx : key x ∈ xs.map key
    · have hnone : [key x].removeAll (xs.map key) = [] := by
        simp [List.removeAll, List.mem_map.mp hx]
      rw [if_pos (List.mem_eraseDups.mpr hx), List.map_singleton, hnone, List.eraseDups_nil,
        List.append_nil]
    · have hone : [key x].removeAll (xs.map key) = [key x] := by
        simp [List.removeAll, mt List.mem_map.mpr hx]
      rw [if_neg (mt List.mem_eraseDups.mp hx), List.map_singleton, hone]
      rfl

/-- Under each key stands the row that came last. -/
theorem rowOf?_foldl_put (k : κ) (xs rows : List α) :
    rowOf? key k (xs.foldl (fun rows x => put key x rows) rows) =
      (rowOf? key k xs.reverse).or (rowOf? key k rows) := by
  induction xs generalizing rows with
  | nil => rfl
  | cons x xs ih =>
    have happend : rowOf? key k (x :: xs).reverse =
        (rowOf? key k xs.reverse).or (rowOf? key k [x]) := by
      rw [List.reverse_cons, rowOf?, List.find?_append]
      rfl
    rw [List.foldl_cons, ih, rowOf?_put, happend, Option.or_assoc]
    by_cases hx : key x = k
    · simp [rowOf?, hx]
    · simp [rowOf?, hx]

theorem nodup_keys_foldl_put (xs : List α) :
    ((xs.foldl (fun rows x => put key x rows) []).map key).Nodup := by
  induction xs using List.reverseRecOn with
  | nil => exact List.nodup_nil
  | append_singleton xs x ih =>
    rw [List.foldl_append]
    exact nodup_keys_put key x ih

/-- What keeps keys commutes with putting a row. -/
theorem map_put (key' : β → κ) {f : α → β} (hf : ∀ x, key' (f x) = key x) (x : α)
    (rows : List α) : (put key x rows).map f = put key' (f x) (rows.map f) := by
  induction rows with
  | nil => rfl
  | cons y rows ih =>
    simp only [put, List.map_cons, hf]
    split
    · rfl
    · rw [List.map_cons, ih]

end Keyed

/-! ## A commit of one declaration -/

namespace Graph

variable {g : Graph} {ds : Declarations} {d : Declaration} {limits : Limits} {done : Commit}
  {p : Parameter}

/-- A declaration that is none of a time feature is committed as one parameter. -/
theorem exists_parameter_of_commit (hds : ds.rows = [d])
    (hfree : d.key.featureBase? = none) (hc : g.commit limits transientFile ds = .ok done) :
    ∃ p, done.parameters = [p] ∧ p.key = d.key ∧ p.rawValue = d.rawValue := by
  obtain ⟨o, drafts, ho, hdraft, rfl⟩ := commit_eq_ok.mp hc
  have hrows : ∀ d' ∈ ds.rows, d'.key.featureBase? = none := by
    rw [hds]
    exact List.forall_mem_singleton.mpr hfree
  obtain ⟨-, hinherits⟩ := outline_eq_ok_of_featureless hrows ho
  rw [hds, List.forall₂_cons_left_iff] at hinherits
  obtain ⟨d', rest, hinherits, hrest, hone⟩ := hinherits
  obtain rfl := List.forall₂_nil_left_iff.mp hrest
  obtain ⟨p, hp, rfl⟩ := draft_of_single hone hdraft
  obtain ⟨kind, resolved, -, -, rfl⟩ := draftOf_eq_ok.mp hp
  exact ⟨_, rfl, hinherits.key, hinherits.rawValue⟩

/-- It takes its place in the table of the transient file. -/
theorem parametersOf_commit (hg : g.Whole) (hc : g.commit limits transientFile ds = .ok done)
    (hone : done.parameters = [p]) :
    done.graph.parametersOf transientFile =
      put Parameter.key p (g.parametersOf transientFile) := by
  have hfile : p.file = transientFile := file_of_commit hc (hone ▸ List.mem_singleton_self p)
  obtain ⟨o, drafts, -, -, rfl⟩ := commit_eq_ok.mp hc
  obtain rfl : drafts = [p] := hone
  rw [hg.linearize_eq, parametersOf, files_storeAll]
  simp only [List.foldl_cons, List.foldl_nil, parametersOf, store, Array.getElem?_modify, hfile,
    if_true, Array.getElem?_eq_getElem hg.ordered.transientFile_lt_size, Option.map_some]

end Graph

/-! ## Calls -/

/-- What a session is asked to do: to make an edit or only to try it, to give a parameter
another name, or, in between, to read or to move its clock. -/
inductive Session.Call where
  | apply (c : Change) (keeps : Bool)
  | clone (name copy : String)
  | read (consumer : Option String) (name : String) (e : Expectation)
  | moveClock (t : Float)

/-- The edit that a change is when it declares the name `n`. -/
def Change.edit (c : Change) (n : Name) : Edit :=
  ⟨n.key, c.name, c.rawValue⟩

namespace Session

variable {s s₀ : Session} {c : Change} {ds : Declarations} {d : Declaration} {e : Edit}

/-- The edit that is made when `c` is applied. -/
def applied? (s : Session) (c : Change) : Option Edit :=
  (s.apply c true).1.toOption.map c.edit

/-- The edit that a call makes, if it makes one. -/
def made? (s : Session) : Call → Option Edit
  | .apply c true => s.applied? c
  | .clone name copy => (s.cloning name copy).toOption.bind s.applied?
  | .apply _ false | .read .. | .moveClock _ => none

/-- The session as a call leaves it, whether it succeeds or not. -/
def perform (s : Session) : Call → Session
  | .apply c keeps => (s.apply c keeps).2
  | .clone name copy =>
      match s.cloning name copy with
      | .ok c => (s.apply c true).2
      | .error _ => s
  | .read consumer name e => (s.read consumer name e).2
  | .moveClock t => (s.moveClock t).2

/-- The session after some calls. -/
def after (s : Session) (calls : List Call) : Session :=
  calls.foldl perform s

/-- The edits that some calls make, the first one first. -/
def history (s : Session) : List Call → List Edit
  | [] => []
  | call :: calls => (s.made? call).toList ++ (s.perform call).history calls

/-- The declaration of a change has its raw value. -/
theorem rawValue_of_declarations (hc : c.declarations = .ok (ds, d)) : d.rawValue = c.rawValue := by
  simp only [Change.declarations, locate_eq_ok, bind_eq_ok, Prod.exists] at hc
  obtain ⟨ds', added, hadd, hc⟩ := hc
  rw [Declarations.add] at hadd
  split at hadd
  · cases hadd
    cases hc
  split at hadd
  · next declared hdeclare =>
    cases hadd
    cases pure_eq_ok.mp hc
    obtain ⟨heading, -, -, -, rfl⟩ := Declarations.declare_eq_ok.mp hdeclare
    rfl
  · cases hadd

/-- An edit that is applied fails and leaves the session as it was, or commits its
declaration to the transient file. -/
theorem apply_cases (hg : s.graph.Whole) (c : Change) :
    (s.applied? c = none ∧ (s.apply c true).2 = s) ∨
    ∃ ds d done, c.declarations = .ok (ds, d) ∧
      s.graph.commit s.limits transientFile ds = .ok done ∧
      s.applied? c = some (c.edit d.name) ∧ (s.apply c true).2 = s.committed c d done := by
  rw [applied?, apply_of_whole hg]
  cases hedit : s.edit c with
  | error e => exact Or.inl ⟨rfl, rfl⟩
  | ok made =>
    obtain ⟨s', n⟩ := made
    obtain ⟨ds, d, done, hc, -, hdone, rfl, rfl⟩ := edit_eq_ok.mp hedit
    exact Or.inr ⟨ds, d, done, hc, hdone, rfl, rfl⟩

/-- A call makes no edit and changes neither the edits nor the graph, but for its clock, or it
commits the declaration of a change to the transient file and keeps the edit that it is. -/
theorem perform_cases (hg : s.graph.Whole) (call : Call) :
    (s.made? call = none ∧ (s.perform call).edits = s.edits ∧
      ∃ t, (s.perform call).graph = { s.graph with clock := t }) ∨
    ∃ c ds d done, c.declarations = .ok (ds, d) ∧
      s.graph.commit s.limits transientFile ds = .ok done ∧
      s.made? call = some (c.edit d.name) ∧ s.perform call = s.committed c d done := by
  cases call with
  | apply c keeps =>
    cases keeps with
    | false =>
      have hsame := (apply_false s c).2
      exact Or.inl ⟨rfl, congrArg edits hsame, s.graph.clock, congrArg graph hsame⟩
    | true =>
      rcases apply_cases hg c with ⟨hnone, hsame⟩ | ⟨ds, d, done, hmade⟩
      · exact Or.inl ⟨hnone, congrArg edits hsame, s.graph.clock, congrArg graph hsame⟩
      · exact Or.inr ⟨c, ds, d, done, hmade⟩
  | clone name copy =>
    rw [made?, perform]
    cases s.cloning name copy with
    | error e => exact Or.inl ⟨rfl, rfl, s.graph.clock, rfl⟩
    | ok c =>
      rcases apply_cases hg c with ⟨hnone, hsame⟩ | ⟨ds, d, done, hmade⟩
      · exact Or.inl ⟨hnone, congrArg edits hsame, s.graph.clock, congrArg graph hsame⟩
      · exact Or.inr ⟨c, ds, d, done, hmade⟩
  | read consumer name e =>
    obtain ⟨used, xs, hread⟩ := exists_read s consumer name e
    refine Or.inl ⟨rfl, ?_, s.graph.clock, graph_read s consumer name e⟩
    rw [perform, hread]
  | moveClock t =>
    obtain ⟨used, seen, hmove⟩ :=
      exists_observe { s with graph := { s.graph with clock := t } } s.graph.sortedFeatures
    refine Or.inl ⟨rfl, ?_, t, graph_moveClock s t⟩
    rw [perform, moveClock, hmove]

/-- What is kept of the edits after a call. -/
theorem edits_perform (hg : s.graph.Whole) (call : Call) :
    (s.perform call).edits =
      (s.made? call).toList.foldl (fun rows e => put Edit.key e rows) s.edits := by
  rcases perform_cases hg call with ⟨hnone, hsame, -⟩ | ⟨c, ds, d, done, -, -, hmade, hafter⟩
  · rw [hnone, hsame]
    rfl
  · rw [hmade, hafter]
    rfl

/-! ## Mirrored sessions -/

/-- The session `s`, which came of `s₀`, keeps the same of its edits twice: in the transient file
and in their list.  The files behind the transient file are those of `s₀`. -/
structure Mirrored (s₀ s : Session) : Prop where
  rooted : s.graph.Rooted
  table : (s.graph.parametersOf transientFile).map (fun p => (p.key, p.rawValue)) =
    s.edits.map fun e => (e.key, e.rawValue)
  chain : s.graph.chain transientFile = s₀.graph.chain transientFile
  names : ∀ f, s.graph.nameOf f = s₀.graph.nameOf f
  declared : ∀ f k, f ≠ transientFile → s.graph.declared? f k = s₀.graph.declared? f k

namespace Mirrored

/-- Both tables have the same raw value under every key. -/
theorem rawValue_eq (h : s₀.Mirrored s) (k : Key) :
    (s.graph.declared? transientFile k).map Parameter.rawValue =
      (rowOf? Edit.key k s.edits).map Edit.rawValue := by
  have hrow := congrArg (fun rows => (rowOf? Prod.fst k rows).map Prod.snd) h.table
  simp only [rowOf?, List.find?_map, Option.map_map] at hrow
  exact hrow

theorem committed (h : s₀.Mirrored s) {done : Commit} (hc : c.declarations = .ok (ds, d))
    (hdone : s.graph.commit s.limits transientFile ds = .ok done)
    (hfree : d.key.featureBase? = none) : s₀.Mirrored (s.committed c d done) where
  rooted := .edit h.rooted (distinct_of_declarations hc) hdone
  table := by
    obtain ⟨p, hone, hkey, hraw⟩ :=
      Graph.exists_parameter_of_commit (rows_of_declarations hc) hfree hdone
    have hpair : (p.key, p.rawValue) = (d.key, c.rawValue) := by
      rw [hkey, hraw, rawValue_of_declarations hc]
    show (done.graph.parametersOf transientFile).map _ = _
    rw [Graph.parametersOf_commit h.rooted.whole hdone hone, Session.committed,
      map_put Prod.fst fun _ => rfl, map_put Prod.fst fun _ => rfl, h.table, hpair]
  chain := (Graph.chain_commit h.rooted.whole hdone transientFile).trans h.chain
  names := fun f => (Graph.nameOf_commit hdone f).trans (h.names f)
  declared := fun f k hf => (Graph.declared?_commit_of_ne hdone hf).trans (h.declared f k hf)

/-- A call keeps the session mirrored, unless it edits a time feature. -/
theorem perform (h : s₀.Mirrored s) {call : Call}
    (hfree : ∀ e ∈ s.made? call, e.key.featureBase? = none) : s₀.Mirrored (s.perform call) := by
  rcases perform_cases h.rooted.whole call with
    ⟨-, hedits, t, hgraph⟩ | ⟨c, ds, d, done, hc, hdone, hmade, hafter⟩
  · have hchain : ({ s.graph with clock := t } : Graph).chain transientFile =
        s.graph.chain transientFile := by
      refine Graph.chain_congr ?_ ?_ transientFile
      · rfl
      · exact fun f => rfl
    refine ⟨?_, ?_, ?_, ?_, ?_⟩ <;> rw [hgraph]
    · exact .tick t h.rooted
    · rw [hedits]
      exact h.table
    · exact hchain.trans h.chain
    · exact h.names
    · exact h.declared
  · rw [hafter]
    exact h.committed hc hdone (hfree _ (Option.mem_def.mpr hmade))

/-- The chain shows of a key what it showed in `s₀`, and in front of it the edit. -/
theorem valuesInChain_eq (h : s₀.Mirrored s) (hg : s₀.graph.Whole)
    (hempty : ∀ k, s₀.graph.declared? transientFile k = none) (k : Key) :
    s.valuesInChain k =
      ((rowOf? Edit.key k s.edits).map fun e => (transientName, e.rawValue)).toList ++
        s₀.valuesInChain k := by
  obtain ⟨rest, hchain, hnot⟩ := hg.exists_chain
  have hbehind : rest.filterMap (fun f => (s.graph.declared? f k).map fun p =>
        (s.graph.nameOf f, p.rawValue)) =
      rest.filterMap fun f => (s₀.graph.declared? f k).map fun p =>
        (s₀.graph.nameOf f, p.rawValue) := by
    refine List.filterMap_congr fun f hf => ?_
    rw [h.names, h.declared f k]
    rintro rfl
    exact hnot hf
  have hfront : (s.graph.declared? transientFile k).map (fun p =>
        (s.graph.nameOf transientFile, p.rawValue)) =
      (rowOf? Edit.key k s.edits).map fun e => (transientName, e.rawValue) := by
    have hraw := congrArg (Option.map (Prod.mk transientName)) (h.rawValue_eq k)
    rw [Option.map_map, Option.map_map] at hraw
    rw [h.rooted.nameOf_transientFile]
    exact hraw
  rw [valuesInChain, valuesInChain, h.chain, hchain, List.filterMap_cons, List.filterMap_cons,
    hempty, hbehind, hfront]
  cases rowOf? Edit.key k s.edits with
  | none => rfl
  | some e => rfl

end Mirrored

/-! ## Runs -/

/-- Calls keep a session mirrored, and its list of edits grows by their history. -/
theorem Mirrored.after (h : s₀.Mirrored s) {calls : List Call}
    (hfree : ∀ e ∈ s.history calls, e.key.featureBase? = none) :
    s₀.Mirrored (s.after calls) ∧ (s.after calls).edits =
      (s.history calls).foldl (fun rows e => put Edit.key e rows) s.edits := by
  induction calls generalizing s with
  | nil => exact ⟨h, rfl⟩
  | cons call calls ih =>
    obtain ⟨hmade, hrest⟩ := List.forall_mem_append.mp hfree
    have hnext : s₀.Mirrored (s.perform call) :=
      h.perform fun e he => hmade e (Option.mem_toList.mpr he)
    obtain ⟨hafter, hedits⟩ := ih hnext hrest
    refine ⟨hafter, ?_⟩
    rw [history, List.foldl_append, ← edits_perform h.rooted.whole]
    exact hedits

/-- A session is mirrored when it has been loaded, its transient file being empty. -/
theorem mirrored_load {source : Source} {options : LoadOptions} {top : String}
    (hload : Session.load source options top = .ok s) :
    s.Mirrored s ∧ (∀ k, s.graph.declared? transientFile k = none) ∧ s.edits = [] := by
  have hrooted := rooted_load hload
  obtain ⟨g, hg, rfl⟩ := load_eq_ok.mp hload
  obtain ⟨t, htop⟩ := topFile_of_load hg
  have hempty := (Graph.unedited_of_load hg htop).empty
  have hnil : g.parametersOf transientFile = [] := by
    refine List.eq_nil_iff_forall_not_mem.mpr fun p hp => ?_
    have hp := hrooted.tabled.declared? hp
    rw [hempty] at hp
    cases hp
  refine ⟨⟨hrooted, ?_, rfl, fun _ => rfl, fun _ _ _ => rfl⟩, hempty, rfl⟩
  show (g.parametersOf transientFile).map _ = _
  rw [hnil]
  rfl

/-- The list of edits mirrors the transient file.  Let any calls be made on a session that was
just loaded, whether they succeed or fail, make edits or only try them, and let none of the
edits that are made be one of a time feature.  Then

  * the session keeps one edit of each key that was edited, in the order of first success;
  * it is the latest edit of that key, name and raw value as they were written;
  * the transient file holds one parameter for each of these edits, with its key and raw value,
    in the same order, and no other;
  * the chain shows of every key what it showed after the load, and in front of that, under the
    name of the transient file, the raw value of the edit, if there is one. -/
theorem edits_after {source : Source} {options : LoadOptions} {top : String}
    (hload : Session.load source options top = .ok s) (calls : List Call)
    (hfree : ∀ e ∈ s.history calls, e.key.featureBase? = none) :
    ((s.after calls).edits.map Edit.key = ((s.history calls).map Edit.key).eraseDups ∧
      ((s.after calls).edits.map Edit.key).Nodup ∧
      ∀ e ∈ (s.after calls).edits, rowOf? Edit.key e.key (s.history calls).reverse = some e) ∧
    ((s.after calls).graph.parametersOf transientFile).map (fun p => (p.key, p.rawValue)) =
      (s.after calls).edits.map (fun e => (e.key, e.rawValue)) ∧
    ∀ k, (s.after calls).valuesInChain k =
      ((rowOf? Edit.key k (s.after calls).edits).map fun e => (transientName, e.rawValue)).toList ++
        s.valuesInChain k := by
  obtain ⟨hmirrored, hempty, hnone⟩ := mirrored_load hload
  obtain ⟨hafter, hedits⟩ := hmirrored.after hfree
  rw [hnone] at hedits
  have hnodup : ((s.after calls).edits.map Edit.key).Nodup := hedits ▸ nodup_keys_foldl_put _
  refine ⟨⟨?_, hnodup, ?_⟩, hafter.table, ?_⟩
  · rw [hedits]
    exact keys_foldl_put Edit.key (s.history calls)
  · intro e he
    have hrow := rowOf?_key hnodup he
    rw [hedits, rowOf?_foldl_put] at hrow
    simpa [rowOf?] using hrow
  · exact hafter.valuesInChain_eq hmirrored.rooted.whole hempty

/-! ### Calls that end in every way -/

/-- Edits of the shared name under several spellings, one of them refused for its marker and one
only tried, a new name, and two clonings, of which the second finds nothing to clone. -/
def mixedCalls : List Call :=
  [.apply ⟨"X", "7", true⟩ true, .apply ⟨"u:Y", "X", false⟩ true,
    .apply ⟨"uc:x", "9", true⟩ true, .apply ⟨"x", "8", true⟩ false, .clone "x" "Z",
    .read (some "C") "Z" .any, .apply ⟨"u:x", "9", true⟩ true, .clone "W" "V"]

theorem edits_after_mixedCalls :
    ∃ s, Session.load sharedArms { withDefaults := false } "top" = .ok s ∧
      let s' := s.after mixedCalls
      s.history mixedCalls =
        [⟨⟨"x"⟩, "X", "7"⟩, ⟨⟨"y"⟩, "u:Y", "X"⟩, ⟨⟨"z"⟩, "u:Z", "x"⟩, ⟨⟨"x"⟩, "u:x", "9"⟩] ∧
      s'.edits = [⟨⟨"x"⟩, "u:x", "9"⟩, ⟨⟨"y"⟩, "u:Y", "X"⟩, ⟨⟨"z"⟩, "u:Z", "x"⟩] ∧
      s'.edits.map Edit.key = ((s.history mixedCalls).map Edit.key).eraseDups ∧
      (s'.graph.parametersOf transientFile).map (fun p => (p.key, p.rawValue)) =
        [(⟨"x"⟩, "9"), (⟨"y"⟩, "X"), (⟨"z"⟩, "x")] ∧
      s'.valuesInChain ⟨"x"⟩ = (transientName, "9") :: s.valuesInChain ⟨"x"⟩ := by
  have hok : (Session.load sharedArms { withDefaults := false } "top").toOption.any fun s =>
      decide (s.history mixedCalls =
        [⟨⟨"x"⟩, "X", "7"⟩, ⟨⟨"y"⟩, "u:Y", "X"⟩, ⟨⟨"z"⟩, "u:Z", "x"⟩, ⟨⟨"x"⟩, "u:x", "9"⟩]) &&
      decide ((s.after mixedCalls).edits =
        [⟨⟨"x"⟩, "u:x", "9"⟩, ⟨⟨"y"⟩, "u:Y", "X"⟩, ⟨⟨"z"⟩, "u:Z", "x"⟩]) := by
    decide +kernel
  obtain ⟨s, hs, hok⟩ := (Option.any_eq_true _ _).mp hok
  have hload := toOption_eq_some.mp hs
  simp only [Bool.and_eq_true, decide_eq_true_eq] at hok
  obtain ⟨hhistory, hedits⟩ := hok
  have hfree : ∀ e ∈ s.history mixedCalls, e.key.featureBase? = none := by
    rw [hhistory]
    decide
  obtain ⟨⟨hkeys, -, -⟩, htable, hchain⟩ := edits_after hload mixedCalls hfree
  have hshown := hchain ⟨"x"⟩
  rw [hedits] at htable hshown
  exact ⟨s, hload, hhistory, hedits, hkeys, htable, hshown⟩

end Session

end ParameterChain
