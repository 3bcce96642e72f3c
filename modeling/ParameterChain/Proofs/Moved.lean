/-
# Files in other places

What is read does not depend on the places that files have in a graph, as long as the
chains of parents lead through the same files in the same order.  When `move` says where
the files of one graph are in another, a parameter of the first is found in the second
with its file moved (`Mirrors`), and from there on every step of an evaluation does the
same in both, failures included: such graphs are parallel (`Reenacts.parallel`), for the
places of files are seen in the trace only, and no result depends on the trace.

Main statement: `Reenacts.fst_run_read`.
-/
import ParameterChain.Graph.Commit
import ParameterChain.Proofs.Built
import ParameterChain.Proofs.Matching
import ParameterChain.Session

namespace ParameterChain

/-! ## Maps over lists -/

theorem mapM_eq_map {α β γ : Type} {u : α → Attempt β} {u' : α → Attempt γ} {r : β → γ}
    (h : ∀ x, u' x = (u x).map r) (xs : List α) : xs.mapM u' = (xs.mapM u).map (List.map r) := by
  induction xs with
  | nil => rfl
  | cons x xs ih =>
    rw [List.mapM_cons, List.mapM_cons, h, ih]
    cases u x with
    | error e => rfl
    | ok y =>
      show ((xs.mapM u).map _ >>= _) = (_ : Attempt _).map _
      cases xs.mapM u <;> rfl

theorem forM_map_eq {α β : Type} {r : α → β} {u : α → Attempt Unit} {u' : β → Attempt Unit}
    {xs : List α} (h : ∀ x ∈ xs, u' (r x) = u x) : (xs.map r).forM u' = xs.forM u := by
  induction xs with
  | nil => rfl
  | cons x xs ih =>
    obtain ⟨hx, hxs⟩ := List.forall_mem_cons.mp h
    show (u' (r x) >>= fun _ => (xs.map r).forM u') = (u x >>= fun _ => xs.forM u)
    rw [hx, ih hxs]

/-! ## Moved parameters -/

/-- The parameter when every file `f` has become `move f`. -/
def Parameter.moved (move : FileId → FileId) (p : Parameter) : Parameter :=
  { p with file := move p.file }

namespace Graph

variable {g g' : Graph} {move : FileId → FileId} {f : FileId} {k : Key} {order : List FileId}

/-- What is found in `g` from a file up the parents is found in `g'` where `move` puts the
file, and is moved itself. -/
structure Mirrors (move : FileId → FileId) (g g' : Graph) : Prop where
  home : g.AtHome
  found : ∀ f < g.files.size, ∀ k,
    g'.find? (move f) k = (g.find? f k).map (Parameter.moved move)
  above : ∀ f < g.files.size, ∀ k,
    g'.above? (move f) k = (g.above? f k).map (Parameter.moved move)

/-! ## Mirrored chains -/

/-- From a file of an order along which a graph is linked, the look-up goes through the
rest of the order, and above the file through what comes after it. -/
theorem Linked.look_up (before : List FileId) {rest : List FileId}
    (hlinked : g.Linked (before ++ f :: rest))
    (hnodup : (before ++ f :: rest).Nodup)
    (hlength : (before ++ f :: rest).length ≤ g.files.size) (k : Key) :
    g.find? f k = (f :: rest).findSome? (g.declared? · k) ∧
      g.above? f k = rest.findSome? (g.declared? · k) := by
  induction before with
  | cons b before ih =>
    rw [List.cons_append] at hlinked hnodup hlength
    refine ih (hlinked.tail hnodup) (List.nodup_cons.mp hnodup).2 ?_
    exact Nat.le_of_succ_le hlength
  | nil =>
    rw [List.nil_append] at hlinked hnodup hlength
    refine ⟨?_, ?_⟩
    · rw [find?, chain, parentsFrom_of_linked hnodup hlinked hlength]
    · rw [above?, hlinked f List.mem_cons_self]
      cases rest with
      | nil => rfl
      | cons a rest =>
        rw [after?, if_pos rfl, Option.bind_some, find?, chain,
          parentsFrom_of_linked (List.nodup_cons.mp hnodup).2 (hlinked.tail hnodup)]
        exact Nat.le_of_succ_le hlength

/-- Graphs that are linked along the same files in the same order, up to `move`, and that
declare the same there, mirror each other. -/
theorem mirrors_of_linked (before : List FileId) (hhome : g.AtHome)
    (hcovers : ∀ f < g.files.size, f ∈ order)
    (hnodup : order.Nodup) (hlength : order.length ≤ g.files.size) (hlinked : g.Linked order)
    (hnodup' : (before ++ order.map move).Nodup)
    (hlength' : (before ++ order.map move).length ≤ g'.files.size)
    (hlinked' : g'.Linked (before ++ order.map move))
    (hdeclared : ∀ f ∈ order, ∀ k,
      g'.declared? (move f) k = (g.declared? f k).map (Parameter.moved move)) :
    g.Mirrors move g' := by
  have hfound : ∀ fs ⊆ order, ∀ k, (fs.map move).findSome? (g'.declared? · k) =
      (fs.findSome? (g.declared? · k)).map (Parameter.moved move) := by
    intro fs hfs k
    rw [List.findSome?_map, List.map_findSome?]
    exact findSome?_congr fun f hf => hdeclared f (hfs hf) k
  have hlook : ∀ f < g.files.size, ∀ k,
      g'.find? (move f) k = (g.find? f k).map (Parameter.moved move) ∧
        g'.above? (move f) k = (g.above? f k).map (Parameter.moved move) := by
    intro f hf k
    obtain ⟨earlier, rest, rfl⟩ := List.append_of_mem (hcovers f hf)
    obtain ⟨hfind, habove⟩ := hlinked.look_up earlier hnodup hlength k
    rw [List.map_append, List.map_cons, ← List.append_assoc] at hnodup' hlength' hlinked'
    obtain ⟨hfind', habove'⟩ := hlinked'.look_up (before ++ earlier.map move) hnodup' hlength' k
    rw [hfind, habove, hfind', habove', ← List.map_cons]
    exact ⟨hfound _ (List.subset_append_right _ _) k,
      hfound _ (fun x hx => List.mem_append_right _ (List.mem_cons_of_mem f hx)) k⟩
  exact ⟨hhome, fun f hf k => (hlook f hf k).1, fun f hf k => (hlook f hf k).2⟩

/-! ## Mirrored drafts -/

section Drafts

variable (hm : g.Mirrors move g') {limits : Limits} {o : Outline} {d : Declaration}
  {ds : Declarations} {drafts : List Parameter} {p : Parameter}

theorem rowOf?_map_moved (k : Key) (ps : List Parameter) :
    rowOf? Parameter.key k (ps.map (Parameter.moved move)) =
      (rowOf? Parameter.key k ps).map (Parameter.moved move) := by
  rw [rowOf?, List.find?_map]
  rfl

include hm

theorem Mirrors.scope_eq (hf : f < g.files.size) (ds : Declarations) (k : Key) :
    g'.scope (move f) ds k = g.scope f ds k := by
  have hkind : ∀ p : Parameter, (p.moved move).kind = p.kind := fun _ => rfl
  have hunit : ∀ p : Parameter, (p.moved move).unit = p.unit := fun _ => rfl
  simp only [scope, hm.found f hf, hm.above f hf, Option.map_map, Option.bind_map,
    Function.comp_def, hkind, hunit]

/-- A declaration is resolved to the same parameter, moved, or refused for the same
reason. -/
theorem Mirrors.draftOf_eq (hf : f < g.files.size) (d : Declaration) :
    g'.draftOf limits (move f) o d =
      (g.draftOf limits f o d).map (Parameter.moved move) := by
  rw [draftOf, draftOf]
  cases d.kind with
  | none => rfl
  | some k =>
    have hplan : g'.planOf limits (move f) o d k = g.planOf limits f o d k := by
      rw [planOf, planOf, hm.scope_eq hf]
    simp only [hplan]
    cases g.planOf limits f o d k with
    | error e => rfl
    | ok resolved => rfl

theorem Mirrors.draftTarget?_eq (hf : f < g.files.size) (drafts : List Parameter)
    (p : Parameter) (r : Ref) :
    g'.draftTarget? (move f) (drafts.map (Parameter.moved move)) (p.moved move) r =
      (g.draftTarget? f drafts p r).map (Parameter.moved move) := by
  cases r with
  | named name =>
    rw [draftTarget?, draftTarget?, rowOf?_map_moved, hm.found f hf, Option.map_or]
  | inherited => exact hm.above f hf p.key

omit hm in
/-- What a draft refers to is in the draft or stored. -/
theorem draftTarget?_cases (hhome : g.AtHome) {q : Parameter} {r : Ref}
    (hq : g.draftTarget? f drafts p r = some q) : q ∈ drafts ∨ g.Stored q := by
  cases r with
  | named name =>
    rcases Option.or_eq_some_iff.mp hq with hq | ⟨-, hq⟩
    · exact Or.inl (mem_of_rowOf? hq)
    · exact Or.inr (hhome.stored_of_find? hq)
  | inherited =>
    obtain ⟨parent, -, hq⟩ := Option.bind_eq_some_iff.mp hq
    exact Or.inr (hhome.stored_of_find? hq)

theorem Mirrors.declaredLength?_eq (n : Nat) (hp : p.file < g.files.size) :
    g'.declaredLength? n (p.moved move) = g.declaredLength? n p := by
  induction n generalizing p with
  | zero => rfl
  | succ n ih =>
    have href : (fun r => (g'.draftTarget? (p.moved move).file [] (p.moved move) r).bind
        (g'.declaredLength? n)) =
        fun r => (g.draftTarget? p.file [] p r).bind (g.declaredLength? n) := by
      funext r
      have htarget := hm.draftTarget?_eq hp [] p r
      rw [List.map_nil] at htarget
      show (g'.draftTarget? (move p.file) [] (p.moved move) r).bind _ = _
      rw [htarget, Option.bind_map]
      refine Option.bind_congr ?_
      intro q hq
      have hq := (draftTarget?_cases hm.home hq).resolve_left List.not_mem_nil
      exact ih (lt_size_of_declared? hq)
    rw [declaredLength?, declaredLength?]
    simp only [href]
    rfl

theorem Mirrors.checkUnits_eq (hf : f < g.files.size) (drafts : List Parameter)
    (p : Parameter) :
    g'.checkUnits (move f) (drafts.map (Parameter.moved move)) (p.moved move) =
      g.checkUnits f drafts p := by
  have htargets : (p.moved move).plan.refs.filterMap
      (g'.draftTarget? (move f) (drafts.map (Parameter.moved move)) (p.moved move)) =
      (p.plan.refs.filterMap (g.draftTarget? f drafts p)).map (Parameter.moved move) := by
    rw [List.map_filterMap]
    exact List.filterMap_congr fun r _ => hm.draftTarget?_eq hf drafts p r
  simp only [checkUnits, htargets, List.findSome?_map]
  rfl

theorem Mirrors.checkLengths_eq (hf : f < g.files.size)
    (hdrafts : ∀ q ∈ drafts, q.file < g.files.size) (p : Parameter) :
    g'.checkLengths (move f) (drafts.map (Parameter.moved move)) (p.moved move) =
      g.checkLengths f drafts p := by
  have href : (fun r => (g'.draftTarget? (move f) (drafts.map (Parameter.moved move))
      (p.moved move) r).bind (g'.declaredLength? lengthHops)) =
      fun r => (g.draftTarget? f drafts p r).bind (g.declaredLength? lengthHops) := by
    funext r
    rw [hm.draftTarget?_eq hf, Option.bind_map]
    refine Option.bind_congr ?_
    intro q hq
    refine hm.declaredLength?_eq lengthHops ?_
    rcases draftTarget?_cases hm.home hq with hq | hq
    · exact hdrafts q hq
    · exact lt_size_of_declared? hq
  simp only [checkLengths, href]
  rfl

/-- The draft of a file is the same, moved, or is refused for the same reason. -/
theorem Mirrors.draft_eq (limits : Limits) (hf : f < g.files.size) (o : Outline) :
    g'.draft limits (move f) o =
      (g.draft limits f o).map (List.map (Parameter.moved move)) := by
  rw [draft, draft, mapM_eq_map (hm.draftOf_eq hf)]
  cases hdrafts : o.declarations.rows.mapM (g.draftOf limits f o) with
  | error e => rfl
  | ok drafts =>
    have hfiles : ∀ q ∈ drafts, q.file < g.files.size := by
      intro q hq
      obtain ⟨d, -, hd⟩ := mem_of_mapM hdrafts hq
      obtain ⟨kind, resolved, -, -, rfl⟩ := draftOf_eq_ok.mp hd
      exact hf
    have hunits := forM_map_eq fun p (_ : p ∈ drafts) => hm.checkUnits_eq hf drafts p
    have hlengths := forM_map_eq fun p (_ : p ∈ drafts) => hm.checkLengths_eq hf hfiles p
    show ((drafts.map (Parameter.moved move)).forM _ >>= fun _ =>
        (drafts.map (Parameter.moved move)).forM _ >>= fun _ => _) =
      (drafts.forM (g.checkUnits f drafts) >>= fun _ =>
        drafts.forM (g.checkLengths f drafts) >>= fun _ => pure drafts : Attempt _).map _
    rw [hunits, hlengths]
    cases drafts.forM (g.checkUnits f drafts) with
    | error e => rfl
    | ok _ =>
      show (drafts.forM (g.checkLengths f drafts) >>= _) = (_ : Attempt _).map _
      cases drafts.forM (g.checkLengths f drafts) <;> rfl

end Drafts

/-! ## Evaluation -/

/-- `g'` mirrors `g`, shows the same of every name, has the same time features and the same
time. -/
structure Reenacts (move : FileId → FileId) (g g' : Graph) : Prop extends Mirrors move g g' where
  visible : ∀ k, g'.visible? k = (g.visible? k).map (Parameter.moved move)
  feature : ∀ base, g'.feature? base = g.feature? base
  clock : g'.clock = g.clock

/-- `p'` is the parameter `p` of `g`, moved. -/
def MovedFrom (move : FileId → FileId) (g : Graph) (p p' : Parameter) : Prop :=
  g.Stored p ∧ p' = p.moved move

/-- Parameters that are looked up and are stored in `g` match when one is the other,
moved. -/
theorem rel_map_moved {o o' : Option Parameter} (hstored : ∀ q, o = some q → g.Stored q)
    (ho : o' = o.map (Parameter.moved move)) : Option.Rel (g.MovedFrom move) o o' := by
  subst ho
  cases o with
  | none => exact .none
  | some q => exact .some ⟨hstored q rfl, rfl⟩

/-- Moved parameters are evaluated in parallel. -/
theorem Reenacts.parallel (hg : g.Reenacts move g') : Parallel Eq (g.MovedFrom move) g g' where
  failure := fun _ => rfl
  same := by
    rintro p _ ⟨-, rfl⟩
    rfl
  target := by
    rintro p _ ⟨hp, rfl⟩ r -
    have htarget : g'.target? (p.moved move) r = (g.target? p r).map (Parameter.moved move) := by
      cases r with
      | named name => exact hg.visible name.key
      | inherited => exact hg.above p.file (lt_size_of_declared? hp) p.key
    exact Or.inl (rel_map_moved (fun _ hq => hg.home.stored_of_target? hq) htarget)
  feature := fun _ _ _ base _ => hg.feature base
  input := by
    intro _ _ _ _ _ _ _ name _
    exact rel_map_moved (fun _ hq => hg.home.stored_of_visible? hq) (hg.visible _)
  clock := hg.clock

/-- A reading gives the same in both graphs. -/
theorem Reenacts.fst_run_read (hg : g.Reenacts move g') (limits : Limits) (name : String)
    (e : Expectation) :
    ((g'.read limits name e).run []).1 = ((g.read limits name e).run []).1 := by
  have hname := rel_map_moved (fun _ hq => hg.home.stored_of_visible? hq)
    (hg.visible (Key.ofText name))
  exact (hg.parallel.corresponds_read limits e hname).eq

end Graph

end ParameterChain
