/-
# Loading and editing in an arena

A load fills an arena step by step, and an edit changes it: a file is added, a parent is taken
or given, a parameter or a feature is stored.  Between two steps the arena may be in no state
that a finished load or edit leaves: files that a chain went through have lost their parents and
have not got new ones yet, and when a step fails it stays as it is.

The computations here do their work on an arena one step at a time and put every state they
leave behind on record, whether they succeed or fail (`Chronicle`).  They give what the load and
the edits of sessions give, and the arena they end with stands for the graph of the session.

Main statement: `Session.safe_arenas`.  Every arena on record is sound, and from all its files the
loops of `ParameterChain.Proofs.Loops` come to an end.
-/
import ParameterChain.Proofs.Clock
import ParameterChain.Proofs.History
import ParameterChain.Proofs.Loops

namespace ParameterChain

/-- The arena as it is, and as it was before each step, the last one first. -/
structure Chronicle where
  now : Arena := {}
  past : List Arena := []

/-- A computation on an arena, the steps of which a failure does not undo. -/
abbrev InPlace := ExceptT Failure (StateM Chronicle)

/-- All states on record. -/
def Chronicle.arenas (c : Chronicle) : List Arena :=
  c.now :: c.past

namespace InPlace

variable {α β : Type}

/-- What a computation makes of a chronicle. -/
def outcome (x : InPlace α) (c : Chronicle) : Except Failure α × Chronicle :=
  StateT.run (m := Id) x.run c

def now : InPlace Arena := do
  return (← get).now

/-- Take one step. -/
def step (f : Arena → Arena) : InPlace Unit :=
  modify fun c => ⟨f c.now, c.arenas⟩

/-- Do what concerns no arena. -/
def attempt (x : Attempt α) : InPlace α :=
  fun c => (x, c)

/-! ## Linear chains -/

/-- One file of the backward pass: link it to the file linked last, unless it has a parent or is
the end of the chain. -/
def link (first current previous : FileId) : InPlace FileId := do
  if current ≠ first && ((← now).parentOf? current).isNone then
    step (·.setParent current (some previous))
    return current
  else
    return previous

/-- Make the includes below `f` linear. -/
def linearize (f : FileId) : InPlace Unit := do
  let a ← now
  let places := a.graph.walk a.files.size f
  places.forM fun h => step (·.setParent h none)
  match places.getLast? with
  | none => return
  | some first => let _ ← places.foldrM (link first) first

/-! ## Processing, loading and editing -/

/-- Resolve what the file `f` declares and, if it is to be kept, store it. -/
def draft (limits : Limits) (f : FileId) (o : Outline) (keeps : Bool) : InPlace Unit := do
  let g := (← now).graph
  let drafts ← attempt (Attempt.locate (Failure.inFile · (g.nameOf f)) (g.draft limits f o))
  if keeps then
    drafts.forM fun p => step (·.insert f p)
    o.features.forM fun x => step (·.storeFeature x)

/-- Process the declarations `ds` of the file `f`; unless they are to be kept, the chain is taken
as it stands and nothing is stored. -/
def process (limits : Limits) (f : FileId) (ds : Declarations) (keeps : Bool) : InPlace Unit := do
  let g := (← now).graph
  let o ← attempt (Attempt.locate (Failure.inFile · (g.nameOf f)) (g.outline f ds))
  if keeps then
    linearize f
  draft limits f o keeps

end InPlace

open InPlace (now step attempt process)

/-- Load the file `spec` as `Source.loadFile` does. -/
def Source.loadFileInPlace (source : Source) (options : LoadOptions) :
    Nat → List String → String → InPlace FileId
  | fuel, path, spec => do
      let limits := options.limits
      if let some f := (← now).graph.fileOf? spec then
        return f
      if path.contains spec then
        throw ((Cause.includeCycle spec).failure.inFile spec)
      match fuel with
      | 0 => throw ((Cause.includeTooDeep limits.includeDepth).failure.inFile spec)
      | fuel + 1 =>
          if limits.files ≤ (← now).graph.loadedCount + path.length then
            throw ((Cause.tooManyFiles limits.files).failure.inFile spec)
          let ds ← attempt (source.declarations limits spec)
          let includes ← (options.includeSpecs spec ds).mapM
            (source.loadFileInPlace options fuel (spec :: path))
          let f := (← now).files.size
          step (·.addFile spec includes)
          process limits f ds true
          return f

/-- Load the file `top` and all that it includes as `Source.load` does. -/
def Source.loadInPlace (source : Source) (options : LoadOptions) (top : String) :
    InPlace Unit := do
  let f ← source.loadFileInPlace options options.limits.includeDepth [] top
  step (·.setIncludes transientFile [f])
  process options.limits transientFile { redefinable := true } true

namespace Session

/-- The session that an arena belongs to, as far as the graph goes. -/
def ofArena (a : Arena) (limits : Limits) : Session :=
  { graph := a.graph, limits }

/-- Make an edit as `Session.apply` does, or only try it. -/
def applyInPlace (limits : Limits) (c : Change) (keeps : Bool) : InPlace Unit := do
  let (ds, d) ← attempt c.declarations
  if keeps then
    attempt ((ofArena (← now) limits).requireChangeable c d)
  process limits transientFile ds keeps

/-- Do what a session is asked to do, as far as it concerns the graph. -/
def Call.inPlace (limits : Limits) : Call → InPlace Unit
  | .apply c keeps => applyInPlace limits c keeps
  | .clone name copy => do
      let c ← attempt ((ofArena (← now) limits).cloning name copy)
      applyInPlace limits c true
  | .read _ _ _ => return
  | .moveClock t => step (·.setClock t)

end Session

/-- What is on record after some calls, of which any may fail. -/
def Chronicle.after (c : Chronicle) (limits : Limits) (calls : List Session.Call) : Chronicle :=
  calls.foldl (fun c call => ((call.inPlace limits).outcome c).2) c

/-- All states on record are sound. -/
def Chronicle.Sound (c : Chronicle) : Prop :=
  ∀ a ∈ c.arenas, a.Sound

namespace Chronicle

variable {c : Chronicle}

theorem Sound.now (hc : c.Sound) : c.now.Sound :=
  hc c.now List.mem_cons_self

/-- One more sound state. -/
theorem Sound.step (hc : c.Sound) {a : Arena} (ha : a.Sound) :
    Chronicle.Sound ⟨a, c.arenas⟩ := by
  intro b hb
  rcases List.mem_cons.mp hb with rfl | hb
  · exact ha
  · exact hc b hb

end Chronicle

namespace InPlace

variable {α β : Type} {c : Chronicle} {Q Q' : α → Chronicle → Prop} {R : β → Chronicle → Prop}
  {E E' : Failure → Chronicle → Prop} {f : FileId}

/-! ## Where a computation in place ends -/

/-- Started with `c`, `x` ends as `Q` says or fails as `E` says. -/
def Ends (x : InPlace α) (c : Chronicle) (Q : α → Chronicle → Prop)
    (E : Failure → Chronicle → Prop) : Prop :=
  match x.outcome c with
  | (.ok a, c') => Q a c'
  | (.error e, c') => E e c'

theorem outcome_bind (x : InPlace α) (k : α → InPlace β) (c : Chronicle) :
    (x >>= k).outcome c =
      match x.outcome c with
      | (.ok a, c') => (k a).outcome c'
      | (.error e, c') => (.error e, c') := by
  show ExceptT.bindCont k (x.outcome c).1 (x.outcome c).2 = _
  rcases x.outcome c with ⟨_ | _, _⟩ <;> rfl

theorem ends_bind {x : InPlace α} {k : α → InPlace β} :
    (x >>= k).Ends c R E ↔ x.Ends c (fun a c' => (k a).Ends c' R E) E := by
  rw [Ends, outcome_bind, Ends]
  rcases x.outcome c with ⟨_ | a, c'⟩ <;> rfl

theorem ends_pure {a : α} : (pure a : InPlace α).Ends c Q E ↔ Q a c :=
  Iff.rfl

theorem ends_now {Q : Arena → Chronicle → Prop} : now.Ends c Q E ↔ Q c.now c :=
  Iff.rfl

theorem ends_step {op : Arena → Arena} {Q : Unit → Chronicle → Prop} :
    (step op).Ends c Q E ↔ Q () ⟨op c.now, c.arenas⟩ :=
  Iff.rfl

theorem ends_attempt_ok {x : Attempt α} {a : α} (hx : x = .ok a) :
    (attempt x).Ends c Q E ↔ Q a c := by
  rw [hx]
  exact Iff.rfl

theorem ends_attempt_error {x : Attempt α} {e : Failure} (hx : x = .error e) :
    (attempt x).Ends c Q E ↔ E e c := by
  rw [hx]
  exact Iff.rfl

theorem Ends.mono {x : InPlace α} (hx : x.Ends c Q E) (hQ : ∀ a c', Q a c' → Q' a c')
    (hE : ∀ e c', E e c' → E' e c') : x.Ends c Q' E' := by
  unfold Ends at hx ⊢
  split
  · next heq =>
    rw [heq] at hx
    exact hQ _ _ hx
  · next heq =>
    rw [heq] at hx
    exact hE _ _ hx

/-- What a computation comes to, told by its result. -/
theorem Ends.outcome {x : InPlace α} (hx : x.Ends c Q E) :
    (∀ a, (x.outcome c).1 = .ok a → Q a (x.outcome c).2) ∧
    ∀ e, (x.outcome c).1 = .error e → E e (x.outcome c).2 := by
  unfold Ends at hx
  split at hx
  · next heq =>
    rw [heq]
    refine ⟨?_, ?_⟩
    · rintro a ⟨⟩
      exact hx
    · rintro e ⟨⟩
  · next heq =>
    rw [heq]
    refine ⟨?_, ?_⟩
    · rintro a ⟨⟩
    · rintro e ⟨⟩
      exact hx

/-- Steps that keep arenas sound, and their number of files, do together on graphs what they do
one by one. -/
theorem ends_forM (op : β → Arena → Arena) (op' : Graph → β → Graph) {n : Nat} {xs : List β}
    (hop : ∀ x ∈ xs, ∀ a : Arena, a.Sound → a.files.size = n →
      (op x a).Sound ∧ (op x a).files.size = n ∧ (op x a).graph = op' a.graph x)
    (hc : c.Sound) (hn : c.now.files.size = n) :
    (xs.forM fun x => step (op x)).Ends c
      (fun _ c' => c'.Sound ∧ c'.now.files.size = n ∧ c'.now.graph = xs.foldl op' c.now.graph)
      (fun _ _ => False) := by
  induction xs generalizing c with
  | nil => exact ⟨hc, hn, rfl⟩
  | cons x xs ih =>
    obtain ⟨hsound, hsize, hgraph⟩ := hop x List.mem_cons_self c.now hc.now hn
    have hrest := ih (fun y hy => hop y (List.mem_cons_of_mem _ hy)) (hc.step hsound) hsize
    simp only [List.forM_eq_forM, List.forM_cons, ends_bind, ends_step] at hrest ⊢
    refine hrest.mono ?_ fun _ _ h => h
    rintro _ c' ⟨hc', hn', hgraph'⟩
    refine ⟨hc', hn', ?_⟩
    rw [hgraph', hgraph, List.foldl_cons]

/-! ## The backward pass -/

/-- The file linked last leads up to the end of the chain, through files that have a parent. -/
structure Anchored (a : Arena) (first previous : FileId) : Prop where
  lt_size : previous < a.files.size
  above : ∀ h, Relation.ReflTransGen a.Above h previous → h = first ∨ (a.parentOf? h).isSome

variable {first current previous : FileId} {places : List FileId}

/-- A file that has no parent, other than the end of the chain, is none that the chain leads
through; so it may be put in front. -/
theorem Anchored.setParent {a : Arena} (ha : a.Sound) (hanchored : Anchored a first previous)
    (hsize : current < a.files.size) (hne : current ≠ first) (hnone : a.parentOf? current = none) :
    (a.setParent current (some previous)).Sound ∧
      Anchored (a.setParent current (some previous)) first current := by
  have hnot : ¬ Relation.ReflTransGen a.Above current previous := by
    intro habove
    rcases hanchored.above current habove with heq | hsome
    · exact hne heq
    · rw [hnone] at hsome
      cases hsome
  have hparent := Arena.parentOf?_setParent a current (some previous) hsize
  refine ⟨ha.setParent hsize ?_, ?_, ?_⟩
  · rintro p ⟨⟩
    exact ⟨hanchored.lt_size, hnot⟩
  · rw [Arena.size_setParent]
    exact hsize
  · intro h habove
    rw [hparent]
    split
    · exact Or.inr rfl
    next hcurrent =>
    rcases Relation.ReflTransGen.cases_tail habove with heq | ⟨q, hq, hlast⟩
    · exact absurd heq hcurrent
    rw [Arena.Above, hparent, if_pos rfl] at hlast
    cases hlast
    -- The links that lead up from the file linked last are the old ones.
    have hold : Relation.ReflTransGen a.Above h previous := by
      clear habove hcurrent
      induction hq using Relation.ReflTransGen.head_induction_on with
      | refl => exact .refl
      | @head x y hstep _ ih =>
        have hne : current ≠ y := fun heq => hnot (heq ▸ ih)
        rw [Arena.Above, hparent, if_neg hne] at hstep
        exact ih.head hstep
    exact hanchored.above h hold

theorem ends_link (hc : c.Sound) (hanchored : Anchored c.now first previous)
    (hsize : current < c.now.files.size) :
    (link first current previous).Ends c
      (fun previous' c' => c'.Sound ∧ Anchored c'.now first previous' ∧
        c'.now.files.size = c.now.files.size ∧
        (c'.now.graph, previous') = Graph.linkStep first current (c.now.graph, previous))
      (fun _ _ => False) := by
  rw [link, ends_bind, ends_now, Graph.linkStep, Arena.parentOf?_graph]
  split
  · next hcond =>
    rw [Bool.and_eq_true, decide_eq_true_eq, Option.isNone_iff_eq_none] at hcond
    obtain ⟨hsound, hanchored⟩ := hanchored.setParent hc.now hsize hcond.1 hcond.2
    rw [ends_bind, ends_step, ends_pure]
    exact ⟨hc.step hsound, hanchored, Arena.size_setParent _ _ _, by rw [Arena.graph_setParent]⟩
  · exact ⟨hc, hanchored, rfl, rfl⟩

theorem ends_foldrM (hc : c.Sound) (hanchored : Anchored c.now first previous)
    (hsize : ∀ h ∈ places, h < c.now.files.size) :
    (places.foldrM (link first) previous).Ends c
      (fun previous' c' => c'.Sound ∧ Anchored c'.now first previous' ∧
        c'.now.files.size = c.now.files.size ∧
        (c'.now.graph, previous') = places.foldr (Graph.linkStep first) (c.now.graph, previous))
      (fun _ _ => False) := by
  induction places with
  | nil => exact ⟨hc, hanchored, rfl, rfl⟩
  | cons h places ih =>
    rw [List.foldrM_cons, ends_bind]
    refine (ih fun x hx => hsize x (List.mem_cons_of_mem _ hx)).mono ?_ fun _ _ h => h
    rintro previous' c' ⟨hc', hanchored', hsize', hgraph'⟩
    refine (ends_link hc' hanchored' (hsize' ▸ hsize h List.mem_cons_self)).mono ?_ fun _ _ h => h
    rintro previous'' c'' ⟨hc'', hanchored'', hsize'', hgraph''⟩
    refine ⟨hc'', hanchored'', hsize''.trans hsize', ?_⟩
    rw [hgraph'', hgraph', List.foldr_cons]

/-- Made linear in place, the arena stands for the graph that has been made linear. -/
theorem ends_linearize (hc : c.Sound) (hf : f < c.now.files.size) :
    (linearize f).Ends c
      (fun _ c' => c'.Sound ∧ c'.now.files.size = c.now.files.size ∧
        c'.now.graph = c.now.graph.linearize f)
      (fun _ _ => False) := by
  have ho := hc.now.ordered
  have hf' : f < c.now.graph.files.size := by rwa [Arena.size_graph]
  rw [← ho.linkBackwards_eq hf', Graph.linkBackwards, Arena.size_graph, linearize, ends_bind,
    ends_now]
  generalize hplaces : c.now.graph.walk c.now.files.size f = places
  have hsize : ∀ h ∈ places, h < c.now.files.size := by
    intro h hh
    rw [← hplaces, ← Arena.size_graph, ho.mem_walk hf'] at hh
    exact Arena.size_graph c.now ▸ ho.lt_size_of_below hf' hh
  have hclear := ends_forM (fun h a => a.setParent h none) (fun g h => g.setParent h none)
    (fun h (hh : h ∈ places) a ha hn => ?_) hc rfl
  · rw [ends_bind]
    refine hclear.mono ?_ fun _ _ h => h
    rintro _ c' ⟨hc', hsize', hgraph'⟩
    have hgraph' : c'.now.graph = c.now.graph.clearParents places := hgraph'
    cases hlast : places.getLast? with
    | none => exact ⟨hc', hsize', hgraph'⟩
    | some first =>
      have hfirst := List.mem_of_getLast? hlast
      have hnone : c'.now.parentOf? first = none := by
        rw [← Arena.parentOf?_graph, hgraph', Graph.parentOf?_clearParents hfirst]
      have hanchored : Anchored c'.now first first := by
        refine ⟨hsize' ▸ hsize first hfirst, fun h habove => Or.inl ?_⟩
        rcases Relation.ReflTransGen.cases_tail habove with heq | ⟨q, -, hlast⟩
        · exact heq.symm
        · rw [Arena.Above, hnone] at hlast
          cases hlast
      simp only [ends_bind]
      refine (ends_foldrM hc' hanchored fun h hh => hsize' ▸ hsize h hh).mono ?_ fun _ _ h => h
      rintro previous c'' ⟨hc'', -, hsize'', hgraph''⟩
      exact ⟨hc'', hsize''.trans hsize', by rw [← hgraph', ← hgraph'']⟩
  · refine ⟨ha.setParent (hn ▸ hsize h hh) ?_, ?_, Arena.graph_setParent a h none⟩
    · rintro p ⟨⟩
    · rw [Arena.size_setParent, hn]

/-! ## Processing -/

variable {limits : Limits} {ds : Declarations} {o : Outline} {drafts : List Parameter}

/-- Storing drafts and features one by one is storing all of them. -/
theorem ends_storeAll (hc : c.Sound) (hf : f < c.now.files.size) (hfiles : ∀ p ∈ drafts, p.file = f)
    (features : List TimeFeature) :
    (do
      drafts.forM fun p => step (·.insert f p)
      features.forM fun x => step (·.storeFeature x) : InPlace Unit).Ends c
      (fun _ c' => c'.Sound ∧ c'.now.files.size = c.now.files.size ∧
        c'.now.graph = c.now.graph.storeAll drafts features)
      (fun _ _ => False) := by
  have hstore := ends_forM (fun p a => a.insert f p) Graph.store
    (fun p (hp : p ∈ drafts) a ha hn => ?_) hc rfl
  · rw [ends_bind]
    refine hstore.mono ?_ fun _ _ h => h
    rintro _ c' ⟨hc', hsize', hgraph'⟩
    refine (ends_forM (fun x a => a.storeFeature x) Graph.storeFeature ?_ hc' rfl).mono ?_
      fun _ _ h => h
    · exact fun x _ a ha hn => ⟨ha.storeFeature x, hn, Arena.graph_storeFeature a x⟩
    · rintro _ c'' ⟨hc'', hsize'', hgraph''⟩
      refine ⟨hc'', hsize''.trans hsize', ?_⟩
      rw [hgraph'', hgraph', Graph.storeAll]
  · refine ⟨ha.insert (hn ▸ hf) (hfiles p hp), ?_, Arena.graph_insert ha.toFiled (hfiles p hp)⟩
    rw [Arena.size_insert, hn]

/-- In place, what is resolved is kept or not as on the graph. -/
theorem ends_draft (hc : c.Sound) (hf : f < c.now.files.size) (limits : Limits) (o : Outline)
    (keeps : Bool) :
    (draft limits f o keeps).Ends c
      (fun _ c' => c'.Sound ∧ c'.now.files.size = c.now.files.size ∧
        ∃ drafts, c.now.graph.draft limits f o = .ok drafts ∧ c'.now.graph =
          if keeps then c.now.graph.storeAll drafts o.features else c.now.graph)
      (fun e c' => c'.Sound ∧ c'.now.graph = c.now.graph ∧
        ∃ e', c.now.graph.draft limits f o = .error e' ∧ e = e'.inFile (c.now.graph.nameOf f)) := by
  rw [draft, ends_bind, ends_now, ends_bind]
  cases hdraft : c.now.graph.draft limits f o with
  | error e => exact (ends_attempt_error rfl).mpr ⟨hc, rfl, e, rfl, rfl⟩
  | ok drafts =>
    refine (ends_attempt_ok (a := drafts) rfl).mpr ?_
    cases keeps with
    | false => exact ⟨hc, rfl, drafts, rfl, rfl⟩
    | true =>
      have hfiles : ∀ p ∈ drafts, p.file = f :=
        fun p hp => Graph.file_of_draft (Graph.draft_eq_ok hdraft) hp
      refine (ends_storeAll hc hf hfiles o.features).mono ?_ fun _ _ h => h.elim
      rintro _ c' ⟨hc', hsize', hgraph'⟩
      exact ⟨hc', hsize', drafts, rfl, hgraph'⟩

/-- A file is processed in place as it is processed on the graph. -/
theorem ends_process (hc : c.Sound) (hf : f < c.now.files.size) (limits : Limits)
    (ds : Declarations) (keeps : Bool) :
    (process limits f ds keeps).Ends c
      (fun _ c' => c'.Sound ∧ c'.now.files.size = c.now.files.size ∧
        ∃ done, c.now.graph.process limits f ds keeps = (.ok done, c'.now.graph))
      (fun e c' => c'.Sound ∧
        c.now.graph.process limits f ds keeps = (.error e, c'.now.graph)) := by
  rw [process, ends_bind, ends_now, ends_bind, Graph.process]
  cases ho : c.now.graph.outline f ds with
  | error e => exact (ends_attempt_error rfl).mpr ⟨hc, rfl⟩
  | ok o =>
    refine (ends_attempt_ok (a := o) rfl).mpr ?_
    cases keeps with
    | false =>
      refine (ends_draft hc hf limits o false).mono ?_ ?_
      · rintro _ c' ⟨hc', hsize', drafts, hdraft, hgraph'⟩
        refine ⟨hc', hsize', ⟨c'.now.graph, drafts, o.features⟩, ?_⟩
        simp only [Bool.false_eq_true, if_false] at hgraph'
        simp only [Bool.false_eq_true, if_false, hdraft, hgraph', Attempt.locate, Except.mapError]
      · rintro e c' ⟨hc', hgraph', e', hdraft, rfl⟩
        refine ⟨hc', ?_⟩
        simp only [Bool.false_eq_true, if_false, hdraft, hgraph', Attempt.locate, Except.mapError]
    | true =>
      show (linearize f >>= fun _ => draft limits f o true).Ends _ _ _
      rw [ends_bind]
      refine (ends_linearize hc hf).mono ?_ fun _ _ h => h.elim
      rintro _ m ⟨hm, hsize, hlinear⟩
      have hname : m.now.graph.nameOf f = c.now.graph.nameOf f := by
        rw [hlinear, Graph.linearize, Graph.nameOf_link]
      refine (ends_draft hm (hsize.symm ▸ hf) limits o true).mono ?_ ?_
      · rintro _ c' ⟨hc', hsize', drafts, hdraft, hgraph'⟩
        refine ⟨hc', hsize'.trans hsize, ⟨c'.now.graph, drafts, o.features⟩, ?_⟩
        simp only [if_true] at hgraph'
        rw [hlinear] at hdraft hgraph'
        simp only [if_true, hdraft, hgraph', Attempt.locate, Except.mapError]
      · rintro e c' ⟨hc', hgraph', e', hdraft, rfl⟩
        refine ⟨hc', ?_⟩
        rw [hlinear] at hdraft hgraph'
        simp only [if_true, hdraft, hgraph', hname, Attempt.locate, Except.mapError]

/-- What is to be kept is processed in place as it is committed to the graph. -/
theorem ends_commit (hc : c.Sound) (hf : f < c.now.files.size) (limits : Limits)
    (ds : Declarations) :
    (process limits f ds true).Ends c
      (fun _ c' => c'.Sound ∧ c'.now.files.size = c.now.files.size ∧
        ∃ done, c.now.graph.commit limits f ds = .ok done ∧ done.graph = c'.now.graph)
      (fun e c' => c'.Sound ∧ c.now.graph.commit limits f ds = .error e) := by
  refine (ends_process hc hf limits ds true).mono ?_ ?_
  · rintro _ c' ⟨hc', hsize, done, hprocess⟩
    rcases Graph.process_true c.now.graph limits f ds with
      ⟨done', hcommit, hsame⟩ | ⟨e, g, -, hsame, -⟩
    · exact ⟨hc', hsize, done', hcommit, (Prod.mk.inj (hsame.symm.trans hprocess)).2⟩
    · cases (Prod.mk.inj (hsame.symm.trans hprocess)).1
  · rintro e c' ⟨hc', hprocess⟩
    rcases Graph.process_true c.now.graph limits f ds with
      ⟨done, -, hsame⟩ | ⟨e', g, hcommit, hsame, -⟩
    · cases (Prod.mk.inj (hsame.symm.trans hprocess)).1
    · obtain rfl : e' = e := Except.error.inj (Prod.mk.inj (hsame.symm.trans hprocess)).1
      exact ⟨hc', hcommit⟩

/-! ## Loading -/

/-- Started with `c`, `x` does in place what `y` does on the graph, adds files only, and ends as
`Q` says when it succeeds. -/
def Enacts (x : InPlace α) (y : Loader α) (c : Chronicle) (Q : α → Chronicle → Prop) : Prop :=
  x.Ends c
    (fun a c' => c'.Sound ∧ c.now.files.size ≤ c'.now.files.size ∧
      y.run c.now.graph = .ok (a, c'.now.graph) ∧ Q a c')
    (fun e c' => c'.Sound ∧ y.run c.now.graph = .error e)

theorem enacts_pure {a : α} (hc : c.Sound) (ha : Q a c) :
    (pure a : InPlace α).Enacts (pure a) c Q :=
  ⟨hc, Nat.le_refl _, rfl, ha⟩

theorem enacts_attempt (hc : c.Sound) (x : Attempt α) :
    (attempt x).Enacts (liftM x) c fun a c' => x = .ok a ∧ c' = c := by
  cases x with
  | ok a => exact ⟨hc, Nat.le_refl _, rfl, rfl, rfl⟩
  | error e => exact ⟨hc, rfl⟩

theorem Enacts.bind {x : InPlace α} {y : Loader α} {k : α → InPlace β} {l : α → Loader β}
    (hx : x.Enacts y c Q)
    (hk : ∀ a c', c'.Sound → c.now.files.size ≤ c'.now.files.size → Q a c' →
      (k a).Enacts (l a) c' R) :
    (x >>= k).Enacts (y >>= l) c R := by
  rw [Enacts, ends_bind]
  refine hx.mono ?_ ?_
  · rintro a m ⟨hm, hsize, hrun, hQ⟩
    have hl : (y >>= l).run c.now.graph = (l a).run m.now.graph := by
      rw [StateT.run_bind, hrun]
      rfl
    rw [hl]
    refine (hk a m hm hsize hQ).mono ?_ fun _ _ h => h
    rintro b c' ⟨hc', hsize', hrun', hR⟩
    exact ⟨hc', hsize.trans hsize', hrun', hR⟩
  · rintro e m ⟨hm, hrun⟩
    refine ⟨hm, ?_⟩
    rw [StateT.run_bind, hrun]
    rfl

/-- What is read of an arena is read of its graph. -/
theorem Enacts.now_bind {k : Arena → InPlace α} {l : Graph → Loader α}
    (hk : (k c.now).Enacts (l c.now.graph) c Q) : (now >>= k).Enacts (get >>= l) c Q := by
  rw [Enacts, ends_bind, ends_now]
  exact hk

/-- A check that may fail before the rest is done. -/
theorem Enacts.guard {k : InPlace α} {l : Loader α} {p : Prop} [Decidable p] {spec : String}
    {cause : Cause} (hc : c.Sound) (hk : k.Enacts l c Q) :
    (if p then (throw (cause.failure.inFile spec) : InPlace PUnit) >>= fun _ => k else k).Enacts
      (if p then Loader.fail (α := PUnit) spec cause >>= fun _ => l else l) c Q := by
  split
  · exact ⟨hc, rfl⟩
  · exact hk

/-- Files that are there already stay there. -/
theorem Enacts.mapM {x : β → InPlace FileId} {y : β → Loader FileId}
    (hx : ∀ b c, c.Sound → (x b).Enacts (y b) c fun f c' =>
      f ≠ transientFile ∧ f < c'.now.files.size) (hc : c.Sound) (bs : List β) :
    (bs.mapM x).Enacts (bs.mapM y) c fun fs c' =>
      ∀ f ∈ fs, f ≠ transientFile ∧ f < c'.now.files.size := by
  induction bs generalizing c with
  | nil => exact enacts_pure hc fun h hh => absurd hh List.not_mem_nil
  | cons b bs ih =>
    rw [List.mapM_cons, List.mapM_cons]
    refine (hx b c hc).bind fun f m hm _ hf => (ih hm).bind fun fs c' hc' hsize hfs => ?_
    refine enacts_pure hc' ?_
    intro h hh
    rcases List.mem_cons.mp hh with rfl | hh
    · exact ⟨hf.1, Nat.lt_of_lt_of_le hf.2 hsize⟩
    · exact hfs h hh

/-- Committed in place behind its includes, a file gets its place. -/
theorem enacts_commit (hc : c.Sound) {includes : List FileId}
    (hincludes : ∀ i ∈ includes, i ≠ transientFile ∧ i < c.now.files.size) (limits : Limits)
    (spec : String) (ds : Declarations) :
    Enacts (do
      let f := (← now).files.size
      step (·.addFile spec includes)
      process limits f ds true
      return f) (do
      let g ← get
      let f := g.files.size
      let done ← (g.addFile spec includes).commit limits f ds
      set done.graph
      return f) c fun f c' => f ≠ transientFile ∧ f < c'.now.files.size := by
  refine .now_bind ?_
  have hsound := hc.now.addFile spec hincludes
  have hsize : (c.now.addFile spec includes).files.size = c.now.files.size + 1 :=
    Array.size_push _
  have hplace : c.now.graph.files.size = c.now.files.size := Arena.size_graph c.now
  rw [Enacts, ends_bind, ends_step, ends_bind]
  refine (ends_commit (hc.step hsound) (hsize ▸ Nat.lt_succ_self _) limits ds).mono ?_ ?_
  · rintro _ c' ⟨hc', hsize', done, hcommit, hdone⟩
    rw [Arena.graph_addFile] at hcommit
    have hgrown : c'.now.files.size = c.now.files.size + 1 := hsize'.trans hsize
    refine ⟨hc', by omega, ?_, hc.now.nonempty.ne', by omega⟩
    simp only [hplace, hcommit, ← hdone]
    rfl
  · rintro e c' ⟨hc', hcommit⟩
    rw [Arena.graph_addFile] at hcommit
    refine ⟨hc', ?_⟩
    simp only [hplace, hcommit]
    rfl

theorem enacts_loadFileInPlace (source : Source) (options : LoadOptions) (fuel : Nat) :
    ∀ path spec c, c.Sound → (source.loadFileInPlace options fuel path spec).Enacts
      (source.loadFile options fuel path spec) c fun f c' =>
        f ≠ transientFile ∧ f < c'.now.files.size := by
  induction fuel with
  | zero =>
    intro path spec c hc
    simp only [Source.loadFileInPlace, Source.loadFile]
    refine .now_bind ?_
    cases hfile : c.now.graph.fileOf? spec with
    | some f => exact enacts_pure hc (Arena.size_graph c.now ▸ fileOf?_eq_some hfile)
    | none => exact .guard hc ⟨hc, rfl⟩
  | succ n ih =>
    intro path spec c hc
    simp only [Source.loadFileInPlace, Source.loadFile]
    refine .now_bind ?_
    cases hfile : c.now.graph.fileOf? spec with
    | some f => exact enacts_pure hc (Arena.size_graph c.now ▸ fileOf?_eq_some hfile)
    | none =>
      refine .guard hc (.now_bind (.guard hc ?_))
      refine (enacts_attempt hc _).bind fun ds c hc _ _ => ?_
      refine (Enacts.mapM (ih (spec :: path)) hc _).bind fun includes c hc _ hincludes => ?_
      exact enacts_commit hc hincludes options.limits spec ds

/-- A load in place gives what the load gives. -/
theorem ends_loadInPlace (hc : c.Sound) (hstart : c.now.graph = {}) (source : Source)
    (options : LoadOptions) (top : String) :
    (source.loadInPlace options top).Ends c
      (fun _ c' => c'.Sound ∧ source.load options top = .ok c'.now.graph)
      (fun e c' => c'.Sound ∧ source.load options top = .error e) := by
  rw [Source.loadInPlace, ends_bind, Source.load]
  refine (enacts_loadFileInPlace source options _ [] top c hc).mono ?_ ?_
  · rintro f m ⟨hm, -, hrun, hf⟩
    rw [hstart] at hrun
    rw [ends_bind, ends_step, hrun]
    have hrooted := hm.step (hm.now.setIncludes hf)
    have htransient : transientFile < (m.now.setIncludes transientFile [f]).files.size :=
      hrooted.now.nonempty
    refine (ends_commit hrooted htransient options.limits _).mono ?_ ?_
    · rintro _ c' ⟨hc', -, done, hcommit, hdone⟩
      rw [Arena.graph_setIncludes] at hcommit
      refine ⟨hc', ?_⟩
      simp only [bind, Except.bind, hcommit, ← hdone]
      rfl
    · rintro e c' ⟨hc', hcommit⟩
      rw [Arena.graph_setIncludes] at hcommit
      refine ⟨hc', ?_⟩
      simp only [bind, Except.bind, hcommit]
  · rintro e c' ⟨hc', hrun⟩
    rw [hstart] at hrun
    refine ⟨hc', ?_⟩
    rw [hrun]
    rfl

end InPlace

/-! ## Editing -/

theorem Graph.graph_of_process {g g' : Graph} {limits : Limits} {f : FileId} {ds : Declarations}
    {keeps : Bool} {done : Commit} (hprocess : g.process limits f ds keeps = (.ok done, g')) :
    done.graph = g' := by
  rw [process] at hprocess
  split at hprocess
  · cases hprocess
  simp only at hprocess
  split at hprocess
  · cases hprocess
  · obtain ⟨hdone, hg⟩ := Prod.mk.inj hprocess
    rw [← Except.ok.inj hdone]
    exact hg

namespace Session

open InPlace

variable {s : Session} {c : Chronicle} {limits : Limits} {ds : Declarations} {d : Declaration}
  {change : Change} {keeps : Bool}

/-- An edit that is not refused leaves the graph as its processing does. -/
theorem graph_apply (hchange : change.declarations = .ok (ds, d))
    (hallowed : keeps = true → s.requireChangeable change d = .ok ()) :
    (s.apply change keeps).2.graph = (s.graph.process s.limits transientFile ds keeps).2 := by
  have hcheck : (if keeps then s.requireChangeable change d else .ok ()) = .ok () := by
    split
    · next hkeeps => exact hallowed hkeeps
    · rfl
  rw [apply, hchange]
  simp only [hcheck]
  cases hprocess : s.graph.process s.limits transientFile ds keeps with
  | mk result g =>
    cases result with
    | error e => rfl
    | ok done =>
      cases keeps with
      | false => rfl
      | true => exact Graph.graph_of_process hprocess

theorem ends_applyInPlace (hc : c.Sound) (hgraph : c.now.graph = s.graph)
    (hlimits : s.limits = limits) (change : Change) (keeps : Bool) :
    (applyInPlace limits change keeps).Ends c
      (fun _ c' => c'.Sound ∧ c'.now.graph = (s.apply change keeps).2.graph)
      (fun _ c' => c'.Sound ∧ c'.now.graph = (s.apply change keeps).2.graph) := by
  have htransient : transientFile < c.now.files.size := hc.now.nonempty
  have hsame : ∀ d, (ofArena c.now limits).requireChangeable change d =
      s.requireChangeable change d := by
    intro d
    rw [requireChangeable, requireChangeable, ofArena, hgraph]
  rw [applyInPlace, ends_bind]
  cases hchange : change.declarations with
  | error e =>
    refine (ends_attempt_error rfl).mpr ⟨hc, ?_⟩
    rw [apply, hchange]
    exact hgraph
  | ok declared =>
    obtain ⟨ds, d⟩ := declared
    refine (ends_attempt_ok (a := (ds, d)) rfl).mpr ?_
    -- What is not refused is processed.
    have hprocess (hallowed : keeps = true → s.requireChangeable change d = .ok ()) :
        (process limits transientFile ds keeps).Ends c
          (fun _ c' => c'.Sound ∧ c'.now.graph = (s.apply change keeps).2.graph)
          (fun _ c' => c'.Sound ∧ c'.now.graph = (s.apply change keeps).2.graph) := by
      rw [graph_apply hchange hallowed, ← hgraph, hlimits]
      refine (ends_process hc htransient limits ds keeps).mono ?_ ?_
      · rintro _ c' ⟨hc', -, done, hdone⟩
        exact ⟨hc', by rw [hdone]⟩
      · rintro e c' ⟨hc', herror⟩
        exact ⟨hc', by rw [herror]⟩
    cases keeps with
    | false => exact hprocess fun hkeeps => absurd hkeeps Bool.false_ne_true
    | true =>
      show (now >>= fun a => attempt ((ofArena a limits).requireChangeable change d) >>= fun _ =>
        process limits transientFile ds true).Ends _ _ _
      rw [ends_bind, ends_now, ends_bind, hsame]
      cases hallowed : s.requireChangeable change d with
      | error e =>
        refine (ends_attempt_error rfl).mpr ⟨hc, ?_⟩
        simp only [apply, hchange, if_true, hallowed]
        exact hgraph
      | ok u => exact (ends_attempt_ok (a := u) rfl).mpr (hprocess fun _ => hallowed)

/-! ## Calls -/

theorem limits_apply (s : Session) (change : Change) (keeps : Bool) :
    (s.apply change keeps).2.limits = s.limits := by
  rw [apply]
  split
  · rfl
  split
  · rfl
  split
  · rfl
  · split <;> rfl

theorem limits_perform (s : Session) (call : Call) : (s.perform call).limits = s.limits := by
  cases call with
  | apply change keeps => exact limits_apply s change keeps
  | clone name copy =>
    rw [perform]
    split
    · exact limits_apply s _ true
    · rfl
  | read consumer name e => exact limits_read s consumer name e
  | moveClock t => exact (moveClock_kept s t).2.1

/-- A call leaves the arena standing for the graph that it leaves. -/
theorem ends_inPlace (hc : c.Sound) (hgraph : c.now.graph = s.graph) (hlimits : s.limits = limits)
    (call : Call) :
    (call.inPlace limits).Ends c
      (fun _ c' => c'.Sound ∧ c'.now.graph = (s.perform call).graph)
      (fun _ c' => c'.Sound ∧ c'.now.graph = (s.perform call).graph) := by
  cases call with
  | apply change keeps => exact ends_applyInPlace hc hgraph hlimits change keeps
  | clone name copy =>
    have hsame : (ofArena c.now limits).cloning name copy = s.cloning name copy := by
      rw [cloning, cloning, find, find, find?, find?, ofArena, hgraph]
    rw [Call.inPlace, ends_bind, ends_now, ends_bind, hsame, perform]
    cases s.cloning name copy with
    | error e => exact (ends_attempt_error rfl).mpr ⟨hc, hgraph⟩
    | ok change =>
      exact (ends_attempt_ok (a := change) rfl).mpr
        (ends_applyInPlace hc hgraph hlimits change true)
  | read consumer name e =>
    refine ⟨hc, ?_⟩
    rw [perform, graph_read]
    exact hgraph
  | moveClock t =>
    refine ⟨hc.step (hc.now.setClock t), ?_⟩
    rw [perform, graph_moveClock, ← hgraph]
    exact Arena.graph_setClock c.now t

/-- So do any number of calls. -/
theorem sound_after (hc : c.Sound) (hgraph : c.now.graph = s.graph) (hlimits : s.limits = limits)
    (calls : List Call) :
    (c.after limits calls).Sound ∧ (c.after limits calls).now.graph = (s.after calls).graph := by
  induction calls generalizing s c with
  | nil => exact ⟨hc, hgraph⟩
  | cons call calls ih =>
    obtain ⟨hok, herror⟩ := (ends_inPlace hc hgraph hlimits call).outcome
    have hnext : ((call.inPlace limits).outcome c).2.Sound ∧
        ((call.inPlace limits).outcome c).2.now.graph = (s.perform call).graph := by
      cases hresult : ((call.inPlace limits).outcome c).1 with
      | ok u => exact hok u hresult
      | error e => exact herror e hresult
    exact ih hnext.1 hnext.2 ((limits_perform s call).trans hlimits)

/-- Arenas are safe through loads and edits.  Let any source be loaded in place, and any calls be
made afterwards if that succeeds.  In every state that the arena is left in by a step of the
load, whether the load succeeds or fails, and by a step of a call, whether that succeeds or fails,
the places of the parameters are those that the indices say, each that of one key of one file; the
includes and parents are files, the includes of a file other than the transient one come before
it, no file is above itself, and the loops end from every file (`Arena.Safe`).  What the load and
the calls do to the arena is what they do to the graph of the session. -/
theorem safe_arenas (source : Source) (options : LoadOptions) (top : String) :
    let loaded := (source.loadInPlace options top).outcome {}
    (∀ a ∈ loaded.2.arenas, a.Safe) ∧
    source.load options top = loaded.1.map (fun _ => loaded.2.now.graph) ∧
    ∀ s, Session.load source options top = .ok s → ∀ calls,
      let c := loaded.2.after options.limits calls
      (∀ a ∈ c.arenas, a.Safe) ∧ c.now.graph = (s.after calls).graph := by
  have hempty : Chronicle.Sound {} := by
    intro a ha
    rw [List.mem_singleton.mp ha]
    exact Arena.sound_empty
  obtain ⟨hok, herror⟩ := (ends_loadInPlace hempty Arena.graph_empty source options top).outcome
  intro loaded
  cases hresult : loaded.1 with
  | error e =>
    obtain ⟨hc, hload⟩ := herror e hresult
    refine ⟨fun a ha => (hc a ha).safe, hload, fun s hs => ?_⟩
    obtain ⟨g, hg, -⟩ := load_eq_ok.mp hs
    cases hload.symm.trans hg
  | ok u =>
    obtain ⟨hc, hload⟩ := hok u hresult
    refine ⟨fun a ha => (hc a ha).safe, hload, fun s hs calls => ?_⟩
    obtain ⟨g, hg, rfl⟩ := load_eq_ok.mp hs
    obtain ⟨hafter, hgraph⟩ := sound_after hc
      (s := { graph := g, limits := options.limits }) (Except.ok.inj (hload.symm.trans hg)) rfl
      calls
    exact ⟨fun a ha => (hafter a ha).safe, hgraph⟩

/-- There are states in which the chain through two arms is in pieces, and the second edit of a
name is put where the first one was. -/
theorem safe_arenas_sharedArms :
    ∃ s, Session.load sharedArms { withDefaults := false } "top" = .ok s ∧
      let loaded := (sharedArms.loadInPlace { withDefaults := false } "top").outcome {}
      let c := loaded.2.after {} mixedCalls
      loaded.2.arenas.length = 34 ∧ c.arenas.length = 78 ∧
      (c.arenas.any fun a =>
        a.includesOf 4 = [2, 3] ∧ a.parentOf? 2 = none ∧ a.parentOf? 3 = some 1) = true ∧
      c.now.idOf? transientFile ⟨"x"⟩ = some 3 ∧ c.now.parameters.size = 6 ∧
      (∀ a ∈ c.arenas, a.Safe) ∧ c.now.graph = (s.after mixedCalls).graph := by
  have hok : (Session.load sharedArms { withDefaults := false } "top").toOption.any fun _ =>
      let loaded := (sharedArms.loadInPlace { withDefaults := false } "top").outcome {}
      let c := loaded.2.after {} mixedCalls
      decide (loaded.2.arenas.length = 34 ∧ c.arenas.length = 78 ∧
        (c.arenas.any fun a =>
          a.includesOf 4 = [2, 3] ∧ a.parentOf? 2 = none ∧ a.parentOf? 3 = some 1) = true ∧
        c.now.idOf? transientFile ⟨"x"⟩ = some 3 ∧ c.now.parameters.size = 6) := by
    decide +kernel
  obtain ⟨s, hs, hok⟩ := (Option.any_eq_true _ _).mp hok
  have hload := toOption_eq_some.mp hs
  obtain ⟨hlength, hlength', hpieces, hplace, hsize⟩ := of_decide_eq_true hok
  obtain ⟨-, -, hafter⟩ := safe_arenas sharedArms { withDefaults := false } "top"
  obtain ⟨hsafe, hgraph⟩ := hafter s hload mixedCalls
  exact ⟨s, hload, hlength, hlength', hpieces, hplace, hsize, hsafe, hgraph⟩

end Session

end ParameterChain
