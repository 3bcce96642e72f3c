/-
# What a load asks of its source

A load can be run with a census beside it, which says how often the file of a spec has been asked
for and of which specs the contents have been taken from the source.  The census is there whether
the load succeeds or fails, and keeping it changes nothing of the load (`loadCounted_load`).

What a counted computation leaves behind is said of both of its ends at once (`Ends`).  One lemma
goes through all that can happen where a file is asked for: `ends_loadFileCounted`.
-/
import ParameterChain.Proofs.Load

namespace ParameterChain

/-- What a load has asked for so far. -/
structure Census where
  /-- How often the file of a spec has been asked for. -/
  asked : Nat := 0
  /-- The specs of which the contents have been taken, the last one first. -/
  opened : List String := []

namespace Census

/-- A file has been asked for. -/
def ask (c : Census) : Census :=
  { c with asked := c.asked + 1 }

/-- The contents of the file `spec` have been taken. -/
def take (c : Census) (spec : String) : Census :=
  { c with opened := spec :: c.opened }

end Census

/-- A step of loading with a census, which a failure does not undo. -/
abbrev CountedLoader := StateT Graph (ExceptT Failure (StateM Census))

variable {α β : Type} {source : Source} {options : LoadOptions} {g m : Graph} {c c' : Census}
  {fuel : Nat} {path : List String} {spec : String}

namespace CountedLoader

/-- What a counted computation makes of a graph and a census. -/
def outcome (x : CountedLoader α) (g : Graph) (c : Census) : Attempt (α × Graph) × Census :=
  StateT.run (m := Id) (x.run g).run c

/-- A step of loading that asks for nothing. -/
def quiet (x : Loader α) : CountedLoader α :=
  fun g c => (x.run g, c)

/-- Put something on record. -/
def note (f : Census → Census) : CountedLoader Unit :=
  fun g c => (.ok ((), g), f c)

end CountedLoader

open CountedLoader (quiet note)

/-- Load the file `spec` as `Source.loadFile` does, and keep the census. -/
def Source.loadFileCounted (source : Source) (options : LoadOptions) :
    Nat → List String → String → CountedLoader FileId
  | fuel, path, spec => do
      note Census.ask
      let limits := options.limits
      if let some f := (← get).fileOf? spec then
        return f
      if path.contains spec then
        quiet (Loader.fail spec (.includeCycle spec))
      match fuel with
      | 0 => quiet (Loader.fail spec (.includeTooDeep limits.includeDepth))
      | fuel + 1 =>
          if limits.files ≤ (← get).loadedCount + path.length then
            quiet (Loader.fail spec (.tooManyFiles limits.files))
          note (Census.take · spec)
          let ds ← quiet (source.declarations limits spec)
          let includes ← (options.includeSpecs spec ds).mapM
            (source.loadFileCounted options fuel (spec :: path))
          let g ← get
          let f := g.files.size
          let done ← quiet ((g.addFile spec includes).commit limits f ds)
          set done.graph
          return f

/-- Put the transient file in front of a file that has been loaded. -/
def LoadOptions.root (options : LoadOptions) (loaded : FileId × Graph) : Attempt Graph := do
  let rooted := loaded.2.setIncludes transientFile [loaded.1]
  let done ← rooted.commit options.limits transientFile { redefinable := true }
  return done.graph

/-- Load the file `top` and all that it includes as `Source.load` does, and keep the census. -/
def Source.loadCounted (source : Source) (options : LoadOptions) (top : String) :
    Attempt Graph × Census :=
  let (loaded, c) :=
    (source.loadFileCounted options options.limits.includeDepth [] top).outcome {} {}
  (loaded >>= options.root, c)

namespace CountedLoader

/-! ## The census changes nothing -/

theorem outcome_bind (x : CountedLoader α) (k : α → CountedLoader β) :
    (x >>= k).outcome g c =
      match x.outcome g c with
      | (.ok (a, m), c') => (k a).outcome m c'
      | (.error e, c') => (.error e, c') := by
  show ExceptT.bindCont (fun p => k p.1 p.2) (x.outcome g c).1 (x.outcome g c).2 = _
  rcases x.outcome g c with ⟨_ | _, _⟩ <;> rfl

/-- `x` does what `y` does, and keeps a census. -/
def Counts (x : CountedLoader α) (y : Loader α) : Prop :=
  ∀ g c, (x.outcome g c).1 = y.run g

theorem counts_quiet (x : Loader α) : (quiet x).Counts x :=
  fun _ _ => rfl

theorem counts_pure (a : α) : (pure a : CountedLoader α).Counts (pure a) :=
  fun _ _ => rfl

theorem counts_get : (get : CountedLoader Graph).Counts get :=
  fun _ _ => rfl

theorem counts_set (g : Graph) : (set g : CountedLoader PUnit).Counts (set g) :=
  fun _ _ => rfl

theorem Counts.bind {x : CountedLoader α} {y : Loader α} {k : α → CountedLoader β}
    {l : α → Loader β} (hx : x.Counts y) (hk : ∀ a, (k a).Counts (l a)) :
    (x >>= k).Counts (y >>= l) := by
  intro g c
  rw [outcome_bind, StateT.run_bind, ← hx g c]
  rcases x.outcome g c with ⟨_ | ⟨a, m⟩, c'⟩
  · rfl
  · exact hk a m c'

theorem Counts.note_bind {k : Unit → CountedLoader α} {y : Loader α} (f : Census → Census)
    (hk : (k ()).Counts y) : (note f >>= k).Counts y := by
  intro g c
  rw [outcome_bind]
  exact hk g (f c)

/-- A check that may fail before the rest is done. -/
theorem Counts.guard {x : Loader β} {k : CountedLoader α} {l : Loader α} {p : Prop} [Decidable p]
    (hk : k.Counts l) :
    (if p then quiet x >>= fun _ => k else k).Counts (if p then x >>= fun _ => l else l) := by
  split
  · exact (counts_quiet x).bind fun _ => hk
  · exact hk

theorem Counts.mapM {x : β → CountedLoader α} {y : β → Loader α} (hx : ∀ b, (x b).Counts (y b))
    (bs : List β) : (bs.mapM x).Counts (bs.mapM y) := by
  induction bs with
  | nil => exact counts_pure []
  | cons b bs ih =>
    rw [List.mapM_cons, List.mapM_cons]
    exact (hx b).bind fun a => ih.bind fun as => counts_pure _

end CountedLoader

open CountedLoader

theorem counts_loadFileCounted (source : Source) (options : LoadOptions) (fuel : Nat) :
    ∀ path spec, (source.loadFileCounted options fuel path spec).Counts
      (source.loadFile options fuel path spec) := by
  induction fuel with
  | zero =>
    intro path spec
    simp only [Source.loadFileCounted, Source.loadFile]
    refine .note_bind _ (counts_get.bind fun g => ?_)
    cases g.fileOf? spec with
    | some f => exact counts_pure f
    | none => exact .guard (counts_quiet _)
  | succ n ih =>
    intro path spec
    simp only [Source.loadFileCounted, Source.loadFile]
    refine .note_bind _ (counts_get.bind fun g => ?_)
    cases g.fileOf? spec with
    | some f => exact counts_pure f
    | none =>
      refine .guard (counts_get.bind fun g => .guard (.note_bind _ ?_))
      refine (counts_quiet _).bind fun ds => ?_
      refine (Counts.mapM (ih (spec :: path)) _).bind fun includes => ?_
      refine counts_get.bind fun g => ?_
      refine (counts_quiet _).bind fun done => ?_
      exact (counts_set done.graph).bind fun _ => counts_pure g.files.size

/-- A load with a census is that load. -/
theorem loadCounted_load (source : Source) (options : LoadOptions) (top : String) :
    (source.loadCounted options top).1 = source.load options top := by
  have hsame := counts_loadFileCounted source options options.limits.includeDepth [] top {} {}
  have hload : source.load options top =
      (source.loadFile options options.limits.includeDepth [] top).run {} >>= options.root := rfl
  rw [hload, ← hsame]
  rfl

/-! ## Where a counted computation ends -/

namespace CountedLoader

section

variable {Q Q' : α → Graph → Census → Prop} {R : β → Graph → Census → Prop}
  {E E' : Failure → Census → Prop}

/-- Started with `g` and `c`, `x` ends as `Q` says or fails as `E` says. -/
def Ends (x : CountedLoader α) (g : Graph) (c : Census) (Q : α → Graph → Census → Prop)
    (E : Failure → Census → Prop) : Prop :=
  match x.outcome g c with
  | (.ok (a, m), c') => Q a m c'
  | (.error e, c') => E e c'

theorem Ends.mono {x : CountedLoader α} (hx : x.Ends g c Q E) (hQ : ∀ a m c', Q a m c' → Q' a m c')
    (hE : ∀ e c', E e c' → E' e c') : x.Ends g c Q' E' := by
  unfold Ends at hx ⊢
  split
  · next heq =>
    rw [heq] at hx
    exact hQ _ _ _ hx
  · next heq =>
    rw [heq] at hx
    exact hE _ _ hx

theorem ends_bind {x : CountedLoader α} {k : α → CountedLoader β} :
    (x >>= k).Ends g c R E ↔ x.Ends g c (fun a m c' => (k a).Ends m c' R E) E := by
  rw [Ends, outcome_bind, Ends]
  rcases x.outcome g c with ⟨_ | ⟨a, m⟩, c'⟩ <;> rfl

theorem ends_pure {a : α} : (pure a : CountedLoader α).Ends g c Q E ↔ Q a g c :=
  Iff.rfl

theorem ends_get {Q : Graph → Graph → Census → Prop} :
    (get : CountedLoader Graph).Ends g c Q E ↔ Q g g c :=
  Iff.rfl

theorem ends_set {Q : PUnit → Graph → Census → Prop} :
    (set m : CountedLoader PUnit).Ends g c Q E ↔ Q ⟨⟩ m c :=
  Iff.rfl

theorem ends_note {f : Census → Census} {Q : Unit → Graph → Census → Prop} :
    (note f).Ends g c Q E ↔ Q () g (f c) :=
  Iff.rfl

theorem ends_lift {x : Attempt α} :
    (quiet (liftM x : Loader α)).Ends g c Q E ↔
      (∀ a, x = .ok a → Q a g c) ∧ ∀ e, x = .error e → E e c := by
  cases x with
  | ok a =>
    constructor
    · intro h
      refine ⟨?_, fun e he => nomatch he⟩
      intro a' ha
      cases ha
      exact h
    · exact fun h => h.1 a rfl
  | error e =>
    constructor
    · intro h
      refine ⟨fun a ha => (nomatch ha), ?_⟩
      intro e' he
      cases he
      exact h
    · exact fun h => h.2 e rfl

end

/-- What can happen where the file of a spec is asked for.  It is there; or it is refused for a
cycle, for its depth or for the number of files; or its contents are taken, which may fail, its
includes are asked for, and it is committed behind them, which may fail, too. -/
theorem ends_loadFileCounted {Q : FileId → Graph → Census → Prop} {E : Failure → Census → Prop}
    (hfound : ∀ f, g.fileOf? spec = some f → Q f g c.ask)
    (hcycle : spec ∈ path → E ((Cause.includeCycle spec).failure.inFile spec) c.ask)
    (hdeep : g.fileOf? spec = none → spec ∉ path → fuel = 0 →
      E ((Cause.includeTooDeep options.limits.includeDepth).failure.inFile spec) c.ask)
    (hfull : g.fileOf? spec = none → spec ∉ path →
      options.limits.files ≤ g.loadedCount + path.length →
        E ((Cause.tooManyFiles options.limits.files).failure.inFile spec) c.ask)
    (hopen : ∀ n, fuel = n + 1 → g.fileOf? spec = none → spec ∉ path →
      g.loadedCount + path.length < options.limits.files →
        (∀ e, source.declarations options.limits spec = .error e → E e (c.ask.take spec)) ∧
        ∀ ds, source.declarations options.limits spec = .ok ds →
          ((options.includeSpecs spec ds).mapM
            (source.loadFileCounted options n (spec :: path))).Ends g (c.ask.take spec)
              (fun includes m c' =>
                (∀ done, (m.addFile spec includes).commit options.limits m.files.size ds =
                  .ok done → Q m.files.size done.graph c') ∧
                ∀ e, (m.addFile spec includes).commit options.limits m.files.size ds =
                  .error e → E e c') E) :
    (source.loadFileCounted options fuel path spec).Ends g c Q E := by
  unfold Source.loadFileCounted
  simp only [ends_bind, ends_note, ends_get]
  cases hfile : g.fileOf? spec with
  | some f => exact hfound f hfile
  | none =>
    simp only [List.contains_iff_mem]
    split
    · next hpath => exact hcycle hpath
    next hpath =>
    cases fuel with
    | zero => exact hdeep hfile hpath rfl
    | succ n =>
      simp only [ends_bind, ends_get]
      split
      · next hroom => exact hfull hfile hpath hroom
      next hroom =>
      obtain ⟨hunread, hread⟩ := hopen n rfl hfile hpath (Nat.lt_of_not_le hroom)
      simp only [ends_bind, ends_note, ends_lift, ends_get, ends_set, ends_pure]
      exact ⟨hread, hunread⟩

end CountedLoader

end ParameterChain
