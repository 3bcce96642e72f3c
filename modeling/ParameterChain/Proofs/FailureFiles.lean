/-
# Failures name the file in which they arise

Nothing that takes the records of a file apart, checks them or resolves them says in which file
it does so: such a failure is *placeless* until the loader tells it the file.  The loader does so
once, where the failure arises.  On the way out through the files that include it the failure
keeps what it has been told.  It keeps as well what it was told before: a source that names a file
in its own failure knows best, and the loader adds nothing.  The files of a disk come from a source
that never does.

How a load fails is described as a relation (`Source.Stops`), with one rule for each step that
may fail and one for an include that is not loaded.  It says for which spec the load stops, of
which files the loading is still under way then, and with which failure.

Main statements: `loadFile_eq_error` and `fst_apply_eq_error`, by which the relations describe all
failures, and `failure_named`.
-/
import Mathlib
import ParameterChain.Disk
import ParameterChain.Proofs.DeclarationOrder
import ParameterChain.Proofs.Dialogues
import ParameterChain.Proofs.Visits

namespace ParameterChain

variable {source : Source} {options : LoadOptions} {limits : Limits} {top spec : String}
  {path : List String} {g h m : Graph} {f : FileId} {ds : Declarations} {e : Failure}

/-- A failure that has not been told a file. -/
abbrev Placeless (e : Failure) : Prop :=
  e.context.file = none

/-! ## Failures of sequences -/

section Sequences

variable {ε ε' α β : Type}

theorem pure_eq_error {a : α} {e : ε} : ¬ (pure a : Except ε α) = .error e :=
  nofun

/-- A check and what is done when it has passed. -/
theorem check_eq_error {x : Except ε PUnit} {y : Except ε β} {e : ε} :
    (x >>= fun _ => y) = .error e ↔ x = .error e ∨ x = .ok () ∧ y = .error e := by
  rw [bind_eq_error]
  exact or_congr_right ⟨fun ⟨_, hx, hy⟩ => ⟨hx, hy⟩, fun ⟨hx, hy⟩ => ⟨(), hx, hy⟩⟩

theorem mapError_eq_error {x : Except ε α} {t : ε → ε'} {e' : ε'} :
    x.mapError t = .error e' ↔ ∃ e, x = .error e ∧ e' = t e := by
  cases x with
  | ok a => exact ⟨nofun, nofun⟩
  | error e =>
    constructor
    · intro h
      exact ⟨e, rfl, (Except.error.inj h).symm⟩
    · rintro ⟨_, hx, rfl⟩
      cases hx
      rfl

theorem map_eq_error {t : α → β} {x : Except ε α} {e : ε} : x.map t = .error e ↔ x = .error e := by
  cases x with
  | ok a => exact ⟨nofun, nofun⟩
  | error e' =>
    show Except.error e' = Except.error e ↔ _
    rw [Except.error.injEq, Except.error.injEq]

end Sequences

/-! ## Failures of the steps -/

theorem Cause.placeless_failure (c : Cause) : Placeless c.failure :=
  rfl

theorem Resolution.placeless_failure (r : Resolution) (c : Cause) : Placeless (r.failure c) := by
  rw [Resolution.failure]
  split <;> rfl

theorem Record.ofBytes_placeless (limits : Limits) (bytes : ByteArray) :
    FailsOnly Placeless (ofBytes limits bytes) := by
  refine ofBytes_failsOnly (linesOf_failsOnly bytes rfl rfl fun _ => rfl) fun r => ?_
  rw [check]
  split
  · exact .error rfl
  split
  · exact .error rfl
  split
  · exact .error rfl
  · exact .ok _

theorem Declarations.add_placeless (ds : Declarations) (nameAsWritten rawValue : String)
    (line : Nat) : FailsOnly Placeless (ds.add nameAsWritten rawValue line) := by
  rw [add]
  split
  · exact .ok _
  split
  · exact .ok _
  · exact .error rfl

theorem Declarations.featureRows_placeless (ds : Declarations) :
    FailsOnly Placeless ds.featureRows := by
  refine .bind (.mapM fun d _ => ?_) fun rows => .ok _
  split
  · exact .ok _
  · exact .error rfl

namespace Graph

theorem contested_placeless (g : Graph) (f : FileId) (ds : Declarations) :
    FailsOnly Placeless (g.contested f ds) := by
  rw [contested]
  induction g.includesOf f with
  | nil => exact .ok []
  | cons arm later ih =>
    rw [contestedFrom]
    refine .bind (.mapM fun p _ => ?_) fun here => .bind ih fun rest => .ok _
    rw [contestedName]
    split
    · split
      · exact .error rfl
      · split
        · split
          · exact .error rfl
          · exact .ok _
        · exact .ok _
    · split
      · split
        · exact .error rfl
        · exact .ok _
      · exact .ok _

theorem inheritKinds_placeless (g : Graph) (f : FileId) (ds : Declarations) :
    FailsOnly Placeless (g.inheritKinds f ds) := by
  refine .bind (.mapM fun d _ => .foldlM (fun d p _ => ?_) d) fun rows => .ok _
  rw [Declaration.inherit]
  split
  · exact .ok _
  split
  · exact .error rfl
  split
  · exact .error rfl
  · exact .ok _

theorem draftOf_placeless (g : Graph) (limits : Limits) (f : FileId) (o : Outline)
    (d : Declaration) : FailsOnly Placeless (g.draftOf limits f o d) := by
  rw [draftOf]
  split
  · exact .error rfl
  refine .bind ?_ fun resolved => .ok _
  rw [planOf]
  split
  · exact .ok _
  · refine .bind (.mapError (P := fun _ => True) (fun _ _ => trivial) fun c _ =>
      Resolution.placeless_failure _ c) fun resolved => ?_
    split
    · exact .error rfl
    · exact .ok _

theorem checkUnits_placeless (g : Graph) (f : FileId) (drafts : List Parameter) (p : Parameter) :
    FailsOnly Placeless (g.checkUnits f drafts p) := by
  rw [checkUnits]
  split
  · exact .error rfl
  · exact .ok _

theorem checkLengths_placeless (g : Graph) (f : FileId) (drafts : List Parameter)
    (p : Parameter) : FailsOnly Placeless (g.checkLengths f drafts p) := by
  rw [checkLengths]
  split
  · split
    · split
      · exact .ok _
      · exact .error rfl
    · exact .ok _
  · exact .ok _

end Graph

/-! ## Refused declarations -/

/-- The declarations of a file are refused: their outline on `g` fails, or their draft along the
chain of `h`.  Every step before the one that fails succeeds. -/
inductive Graph.Refuses (g h : Graph) (limits : Limits) (f : FileId) (ds : Declarations) :
    Failure → Prop
  | conflict {e : Failure} : g.contested f ds = .error e → Refuses g h limits f ds e
  | inference {ks : List Key} {e : Failure} : g.contested f ds = .ok ks →
      g.inheritKinds f ds = .error e → Refuses g h limits f ds e
  | synthesis {ks : List Key} {kinds : Declarations} {e : Failure} : g.contested f ds = .ok ks →
      g.inheritKinds f ds = .ok kinds → kinds.featureRows = .error e → Refuses g h limits f ds e
  | resolution {o : Outline} {e : Failure} : g.outline f ds = .ok o →
      o.declarations.rows.mapM (h.draftOf limits f o) = .error e → Refuses g h limits f ds e
  | units {o : Outline} {drafts : List Parameter} {e : Failure} : g.outline f ds = .ok o →
      o.declarations.rows.mapM (h.draftOf limits f o) = .ok drafts →
      drafts.forM (h.checkUnits f drafts) = .error e → Refuses g h limits f ds e
  | lengths {o : Outline} {drafts : List Parameter} {e : Failure} : g.outline f ds = .ok o →
      o.declarations.rows.mapM (h.draftOf limits f o) = .ok drafts →
      drafts.forM (h.checkUnits f drafts) = .ok () →
      drafts.forM (h.checkLengths f drafts) = .error e → Refuses g h limits f ds e

namespace Graph

theorem Refuses.placeless (hr : g.Refuses h limits f ds e) : Placeless e := by
  cases hr with
  | conflict he => exact contested_placeless g f ds e he
  | inference _ he => exact inheritKinds_placeless g f ds e he
  | synthesis _ _ he => exact Declarations.featureRows_placeless _ e he
  | resolution _ he => exact FailsOnly.mapM (fun d _ => draftOf_placeless h limits f _ d) e he
  | units _ _ he => exact FailsOnly.forM (fun p _ => checkUnits_placeless h f _ p) e he
  | lengths _ _ _ he => exact FailsOnly.forM (fun p _ => checkLengths_placeless h f _ p) e he

theorem refuses_iff :
    g.Refuses h limits f ds e ↔
      g.outline f ds = .error e ∨ ∃ o, g.outline f ds = .ok o ∧ h.draft limits f o = .error e := by
  have houtline : g.outline f ds = .error e ↔ g.contested f ds = .error e ∨
      ∃ ks, g.contested f ds = .ok ks ∧ (g.inheritKinds f ds = .error e ∨
        ∃ kinds, g.inheritKinds f ds = .ok kinds ∧ kinds.featureRows = .error e) := by
    simp only [outline, bind_eq_error, pure_eq_error, and_false, exists_false, or_false]
  have hdraft : ∀ o, h.draft limits f o = .error e ↔
      o.declarations.rows.mapM (h.draftOf limits f o) = .error e ∨
        ∃ drafts, o.declarations.rows.mapM (h.draftOf limits f o) = .ok drafts ∧
          (drafts.forM (h.checkUnits f drafts) = .error e ∨
            drafts.forM (h.checkUnits f drafts) = .ok () ∧
              drafts.forM (h.checkLengths f drafts) = .error e) := by
    intro o
    rw [draft, bind_eq_error]
    simp only [check_eq_error, pure_eq_error, and_false, or_false]
  constructor
  · intro hr
    cases hr with
    | conflict he => exact .inl (houtline.mpr (.inl he))
    | inference hks he => exact .inl (houtline.mpr (.inr ⟨_, hks, .inl he⟩))
    | synthesis hks hkinds he => exact .inl (houtline.mpr (.inr ⟨_, hks, .inr ⟨_, hkinds, he⟩⟩))
    | resolution ho he => exact .inr ⟨_, ho, (hdraft _).mpr (.inl he)⟩
    | units ho hp he => exact .inr ⟨_, ho, (hdraft _).mpr (.inr ⟨_, hp, .inl he⟩)⟩
    | lengths ho hp hu he => exact .inr ⟨_, ho, (hdraft _).mpr (.inr ⟨_, hp, .inr ⟨hu, he⟩⟩)⟩
  · rintro (he | ⟨o, ho, he⟩)
    · rcases houtline.mp he with he | ⟨ks, hks, he | ⟨kinds, hkinds, he⟩⟩
      · exact .conflict he
      · exact .inference hks he
      · exact .synthesis hks hkinds he
    · rcases (hdraft o).mp he with he | ⟨drafts, hp, he | ⟨hu, he⟩⟩
      · exact .resolution ho he
      · exact .units ho hp he
      · exact .lengths ho hp hu he

/-- A commit that fails tells the failure its file. -/
theorem commit_eq_error :
    g.commit limits f ds = .error e ↔
      ∃ raw, g.Refuses (g.linearize f) limits f ds raw ∧ e = raw.inFile (g.nameOf f) := by
  simp only [commit, Attempt.locate, mapError_eq_error, bind_eq_error, pure_eq_error, and_false,
    exists_false, or_false, refuses_iff]

/-- So does a trial, which takes the chain as it stands. -/
theorem trial_eq_error :
    g.trial limits f ds = .error e ↔
      ∃ raw, g.Refuses g limits f ds raw ∧ e = raw.inFile (g.nameOf f) := by
  simp only [trial, Attempt.locate, mapError_eq_error, bind_eq_error, pure_eq_error, and_false,
    exists_false, or_false, refuses_iff]

theorem fst_process_eq_error {keeps : Bool} :
    (g.process limits f ds keeps).1 = .error e ↔
      ∃ raw, g.Refuses (if keeps then g.linearize f else g) limits f ds raw ∧
        e = raw.inFile (g.nameOf f) := by
  cases keeps with
  | true =>
    rw [if_pos rfl, ← commit_eq_error]
    rcases process_true g limits f ds with ⟨done, hcommit, hprocess⟩ | ⟨e', g', hcommit, hprocess, -⟩
    all_goals rw [hprocess, hcommit]
  | false =>
    rw [if_neg Bool.false_ne_true, ← trial_eq_error, ← (process_false g limits f ds).1,
      map_eq_error]

end Graph

/-! ## Files that cannot be taken apart -/

/-- The file of a spec has no contents, its bytes have no records, or one of its records does
not declare anything; the records before that one do. -/
inductive Source.Unread (source : Source) (limits : Limits) (spec : String) : Failure → Prop
  | reading {e : Failure} : source.contents spec = .error e → Unread source limits spec e
  | records {bytes : ByteArray} {e : Failure} : source.contents spec = .ok bytes →
      Record.ofBytes limits bytes = .error e → Unread source limits spec e
  | declaration {bytes : ByteArray} {before later : List Record} {r : Record} {ds : Declarations}
      {e : Failure} : source.contents spec = .ok bytes →
      Record.ofBytes limits bytes = .ok (before ++ r :: later) →
      before.foldlM (fun ds r => do return (← ds.add r.name r.value r.line).1)
        ({} : Declarations) = .ok ds →
      ds.add r.name r.value r.line = .error e → Unread source limits spec e

/-- A fold ends at the first step that fails. -/
theorem foldlM_eq_error {ε α β : Type} {step : β → α → Except ε β} {xs : List α} {b : β} {e : ε} :
    xs.foldlM step b = .error e ↔
      ∃ before x later b', xs = before ++ x :: later ∧ before.foldlM step b = .ok b' ∧
        step b' x = .error e := by
  induction xs generalizing b with
  | nil =>
    refine ⟨nofun, ?_⟩
    rintro ⟨before, x, later, b', h, -⟩
    exact absurd h.symm (List.append_ne_nil_of_right_ne_nil before (List.cons_ne_nil x later))
  | cons x xs ih =>
    rw [List.foldlM_cons, bind_eq_error]
    constructor
    · rintro (hx | ⟨c, hc, hrest⟩)
      · exact ⟨[], x, xs, b, rfl, rfl, hx⟩
      · obtain ⟨before, y, later, b', rfl, hbefore, hy⟩ := ih.mp hrest
        refine ⟨x :: before, y, later, b', rfl, ?_, hy⟩
        rw [List.foldlM_cons, bind_eq_ok]
        exact ⟨c, hc, hbefore⟩
    · rintro ⟨_ | ⟨z, before⟩, y, later, b', h, hbefore, hy⟩
      · obtain ⟨rfl, rfl⟩ := List.cons.inj h
        rw [List.foldlM_nil, pure_eq_ok] at hbefore
        exact .inl (hbefore ▸ hy)
      · obtain ⟨rfl, rfl⟩ := List.cons.inj h
        rw [List.foldlM_cons, bind_eq_ok] at hbefore
        obtain ⟨c, hc, hbefore⟩ := hbefore
        exact .inr ⟨c, hc, ih.mpr ⟨before, y, later, b', rfl, hbefore, hy⟩⟩

namespace Source

/-- The built-in defaults are always there. -/
theorem contents_eq_error (h : source.contents spec = .error e) : source spec = .error e := by
  rw [contents] at h
  split at h
  · cases h
  · exact h

theorem Unread.placeless_or_source (hu : source.Unread limits spec e) :
    Placeless e ∨ source spec = .error e := by
  cases hu with
  | reading he => exact .inr (contents_eq_error he)
  | records _ he => exact .inl (Record.ofBytes_placeless limits _ e he)
  | declaration _ _ _ he => exact .inl (Declarations.add_placeless _ _ _ _ e he)

theorem declarations_eq_error :
    source.declarations limits spec = .error e ↔
      ∃ raw, source.Unread limits spec raw ∧ e = raw.inFile spec := by
  simp only [declarations, Attempt.locate, mapError_eq_error, bind_eq_error, foldlM_eq_error,
    pure_eq_error, and_false, exists_false, or_false]
  refine exists_congr fun raw => and_congr_left fun _ => ?_
  constructor
  · rintro (he | ⟨bytes, hbytes, he | ⟨_, hrecords, before, r, later, ds, rfl, hds, he⟩⟩)
    · exact .reading he
    · exact .records hbytes he
    · exact .declaration hbytes hrecords hds he
  · intro hu
    cases hu with
    | reading he => exact .inl he
    | records hbytes he => exact .inr ⟨_, hbytes, .inl he⟩
    | declaration hbytes hrecords hds he =>
      exact .inr ⟨_, hbytes, .inr ⟨_, hrecords, _, _, _, _, rfl, hds, he⟩⟩

end Source

/-! ## Where a load stops -/

/-- Where and why a load stops. -/
structure Stop where
  /-- The spec whose loading is asked for, or whose file is being processed. -/
  spec : String
  /-- The specs of the files that are waiting for it, each included by the next. -/
  waiting : List String
  /-- The failure before it is told the file. -/
  failure : Failure

/-- The failure with which the load ends. -/
def Stop.named (stop : Stop) : Failure :=
  stop.failure.inFile stop.spec

namespace Source

/-- A file that is asked for has to be loaded, and may be: it is new, it is not waiting for
itself, and there is room for it. -/
structure Opens (options : LoadOptions) (path : List String) (g : Graph) (spec : String) :
    Prop where
  new : g.fileOf? spec = none
  apart : spec ∉ path
  room : g.loadedCount + path.length < options.limits.files

/-- The load of the file `spec`, for which the files of `path` are waiting and which may be
followed by `fuel` more, stops. -/
inductive Stops (source : Source) (options : LoadOptions) :
    Nat → List String → Graph → String → Stop → Prop
  | cycle {fuel : Nat} {path : List String} {g : Graph} {spec : String} :
      g.fileOf? spec = none → spec ∈ path →
      Stops source options fuel path g spec ⟨spec, path, (Cause.includeCycle spec).failure⟩
  | deep {path : List String} {g : Graph} {spec : String} :
      g.fileOf? spec = none → spec ∉ path →
      Stops source options 0 path g spec
        ⟨spec, path, (Cause.includeTooDeep options.limits.includeDepth).failure⟩
  | crowded {fuel : Nat} {path : List String} {g : Graph} {spec : String} :
      g.fileOf? spec = none → spec ∉ path → options.limits.files ≤ g.loadedCount + path.length →
      Stops source options (fuel + 1) path g spec
        ⟨spec, path, (Cause.tooManyFiles options.limits.files).failure⟩
  | unread {fuel : Nat} {path : List String} {g : Graph} {spec : String} {raw : Failure} :
      Opens options path g spec → source.Unread options.limits spec raw →
      Stops source options (fuel + 1) path g spec ⟨spec, path, raw⟩
  /-- An include is not loaded; the includes before it are. -/
  | included {fuel : Nat} {path : List String} {g m : Graph} {spec b : String}
      {ds : Declarations} {before later : List String} {files : List FileId} {stop : Stop} :
      Opens options path g spec → source.declarations options.limits spec = .ok ds →
      options.includeSpecs spec ds = before ++ b :: later →
      (before.mapM (source.loadFile options fuel (spec :: path))).run g = .ok (files, m) →
      Stops source options fuel (spec :: path) m b stop →
      Stops source options (fuel + 1) path g spec stop
  | refused {fuel : Nat} {path : List String} {g m : Graph} {spec : String} {ds : Declarations}
      {includes : List FileId} {raw : Failure} :
      Opens options path g spec → source.declarations options.limits spec = .ok ds →
      ((options.includeSpecs spec ds).mapM
        (source.loadFile options fuel (spec :: path))).run g = .ok (includes, m) →
      (m.addFile spec includes).Refuses ((m.addFile spec includes).linearize m.files.size)
        options.limits m.files.size ds raw →
      Stops source options (fuel + 1) path g spec ⟨spec, path, raw⟩

end Source

/-! ## Failures of a loader -/

section Loader

variable {α β : Type} {a : α}

theorem Loader.bind_eq_error {x : Loader α} {c : α → Loader β} :
    (x >>= c).run g = .error e ↔
      x.run g = .error e ∨ ∃ a m, x.run g = .ok (a, m) ∧ (c a).run m = .error e := by
  rw [StateT.run_bind, ParameterChain.bind_eq_error, Prod.exists]

theorem Loader.pure_eq_error : ¬ (pure a : Loader α).run g = .error e :=
  nofun

theorem Loader.set_eq_error : ¬ (set m : Loader PUnit).run g = .error e :=
  nofun

theorem Loader.lift_eq_error {x : Attempt α} :
    (liftM x : Loader α).run g = .error e ↔ x = .error e := by
  show (x >>= fun a => pure (a, g)) = Except.error e ↔ _
  simp only [ParameterChain.bind_eq_error, ParameterChain.pure_eq_error, and_false, exists_false,
    or_false]

theorem Loader.run_get_bind {c : Graph → Loader α} : (get >>= c).run g = (c g).run g :=
  rfl

/-- Several files in turn: the load stops at the first that is not loaded. -/
theorem Loader.mapM_eq_error {load : String → Loader FileId} {specs : List String} :
    (specs.mapM load).run g = .error e ↔
      ∃ before b later files m, specs = before ++ b :: later ∧
        (before.mapM load).run g = .ok (files, m) ∧ (load b).run m = .error e := by
  induction specs generalizing g with
  | nil =>
    refine ⟨nofun, ?_⟩
    rintro ⟨before, b, later, files, m, h, -⟩
    exact absurd h.symm (List.append_ne_nil_of_right_ne_nil before (List.cons_ne_nil b later))
  | cons x xs ih =>
    rw [List.mapM_cons, Loader.bind_eq_error]
    constructor
    · rintro (hx | ⟨file, m, hm, hrest⟩)
      · exact ⟨[], x, xs, [], g, rfl, rfl, hx⟩
      · simp only [Loader.bind_eq_error, Loader.pure_eq_error, and_false, exists_false,
          or_false] at hrest
        obtain ⟨before, b, later, files, m', rfl, hbefore, hb⟩ := ih.mp hrest
        refine ⟨x :: before, b, later, file :: files, m', rfl, ?_, hb⟩
        rw [List.mapM_cons, Loader.bind_eq_ok]
        refine ⟨file, m, hm, ?_⟩
        rw [Loader.bind_eq_ok]
        exact ⟨files, m', hbefore, Loader.pure_eq_ok.mpr ⟨rfl, rfl⟩⟩
    · rintro ⟨_ | ⟨z, before⟩, b, later, files, m, h, hbefore, hb⟩
      · obtain ⟨rfl, rfl⟩ := List.cons.inj h
        rw [List.mapM_nil, Loader.pure_eq_ok] at hbefore
        exact .inl (hbefore.2 ▸ hb)
      · obtain ⟨rfl, rfl⟩ := List.cons.inj h
        rw [List.mapM_cons, Loader.bind_eq_ok] at hbefore
        obtain ⟨file, m', hfile, hbefore⟩ := hbefore
        rw [Loader.bind_eq_ok] at hbefore
        obtain ⟨files', m'', hfiles, hend⟩ := hbefore
        obtain ⟨-, rfl⟩ := Loader.pure_eq_ok.mp hend
        refine .inr ⟨file, m', hfile, ?_⟩
        rw [Loader.bind_eq_error]
        exact .inl (ih.mpr ⟨before, b, later, files', m'', rfl, hfiles, hb⟩)

end Loader

namespace Source

variable {fuel : Nat}

theorem nameOf_newest (m : Graph) (spec : String) (includes : List FileId) :
    (m.addFile spec includes).nameOf m.files.size = spec := by
  rw [Graph.nameOf_addFile, if_pos rfl]

theorem loadFile_of_cycle (hnew : g.fileOf? spec = none) (hpath : spec ∈ path) :
    (source.loadFile options fuel path spec).run g =
      .error ((Cause.includeCycle spec).failure.inFile spec) := by
  have hcontains : path.contains spec = true := List.contains_iff_mem.mpr hpath
  unfold loadFile
  rw [Loader.run_get_bind]
  simp only [hnew, hcontains, if_true]
  rfl

theorem loadFile_of_deep (hnew : g.fileOf? spec = none) (hpath : spec ∉ path) :
    (source.loadFile options 0 path spec).run g =
      .error ((Cause.includeTooDeep options.limits.includeDepth).failure.inFile spec) := by
  have hcontains : ¬ path.contains spec = true := fun h => hpath (List.contains_iff_mem.mp h)
  rw [loadFile, Loader.run_get_bind]
  simp only [hnew, if_neg hcontains]
  rfl

theorem loadFile_of_crowded (hnew : g.fileOf? spec = none) (hpath : spec ∉ path)
    (hfull : options.limits.files ≤ g.loadedCount + path.length) :
    (source.loadFile options (fuel + 1) path spec).run g =
      .error ((Cause.tooManyFiles options.limits.files).failure.inFile spec) := by
  have hcontains : ¬ path.contains spec = true := fun h => hpath (List.contains_iff_mem.mp h)
  rw [loadFile, Loader.run_get_bind]
  simp only [hnew, if_neg hcontains, Loader.run_get_bind, if_pos hfull]
  rfl

/-- A file that is opened is not loaded if it cannot be read, one of its includes is not loaded
or its declarations are refused. -/
theorem loadFile_eq_error_of_opens (ho : Opens options path g spec) :
    (source.loadFile options (fuel + 1) path spec).run g = .error e ↔
      source.declarations options.limits spec = .error e ∨
        ∃ ds, source.declarations options.limits spec = .ok ds ∧
          (((options.includeSpecs spec ds).mapM
              (source.loadFile options fuel (spec :: path))).run g = .error e ∨
            ∃ includes m, ((options.includeSpecs spec ds).mapM
                (source.loadFile options fuel (spec :: path))).run g = .ok (includes, m) ∧
              (m.addFile spec includes).commit options.limits m.files.size ds = .error e) := by
  have hcontains : ¬ path.contains spec = true := fun h => ho.apart (List.contains_iff_mem.mp h)
  rw [loadFile, Loader.run_get_bind]
  simp only [ho.new, if_neg hcontains, Loader.run_get_bind, if_neg (Nat.not_le_of_lt ho.room)]
  simp only [Loader.bind_eq_error, Loader.lift_eq_error, Loader.lift_eq_ok, Loader.run_get_bind,
    Loader.set_eq_error, Loader.pure_eq_error, and_false, exists_false, or_false]
  refine or_congr_right ⟨?_, ?_⟩
  · rintro ⟨ds, _, ⟨hds, rfl⟩, hrest⟩
    exact ⟨ds, hds, hrest⟩
  · rintro ⟨ds, hds, hrest⟩
    exact ⟨ds, g, ⟨hds, rfl⟩, hrest⟩

/-- Where a load of a file stops it fails, and the failure is told the file for which it stops:
the files that wait for that one have no say. -/
theorem Stops.loadFile_eq {stop : Stop} (hstop : source.Stops options fuel path g spec stop) :
    (source.loadFile options fuel path spec).run g = .error stop.named := by
  induction hstop with
  | cycle hnew hpath => exact loadFile_of_cycle hnew hpath
  | deep hnew hpath => exact loadFile_of_deep hnew hpath
  | crowded hnew hpath hfull => exact loadFile_of_crowded hnew hpath hfull
  | unread ho hraw =>
    exact (loadFile_eq_error_of_opens ho).mpr (.inl (declarations_eq_error.mpr ⟨_, hraw, rfl⟩))
  | included ho hds hspecs hbefore _ ih =>
    refine (loadFile_eq_error_of_opens ho).mpr (.inr ⟨_, hds, .inl ?_⟩)
    exact Loader.mapM_eq_error.mpr ⟨_, _, _, _, _, hspecs, hbefore, ih⟩
  | refused ho hds hincludes hraw =>
    refine (loadFile_eq_error_of_opens ho).mpr (.inr ⟨_, hds, .inr ⟨_, _, hincludes, ?_⟩⟩)
    refine Graph.commit_eq_error.mpr ⟨_, hraw, ?_⟩
    rw [nameOf_newest]
    rfl

/-- The step of the converse, given that it holds of the loads of the includes. -/
theorem exists_stops_of
    (hbelow : ∀ n, fuel = n + 1 → ∀ path g spec e,
      (source.loadFile options n path spec).run g = .error e →
        ∃ stop, source.Stops options n path g spec stop ∧ e = stop.named)
    (he : (source.loadFile options fuel path spec).run g = .error e) :
    ∃ stop, source.Stops options fuel path g spec stop ∧ e = stop.named := by
  cases hnew : g.fileOf? spec with
  | some f =>
    rw [loadFile_eq_ok_iff.mpr (.inl ⟨hnew, rfl⟩)] at he
    cases he
  | none =>
  by_cases hpath : spec ∈ path
  · rw [loadFile_of_cycle hnew hpath] at he
    exact ⟨_, .cycle hnew hpath, (Except.error.inj he).symm⟩
  cases fuel with
  | zero =>
    rw [loadFile_of_deep hnew hpath] at he
    exact ⟨_, .deep hnew hpath, (Except.error.inj he).symm⟩
  | succ n =>
  by_cases hfull : options.limits.files ≤ g.loadedCount + path.length
  · rw [loadFile_of_crowded hnew hpath hfull] at he
    exact ⟨_, .crowded hnew hpath hfull, (Except.error.inj he).symm⟩
  have ho : Opens options path g spec := ⟨hnew, hpath, Nat.lt_of_not_le hfull⟩
  rcases (loadFile_eq_error_of_opens ho).mp he with
    he | ⟨ds, hds, he | ⟨includes, m, hincludes, he⟩⟩
  · obtain ⟨raw, hraw, rfl⟩ := declarations_eq_error.mp he
    exact ⟨_, .unread ho hraw, rfl⟩
  · obtain ⟨before, b, later, files, m, hspecs, hbefore, hb⟩ := Loader.mapM_eq_error.mp he
    obtain ⟨stop, hstop, rfl⟩ := hbelow n rfl _ _ _ _ hb
    exact ⟨stop, .included ho hds hspecs hbefore hstop, rfl⟩
  · obtain ⟨raw, hraw, rfl⟩ := Graph.commit_eq_error.mp he
    refine ⟨_, .refused ho hds hincludes hraw, ?_⟩
    rw [nameOf_newest]
    rfl

/-- A load of a file fails exactly where it stops. -/
theorem loadFile_eq_error :
    (source.loadFile options fuel path spec).run g = .error e ↔
      ∃ stop, source.Stops options fuel path g spec stop ∧ e = stop.named := by
  constructor
  · induction fuel generalizing path g spec e with
    | zero => exact exists_stops_of fun n hn => nomatch hn
    | succ n ih =>
      refine exists_stops_of fun n' hn path g spec e he => ?_
      cases hn
      exact ih he
  · rintro ⟨stop, hstop, rfl⟩
    exact hstop.loadFile_eq

/-! ## The file that is named -/

/-- Where a load stops, the failure is placeless or is that of the source when asked for the
spec; the waiting files include one another and the last of them the file that is named; and that
file does not wait for itself, unless it is for this that the load stops. -/
theorem Stops.spec_of {stop : Stop} (hstop : source.Stops options fuel path g spec stop)
    (ht : source.Trail options top (spec :: path)) :
    (Placeless stop.failure ∨ source stop.spec = .error stop.failure) ∧
      source.Trail options top (stop.spec :: stop.waiting) ∧
      (stop.spec ∈ stop.waiting → stop.failure = (Cause.includeCycle stop.spec).failure) := by
  induction hstop with
  | cycle _ _ => exact ⟨.inl (Cause.placeless_failure _), ht, fun _ => rfl⟩
  | deep _ hpath => exact ⟨.inl (Cause.placeless_failure _), ht, fun h => absurd h hpath⟩
  | crowded _ hpath _ => exact ⟨.inl (Cause.placeless_failure _), ht, fun h => absurd h hpath⟩
  | unread ho hraw => exact ⟨hraw.placeless_or_source, ht, fun h => absurd h ho.apart⟩
  | included _ hds hspecs _ _ ih =>
    refine ih (.step ht ⟨_, hds, ?_⟩)
    rw [hspecs]
    exact List.mem_append_right _ List.mem_cons_self
  | refused ho _ _ hraw => exact ⟨.inl hraw.placeless, ht, fun h => absurd h ho.apart⟩

end Source

/-- A failure that has not been told a file is of the file that it is told. -/
theorem file_inFile (he : Placeless e) (file : String) :
    (e.inFile file).context.file = some file := by
  show e.context.file.or (some file) = some file
  rw [he, Option.none_or]

/-- One that has been told a file is left as it is. -/
theorem inFile_of_file {named : String} (he : e.context.file = some named) (file : String) :
    e.inFile file = e := by
  obtain ⟨cause, context⟩ := e
  obtain ⟨_, _, _, _, _⟩ := context
  cases he
  rfl

/-- A load fails as the load of its top file does: nothing fails after that. -/
theorem load_eq_error :
    Session.load source options top = .error e ↔
      ∃ stop, source.Stops options options.limits.includeDepth [] {} top stop ∧
        e = stop.named := by
  rw [← Source.loadFile_eq_error]
  have hsession : Session.load source options top = .error e ↔
      source.load options top = .error e := by
    rw [Session.load, bind_eq_error]
    simp only [pure_eq_error, and_false, exists_false, or_false]
  rw [hsession]
  cases hl : (source.loadFile options options.limits.includeDepth [] top).run {} with
  | ok loaded =>
    rw [load_eq_ok_of_loadFile hl]
    constructor
    · intro h
      cases h
    · intro h
      cases h
  | error e' =>
    have hfails : source.load options top = .error e' := by
      rw [Source.load, hl]
      rfl
    rw [hfails, Except.error.injEq, Except.error.injEq]

/-- The file that the failure of a load names is the one for which the load stops, unless the
source has named a file itself: then the failure is the source's, unchanged. -/
theorem Source.Stops.file_named {stop : Stop}
    (hstop : source.Stops options options.limits.includeDepth [] {} top stop) :
    stop.named.context.file = some stop.spec ∨
      source stop.spec = .error stop.named ∧ stop.named.context.file.isSome = true := by
  obtain ⟨hfile | hsource, -, -⟩ := hstop.spec_of .top
  · exact .inl (file_inFile hfile stop.spec)
  · cases hfile : stop.failure.context.file with
    | none => exact .inl (file_inFile hfile stop.spec)
    | some named =>
      have hkept : stop.named = stop.failure := inFile_of_file hfile stop.spec
      rw [hkept, hfile]
      exact .inr ⟨hsource, rfl⟩

/-! ## Files of a disk -/

theorem Disk.source_placeless (d : Disk) (directory : DiskPath) (spec : String) :
    FailsOnly Placeless (d.source directory spec) :=
  .mapError (P := fun _ => True) (fun _ _ => trivial) fun _ _ => rfl

/-- A path that ends in no name leads to no file, and none is asked for. -/
theorem Session.open_eq_error {d : Disk} {location : String} :
    Session.open d options location = .error e ↔
      (DiskPath.ofText location).split? = none ∧ e = .cannotOpen location "not a file" ∨
      ∃ directory name, (DiskPath.ofText location).split? = some (directory, name) ∧
        Session.load (d.source directory) options name = .error e := by
  rw [Session.open]
  cases hsplit : (DiskPath.ofText location).split? with
  | none =>
    constructor
    · intro h
      exact .inl ⟨rfl, (Except.error.inj h).symm⟩
    · rintro (⟨-, rfl⟩ | ⟨_, _, h, -⟩)
      · rfl
      · cases h
  | some parts =>
    obtain ⟨directory, name⟩ := parts
    constructor
    · intro h
      exact .inr ⟨directory, name, rfl, h⟩
    · rintro (⟨h, -⟩ | ⟨_, _, h, hload⟩)
      · cases h
      · cases h
        exact hload

/-- The failure to load a file of a disk names the file for which the load stops. -/
theorem Disk.file_named {d : Disk} {directory : DiskPath} {stop : Stop}
    (hstop : (d.source directory).Stops options options.limits.includeDepth [] {} top stop) :
    stop.named.context.file = some stop.spec := by
  obtain ⟨hfile | hsource, -, -⟩ := hstop.spec_of .top
  · exact file_inFile hfile stop.spec
  · exact file_inFile (d.source_placeless directory stop.spec _ hsource) stop.spec

/-! ## Refused edits -/

/-- An edit is refused: its name does not declare anything or is that of an include, what it
hides is not changeable, or its declaration is refused.  An edit that is only tried may hide
anything, and is resolved along the chain as it stands. -/
inductive Session.Refuses (s : Session) (c : Change) (keeps : Bool) : Failure → Prop
  | undeclared {e : Failure} :
      ({ redefinable := true } : Declarations).add c.name c.rawValue 0 = .error e →
      Refuses s c keeps e
  | inclusion {ds : Declarations} :
      ({ redefinable := true } : Declarations).add c.name c.rawValue 0 = .ok (ds, none) →
      Refuses s c keeps (Cause.includeAfterLoad.failure.about c.name)
  | fixed {ds : Declarations} {d : Declaration} {p : Parameter} : keeps = true →
      c.declarations = .ok (ds, d) → c.exempts d = false → s.graph.visible? d.key = some p →
      p.changeable = false →
      Refuses s c keeps
        (((Cause.notChangeable d.name.text).failure.about c.name).withValue c.rawValue)
  | refused {ds : Declarations} {d : Declaration} {e : Failure} :
      c.declarations = .ok (ds, d) → (keeps = true → s.requireChangeable c d = .ok ()) →
      s.graph.Refuses (if keeps then s.graph.linearize transientFile else s.graph) s.limits
        transientFile ds e →
      Refuses s c keeps e

namespace Session

variable {s : Session} {c : Change} {d : Declaration} {keeps : Bool}

theorem Refuses.placeless (hr : s.Refuses c keeps e) : Placeless e := by
  cases hr with
  | undeclared he => exact Declarations.add_placeless _ _ _ _ e he
  | inclusion _ => rfl
  | fixed _ _ _ _ _ => rfl
  | refused _ _ he => exact he.placeless

theorem declarations_eq_error :
    c.declarations = .error e ↔
      ∃ raw, (({ redefinable := true } : Declarations).add c.name c.rawValue 0 = .error raw ∨
        ∃ ds, ({ redefinable := true } : Declarations).add c.name c.rawValue 0 = .ok (ds, none) ∧
          raw = Cause.includeAfterLoad.failure.about c.name) ∧ e = raw.inFile transientName := by
  rw [Change.declarations, Attempt.locate, mapError_eq_error]
  refine exists_congr fun raw => and_congr_left fun _ => ?_
  rw [bind_eq_error, Prod.exists]
  refine or_congr_right (exists_congr fun ds => ?_)
  constructor
  · rintro ⟨_ | d, hadd, hraw⟩
    · exact ⟨hadd, (Except.error.inj hraw).symm⟩
    · cases hraw
  · rintro ⟨hadd, rfl⟩
    exact ⟨none, hadd, rfl⟩

theorem requireChangeable_eq_error :
    s.requireChangeable c d = .error e ↔
      c.exempts d = false ∧ (∃ p, s.graph.visible? d.key = some p ∧ p.changeable = false) ∧
        e = ((((Cause.notChangeable d.name.text).failure.about c.name).withValue
          c.rawValue).inFile transientName) := by
  rw [requireChangeable]
  split
  · next hrefuses =>
    rw [Bool.and_eq_true, Bool.not_eq_true', Option.any_eq_true] at hrefuses
    obtain ⟨hexempts, p, hp, hfixed⟩ := hrefuses
    have hfixed : p.changeable = false := by simpa using hfixed
    rw [Except.error.injEq]
    exact ⟨fun h => ⟨hexempts, ⟨p, hp, hfixed⟩, h.symm⟩, fun h => h.2.2.symm⟩
  · next hallows =>
    constructor
    · intro h
      cases h
    · rintro ⟨hexempts, ⟨p, hp, hfixed⟩, -⟩
      exact absurd (by simp [hexempts, hp, hfixed]) hallows

/-- The check of what an edit hides, which is made of edits that are to be kept. -/
def requireAllowed (s : Session) (c : Change) (keeps : Bool) (d : Declaration) : Attempt Unit :=
  if keeps then s.requireChangeable c d else .ok ()

/-- What an attempt gives is what its steps give in turn: the declaration, the check of what it
hides, and its processing. -/
theorem fst_apply (s : Session) (c : Change) (keeps : Bool) :
    (s.apply c keeps).1 = (do
      let made ← c.declarations
      s.requireAllowed c keeps made.2
      let _ ← (s.graph.process s.limits transientFile made.1 keeps).1
      return made.2.name) := by
  have hguard : ∀ d, (if keeps then s.requireChangeable c d else .ok ()) =
      s.requireAllowed c keeps d := fun d => rfl
  rw [apply]
  cases c.declarations with
  | error e => rfl
  | ok made =>
    obtain ⟨ds, d⟩ := made
    simp only [hguard]
    simp only [bind, Except.bind]
    cases s.requireAllowed c keeps d with
    | error e => rfl
    | ok =>
      rcases s.graph.process s.limits transientFile ds keeps with ⟨_ | _, g⟩ <;> rfl

/-- An edit that is attempted fails exactly where it is refused, and the failure is told the
transient file. -/
theorem fst_apply_eq_error (hname : s.graph.nameOf transientFile = transientName) :
    (s.apply c keeps).1 = .error e ↔
      ∃ raw, s.Refuses c keeps raw ∧ e = raw.inFile transientName := by
  have hprocess : ∀ ds, (s.graph.process s.limits transientFile ds keeps).1 = .error e ↔
      ∃ raw, s.graph.Refuses (if keeps then s.graph.linearize transientFile else s.graph)
        s.limits transientFile ds raw ∧ e = raw.inFile transientName := by
    intro ds
    rw [Graph.fst_process_eq_error, hname]
  rw [fst_apply]
  simp only [bind_eq_error, pure_eq_error, and_false, exists_false, or_false,
    declarations_eq_error, hprocess, Prod.exists]
  constructor
  · rintro (⟨raw, hraw | ⟨ds, hds, rfl⟩, rfl⟩ | ⟨ds, d, hc, hguard | ⟨⟨⟩, hguard, raw, hraw, rfl⟩⟩)
    · exact ⟨raw, .undeclared hraw, rfl⟩
    · exact ⟨_, .inclusion hds, rfl⟩
    · rw [requireAllowed] at hguard
      split at hguard
      · next hkeeps =>
        obtain ⟨hexempts, ⟨p, hp, hfixed⟩, rfl⟩ := requireChangeable_eq_error.mp hguard
        exact ⟨_, .fixed hkeeps hc hexempts hp hfixed, rfl⟩
      · cases hguard
    · refine ⟨raw, .refused hc (fun hkeeps => ?_) hraw, rfl⟩
      rwa [requireAllowed, if_pos hkeeps] at hguard
  · rintro ⟨raw, hraw, rfl⟩
    cases hraw with
    | undeclared he => exact .inl ⟨raw, .inl he, rfl⟩
    | inclusion hds => exact .inl ⟨_, .inr ⟨_, hds, rfl⟩, rfl⟩
    | fixed hkeeps hc hexempts hp hfixed =>
      refine .inr ⟨_, _, hc, .inl ?_⟩
      rw [requireAllowed, if_pos hkeeps]
      exact requireChangeable_eq_error.mpr ⟨hexempts, ⟨_, hp, hfixed⟩, rfl⟩
    | refused hc hguard he =>
      refine .inr ⟨_, _, hc, .inr ⟨(), ?_, raw, he, rfl⟩⟩
      unfold requireAllowed
      split
      · next hkeeps => exact hguard hkeeps
      · rfl

end Session

/-- Every failure of a load names a file, and every failure of an edit the transient file.

  * A load fails exactly where it stops.  The file that the failure names is the one whose loading
    is asked for, or which is being processed, at that moment, unless it is the source that fails
    when asked for that file and has named one itself: then its failure is handed on unchanged.
  * The load stops for the top file or for one to which includes lead from there, through the
    files that are waiting for it, and it is none of these, unless the load stops because the file
    would have to wait for itself.
  * An edit of a loaded session, whatever has been done to it, fails exactly where it is refused.
  * A disk names no files itself, so that a load from a disk names the one for which it stops.  A
    path that ends in no name is refused before any file is asked for, and then no file is
    named. -/
theorem failure_named (source : Source) (options : LoadOptions) (top : String) :
    (∀ e, Session.load source options top = .error e →
      ∃ stop, source.Stops options options.limits.includeDepth [] {} top stop ∧
        e = stop.named ∧
        (e.context.file = some stop.spec ∨
          source stop.spec = .error e ∧ e.context.file.isSome = true) ∧
        source.Leads options top stop.spec ∧
        source.Trail options top (stop.spec :: stop.waiting) ∧
        (stop.spec ∈ stop.waiting → stop.failure = (Cause.includeCycle stop.spec).failure)) ∧
    (∀ stop, source.Stops options options.limits.includeDepth [] {} top stop →
      Session.load source options top = .error stop.named) ∧
    (∀ s s' : Session, Session.load source options top = .ok s → s.Reaches s' →
      ∀ (c : Change) (keeps : Bool),
        (∀ e, (s'.apply c keeps).1 = .error e → e.context.file = some transientName ∧
          ∃ raw, s'.Refuses c keeps raw ∧ e = raw.inFile transientName) ∧
        ∀ raw, s'.Refuses c keeps raw →
          (s'.apply c keeps).1 = .error (raw.inFile transientName)) ∧
    ∀ (d : Disk) (location : String) (e : Failure), Session.open d options location = .error e →
      (DiskPath.ofText location).split? = none ∧ e = .cannotOpen location "not a file" ∧
          Placeless e ∨
        ∃ directory name stop, (DiskPath.ofText location).split? = some (directory, name) ∧
          (d.source directory).Stops options options.limits.includeDepth [] {} name stop ∧
          e = stop.named ∧ e.context.file = some stop.spec := by
  refine ⟨fun e he => ?_, fun stop hstop => load_eq_error.mpr ⟨stop, hstop, rfl⟩, ?_, ?_⟩
  · obtain ⟨stop, hstop, rfl⟩ := load_eq_error.mp he
    obtain ⟨-, htrail, hcycle⟩ := hstop.spec_of .top
    exact ⟨stop, hstop, rfl, hstop.file_named, htrail.leads stop.spec List.mem_cons_self, htrail,
      hcycle⟩
  · intro s s' hload hreach c keeps
    have hname := (hreach.rooted (Session.rooted_load hload)).nameOf_transientFile
    refine ⟨fun e he => ?_, fun raw hraw => (Session.fst_apply_eq_error hname).mpr ⟨raw, hraw, rfl⟩⟩
    obtain ⟨raw, hraw, rfl⟩ := (Session.fst_apply_eq_error hname).mp he
    exact ⟨file_inFile hraw.placeless transientName, raw, hraw, rfl⟩
  · intro d location e he
    rcases Session.open_eq_error.mp he with ⟨hsplit, rfl⟩ | ⟨directory, name, hsplit, hload⟩
    · exact .inl ⟨hsplit, rfl, rfl⟩
    · obtain ⟨stop, hstop, rfl⟩ := load_eq_error.mp hload
      exact .inr ⟨directory, name, stop, hsplit, hstop, rfl, Disk.file_named hstop⟩

/-- The failure to unpack an archive, which names it. -/
def damage : Failure :=
  (Cause.reported .unreadable "the archive is damaged").failure.inFile "parts.tar"

/-- An archive that cannot be unpacked, whatever file of it is asked for. -/
def damagedArchive : Source := fun _ => .error damage

/-- The load stops at the top file already. -/
theorem load_damagedArchive : Session.load damagedArchive {} "top" = .error damage := by
  have hopens : Source.Opens {} [] {} "top" :=
    { new := rfl, apart := List.not_mem_nil, room := by decide }
  have hcontents : damagedArchive.contents "top" = .error damage := by
    rw [Source.contents, if_neg (by decide)]
    rfl
  exact load_eq_error.mpr ⟨⟨"top", [], damage⟩, .unread hopens (.reading hcontents), rfl⟩

/-- The failure of such a load names the archive, to which no include leads; and that of a path
which ends in no name does not name anything. -/
theorem file_damagedArchive :
    (∃ e, Session.load damagedArchive {} "top" = .error e ∧
      e.context.file = some "parts.tar" ∧ ¬ damagedArchive.Leads {} "top" "parts.tar") ∧
    ∃ e, Session.open (FileTree.ofFiles [("top.txt", "u:X = 1".toUTF8)]).disk {} ".." = .error e ∧
      e.context.file = none := by
  have hsplit : (DiskPath.ofText "..").split? = none := by cbv
  refine ⟨⟨damage, load_damagedArchive, rfl, ?_⟩, .cannotOpen ".." "not a file",
    Session.open_eq_error.mpr (.inl ⟨hsplit, rfl⟩), rfl⟩
  intro hleads
  rcases Relation.ReflTransGen.cases_head hleads with h | ⟨b, ⟨ds, hds, -⟩, -⟩
  · exact absurd h (by decide)
  · cases hds

/-- A file that includes one whose only record has a kind that does not exist. -/
def misdeclaredBase : Source := fun spec =>
  if spec = "base" then .ok "q:X = 1".toUTF8
  else if spec = "top" then .ok "includeFile = base\nu:Y = 1".toUTF8
  else .error (.cannotOpen spec "no such file")

/-- The included file is named, not the one that includes it; an archive is named by itself; the
edit of a parameter that is not changeable is refused in the name of the transient file; and where
nothing is on a disk, the file that is missing is named. -/
theorem failure_named_misdeclaredBase :
    (∃ e stop, Session.load misdeclaredBase { withDefaults := false } "top" = .error e ∧
      misdeclaredBase.Stops { withDefaults := false } ({} : Limits).includeDepth [] {} "top" stop ∧
      stop.spec = "base" ∧ e.context.file = some "base" ∧
      misdeclaredBase.Leads { withDefaults := false } "top" "base" ∧
      Session.load misdeclaredBase { withDefaults := false } "top" = .error stop.named) ∧
    (∃ spec, Session.load damagedArchive {} "top" = .error damage ∧
      damage.context.file = some "parts.tar" ∧ damagedArchive spec = .error damage ∧
      damagedArchive.Leads {} "top" spec) ∧
    (∃ s, Session.load Session.sharedArms { withDefaults := false } "top" = .ok s ∧
      s.Reaches (s.run Session.sharedEdits) ∧
      ∃ e raw, ((s.run Session.sharedEdits).apply ⟨"Y", "1", false⟩ true).1 = .error e ∧
        (s.run Session.sharedEdits).Refuses ⟨"Y", "1", false⟩ true raw ∧
        e.context.file = some transientName) ∧
    ∃ (e : Failure) (stop : Stop), Session.open (FileTree.ofFiles []).disk {} "top" = .error e ∧
      e = stop.named ∧ e.context.file = some stop.spec := by
  refine ⟨?_, ?_, ?_, ?_⟩
  · have hfails : failsWhere (fun e => e.context.file == some "base")
        (Session.load misdeclaredBase { withDefaults := false } "top") = true := by
      decide +kernel
    obtain ⟨e, hload, htest⟩ := failsWhere_eq_true.mp hfails
    have hfile : e.context.file = some "base" := eq_of_beq htest
    obtain ⟨hnames, hstops, -⟩ := failure_named misdeclaredBase { withDefaults := false } "top"
    obtain ⟨stop, hstop, -, hspec | ⟨hsource, -⟩, hleads, -⟩ := hnames e hload
    · have hbase : stop.spec = "base" := Option.some.inj (hspec.symm.trans hfile)
      exact ⟨e, stop, hload, hstop, hbase, hfile, hbase ▸ hleads, hstops stop hstop⟩
    · rw [misdeclaredBase] at hsource
      split_ifs at hsource
      cases hsource
      cases hfile
  · obtain ⟨stop, -, -, hspec | ⟨hsource, -⟩, hleads, -⟩ :=
      (failure_named damagedArchive {} "top").1 damage load_damagedArchive
    · exact ⟨stop.spec, load_damagedArchive, rfl, rfl, hleads⟩
    · exact ⟨stop.spec, load_damagedArchive, rfl, hsource, hleads⟩
  · have hfails : ((Session.load Session.sharedArms { withDefaults := false } "top").toOption.any
        fun s => !((s.run Session.sharedEdits).apply ⟨"Y", "1", false⟩ true).1.toOption.isSome) =
          true := by
      decide +kernel
    obtain ⟨s, hs, hrefused⟩ := (Option.any_eq_true _ _).mp hfails
    have hload := toOption_eq_some.mp hs
    have hreach : s.Reaches (s.run Session.sharedEdits) := ⟨Session.sharedEdits, rfl⟩
    cases happly : ((s.run Session.sharedEdits).apply ⟨"Y", "1", false⟩ true).1 with
    | ok name =>
      rw [happly] at hrefused
      cases hrefused
    | error e =>
      obtain ⟨-, -, hedits, -⟩ := failure_named Session.sharedArms { withDefaults := false } "top"
      obtain ⟨hfile, raw, hraw, -⟩ :=
        (hedits s _ hload hreach ⟨"Y", "1", false⟩ true).1 e happly
      exact ⟨s, hload, hreach, e, raw, happly, hraw, hfile⟩
  · have hfails : (Session.open (FileTree.ofFiles []).disk {} "top").toOption.isNone = true := by
      cbv
    have hsplit : (DiskPath.ofText "top").split?.isSome = true := by cbv
    cases hopen : Session.open (FileTree.ofFiles []).disk {} "top" with
    | ok s =>
      rw [hopen] at hfails
      cases hfails
    | error e =>
      rcases (failure_named damagedArchive {} "top").2.2.2 _ _ e hopen with
        ⟨hnone, -⟩ | ⟨directory, name, stop, -, -, hnamed, hfile⟩
      · rw [hnone] at hsplit
        cases hsplit
      · exact ⟨e, stop, rfl, hnamed, hfile⟩

end ParameterChain
