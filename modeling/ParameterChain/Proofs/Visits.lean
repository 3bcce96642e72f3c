/-
# A load visits every file once

From the spec that is loaded, includes lead on to other specs (`Source.Leads`).  A load that
succeeds has one file for each of them and takes the contents of each from the source once.  It
cannot succeed if includes lead from a spec back to itself.

Where a load stops, the census is in order as well (`Underway`): no contents are taken twice, none
are taken of a spec that is not led to, and no file is asked for but by the includes of one that
has been read.  So a load takes as many steps as these files have includes, at most.

Only the loader itself refuses an include (`commit_followed`, `declarations_followed`), so what it
says of the includes is so: there is a cycle, or there are more specs than files are allowed.

Main statement: `visits_of_load`.
-/
import Mathlib.Algebra.GroupWithZero.Nat
import ParameterChain.Proofs.Census
import ParameterChain.Proofs.Conflicts
import ParameterChain.Proofs.IncludeOrder
import ParameterChain.Proofs.Records

namespace ParameterChain

open ParameterChain.Graph (size_commit nameOf_commit includesOf_commit)

variable {source : Source} {options : LoadOptions} {limits : Limits} {top spec a b x : String}
  {path : List String} {g m g' : Graph} {f h : FileId} {c : Census} {due : Nat}
  {ds : Declarations} {done : Commit}

/-! ## Where includes lead -/

namespace Source

/-- The file `a` can be read and includes `b`. -/
def Lists (source : Source) (options : LoadOptions) (a b : String) : Prop :=
  ∃ ds, source.declarations options.limits a = .ok ds ∧ b ∈ options.includeSpecs a ds

/-- Includes lead from `top` to `spec`. -/
def Leads (source : Source) (options : LoadOptions) (top spec : String) : Prop :=
  Relation.ReflTransGen (source.Lists options) top spec

/-- Specs, each of which is included by the next; the last one is `top`. -/
inductive Trail (source : Source) (options : LoadOptions) (top : String) : List String → Prop
  | top : Trail source options top [top]
  | step {a b : String} {path : List String} :
      Trail source options top (a :: path) → source.Lists options a b →
        Trail source options top (b :: a :: path)

theorem Trail.leads (ht : source.Trail options top path) :
    ∀ a ∈ path, source.Leads options top a := by
  induction ht with
  | top =>
    intro a ha
    rw [List.mem_singleton.mp ha]
    exact .refl
  | step _ hlists ih =>
    intro a ha
    rcases List.mem_cons.mp ha with rfl | ha
    · exact (ih _ List.mem_cons_self).tail hlists
    · exact ih a ha

/-- Includes lead from every spec of a trail to the first one. -/
theorem Trail.transGen (ht : source.Trail options top path) :
    ∀ b ∈ path.head?, ∀ x ∈ path.tail, Relation.TransGen (source.Lists options) x b := by
  induction ht with
  | top => exact fun b _ x hx => absurd hx List.not_mem_nil
  | step _ hlists ih =>
    intro b hb x hx
    cases hb
    rcases List.mem_cons.mp hx with rfl | hx
    · exact .single hlists
    · exact (ih _ rfl x hx).tail hlists

/-- How many includes the file of a spec has, if it can be read. -/
def width (source : Source) (options : LoadOptions) (spec : String) : Nat :=
  match source.declarations options.limits spec with
  | .ok ds => (options.includeSpecs spec ds).length
  | .error _ => 0

theorem width_of_declarations (hds : source.declarations options.limits spec = .ok ds) :
    source.width options spec = (options.includeSpecs spec ds).length := by
  rw [width, hds]

end Source

/-! ## Only the loader refuses an include -/

/-- A failure that is not for an include that is not followed. -/
abbrev Followed (e : Failure) : Prop :=
  e.cause.refusesInclude = false

/-- Nothing that is committed is refused for its includes. -/
theorem commit_followed (g : Graph) (limits : Limits) (f : FileId) (ds : Declarations) :
    FailsOnly Followed (g.commit limits f ds) := by
  refine .mapError (.bind ?_ fun o => .bind ?_ fun drafts => .ok _) fun e he => he
  · refine .bind ((Graph.contested_failsOnly g f ds).mono fun _ => And.left) fun ks => ?_
    refine .bind ((Graph.inheritKinds_failsOnly g f ds).mono fun _ he => he.1.2) fun ds => ?_
    exact .bind ((Graph.featureRows_failsOnly ds).mono fun _ he => he.1.2) fun rows => .ok _
  · refine (Graph.draft_failsOnly _ limits f o).mono ?_
    rintro e (he | ⟨-, he⟩)
    · exact he.2
    · show e.cause.refusesInclude = false
      rw [he]
      rfl

theorem ofBytes_followed (limits : Limits) (bytes : ByteArray) :
    FailsOnly Followed (Record.ofBytes limits bytes) := by
  refine Record.ofBytes_failsOnly (Record.linesOf_failsOnly bytes rfl rfl fun _ => rfl) fun r => ?_
  rw [Record.check]
  split
  · exact .error rfl
  split
  · exact .error rfl
  split
  · exact .error rfl
  · exact .ok _

theorem declare_followed (ds : Declarations) (nameAsWritten rawValue : String) (line : Nat) :
    FailsOnly (fun c => c.refusesInclude = false) (ds.declare nameAsWritten rawValue line) := by
  have hheading : FailsOnly (fun c => c.refusesInclude = false) (Heading.ofText nameAsWritten) := by
    rw [Heading.ofText]
    split
    · split
      · exact .error rfl
      · exact .ok _
    · split
      · exact .error rfl
      split
      · exact .error rfl
      split
      · exact .error rfl
      · dsimp only
        split
        · exact .ok _
        · exact .error rfl
  refine .bind hheading fun heading => ?_
  exact .guarded (.error rfl) (.guarded (.error rfl) (.ok _))

theorem add_followed (ds : Declarations) (nameAsWritten rawValue : String) (line : Nat) :
    FailsOnly Followed (ds.add nameAsWritten rawValue line) := by
  rw [Declarations.add]
  split
  · exact .ok _
  split
  · exact .ok _
  · next c hc => exact .error (declare_followed ds nameAsWritten rawValue line c hc)

/-- Where a file cannot be read the source says so, or it is not refused for its includes. -/
theorem declarations_followed (source : Source) (limits : Limits) (spec : String) :
    FailsOnly (fun e => (∃ raw, source spec = .error raw ∧ e = raw.inFile spec) ∨ Followed e)
      (source.declarations limits spec) := by
  have hcontents : FailsOnly (fun raw => source spec = .error raw ∨ Followed raw)
      (source.contents spec) := by
    rw [Source.contents]
    split
    · exact .ok _
    · exact fun raw hraw => Or.inl hraw
  refine .mapError (.bind hcontents fun bytes => .bind ?_ fun records => ?_)
    fun raw => Or.imp_left fun hraw => ⟨raw, hraw, rfl⟩
  · exact (ofBytes_followed limits bytes).mono fun _ => Or.inr
  · refine .foldlM (fun ds r _ => ?_) _
    exact (((add_followed ds _ _ _).mono fun _ => Or.inr).bind fun added => .ok _)

/-! ## A load under way -/

/-- A census that is in order when `due` more files are to be asked for: every file but the first
is asked for by an include of one that has been read. -/
structure Tally (source : Source) (options : LoadOptions) (top : String) (due : Nat)
    (c : Census) : Prop where
  nodup : c.opened.Nodup
  led : ∀ x ∈ c.opened, source.Leads options top x
  room : c.opened.length ≤ options.limits.files
  asked : c.asked + due ≤ 1 + (c.opened.map (source.width options)).sum

theorem Tally.ask (hc : Tally source options top (due + 1) c) :
    Tally source options top due c.ask where
  nodup := hc.nodup
  led := hc.led
  room := hc.room
  asked := by
    have hasked := hc.asked
    show c.asked + 1 + due ≤ 1 + (c.opened.map (source.width options)).sum
    omega

/-- The includes of a file whose contents are taken are due. -/
theorem Tally.take (hc : Tally source options top due c) (hnew : spec ∉ c.opened)
    (hled : source.Leads options top spec) (hroom : c.opened.length < options.limits.files) :
    Tally source options top (due + source.width options spec) (c.take spec) where
  nodup := List.nodup_cons.mpr ⟨hnew, hc.nodup⟩
  led := by
    intro x hx
    rcases List.mem_cons.mp hx with rfl | hx
    · exact hled
    · exact hc.led x hx
  room := hroom
  asked := by
    have hasked := hc.asked
    show c.asked + (due + source.width options spec) ≤
      1 + ((spec :: c.opened).map (source.width options)).sum
    rw [List.map_cons, List.sum_cons]
    omega

theorem Tally.stop (hc : Tally source options top due c) : Tally source options top 0 c where
  nodup := hc.nodup
  led := hc.led
  room := hc.room
  asked := Nat.le_trans (Nat.le_add_right _ _) hc.asked

/-- A load that has come to `path`, with `due` more files to be asked for.  The contents taken are
those of the files on the path and of the files in the graph, and no file is both. -/
structure Underway (source : Source) (options : LoadOptions) (top : String) (path : List String)
    (due : Nat) (g : Graph) (c : Census) : Prop where
  tally : Tally source options top due c
  nonempty : 0 < g.files.size
  opened : ∀ x, x ∈ c.opened ↔ x ∈ path ∨ ∃ f, g.fileOf? x = some f
  waiting : ∀ x ∈ path, g.fileOf? x = none
  count : c.opened.length = g.loadedCount + path.length

theorem Underway.ask (hu : Underway source options top path (due + 1) g c) :
    Underway source options top path due g c.ask where
  tally := hu.tally.ask
  nonempty := hu.nonempty
  opened := hu.opened
  waiting := hu.waiting
  count := hu.count

theorem Underway.not_mem_opened (hu : Underway source options top path due g c)
    (hnone : g.fileOf? spec = none) (hpath : spec ∉ path) : spec ∉ c.opened := by
  intro hmem
  rcases (hu.opened spec).mp hmem with hmem | ⟨f, hf⟩
  · exact hpath hmem
  · rw [hnone] at hf
    cases hf

/-- A file that is neither on the path nor in the graph is put on the path. -/
theorem Underway.take (hu : Underway source options top path due g c)
    (hnone : g.fileOf? spec = none) (hpath : spec ∉ path)
    (hled : source.Leads options top spec)
    (hroom : g.loadedCount + path.length < options.limits.files) :
    Underway source options top (spec :: path) (due + source.width options spec) g
      (c.take spec) where
  tally := hu.tally.take (hu.not_mem_opened hnone hpath) hled (hu.count ▸ hroom)
  nonempty := hu.nonempty
  opened := by
    intro x
    show x ∈ spec :: c.opened ↔ _
    rw [List.mem_cons, List.mem_cons, hu.opened x, or_assoc]
  waiting := by
    intro x hx
    rcases List.mem_cons.mp hx with rfl | hx
    · exact hnone
    · exact hu.waiting x hx
  count := congrArg Nat.succ hu.count

theorem fileOf?_commit {includes : List FileId} (hm : 0 < m.files.size)
    (hc : (m.addFile spec includes).commit limits m.files.size ds = .ok done) (x : String) :
    done.graph.fileOf? x = (m.fileOf? x).or (if spec = x then some m.files.size else none) := by
  rw [Graph.fileOf?_congr (size_commit hc) (nameOf_commit hc), Graph.fileOf?_addFile hm]

/-- A file goes from the path to the graph when it is committed. -/
theorem Underway.commit {includes : List FileId}
    (hu : Underway source options top (spec :: path) due m c) (hpath : spec ∉ path)
    (hc : (m.addFile spec includes).commit limits m.files.size ds = .ok done) :
    Underway source options top path due done.graph c where
  tally := hu.tally
  nonempty := by
    rw [size_commit hc, Graph.size_addFile]
    exact Nat.succ_pos _
  opened := by
    intro x
    rw [hu.opened x, fileOf?_commit hu.nonempty hc, List.mem_cons]
    by_cases hx : spec = x
    · have hwaiting := hu.waiting spec List.mem_cons_self
      subst hx
      simp [hwaiting]
    · have hne : x ≠ spec := fun heq => hx heq.symm
      simp [hx, hne]
  waiting := by
    intro x hx
    have hne : spec ≠ x := fun heq => hpath (heq ▸ hx)
    rw [fileOf?_commit hu.nonempty hc, if_neg hne, Option.or_none]
    exact hu.waiting x (List.mem_cons_of_mem spec hx)
  count := by
    have hcount := hu.count
    have hpos := hu.nonempty
    rw [Graph.loadedCount, size_commit hc, Graph.size_addFile]
    rw [Graph.loadedCount, List.length_cons] at hcount
    omega

/-! ## Where a load stops -/

/-- Why a load stops with a failure, which is so of the source. -/
inductive Reason (source : Source) (options : LoadOptions) (top : String) (c : Census) :
    Failure → Prop
  /-- Includes lead from a spec back to itself. -/
  | cycle {x : String} : source.Leads options top x →
      Relation.TransGen (source.Lists options) x x →
        Reason source options top c ((Cause.includeCycle x).failure.inFile x)
  /-- Includes lead on for too long. -/
  | deep {x : String} {path : List String} : source.Trail options top (x :: path) →
      options.limits.includeDepth < (x :: path).length →
        Reason source options top c
          ((Cause.includeTooDeep options.limits.includeDepth).failure.inFile x)
  /-- One more file is led to than there may be. -/
  | crowded {x : String} : source.Leads options top x → x ∉ c.opened →
      options.limits.files ≤ c.opened.length →
        Reason source options top c
          ((Cause.tooManyFiles options.limits.files).failure.inFile x)
  /-- The source says so of a file that is led to. -/
  | reported {x : String} {raw : Failure} : source.Leads options top x → source x = .error raw →
      Reason source options top c (raw.inFile x)
  | other {e : Failure} : e.cause.refusesInclude = false → Reason source options top c e

/-- A load has stopped with a failure. -/
structure Stopped (source : Source) (options : LoadOptions) (top : String) (e : Failure)
    (c : Census) : Prop where
  tally : Tally source options top 0 c
  reason : Reason source options top c e

open CountedLoader (ends_bind ends_pure ends_loadFileCounted)

/-- Several files in turn, given what one of them does. -/
theorem ends_visits {visit : String → CountedLoader FileId} {specs : List String}
    (hvisit : ∀ spec ∈ specs, ∀ g c due, Underway source options top path (due + 1) g c →
      (visit spec).Ends g c (fun _ g' c' => Underway source options top path due g' c')
        (Stopped source options top)) :
    ∀ g c due, Underway source options top path (due + specs.length) g c →
      (specs.mapM visit).Ends g c (fun _ g' c' => Underway source options top path due g' c')
        (Stopped source options top) := by
  induction specs with
  | nil =>
    intro g c due hu
    rw [List.mapM_nil]
    exact ends_pure.mpr hu
  | cons spec specs ih =>
    intro g c due hu
    obtain ⟨hfirst, hrest⟩ := List.forall_mem_cons.mp hvisit
    rw [List.mapM_cons, ends_bind]
    refine (hfirst g c (due + specs.length) hu).mono ?_ fun _ _ he => he
    intro f m c' hu
    rw [ends_bind]
    refine (ih hrest m c' due hu).mono ?_ fun _ _ he => he
    intro fs m' c'' hu
    exact ends_pure.mpr hu

/-- The step of a load: a file is visited, given what the visits of its includes do. -/
theorem ends_visit_of {fuel : Nat} (ht : source.Trail options top (spec :: path))
    (hfuel : fuel = 0 → options.limits.includeDepth < (spec :: path).length)
    (hu : Underway source options top path (due + 1) g c)
    (hbelow : ∀ n, fuel = n + 1 → ∀ b g c due, source.Trail options top (b :: spec :: path) →
      Underway source options top (spec :: path) (due + 1) g c →
        (source.loadFileCounted options n (spec :: path) b).Ends g c
          (fun _ g' c' => Underway source options top (spec :: path) due g' c')
          (Stopped source options top)) :
    (source.loadFileCounted options fuel path spec).Ends g c
      (fun _ g' c' => Underway source options top path due g' c')
      (Stopped source options top) := by
  have hled : source.Leads options top spec := ht.leads spec List.mem_cons_self
  have hstop := hu.ask.tally.stop
  refine ends_loadFileCounted ?_ ?_ ?_ ?_ ?_
  · exact fun f _ => hu.ask
  · intro hpath
    exact ⟨hstop, .cycle hled (ht.transGen spec rfl spec hpath)⟩
  · intro _ _ hzero
    exact ⟨hstop, .deep ht (hfuel hzero)⟩
  · intro hnone hpath hfull
    refine ⟨hstop, .crowded hled (hu.ask.not_mem_opened hnone hpath) ?_⟩
    rw [hu.ask.count]
    exact hfull
  · intro n hn hnone hpath hroom
    have htaken := hu.ask.take hnone hpath hled hroom
    constructor
    · intro e he
      refine ⟨htaken.tally.stop, ?_⟩
      rcases declarations_followed source options.limits spec e he with
        ⟨raw, hsource, rfl⟩ | hother
      · exact .reported hled hsource
      · exact .other hother
    · intro ds hds
      rw [Source.width_of_declarations hds] at htaken
      refine (ends_visits (fun b hb g c due hu => ?_) g _ due htaken).mono ?_ fun _ _ he => he
      · exact hbelow n hn b g c due (.step ht ⟨ds, hds, hb⟩) hu
      · intro includes m c' hm
        refine ⟨fun done hc => hm.commit hpath hc, fun e he => ⟨hm.tally.stop, .other ?_⟩⟩
        exact commit_followed _ _ _ _ e he

theorem ends_visit (fuel : Nat) :
    ∀ path spec g c due, source.Trail options top (spec :: path) →
      fuel + path.length = options.limits.includeDepth →
      Underway source options top path (due + 1) g c →
        (source.loadFileCounted options fuel path spec).Ends g c
          (fun _ g' c' => Underway source options top path due g' c')
          (Stopped source options top) := by
  induction fuel with
  | zero =>
    intro path spec g c due ht hfuel hu
    refine ends_visit_of ht (fun _ => ?_) hu fun n hn => (nomatch hn)
    rw [List.length_cons]
    omega
  | succ n ih =>
    intro path spec g c due ht hfuel hu
    refine ends_visit_of ht (fun hn => (nomatch hn)) hu ?_
    intro n' hn b g c due ht hu
    cases hn
    refine ih (spec :: path) b g c due ht ?_ hu
    rw [List.length_cons]
    omega

/-! ## A load from the start -/

theorem underway_empty (source : Source) (options : LoadOptions) (top : String) :
    Underway source options top [] 1 {} {} where
  tally := ⟨List.nodup_nil, fun x hx => absurd hx List.not_mem_nil, Nat.zero_le _, Nat.le_refl _⟩
  nonempty := Nat.zero_lt_one
  opened := by
    intro x
    constructor
    · exact fun hx => absurd hx List.not_mem_nil
    · rintro (hx | ⟨f, hf⟩)
      · exact absurd hx List.not_mem_nil
      · cases hf
  waiting := fun x hx => absurd hx List.not_mem_nil
  count := rfl

/-- When the transient file is put in front, no file is added. -/
theorem Underway.root (hu : Underway source options top path due m c)
    (hroot : options.root (f, m) = .ok g) : Underway source options top path due g c := by
  simp only [LoadOptions.root, bind_eq_ok, pure_eq_ok] at hroot
  obtain ⟨done, hc, rfl⟩ := hroot
  have hsize : done.graph.files.size = m.files.size := by
    rw [size_commit hc, Graph.size_setIncludes]
  have hname : ∀ h, done.graph.nameOf h = m.nameOf h := by
    intro h
    rw [nameOf_commit hc, Graph.nameOf_setIncludes]
  have hfile : ∀ x, done.graph.fileOf? x = m.fileOf? x := Graph.fileOf?_congr hsize hname
  refine ⟨hu.tally, hsize ▸ hu.nonempty, ?_, ?_, ?_⟩
  · intro x
    rw [hfile x]
    exact hu.opened x
  · intro x hx
    rw [hfile x]
    exact hu.waiting x hx
  · rw [Graph.loadedCount, hsize]
    exact hu.count

theorem root_followed (options : LoadOptions) (loaded : FileId × Graph) :
    FailsOnly Followed (options.root loaded) :=
  .bind (commit_followed _ _ _ _) fun _ => .ok _

/-- Where a load ends. -/
theorem ends_load (source : Source) (options : LoadOptions) (top : String) :
    (∀ g, source.load options top = .ok g →
      Underway source options top [] 0 g (source.loadCounted options top).2) ∧
    ∀ e, source.load options top = .error e →
      Stopped source options top e (source.loadCounted options top).2 := by
  have hends := ends_visit options.limits.includeDepth [] top {} {} 0 .top rfl
    (underway_empty source options top)
  rw [CountedLoader.Ends] at hends
  rw [← loadCounted_load, Source.loadCounted]
  revert hends
  rcases (source.loadFileCounted options options.limits.includeDepth [] top).outcome {} {} with
    ⟨e | ⟨f, m⟩, c⟩
  · intro hends
    refine ⟨?_, ?_⟩
    · intro g hg
      cases hg
    · intro e' he
      cases he
      exact hends
  · intro hends
    refine ⟨?_, ?_⟩
    · intro g hroot
      exact Underway.root hends hroot
    · intro e hroot
      exact ⟨hends.tally.stop, .other (root_followed options (f, m) e hroot)⟩

/-! ## What has been loaded -/

/-- What the file of a spec includes has been loaded before it. -/
theorem fileOf?_of_lists (hl : source.load options top = .ok g) (hf : g.fileOf? a = some f)
    (hab : source.Lists options a b) : ∃ i, g.fileOf? b = some i ∧ i < f := by
  obtain ⟨t, htop⟩ := topFile_of_load hl
  obtain ⟨hne, hlt⟩ := fileOf?_eq_some hf
  obtain ⟨ds, m, done, ho⟩ := (sourced_of_load hl).1.origin f hlt hne
  obtain ⟨ds', hds', hb⟩ := hab
  rw [← nameOf_of_fileOf? hf] at hds' hb
  cases ho.declarations.symm.trans hds'
  rw [← ho.specs] at hb
  obtain ⟨i, hi, rfl⟩ := List.mem_map.mp hb
  obtain ⟨hi, hlow⟩ := ho.known i hi
  rw [ho.newest] at hlow
  exact ⟨i, htop.catalogued.found i (Nat.lt_trans hlow hlt) hi, hlow⟩

theorem fileOf?_of_leads (hl : source.load options top = .ok g)
    (hx : source.Leads options top x) : ∃ f, g.fileOf? x = some f := by
  induction hx with
  | refl =>
    obtain ⟨t, htop⟩ := topFile_of_load hl
    exact ⟨t, htop.title⟩
  | tail _ hlists ih =>
    obtain ⟨f, hf⟩ := ih
    obtain ⟨i, hi, -⟩ := fileOf?_of_lists hl hf hlists
    exact ⟨i, hi⟩

/-- Of two specs of which the first leads to the second, the second has been loaded earlier. -/
theorem fileOf?_of_transGen (hl : source.load options top = .ok g) (hf : g.fileOf? a = some f)
    (hab : Relation.TransGen (source.Lists options) a b) : ∃ i, g.fileOf? b = some i ∧ i < f := by
  induction hab with
  | single hlists => exact fileOf?_of_lists hl hf hlists
  | tail _ hlists ih =>
    obtain ⟨i, hi, hif⟩ := ih
    obtain ⟨j, hj, hji⟩ := fileOf?_of_lists hl hi hlists
    exact ⟨j, hj, Nat.lt_trans hji hif⟩

/-- What a load of `top` that succeeds has done. -/
structure VisitedOnce (source : Source) (options : LoadOptions) (top : String) (g : Graph)
    (c : Census) : Prop where
  /-- The transient file stands in front of the top file. -/
  front : g.nameOf transientFile = transientName ∧
    ∃ t, g.includesOf transientFile = [t] ∧ g.fileOf? top = some t
  /-- There is one file for each spec that is led to, and no other. -/
  file : ∀ spec, source.Leads options top spec →
    ∃! f, f ≠ transientFile ∧ f < g.files.size ∧ g.nameOf f = spec
  led : ∀ f < g.files.size, f ≠ transientFile → source.Leads options top (g.nameOf f)
  /-- A file includes what its records list, in that order; without any, it includes the
  built-in defaults where these are in use. -/
  includes : ∀ f < g.files.size, f ≠ transientFile →
    ∃ rs, source.Reads options.limits (g.nameOf f) rs ∧
      (g.includesOf f).map g.nameOf =
        options.includeSpecs (g.nameOf f) { includes := rs.flatMap Record.specs }
  earlier : ∀ f < g.files.size, f ≠ transientFile → ∀ i ∈ g.includesOf f, i ≠ transientFile ∧ i < f
  room : g.loadedCount ≤ options.limits.files
  /-- The contents of each have been taken once. -/
  once : ∀ spec, source.Leads options top spec → c.opened.count spec = 1

theorem visited_of_load (hl : source.load options top = .ok g) :
    VisitedOnce source options top g (source.loadCounted options top).2 := by
  obtain ⟨t, htop⟩ := topFile_of_load hl
  have hu := (ends_load source options top).1 g hl
  have hfound := htop.catalogued.found
  have horigin := (sourced_of_load hl).1.origin
  refine ⟨⟨(rooted_of_load hl).nameOf_transientFile, t, htop.front, htop.title⟩, ?_, ?_, ?_, ?_,
    ?_, ?_⟩
  · intro spec hspec
    obtain ⟨f, hf⟩ := fileOf?_of_leads hl hspec
    obtain ⟨hne, hlt⟩ := fileOf?_eq_some hf
    refine ⟨f, ⟨hne, hlt, nameOf_of_fileOf? hf⟩, ?_⟩
    rintro h ⟨hne, hlt, rfl⟩
    exact Option.some.inj ((hfound h hlt hne).symm.trans hf)
  · intro f hlt hne
    exact hu.tally.led _ ((hu.opened _).mpr (Or.inr ⟨f, hfound f hlt hne⟩))
  · intro f hlt hne
    obtain ⟨ds, m, done, ho⟩ := horigin f hlt hne
    obtain ⟨rs, hreads, hfold⟩ := Source.declarations_eq_ok.mp ho.declarations
    have hincludes : ds.includes = rs.flatMap Record.specs :=
      (Declarations.foldlM_extend_split hfold).1
    refine ⟨rs, hreads, ?_⟩
    rw [ho.specs, LoadOptions.includeSpecs, LoadOptions.includeSpecs, hincludes]
  · intro f hlt hne i hi
    obtain ⟨ds, m, done, ho⟩ := horigin f hlt hne
    rw [← ho.newest]
    exact ho.known i hi
  · have hcount := hu.count
    have hroom := hu.tally.room
    rw [List.length_nil, Nat.add_zero] at hcount
    omega
  · intro spec hspec
    have hmem := (hu.opened spec).mpr (Or.inr (fileOf?_of_leads hl hspec))
    exact List.count_eq_one_of_mem hu.tally.nodup hmem

/-- A load comes to an end and visits every file once.  For every source, options and spec:

  * counting what a load asks for changes nothing of it, and however it ends, no contents have
    been taken twice, none but those of specs that are led to, those of no more files than
    allowed, and no more files have been asked for than these include, and the first one;
  * if includes lead from a spec that is led to back to itself, the load fails;
  * if it succeeds, the graph has the transient file and one file for each spec that is led to;
  * if it fails for too many files, then more specs are led to than allowed, and if it fails for
    a cycle, there is one, unless the failure is the source's own, of a file that is led to. -/
theorem visits_of_load (source : Source) (options : LoadOptions) (top : String) :
    (source.loadCounted options top).1 = source.load options top ∧
    Tally source options top 0 (source.loadCounted options top).2 ∧
    (∀ x, source.Leads options top x → Relation.TransGen (source.Lists options) x x →
      ∃ e, source.load options top = .error e) ∧
    (∀ g, source.load options top = .ok g →
      VisitedOnce source options top g (source.loadCounted options top).2) ∧
    ∀ e, source.load options top = .error e →
      (∃ x raw, source.Leads options top x ∧ source x = .error raw ∧ e = raw.inFile x) ∨
      (∀ n, e.cause = .tooManyFiles n → ∃ specs : List String, specs.Nodup ∧
        (∀ x ∈ specs, source.Leads options top x) ∧ options.limits.files < specs.length) ∧
      ∀ x, e.cause = .includeCycle x →
        source.Leads options top x ∧ Relation.TransGen (source.Lists options) x x := by
  obtain ⟨hok, herror⟩ := ends_load source options top
  refine ⟨loadCounted_load source options top, ?_, ?_, fun g hl => visited_of_load hl, ?_⟩
  · cases hl : source.load options top with
    | ok g => exact (hok g hl).tally
    | error e => exact (herror e hl).tally
  · intro x hled hcycle
    cases hl : source.load options top with
    | error e => exact ⟨e, rfl⟩
    | ok g =>
      obtain ⟨f, hf⟩ := fileOf?_of_leads hl hled
      obtain ⟨i, hi, hlt⟩ := fileOf?_of_transGen hl hf hcycle
      cases hf.symm.trans hi
      exact absurd hlt (Nat.lt_irrefl f)
  · intro e hl
    obtain ⟨tally, reason⟩ := herror e hl
    cases reason with
    | cycle hled hcycle =>
      refine Or.inr ⟨fun n hn => (nomatch hn), ?_⟩
      intro x hx
      cases hx
      exact ⟨hled, hcycle⟩
    | deep _ _ => exact Or.inr ⟨fun n hn => (nomatch hn), fun x hx => (nomatch hx)⟩
    | @crowded x hled hnew hfull =>
      refine Or.inr ⟨fun n _ => ?_, fun x hx => (nomatch hx)⟩
      refine ⟨x :: (source.loadCounted options top).2.opened, ?_, ?_, Nat.lt_succ_of_le hfull⟩
      · exact List.nodup_cons.mpr ⟨hnew, tally.nodup⟩
      · intro y hy
        rcases List.mem_cons.mp hy with rfl | hy
        · exact hled
        · exact tally.led y hy
    | reported hled hsource => exact Or.inl ⟨_, _, hled, hsource, rfl⟩
    | other hfollowed =>
      refine Or.inr ⟨fun n hn => ?_, fun x hx => ?_⟩
      · rw [hn] at hfollowed
        cases hfollowed
      · rw [hx] at hfollowed
        cases hfollowed

/-- Two files that include each other. -/
def mutualFiles : Source := fun spec =>
  if spec = "left" then .ok "includeFile = right".toUTF8
  else if spec = "right" then .ok "includeFile = left".toUTF8
  else .error (.cannotOpen spec "no such file")

/-- Four files of which two include one, those files where only three are allowed, and two files
that include each other. -/
theorem visits_of_load_sharedArms :
    (∃ g, Session.sharedArms.load { withDefaults := false } "top" = .ok g ∧
      VisitedOnce Session.sharedArms { withDefaults := false } "top" g
        (Session.sharedArms.loadCounted { withDefaults := false } "top").2) ∧
    (∃ (e : Failure) (specs : List String), Session.sharedArms.load
        { limits := { files := 3 }, withDefaults := false } "top" = .error e ∧
      e.cause = .tooManyFiles 3 ∧ specs.Nodup ∧ 3 < specs.length ∧
        ∀ x ∈ specs, Session.sharedArms.Leads
          { limits := { files := 3 }, withDefaults := false } "top" x) ∧
    ∃ e, mutualFiles.load {} "left" = .error e ∧ e.cause = .includeCycle "left" ∧
      mutualFiles.Leads {} "left" "left" ∧
      Relation.TransGen (mutualFiles.Lists {}) "left" "left" := by
  refine ⟨?_, ?_, ?_⟩
  · have hok : (Session.sharedArms.load { withDefaults := false } "top").toOption.isSome = true := by
      decide +kernel
    obtain ⟨g, hg⟩ := Option.isSome_iff_exists.mp hok
    have hl := toOption_eq_some.mp hg
    exact ⟨g, hl, (visits_of_load Session.sharedArms _ "top").2.2.2.1 g hl⟩
  · have hfull : failsWhere (fun e => decide (e.cause = .tooManyFiles 3)) (Session.sharedArms.load
        { limits := { files := 3 }, withDefaults := false } "top") = true := by
      decide +kernel
    obtain ⟨e, hl, htest⟩ := failsWhere_eq_true.mp hfull
    have hcause : e.cause = .tooManyFiles 3 := of_decide_eq_true htest
    rcases (visits_of_load Session.sharedArms _ "top").2.2.2.2 e hl with
      ⟨x, raw, -, hsource, rfl⟩ | ⟨hcrowded, -⟩
    · rw [Session.sharedArms] at hsource
      split_ifs at hsource
      cases hsource
      cases hcause
    · obtain ⟨specs, hnodup, hled, hlt⟩ := hcrowded 3 hcause
      exact ⟨e, specs, hl, hcause, hnodup, hlt, hled⟩
  · have hring : failsWhere (fun e => decide (e.cause = .includeCycle "left"))
        (mutualFiles.load {} "left") = true := by
      decide +kernel
    obtain ⟨e, hl, htest⟩ := failsWhere_eq_true.mp hring
    have hcause : e.cause = .includeCycle "left" := of_decide_eq_true htest
    rcases (visits_of_load mutualFiles {} "left").2.2.2.2 e hl with
      ⟨x, raw, -, hsource, rfl⟩ | ⟨-, hcycle⟩
    · rw [mutualFiles] at hsource
      split_ifs at hsource
      cases hsource
      cases hcause
    · exact ⟨e, hl, hcause, hcycle "left" hcause⟩

end ParameterChain
