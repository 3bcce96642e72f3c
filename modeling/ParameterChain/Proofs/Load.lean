/-
# Loading builds a graph

A load that succeeds has gone through built graphs only, has kept the includes of the
files that were there before it, and has put every new file below a file that it was
asked for (`Grown`).  The proof is an induction on the depth to which includes are
still followed, with the includes of one file taken in turn.

Main statement: `rooted_of_load`.
-/
import ParameterChain.Proofs.Built

namespace ParameterChain

variable {source : Source} {options : LoadOptions} {g m g' : Graph} {f h : FileId}
  {fs : List FileId}

/-! ## Steps of a loader -/

section Loader

variable {α β : Type} {a : α}

theorem Loader.bind_eq_ok {x : Loader α} {c : α → Loader β} {b : β} :
    (x >>= c).run g = .ok (b, g') ↔ ∃ a m, x.run g = .ok (a, m) ∧ (c a).run m = .ok (b, g') := by
  rw [StateT.run_bind, ParameterChain.bind_eq_ok]
  constructor
  · rintro ⟨⟨a, m⟩, hx, hc⟩
    exact ⟨a, m, hx, hc⟩
  · rintro ⟨a, m, hx, hc⟩
    exact ⟨(a, m), hx, hc⟩

theorem Loader.pure_eq_ok {b : α} :
    (pure a : Loader α).run g = .ok (b, g') ↔ a = b ∧ g = g' := by
  rw [StateT.run_pure, ParameterChain.pure_eq_ok, Prod.mk.injEq]

theorem Loader.get_eq_ok : (get : Loader Graph).run g = .ok (m, g') ↔ g = m ∧ g = g' := by
  rw [StateT.run_get, ParameterChain.pure_eq_ok, Prod.mk.injEq]

theorem Loader.set_eq_ok {u : PUnit} :
    (set m : Loader PUnit).run g = .ok (u, g') ↔ m = g' := by
  rw [StateT.run_set, ParameterChain.pure_eq_ok, Prod.mk.injEq]
  exact and_iff_right rfl

theorem Loader.lift_eq_ok {x : Attempt α} :
    (liftM x : Loader α).run g = .ok (a, g') ↔ x = .ok a ∧ g = g' := by
  show (x >>= fun a => pure (a, g)) = Except.ok (a, g') ↔ _
  simp only [ParameterChain.bind_eq_ok, ParameterChain.pure_eq_ok, Prod.mk.injEq]
  constructor
  · rintro ⟨b, hb, rfl, hg⟩
    exact ⟨hb, hg⟩
  · rintro ⟨hb, hg⟩
    exact ⟨a, hb, rfl, hg⟩

end Loader

/-- A file is loaded already, or it was not met on the path to it and there is room for it, its
includes are loaded and then its declarations are committed to a new file behind them. -/
theorem loadFile_eq_ok_iff {fuel : Nat} {path : List String} {spec : String} :
    (source.loadFile options fuel path spec).run g = .ok (f, g') ↔
      (g.fileOf? spec = some f ∧ g = g') ∨
        ∃ n ds includes m done, fuel = n + 1 ∧ g.fileOf? spec = none ∧ spec ∉ path ∧
          g.loadedCount + path.length < options.limits.files ∧
          source.declarations options.limits spec = .ok ds ∧
          ((options.includeSpecs spec ds).mapM
            (source.loadFile options n (spec :: path))).run g = .ok (includes, m) ∧
          (m.addFile spec includes).commit options.limits m.files.size ds = .ok done ∧
          m.files.size = f ∧ done.graph = g' := by
  unfold Source.loadFile
  simp only [Loader.bind_eq_ok, Loader.get_eq_ok]
  cases hfile : g.fileOf? spec with
  | some h =>
    constructor
    · rintro ⟨_, _, ⟨rfl, rfl⟩, hl⟩
      simp only [hfile] at hl
      obtain ⟨rfl, rfl⟩ := Loader.pure_eq_ok.mp hl
      exact Or.inl ⟨rfl, rfl⟩
    · rintro (⟨hf, rfl⟩ | ⟨-, -, -, -, -, -, hnone, -⟩)
      · refine ⟨g, g, ⟨rfl, rfl⟩, ?_⟩
        simp only [hfile]
        exact Loader.pure_eq_ok.mpr ⟨Option.some.inj hf, rfl⟩
      · cases hnone
  | none =>
    constructor
    · rintro ⟨_, _, ⟨rfl, rfl⟩, hl⟩
      simp only [hfile] at hl
      split at hl
      · cases hl
      next hpath =>
      cases fuel with
      | zero => cases hl
      | succ n =>
        simp only [Loader.bind_eq_ok, Loader.get_eq_ok] at hl
        obtain ⟨_, _, ⟨rfl, rfl⟩, hl⟩ := hl
        split at hl
        · cases hl
        next hroom =>
        simp only [Loader.bind_eq_ok, Loader.lift_eq_ok, Loader.get_eq_ok, Loader.set_eq_ok,
          Loader.pure_eq_ok] at hl
        obtain ⟨ds, _, ⟨hds, rfl⟩, includes, m, hincludes, _, _, ⟨rfl, rfl⟩, done, _, ⟨hc, rfl⟩, u,
          _, rfl, rfl, rfl⟩ := hl
        exact Or.inr ⟨n, ds, includes, m, done, rfl, rfl, by simpa using hpath,
          Nat.lt_of_not_le hroom, hds, hincludes, hc, rfl, rfl⟩
    · rintro (⟨hf, -⟩ |
        ⟨n, ds, includes, m, done, rfl, -, hpath, hroom, hds, hincludes, hc, rfl, rfl⟩)
      · cases hf
      · refine ⟨g, g, ⟨rfl, rfl⟩, ?_⟩
        have hpath : ¬ path.contains spec = true := by simpa using hpath
        simp only [hfile, if_neg hpath, Loader.bind_eq_ok, Loader.get_eq_ok]
        refine ⟨g, g, ⟨rfl, rfl⟩, ?_⟩
        simp only [if_neg (Nat.not_le_of_lt hroom), Loader.bind_eq_ok, Loader.lift_eq_ok,
          Loader.get_eq_ok, Loader.set_eq_ok, Loader.pure_eq_ok]
        exact ⟨ds, g, ⟨hds, rfl⟩, includes, m, hincludes, m, m, ⟨rfl, rfl⟩, done, m, ⟨hc, rfl⟩,
          (), done.graph, rfl, rfl, rfl⟩

theorem loadFile_eq_ok {fuel : Nat} {path : List String} {spec : String}
    (hl : (source.loadFile options fuel path spec).run g = .ok (f, g')) :
    (g.fileOf? spec = some f ∧ g = g') ∨
      ∃ n ds includes m done, fuel = n + 1 ∧ g.fileOf? spec = none ∧ spec ∉ path ∧
        source.declarations options.limits spec = .ok ds ∧
        ((options.includeSpecs spec ds).mapM
          (source.loadFile options n (spec :: path))).run g = .ok (includes, m) ∧
        (m.addFile spec includes).commit options.limits m.files.size ds = .ok done ∧
        f = m.files.size ∧ done.graph = g' := by
  refine (loadFile_eq_ok_iff.mp hl).imp_right ?_
  rintro ⟨n, ds, includes, m, done, hfuel, hnone, hpath, -, hds, hincludes, hc, hf, hdone⟩
  exact ⟨n, ds, includes, m, done, hfuel, hnone, hpath, hds, hincludes, hc, hf.symm, hdone⟩

theorem distinct_declarations {limits : Limits} {spec : String} {ds : Declarations}
    (h : source.declarations limits spec = .ok ds) : ds.Distinct := by
  simp only [Source.declarations, locate_eq_ok, bind_eq_ok] at h
  obtain ⟨bytes, -, records, -, h⟩ := h
  have hempty : ({} : Declarations).Distinct := List.nodup_nil
  refine foldlM_induction (P := Declarations.Distinct) ?_ hempty h
  intro ds ds' record _ hds hadd
  simp only [bind_eq_ok, pure_eq_ok] at hadd
  obtain ⟨added, hadd, rfl⟩ := hadd
  exact hds.add hadd

/-! ## What a load adds -/

/-- `g'` is what `g` has grown to when the files `fs` have been loaded. -/
structure Grown (g : Graph) (fs : List FileId) (g' : Graph) : Prop where
  built : g'.Built
  size_le : g.files.size ≤ g'.files.size
  includes : ∀ h < g.files.size, g'.includesOf h = g.includesOf h
  loaded : ∀ f ∈ fs, f ≠ transientFile ∧ f < g'.files.size
  covered : ∀ h < g'.files.size, h < g.files.size ∨ ∃ f ∈ fs, g'.Below f h

theorem Grown.nil (hb : g.Built) : Grown g [] g where
  built := hb
  size_le := Nat.le_refl _
  includes := fun _ _ => rfl
  loaded := fun _ hf => absurd hf List.not_mem_nil
  covered := fun _ hh => Or.inl hh

/-- What is below a file stays below it while the graph grows. -/
theorem Grown.below (hgrown : Grown g fs g') (hb : g.Built) (hf : f < g.files.size)
    (hbelow : g.Below f h) : g'.Below f h := by
  induction hbelow with
  | refl => exact Graph.Below.refl g' f
  | tail hbelow hstep ih =>
    refine ih.tail ?_
    have hsize := hb.coherent.ordered.lt_size_of_below hf hbelow
    rw [Graph.Includes, hgrown.includes _ hsize]
    exact hstep

theorem Grown.cons (hfirst : Grown g [f] m) (hrest : Grown m fs g') :
    Grown g (f :: fs) g' where
  built := hrest.built
  size_le := Nat.le_trans hfirst.size_le hrest.size_le
  includes := by
    intro h hh
    rw [hrest.includes h (Nat.lt_of_lt_of_le hh hfirst.size_le), hfirst.includes h hh]
  loaded := by
    intro x hx
    rcases List.mem_cons.mp hx with rfl | hx
    · obtain ⟨hne, hlt⟩ := hfirst.loaded x List.mem_cons_self
      exact ⟨hne, Nat.lt_of_lt_of_le hlt hrest.size_le⟩
    · exact hrest.loaded x hx
  covered := by
    intro h hh
    rcases hrest.covered h hh with hh | ⟨x, hx, hbelow⟩
    · rcases hfirst.covered h hh with hh | ⟨x, hx, hbelow⟩
      · exact Or.inl hh
      · cases List.mem_singleton.mp hx
        have hlt := (hfirst.loaded f List.mem_cons_self).2
        exact Or.inr ⟨f, List.mem_cons_self, hrest.below hfirst.built hlt hbelow⟩
    · exact Or.inr ⟨x, List.mem_cons_of_mem f hx, hbelow⟩

theorem fileOf?_eq_some {spec : String} (hfile : g.fileOf? spec = some f) :
    f ≠ transientFile ∧ f < g.files.size := by
  have hlt := List.mem_range.mp (List.mem_of_find?_eq_some hfile)
  have hne : f ≠ transientFile ∧ g.nameOf f = spec := by simpa using List.find?_some hfile
  exact ⟨hne.1, hlt⟩

/-- Several files in turn, given what one of them does. -/
theorem grown_mapM {load : String → Loader FileId}
    (hload : ∀ spec g f g', g.Built → (load spec).run g = .ok (f, g') → Grown g [f] g') :
    ∀ {specs : List String} {g : Graph} {fs : List FileId}, g.Built →
      (specs.mapM load).run g = .ok (fs, g') → Grown g fs g' := by
  intro specs
  induction specs with
  | nil =>
    intro g fs hb hl
    rw [List.mapM_nil, Loader.pure_eq_ok] at hl
    obtain ⟨rfl, rfl⟩ := hl
    exact .nil hb
  | cons spec specs ih =>
    intro g fs hb hl
    simp only [List.mapM_cons, Loader.bind_eq_ok, Loader.pure_eq_ok] at hl
    obtain ⟨f, m, hfirst, fs, g₁, hrest, rfl, rfl⟩ := hl
    have hfirst := hload spec g f m hb hfirst
    exact hfirst.cons (ih hfirst.built hrest)

/-- The step of a load: a file is committed behind its includes. -/
theorem Grown.commit {includes : List FileId} {limits : Limits} {spec : String}
    {ds : Declarations} {done : Commit} (hgrown : Grown g includes m) (hds : ds.Distinct)
    (hc : (m.addFile spec includes).commit limits m.files.size ds = .ok done) :
    Grown g [m.files.size] done.graph where
  built := hgrown.built.file hgrown.loaded hds hc
  size_le := by
    have hle := hgrown.size_le
    rw [Graph.size_commit hc, Graph.size_addFile]
    omega
  includes := by
    intro h hh
    have hlt := Nat.lt_of_lt_of_le hh hgrown.size_le
    rw [Graph.includesOf_commit hc, Graph.includesOf_addFile, if_neg (Nat.ne_of_lt hlt)]
    exact hgrown.includes h hh
  loaded := by
    intro f hf
    cases List.mem_singleton.mp hf
    rw [Graph.size_commit hc, Graph.size_addFile]
    have hpos := hgrown.built.coherent.ordered.transientFile_lt_size
    exact ⟨Nat.ne_of_gt hpos, Nat.lt_succ_self _⟩
  covered := by
    intro h hh
    rw [Graph.size_commit hc, Graph.size_addFile] at hh
    have hself : done.graph.Below m.files.size m.files.size := Graph.Below.refl _ _
    rcases Nat.lt_succ_iff_lt_or_eq.mp hh with hh | rfl
    · rcases hgrown.covered h hh with hh | ⟨i, hi, hbelow⟩
      · exact Or.inl hh
      · refine Or.inr ⟨m.files.size, List.mem_cons_self, ?_⟩
        have ho := hgrown.built.coherent.ordered
        have hbelow : done.graph.Below i h := by
          rw [Graph.Below.congr (Graph.includesOf_commit hc)]
          exact (Graph.sameBelow_addFile ho (hgrown.loaded i hi).2 spec includes ⟨""⟩).below_iff.mpr
            hbelow
        refine hbelow.head ?_
        rw [Graph.includesOf_commit hc, Graph.includesOf_addFile, if_pos rfl]
        exact hi
    · exact Or.inr ⟨_, List.mem_cons_self, hself⟩

theorem grown_loadFile (fuel : Nat) :
    ∀ path spec g f g', g.Built →
      (source.loadFile options fuel path spec).run g = .ok (f, g') → Grown g [f] g' := by
  induction fuel with
  | zero =>
    intro path spec g f g' hb hl
    rcases loadFile_eq_ok hl with ⟨hfile, rfl⟩ | ⟨n, -, -, -, -, hn, -⟩
    · refine ⟨hb, Nat.le_refl _, fun _ _ => rfl, fun x hx => ?_, fun _ hh => Or.inl hh⟩
      exact List.mem_singleton.mp hx ▸ fileOf?_eq_some hfile
    · cases hn
  | succ n ih =>
    intro path spec g f g' hb hl
    rcases loadFile_eq_ok hl with ⟨hfile, rfl⟩ |
        ⟨n', ds, includes, m, done, hn, -, -, hds, hincludes, hc, rfl, rfl⟩
    · refine ⟨hb, Nat.le_refl _, fun _ _ => rfl, fun x hx => ?_, fun _ hh => Or.inl hh⟩
      exact List.mem_singleton.mp hx ▸ fileOf?_eq_some hfile
    · cases hn
      exact (grown_mapM (ih (spec :: path)) hb hincludes).commit (distinct_declarations hds) hc

/-- In a load that succeeds the transient file is put in front of a graph that was built, all
of which is below the top file. -/
theorem exists_built_of_load {top : String} (hl : source.load options top = .ok g) :
    ∃ (b : Graph) (f : FileId) (done : Commit),
      b.Built ∧ (f ≠ transientFile ∧ f < b.files.size) ∧
      (∀ h < b.files.size, h = transientFile ∨ b.Below f h) ∧
      (b.setIncludes transientFile [f]).commit options.limits transientFile
        { redefinable := true } = .ok done ∧ done.graph = g := by
  simp only [Source.load, bind_eq_ok, pure_eq_ok] at hl
  obtain ⟨⟨f, m⟩, hload, done, hc, rfl⟩ := hl
  have hgrown := grown_loadFile options.limits.includeDepth [] top {} f m .empty hload
  refine ⟨m, f, done, hgrown.built, hgrown.loaded f List.mem_cons_self, ?_, hc, rfl⟩
  intro h hh
  rcases hgrown.covered h hh with hh | ⟨x, hx, hbelow⟩
  · exact Or.inl (Nat.lt_one_iff.mp hh)
  · exact Or.inr (List.mem_singleton.mp hx ▸ hbelow)

/-- The graph of a load that succeeds is rooted. -/
theorem rooted_of_load {top : String} (hl : source.load options top = .ok g) : g.Rooted := by
  obtain ⟨b, f, done, hb, hf, hall, hc, rfl⟩ := exists_built_of_load hl
  exact .root hb hf hall hc

end ParameterChain
