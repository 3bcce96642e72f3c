/-
# What the limit on the depth of includes bounds

A file that has been loaded is returned before the depth is looked at.  So what the limit bounds
is the path of includes on which a file was met first (`Graph.FirstPath`): the one that takes, in
each file, the first include that has the file sought below it.  Any other path may be longer.
Somewhere on it the same file could have been reached by an earlier include
(`IncludePath.first_or_detour`), and it has no more files than the graph (`shortcut` has a path
of three files where two are allowed).

A load is refused for its depth only if includes do lead on for that long.

Main statement: `includeDepth_of_load`.
-/
import ParameterChain.Proofs.Visits

namespace ParameterChain

variable {source : Source} {options : LoadOptions} {top : String} {g m g' : Graph}
  {f h i : FileId} {p : List FileId}

namespace Graph

/-! ## Paths -/

/-- The files of a path of includes that ends with `h`. -/
inductive IncludePath (g : Graph) (h : FileId) : FileId → List FileId → Prop
  | here : IncludePath g h h [h]
  | step {f i : FileId} {p : List FileId} : i ∈ g.includesOf f → IncludePath g h i p →
      IncludePath g h f (f :: p)

/-- The files of the path that takes, in each file, the first include which has `h` below it. -/
inductive FirstPath (g : Graph) (h : FileId) : FileId → List FileId → Prop
  | here : FirstPath g h h [h]
  | step {f i : FileId} {earlier later p : List FileId} :
      g.includesOf f = earlier ++ i :: later → (∀ j ∈ earlier, ¬ g.Below j h) →
        FirstPath g h i p → FirstPath g h f (f :: p)

/-- The path takes an include `i` of `f` although `h` is below an earlier include of `f`. -/
def Detour (g : Graph) (h : FileId) (p : List FileId) : Prop :=
  ∃ f i j earlier later, [f, i] <:+: p ∧ g.includesOf f = earlier ++ i :: later ∧
    j ∈ earlier ∧ g.Below j h

theorem IncludePath.below_end (hp : g.IncludePath h f p) : g.Below f h := by
  induction hp with
  | here => exact .refl g h
  | step hi _ ih => exact ih.head hi

theorem FirstPath.includePath (hp : g.FirstPath h f p) : g.IncludePath h f p := by
  induction hp with
  | here => exact .here
  | step hlist _ _ ih =>
    refine .step ?_ ih
    rw [hlist]
    exact List.mem_append_right _ List.mem_cons_self

theorem IncludePath.head? (hp : g.IncludePath h f p) : ∃ q, p = f :: q := by
  cases hp with
  | here => exact ⟨[], rfl⟩
  | step _ _ => exact ⟨_, rfl⟩

/-- The files of a path have lower and lower numbers. -/
theorem IncludePath.length_le (ho : g.Ordered) (hf : f ≠ transientFile)
    (hp : g.IncludePath h f p) : p.length + h ≤ f + 1 := by
  induction hp with
  | here => exact Nat.le_of_eq (Nat.add_comm 1 h)
  | @step f i p hi _ ih =>
    have hne := (ho.lower f i hi).1
    have hlt := ho.rank_of_include hi
    rw [rank, rank, if_neg hf, if_neg hne] at hlt
    have hle := ih hne
    rw [List.length_cons]
    omega

/-- A path is the first one, or it makes a detour. -/
theorem IncludePath.first_or_detour (hp : g.IncludePath h f p) :
    g.FirstPath h f p ∨ g.Detour h p := by
  induction hp with
  | here => exact Or.inl .here
  | @step f i p hi hpath ih =>
    rcases ih with hfirst | ⟨f', i', j, earlier, later, hinfix, hrest⟩
    · obtain ⟨earlier, later, hlist⟩ := List.append_of_mem hi
      by_cases hearlier : ∃ j ∈ earlier, g.Below j h
      · obtain ⟨j, hj, hbelow⟩ := hearlier
        obtain ⟨q, rfl⟩ := hpath.head?
        exact Or.inr ⟨f, i, j, earlier, later, ⟨[], q, rfl⟩, hlist, hj, hbelow⟩
      · refine Or.inl (.step hlist ?_ hfirst)
        exact fun j hj hbelow => hearlier ⟨j, hj, hbelow⟩
    · exact Or.inr ⟨f', i', j, earlier, later, hinfix.trans (List.suffix_cons f p).isInfix, hrest⟩

/-- Every file below another has a first path from there. -/
theorem exists_firstPath (ho : g.Ordered) : ∀ f, g.Below f h → ∃ p, g.FirstPath h f p := by
  refine ho.induction ?_
  intro f ih hb
  rcases below_iff.mp hb with rfl | ⟨i, hi, hb⟩
  · exact ⟨[f], .here⟩
  · classical
    have hfind : ((g.includesOf f).find? fun i => decide (g.Below i h)).isSome := by
      rw [List.find?_isSome]
      exact ⟨i, hi, decide_eq_true hb⟩
    obtain ⟨i, hi⟩ := Option.isSome_iff_exists.mp hfind
    obtain ⟨hbelow, earlier, later, hlist, hearlier⟩ := List.find?_eq_some_iff_append.mp hi
    obtain ⟨p, hp⟩ := ih i (List.mem_of_find?_eq_some hi) (of_decide_eq_true hbelow)
    refine ⟨f :: p, .step hlist ?_ hp⟩
    intro j hj
    simpa using hearlier j hj

theorem Below.of_includes (hb : g.Below f h)
    (hsame : ∀ x, g.Below f x → g'.includesOf x = g.includesOf x) : g'.Below f h := by
  induction hb with
  | refl => exact .refl g' f
  | tail hb hstep ih =>
    refine ih.tail ?_
    rw [Includes, hsame _ hb]
    exact hstep

/-- First paths depend on the includes below their first file only. -/
theorem FirstPath.congr (hp : g'.FirstPath h f p)
    (hsame : ∀ x, g.Below f x → g'.includesOf x = g.includesOf x) : g.FirstPath h f p := by
  induction hp with
  | here => exact .here
  | @step f i earlier later p hlist hearlier _ ih =>
    rw [hsame f (.refl g f)] at hlist
    have hi : i ∈ g.includesOf f := hlist ▸ List.mem_append_right _ List.mem_cons_self
    refine .step hlist ?_ (ih fun x hb => hsame x (hb.head hi))
    intro j hj hb
    have hmem : j ∈ g.includesOf f := hlist ▸ List.mem_append_left _ hj
    exact hearlier j hj (hb.of_includes fun x hb => hsame x (hb.head hmem))

end Graph

/-! ## The first path of a file that is loaded -/

section Loading

variable {fs : List FileId} {n : Nat}

theorem Grown.firstPath (hgrown : Grown g fs g') (hg : g.Built) (hf : f < g.files.size)
    (hp : g'.FirstPath h f p) : g.FirstPath h f p :=
  hp.congr fun x hb => hgrown.includes x (hg.coherent.ordered.lt_size_of_below hf hb)

/-- Several files in turn, given what one of them does: a new file is below none of the files
loaded before the one with which it came. -/
theorem length_firstPath_mapM {load : String → Loader FileId}
    (hload : ∀ spec g f g', g.Built → (load spec).run g = .ok (f, g') →
      Grown g [f] g' ∧ ∀ h p, g.files.size ≤ h → g'.FirstPath h f p → p.length ≤ n) :
    ∀ {specs : List String} {g : Graph} {fs earlier later : List FileId}, g.Built →
      (specs.mapM load).run g = .ok (fs, g') → g.files.size ≤ h → fs = earlier ++ i :: later →
        (∀ j ∈ earlier, ¬ g'.Below j h) → g'.FirstPath h i p → p.length ≤ n := by
  intro specs
  induction specs with
  | nil =>
    intro g fs earlier later _ hl _ hlist
    rw [List.mapM_nil, Loader.pure_eq_ok] at hl
    rw [← hl.1] at hlist
    simp at hlist
  | cons spec specs ih =>
    intro g fs earlier later hg hl hh hlist hearlier hp
    simp only [List.mapM_cons, Loader.bind_eq_ok, Loader.pure_eq_ok] at hl
    obtain ⟨f, m, hfirst, fs', g₁, hrest, rfl, rfl⟩ := hl
    obtain ⟨hgrown, hlength⟩ := hload spec g f m hg hfirst
    have hrestGrown := grown_mapM (fun spec g f g' hg hl => (hload spec g f g' hg hl).1)
      hgrown.built hrest
    have hf : f < m.files.size := (hgrown.loaded f List.mem_cons_self).2
    cases earlier with
    | nil =>
      obtain ⟨rfl, rfl⟩ := List.cons.inj hlist
      exact hlength h p hh (hrestGrown.firstPath hgrown.built hf hp)
    | cons j earlier =>
      obtain ⟨rfl, hsplit⟩ := List.cons.inj hlist
      -- Had `h` been loaded by now, it would be below the file that was loaded first.
      have hlate : m.files.size ≤ h := by
        refine Nat.le_of_not_lt ?_
        intro hlt
        rcases hgrown.covered h hlt with hold | ⟨x, hx, hb⟩
        · exact absurd hold (Nat.not_lt.mpr hh)
        · rw [List.mem_singleton.mp hx] at hb
          exact hearlier f List.mem_cons_self (hrestGrown.below hgrown.built hf hb)
      exact ih hgrown.built hrest hlate hsplit (fun j hj => hearlier j (List.mem_cons_of_mem _ hj)) hp

/-- A file that is loaded is met by then on a path as long as there is fuel. -/
theorem length_firstPath_loadFile (fuel : Nat) :
    ∀ path spec g f g', g.Built →
      (source.loadFile options fuel path spec).run g = .ok (f, g') →
        ∀ h p, g.files.size ≤ h → g'.FirstPath h f p → p.length ≤ fuel := by
  have hfound : ∀ {g : Graph} {f h : FileId} {spec : String} {p : List FileId} {n : Nat},
      g.Built → g.fileOf? spec = some f → g.files.size ≤ h → g.FirstPath h f p → p.length ≤ n := by
    intro g f h spec p n hg hf hh hp
    have hlt := hg.coherent.ordered.lt_size_of_below (fileOf?_eq_some hf).2 hp.includePath.below_end
    exact absurd hlt (Nat.not_lt.mpr hh)
  induction fuel with
  | zero =>
    intro path spec g f g' hg hl h p hh hp
    rcases loadFile_eq_ok hl with ⟨hf, rfl⟩ | ⟨n, -, -, -, -, hn, -⟩
    · exact hfound hg hf hh hp
    · cases hn
  | succ n ih =>
    intro path spec g f g' hg hl h p hh hp
    rcases loadFile_eq_ok hl with ⟨hf, rfl⟩ |
        ⟨n', ds, includes, m, done, hn, -, -, hds, hincludes, hc, rfl, rfl⟩
    · exact hfound hg hf hh hp
    cases hn
    have hgrown := grown_mapM (grown_loadFile n (spec :: path)) hg hincludes
    have hlast : Grown m [m.files.size] done.graph :=
      Grown.commit ⟨hgrown.built, Nat.le_refl _, fun _ _ => rfl, hgrown.loaded,
        fun _ hx => Or.inl hx⟩ (distinct_declarations hds) hc
    cases hp with
    | here => exact Nat.succ_le_succ (Nat.zero_le n)
    | @step _ i earlier later p hlist hearlier hp =>
      rw [Graph.includesOf_commit hc, Graph.includesOf_addFile, if_pos rfl] at hlist
      have hold : ∀ j ∈ includes, j < m.files.size := fun j hj => (hgrown.loaded j hj).2
      have hi : i ∈ includes := hlist ▸ List.mem_append_right _ List.mem_cons_self
      refine Nat.succ_le_succ (length_firstPath_mapM ?_ hg hincludes hh hlist ?_
        (hlast.firstPath hgrown.built (hold i hi) hp))
      · intro spec' g f g' hg hl
        exact ⟨grown_loadFile n _ spec' g f g' hg hl, ih _ spec' g f g' hg hl⟩
      · intro j hj hb
        have hmem : j ∈ includes := hlist ▸ List.mem_append_left _ hj
        exact hearlier j hj (hlast.below hgrown.built (hold j hmem) hb)

end Loading

/-! ## What the limit bounds -/

theorem length_firstPath_of_load {t : FileId} (hl : source.load options top = .ok g)
    (ht : g.includesOf transientFile = [t]) (hp : g.FirstPath h t p) :
    p.length ≤ options.limits.includeDepth := by
  simp only [Source.load, bind_eq_ok, pure_eq_ok] at hl
  obtain ⟨⟨f, m⟩, hload, done, hc, rfl⟩ := hl
  have hgrown := grown_loadFile options.limits.includeDepth [] top {} f m .empty hload
  have ho := hgrown.built.coherent.ordered
  have hf := (hgrown.loaded f List.mem_cons_self).1
  have hincludes : ∀ x, done.graph.includesOf x =
      if x = transientFile then [f] else m.includesOf x := by
    intro x
    rw [Graph.includesOf_commit hc]
    exact Graph.includesOf_setIncludes m transientFile [f] x ho.nonempty
  rw [hincludes, if_pos rfl] at ht
  obtain ⟨rfl, -⟩ := List.cons.inj ht
  have hp : m.FirstPath h f p := by
    refine hp.congr fun x hb => ?_
    rw [hincludes, if_neg]
    rintro rfl
    exact ho.transientFile_not_below hf hb
  have hh : h ≠ transientFile := by
    rintro rfl
    exact ho.transientFile_not_below hf hp.includePath.below_end
  exact length_firstPath_loadFile _ [] top {} f m .empty hload h p (Nat.pos_of_ne_zero hh) hp

/-- What the limit on the depth of includes bounds.  For every source, options and spec:

  * if the load succeeds, then every loaded file is met on a first path from the top file, and a
    first path has no more files than allowed;
  * any path of includes from the top file has no more files than the graph, and no more than
    allowed unless it makes a detour;
  * if the load fails for its depth, then includes lead on over more files than allowed, unless
    the failure is the source's own, of a file that is led to. -/
theorem includeDepth_of_load (source : Source) (options : LoadOptions) (top : String) :
    (∀ g, source.load options top = .ok g →
      ∃ t, g.includesOf transientFile = [t] ∧ g.fileOf? top = some t ∧
        (∀ h < g.files.size, h ≠ transientFile → ∃ p, g.FirstPath h t p) ∧
        (∀ h p, g.FirstPath h t p → p.length ≤ options.limits.includeDepth) ∧
        ∀ h p, g.IncludePath h t p → p.length ≤ g.loadedCount ∧
          (p.length ≤ options.limits.includeDepth ∨ g.Detour h p)) ∧
    ∀ e n, source.load options top = .error e → e.cause = .includeTooDeep n →
      (∃ x raw, source.Leads options top x ∧ source x = .error raw ∧ e = raw.inFile x) ∨
      ∃ path, source.Trail options top path ∧ options.limits.includeDepth < path.length := by
  constructor
  · intro g hl
    obtain ⟨t, htop⟩ := topFile_of_load hl
    obtain ⟨hne, hlt⟩ := fileOf?_eq_some htop.title
    have hwhole := (rooted_of_load hl).whole
    have hfirst : ∀ h p, g.FirstPath h t p → p.length ≤ options.limits.includeDepth :=
      fun h p hp => length_firstPath_of_load hl htop.front hp
    refine ⟨t, htop.front, htop.title, ?_, hfirst, ?_⟩
    · intro h hh hhne
      refine Graph.exists_firstPath hwhole.ordered t ?_
      rcases Graph.below_iff.mp (hwhole.below h hh) with rfl | ⟨i, hi, hb⟩
      · exact absurd rfl hhne
      · rw [htop.front, List.mem_singleton] at hi
        rw [← hi]
        exact hb
    · intro h p hp
      constructor
      · have hle := hp.length_le hwhole.ordered hne
        have hh : h ≠ transientFile := by
          rintro rfl
          exact hwhole.ordered.transientFile_not_below hne hp.below_end
        have hpos := Nat.pos_of_ne_zero (n := h) hh
        have hlast := Nat.succ_le_of_lt hlt
        rw [Graph.loadedCount]
        omega
      · rcases hp.first_or_detour with hp | hdetour
        · exact Or.inl (hfirst h p hp)
        · exact Or.inr hdetour
  · intro e n hl hn
    obtain ⟨-, reason⟩ := (ends_load source options top).2 e hl
    cases reason with
    | cycle _ _ => cases hn
    | deep ht hlong => exact Or.inr ⟨_, ht, hlong⟩
    | crowded _ _ _ => cases hn
    | reported hled hsource => exact Or.inl ⟨_, _, hled, hsource, rfl⟩
    | other hfollowed =>
      rw [hn] at hfollowed
      cases hfollowed

/-- The top file includes `c`, and after it `a`, which includes `c` as well. -/
def shortcut : Source := fun spec =>
  if spec = "c" then .ok "u:X = 1".toUTF8
  else if spec = "a" then .ok "includeFile = c".toUTF8
  else if spec = "top" then .ok "includeFile = c a".toUTF8
  else .error (.cannotOpen spec "no such file")

/-- A path of three files where two are allowed: it makes a detour, and the file it ends with was
met on one of two files. -/
theorem includeDepth_of_load_shortcut :
    let options : LoadOptions := { limits := { includeDepth := 2 }, withDefaults := false }
    ∃ g, shortcut.load options "top" = .ok g ∧ g.includesOf transientFile = [3] ∧
      g.IncludePath 1 3 [3, 2, 1] ∧ g.Detour 1 [3, 2, 1] ∧
      ∃ p, g.FirstPath 1 3 p ∧ p.length ≤ 2 := by
  intro options
  have hok : ((shortcut.load options "top").toOption.any fun g =>
      g.includesOf transientFile == [3] && g.includesOf 3 == [1, 2] && g.includesOf 2 == [1] &&
        g.files.size == 4) = true := by
    decide +kernel
  obtain ⟨g, hg, hok⟩ := (Option.any_eq_true _ _).mp hok
  simp only [Bool.and_eq_true, beq_iff_eq] at hok
  obtain ⟨⟨⟨hfront, hthree⟩, htwo⟩, hsize⟩ := hok
  have hl := toOption_eq_some.mp hg
  have hpath : g.IncludePath 1 3 [3, 2, 1] :=
    .step (i := 2) (by simp [hthree]) (.step (i := 1) (by simp [htwo]) .here)
  obtain ⟨t, ht, -, hmet, hfirst, hpaths⟩ := (includeDepth_of_load shortcut options "top").1 g hl
  cases hfront.symm.trans ht
  refine ⟨g, hl, hfront, hpath, ?_, ?_⟩
  · rcases (hpaths 1 [3, 2, 1] hpath).2 with hshort | hdetour
    · exact absurd hshort (by decide)
    · exact hdetour
  · obtain ⟨p, hp⟩ := hmet 1 (by rw [hsize]; decide) (by decide)
    exact ⟨p, hp, hfirst 1 p hp⟩

end ParameterChain
