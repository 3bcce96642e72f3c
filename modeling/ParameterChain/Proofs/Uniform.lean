/-
# What all declarations of a key have in common

Something of a parameter, such as its kind, is *uniform* for a key below a file if all
declarations of the key there agree in it.  The files that a file includes may each have it
uniform and yet differ; then the file itself has to declare the key, as the check of its
arms demands, and a declaration that agrees with what every include shows makes them all
agree.

Main statement: `uniform_commit`.
-/
import ParameterChain.Proofs.Built

namespace ParameterChain.Graph

variable {α : Type} {u : Parameter → α} {g g' : Graph} {f h i : FileId} {k : Key}
  {ds : Declarations} {limits : Limits} {done : Commit} {p q : Parameter}

/-- Below `f` all declarations of `k` agree in `u`. -/
def Uniform (g : Graph) (u : Parameter → α) (f : FileId) (k : Key) : Prop :=
  ∀ h i p q, g.Below f h → g.Below f i → g.declared? h k = some p →
    g.declared? i k = some q → u p = u q

theorem Uniform.congr (hsame : g.SameBelow g' f k) (hu : g.Uniform u f k) :
    g'.Uniform u f k := by
  intro h i p q hh hi hp hq
  have hh := hsame.below_iff.mp hh
  have hi := hsame.below_iff.mp hi
  rw [(hsame h hh).2] at hp
  rw [(hsame i hi).2] at hq
  exact hu h i p q hh hi hp hq

/-- What a walk finds of a key agrees with every declaration of it below. -/
theorem Uniform.exists_firstFound? (ho : g.Ordered) (hf : f < g.files.size)
    (hu : g.Uniform u f k) (hb : g.Below f h) (hp : g.declared? h k = some p) :
    ∃ q, g.firstFound? f k = some q ∧ u p = u q := by
  cases hfound : g.firstFound? f k with
  | none =>
    have hnone := (ho.firstFound?_eq_none_iff hf).mp hfound h hb
    exact absurd (hnone.symm.trans hp) (by simp)
  | some q =>
    obtain ⟨i, hi, hq⟩ := ho.below_of_firstFound? hf hfound
    exact ⟨q, rfl, hu h i p q hb hi hp hq⟩

/-! ## Commits -/

/-- What is declared below a file that was committed to is new, or one of the includes
shows a declaration of the same key that agrees with it. -/
theorem new_or_shown (ho : g.Ordered) (hc : g.commit limits f ds = .ok done)
    (hempty : g.declared? f k = none) (harms : ∀ i ∈ g.includesOf f, g.Uniform u i k)
    (hb : done.graph.Below f h) (hp : done.graph.declared? h k = some p) :
    (p ∈ done.parameters ∧ h = f) ∨
      ∃ i ∈ g.includesOf f, ∃ r, g.firstFound? i k = some r ∧ u p = u r := by
  rcases declared?_commit_cases hc hp with ⟨hmem, rfl, -⟩ | hp
  · exact Or.inl ⟨hmem, rfl⟩
  rw [Below.congr (includesOf_commit hc)] at hb
  rcases below_iff.mp hb with rfl | ⟨i, hi, hb⟩
  · exact absurd (hempty.symm.trans hp) (by simp)
  · have hsize := ho.lt_size_of_include hi
    exact Or.inr ⟨i, hi, (harms i hi).exists_firstFound? ho hsize hb hp⟩

/-- Two includes show declarations that agree, or the file declares the key. -/
theorem shown_agree_or_declared (ho : g.Ordered) (hhome : g.AtHome)
    (hc : g.commit limits f ds = .ok done) (hi : i ∈ g.includesOf f) (hh : h ∈ g.includesOf f)
    (hp : g.firstFound? i k = some p) (hq : g.firstFound? h k = some q) :
    p = q ∨ (ds.get? k).isSome := by
  obtain ⟨o, drafts, hout, -, -⟩ := commit_eq_ok.mp hc
  obtain ⟨ks, ds', rows, hks, -⟩ := outline_eq_ok.mp hout
  rcases agreeOn_of_contested (k := k) hks hi hh with hslots | ⟨-, hdecl⟩
  · obtain ⟨x, -, hx⟩ := ho.below_of_firstFound? (ho.lt_size_of_include hi) hp
    obtain ⟨y, -, hy⟩ := ho.below_of_firstFound? (ho.lt_size_of_include hh) hq
    exact Or.inl (hhome.eq_of_slot hx hy (hslots p q hp hq))
  · exact Or.inr hdecl

/-- Below a file that is committed to for the first time a key is uniform, if it is below
each of the includes and what is committed agrees with what they show. -/
theorem uniform_commit (ho : g.Ordered) (hhome : g.AtHome) (hf : f < g.files.size)
    (hc : g.commit limits f ds = .ok done) (hempty : g.declared? f k = none)
    (harms : ∀ i ∈ g.includesOf f, g.Uniform u i k)
    (hagree : ∀ p ∈ done.parameters, p.key = k → ∀ i ∈ g.includesOf f, ∀ q,
      g.firstFound? i k = some q → u p = u q) :
    done.graph.Uniform u f k := by
  intro h i p q hh hi hp hq
  have hkp : p.key = k := key_of_declared? hp
  have hkq : q.key = k := key_of_declared? hq
  rcases new_or_shown ho hc hempty harms hh hp with ⟨hnew, rfl⟩ | ⟨x, hx, r, hr, hpr⟩
  · rcases new_or_shown ho hc hempty harms hi hq with ⟨-, rfl⟩ | ⟨x, hx, r, hr, hqr⟩
    · rw [Option.some.inj (hp.symm.trans hq)]
    · exact (hagree p hnew hkp x hx r hr).trans hqr.symm
  · rcases new_or_shown ho hc hempty harms hi hq with ⟨hnew, rfl⟩ | ⟨y, hy, r', hr', hqr⟩
    · exact hpr.trans (hagree q hnew hkq x hx r hr).symm
    · -- Both are shown by includes, which agree or are overruled by the file.
      rcases shown_agree_or_declared ho hhome hc hx hy hr hr' with rfl | hdecl
      · exact hpr.trans hqr.symm
      · obtain ⟨d, hd⟩ := Option.isSome_iff_exists.mp hdecl
        have hkey : d.key = k := key_of_rowOf? hd
        subst hkey
        obtain ⟨m, hm⟩ := Option.isSome_iff_exists.mp
          (isSome_declared?_commit hc hf (mem_of_rowOf? hd))
        rcases declared?_commit_cases hc hm with ⟨hmem, -, -⟩ | hm
        · have hkm := key_of_declared? hm
          rw [hpr, hqr, ← hagree m hmem hkm x hx r hr, ← hagree m hmem hkm y hy r' hr']
        · exact absurd (hempty.symm.trans hm) (by simp)

/-! ## Built graphs -/

section File

variable {name : String} {includes : List FileId} (hg : g.Coherent)
  (hincludes : ∀ i ∈ includes, i ≠ transientFile ∧ i < g.files.size)

include hg

/-- Loading a file changes nothing below the files that were there. -/
theorem sameBelow_file (hf : f < g.files.size)
    (hc : (g.addFile name includes).commit limits g.files.size ds = .ok done) (k : Key) :
    g.SameBelow done.graph f k := by
  have hsame := sameBelow_addFile hg.ordered hf name includes k
  exact hsame.trans (sameBelow_commit hc (not_below_addFile hg.ordered hf name includes) k)

include hincludes

/-- Below what a new file includes nothing has changed. -/
theorem uniform_arms (hu : ∀ f < g.files.size, g.Uniform u f k)
    (hi : i ∈ (g.addFile name includes).includesOf g.files.size) :
    (g.addFile name includes).Uniform u i k := by
  have hlt := lt_size_of_include_addFile hg.ordered hincludes hi
  exact (hu i hlt).congr (sameBelow_addFile hg.ordered hlt name includes k)

/-- A key that is uniform below every file is so when another file was loaded, if what that
file declares agrees with what its includes show. -/
theorem uniform_file (hu : ∀ f < g.files.size, g.Uniform u f k)
    (hc : (g.addFile name includes).commit limits g.files.size ds = .ok done)
    (hagree : ∀ p ∈ done.parameters, p.key = k →
      ∀ i ∈ (g.addFile name includes).includesOf g.files.size, ∀ q,
        (g.addFile name includes).firstFound? i k = some q → u p = u q) :
    ∀ f < done.graph.files.size, done.graph.Uniform u f k := by
  have ho : (g.addFile name includes).Ordered := ordered_addFile hg.ordered hincludes
  have hhome : (g.addFile name includes).AtHome := hg.home.addFile name includes
  intro f hf
  have hf : f < g.files.size + 1 := by simpa [size_commit hc] using hf
  rcases Nat.lt_succ_iff_lt_or_eq.mp hf with hlt | rfl
  · exact (hu f hlt).congr (sameBelow_file hg hlt hc k)
  · refine uniform_commit ho hhome (by simp) hc ?_ (fun i hi => ?_) hagree
    · rw [declared?_addFile]
      exact declared?_eq_none_of_size_le (Nat.le_refl _)
    · exact uniform_arms hg hincludes hu hi

end File

/-- What is uniform below the top file is so in the whole graph, once the transient file is
in front of it. -/
theorem Built.uniform_root {top : FileId} (hb : g.Built)
    (hall : ∀ h < g.files.size, h = transientFile ∨ g.Below top h)
    (hc : (g.setIncludes transientFile [top]).commit limits transientFile
      { redefinable := true } = .ok done)
    (hu : g.Uniform u top k) (hp : done.graph.declared? h k = some p)
    (hq : done.graph.declared? i k = some q) : u p = u q := by
  have hbelow : ∀ h p, g.declared? h k = some p → g.Below top h := by
    intro h p hp
    refine (hall h (lt_size_of_declared? hp)).resolve_left ?_
    rintro rfl
    rw [hb.declared?_transientFile] at hp
    cases hp
  rw [declared?_root hc] at hp hq
  exact hu h i p q (hbelow h p hp) (hbelow i q hq) hp hq

end ParameterChain.Graph
