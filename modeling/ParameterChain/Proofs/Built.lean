/-
# Graphs that can be built

Loading adds one file at a time, behind the files it includes, and commits its
declarations (`Built`).  Then the transient file is put in front of the top file, and
from there on edits are committed to it and the clock is moved (`Rooted`).

Every such graph is `Coherent`: its files are ordered, its parameters are stored under
the files that declare them, and every key is settled at every file.  One lemma,
`coherent_commit`, covers all three ways to commit, for in each of them the file that
is committed to is below no other.

A rooted graph is moreover linear below the transient file, and all of its files are
below it.
-/
import ParameterChain.Evaluation
import ParameterChain.Proofs.Arms
import ParameterChain.Proofs.Commit
import ParameterChain.Proofs.Outline

namespace ParameterChain.Graph

variable {g g' : Graph} {f h : FileId} {k : Key} {ds : Declarations} {limits : Limits}
  {done : Commit}

/-- The graphs that loading goes through. -/
inductive Built : Graph → Prop
  | empty : Built {}
  | file {g : Graph} {limits : Limits} {name : String} {includes : List FileId}
      {ds : Declarations} {done : Commit} :
      Built g → (∀ i ∈ includes, i ≠ transientFile ∧ i < g.files.size) → ds.Distinct →
      (g.addFile name includes).commit limits g.files.size ds = .ok done → Built done.graph

/-- The graphs that sessions have. -/
inductive Rooted : Graph → Prop
  | root {g : Graph} {limits : Limits} {top : FileId} {done : Commit} :
      Built g → top ≠ transientFile ∧ top < g.files.size →
      (∀ h < g.files.size, h = transientFile ∨ g.Below top h) →
      (g.setIncludes transientFile [top]).commit limits transientFile { redefinable := true } =
        .ok done → Rooted done.graph
  | edit {g : Graph} {limits : Limits} {ds : Declarations} {done : Commit} :
      Rooted g → ds.Distinct → g.commit limits transientFile ds = .ok done → Rooted done.graph
  | tick {g : Graph} (t : Float) : Rooted g → Rooted { g with clock := t }

/-! ## Same below a file -/

/-- Below `f` the graphs have the same includes and the same declarations of `k`. -/
def SameBelow (g g' : Graph) (f : FileId) (k : Key) : Prop :=
  ∀ h, g.Below f h → g'.includesOf h = g.includesOf h ∧ g'.declared? h k = g.declared? h k

theorem SameBelow.below_iff (hsame : g.SameBelow g' f k) : g'.Below f h ↔ g.Below f h := by
  constructor
  · intro hb
    induction hb with
    | refl => exact Below.refl g f
    | tail _ hstep ih =>
      refine ih.tail ?_
      rw [Includes, ← (hsame _ ih).1]
      exact hstep
  · intro hb
    induction hb with
    | refl => exact Below.refl g' f
    | tail hb hstep ih =>
      refine ih.tail ?_
      rw [Includes, (hsame _ hb).1]
      exact hstep

theorem SameBelow.include (hsame : g.SameBelow g' f k) {i : FileId} (hi : i ∈ g.includesOf f) :
    g.SameBelow g' i k :=
  fun h hb => hsame h (hb.head hi)

theorem SameBelow.trans {g'' : Graph} (hsame : g.SameBelow g' f k)
    (hsame' : g'.SameBelow g'' f k) : g.SameBelow g'' f k := by
  intro h hb
  obtain ⟨hincludes, hdeclared⟩ := hsame h hb
  obtain ⟨hincludes', hdeclared'⟩ := hsame' h (hsame.below_iff.mpr hb)
  exact ⟨hincludes'.trans hincludes, hdeclared'.trans hdeclared⟩

theorem SameBelow.firstFound?_eq (ho : g.Ordered) (ho' : g'.Ordered) (hf : f < g.files.size)
    (hf' : f < g'.files.size) (hsame : g.SameBelow g' f k) :
    g'.firstFound? f k = g.firstFound? f k := by
  induction f using ho.induction with
  | step f ih =>
  obtain ⟨hincludes, hdecl⟩ := hsame f (Below.refl g f)
  rw [ho'.firstFound?_eq hf', ho.firstFound?_eq hf, hincludes, hdecl]
  congr 1
  refine findSome?_congr fun i hi => ?_
  refine ih i hi (ho.lt_size_of_include hi) ?_ (hsame.include hi)
  exact ho'.lt_size_of_include (hincludes ▸ hi)

theorem SameBelow.settled (ho : g.Ordered) (ho' : g'.Ordered) (hf : f < g.files.size)
    (hf' : f < g'.files.size) (hsame : g.SameBelow g' f k) (hsettled : g.Settled f k) :
    g'.Settled f k := by
  have hfound := hsame.firstFound?_eq ho ho' hf hf'
  rcases hsettled with hnone | ⟨w, hlead, hw⟩
  · exact Or.inl (hfound.trans hnone)
  · have hdecl := (hsame w hlead.below).2
    refine Or.inr ⟨w, ⟨hsame.below_iff.mpr hlead.below, hdecl ▸ hlead.declares, ?_⟩, ?_⟩
    · intro h hb hh
      have hb := hsame.below_iff.mp hb
      rw [(hsame h hb).2] at hh
      have hwh : g.SameBelow g' w k := fun x hx => hsame x (hlead.below.trans hx)
      exact hwh.below_iff.mpr (hlead.above h hb hh)
    · rw [hfound, hw, hdecl]

/-! ## Coherent graphs -/

structure Coherent (g : Graph) : Prop where
  ordered : g.Ordered
  home : g.AtHome
  settled : ∀ f < g.files.size, ∀ k, g.Settled f k

theorem declared?_eq_none_of_size_le (hh : g.files.size ≤ h) : g.declared? h k = none := by
  simp [declared?, parametersOf, Array.getElem?_eq_none hh, rowOf?]

theorem lt_size_of_declared? {p : Parameter} (hp : g.declared? h k = some p) :
    h < g.files.size := by
  refine Nat.lt_of_not_le ?_
  intro hge
  rw [declared?_eq_none_of_size_le hge] at hp
  cases hp

/-- A parameter that is declared after a commit was committed or was there before. -/
theorem declared?_commit_cases (hc : g.commit limits f ds = .ok done) {p : Parameter}
    (hp : done.graph.declared? h k = some p) :
    (p ∈ done.parameters ∧ h = f ∧ p.key = k) ∨ g.declared? h k = some p := by
  have hh : h < g.files.size := size_commit hc ▸ lt_size_of_declared? hp
  rw [declared?_commit hc hh] at hp
  cases hnew : done.parameters.reverse.find? fun p => p.slot = ⟨h, k⟩ with
  | none =>
    rw [hnew, Option.none_or] at hp
    exact Or.inr hp
  | some q =>
    rw [hnew, Option.some_or] at hp
    cases hp
    have hmem := List.mem_reverse.mp (List.mem_of_find?_eq_some hnew)
    have hslot : p.slot = ⟨h, k⟩ := by simpa using List.find?_some hnew
    have hfile : p.file = f := file_of_commit hc hmem
    rw [Parameter.slot, Slot.mk.injEq] at hslot
    exact Or.inl ⟨hmem, hslot.1.symm.trans hfile, hslot.2⟩

/-- Nothing is changed in a slot to which nothing is committed. -/
theorem declared?_commit_of_fresh (hc : g.commit limits f ds = .ok done)
    (hfresh : ∀ q ∈ done.parameters, q.slot ≠ ⟨h, k⟩) :
    done.graph.declared? h k = g.declared? h k := by
  by_cases hh : h < g.files.size
  · have hnone : (done.parameters.reverse.find? fun q => q.slot = ⟨h, k⟩) = none := by
      refine List.find?_eq_none.mpr fun q hq hslot => ?_
      exact hfresh q (List.mem_reverse.mp hq) (of_decide_eq_true hslot)
    rw [declared?_commit hc hh, hnone, Option.none_or]
  · have hge : g.files.size ≤ h := Nat.le_of_not_lt hh
    rw [declared?_eq_none_of_size_le hge, declared?_eq_none_of_size_le (size_commit hc ▸ hge)]

theorem declared?_commit_of_ne (hc : g.commit limits f ds = .ok done) (hh : h ≠ f) :
    done.graph.declared? h k = g.declared? h k := by
  refine declared?_commit_of_fresh hc fun q hq hslot => hh ?_
  exact (congrArg Slot.file hslot).symm.trans (file_of_commit hc hq)

/-- What is committed is declared from then on. -/
theorem isSome_declared?_commit (hc : g.commit limits f ds = .ok done)
    (hf : f < g.files.size) {d : Declaration} (hd : d ∈ ds.rows) :
    (done.graph.declared? f d.key).isSome := by
  rw [declared?_commit hc hf]
  obtain ⟨o, drafts, ho, hdraft, rfl⟩ := commit_eq_ok.mp hc
  obtain ⟨d', hd', hkey⟩ := List.mem_map.mp (mem_keys_outline ho hd)
  obtain ⟨p, hp, hresolved⟩ := exists_of_mapM (draft_eq_ok hdraft) hd'
  obtain ⟨kind, resolved, -, -, rfl⟩ := draftOf_eq_ok.mp hresolved
  have hsome : (drafts.reverse.find? fun p => p.slot = ⟨f, d.key⟩).isSome := by
    refine List.find?_isSome.mpr ⟨_, List.mem_reverse.mpr hp, decide_eq_true ?_⟩
    rw [Parameter.slot, Slot.mk.injEq]
    exact ⟨rfl, hkey⟩
  rw [Option.isSome_or, hsome, Bool.true_or]

/-- What is declared stays declared. -/
theorem isSome_declared?_of_commit (hc : g.commit limits f ds = .ok done)
    (hk : (g.declared? h k).isSome) : (done.graph.declared? h k).isSome := by
  obtain ⟨p, hp⟩ := Option.isSome_iff_exists.mp hk
  rw [declared?_commit hc (lt_size_of_declared? hp), Option.isSome_or, hk, Bool.or_true]

/-- The keys of what is committed are distinct if those of the declarations are. -/
theorem nodup_keys_commit (hds : ds.Distinct) (hc : g.commit limits f ds = .ok done) :
    (done.parameters.map Parameter.key).Nodup := by
  obtain ⟨o, drafts, ho, hdraft, rfl⟩ := commit_eq_ok.mp hc
  show (drafts.map Parameter.key).Nodup
  rw [keys_of_draft (draft_eq_ok hdraft)]
  exact distinct_outline hds ho

/-- What is committed is what is declared then. -/
theorem declared?_of_mem_parameters (hds : ds.Distinct) (hf : f < g.files.size)
    (hc : g.commit limits f ds = .ok done) {p : Parameter} (hp : p ∈ done.parameters) :
    done.graph.declared? f p.key = some p := by
  have hfile := file_of_commit hc hp
  have hsome : (done.parameters.reverse.find? fun q => q.slot = ⟨f, p.key⟩).isSome := by
    refine List.find?_isSome.mpr ⟨p, List.mem_reverse.mpr hp, decide_eq_true ?_⟩
    rw [Parameter.slot, hfile]
  obtain ⟨q, hq⟩ := Option.isSome_iff_exists.mp hsome
  have hmem := List.mem_reverse.mp (List.mem_of_find?_eq_some hq)
  have hslot : q.slot = ⟨f, p.key⟩ := by simpa using List.find?_some hq
  have heq : q = p :=
    List.inj_on_of_nodup_map (nodup_keys_commit hds hc) hmem hp (congrArg Slot.key hslot)
  rw [declared?_commit hc hf, hq, Option.some_or, heq]

/-- A commit changes nothing below a file that the file that is committed to is not below. -/
theorem sameBelow_commit (hc : g.commit limits f ds = .ok done) (hh : ¬ g.Below h f) (k : Key) :
    g.SameBelow done.graph h k := by
  intro x hb
  refine ⟨includesOf_commit hc x, declared?_commit_of_ne hc ?_⟩
  rintro rfl
  exact hh hb

theorem Ordered.congr (ho : g.Ordered) (hsize : g'.files.size = g.files.size)
    (hincludes : ∀ h, g'.includesOf h = g.includesOf h) : g'.Ordered := by
  refine ⟨hsize ▸ ho.nonempty, ?_⟩
  intro h i hi
  rw [rank, hsize, ← rank]
  exact ho.lower h i (hincludes h ▸ hi)

theorem ordered_commit (ho : g.Ordered) (hc : g.commit limits f ds = .ok done) :
    done.graph.Ordered :=
  ho.congr (size_commit hc) (includesOf_commit hc)

theorem atHome_commit (hhome : g.AtHome) (hc : g.commit limits f ds = .ok done) :
    done.graph.AtHome := by
  intro h k p hp
  rcases declared?_commit_cases hc hp with ⟨hmem, rfl, -⟩ | hp
  · exact file_of_commit hc hmem
  · exact hhome h k p hp

/-- A commit to a file that is below no other keeps a graph coherent; that file need
not have been settled before. -/
theorem coherent_commit (ho : g.Ordered) (hhome : g.AtHome) (hf : f < g.files.size)
    (hlone : ∀ h < g.files.size, h ≠ f → ¬ g.Below h f)
    (hsettled : ∀ h < g.files.size, h ≠ f → ∀ k, g.Settled h k)
    (hc : g.commit limits f ds = .ok done) : done.graph.Coherent := by
  have ho' := ordered_commit ho hc
  have hhome' := atHome_commit hhome hc
  have hsame : ∀ h < g.files.size, h ≠ f → ∀ k, g.SameBelow done.graph h k :=
    fun h hh hne k => sameBelow_commit hc (hlone h hh hne) k
  have hothers : ∀ h < done.graph.files.size, h ≠ f → ∀ k, done.graph.Settled h k := by
    intro h hh hne k
    have hh' : h < g.files.size := size_commit hc ▸ hh
    exact (hsame h hh' hne k).settled ho ho' hh' hh (hsettled h hh' hne k)
  refine ⟨ho', hhome', ?_⟩
  intro h hh k
  by_cases hne : h = f
  · subst hne
    have hinclude : ∀ i ∈ g.includesOf h, i < g.files.size ∧ i ≠ h := by
      intro i hi
      refine ⟨ho.lt_size_of_include hi, ?_⟩
      rintro rfl
      exact ho.not_below_of_include hi (Below.refl g i)
    refine settled_of_arms ho' hhome' hh (fun i hi => ?_) ?_
    · rw [includesOf_commit hc] at hi
      exact hothers i (ho'.lt_size_of_include (includesOf_commit hc h ▸ hi)) (hinclude i hi).2 k
    · by_cases hdecl : (ds.get? k).isSome
      · obtain ⟨d, hd⟩ := Option.isSome_iff_exists.mp hdecl
        have hkey : d.key = k := key_of_rowOf? hd
        exact Or.inl (hkey ▸ isSome_declared?_commit hc hf (mem_of_rowOf? hd))
      · refine Or.inr ?_
        intro i hi j hj
        rw [includesOf_commit hc] at hi hj
        have hfound : ∀ i ∈ g.includesOf h, done.graph.firstFound? i k = g.firstFound? i k := by
          intro i hi
          obtain ⟨hsize, hne⟩ := hinclude i hi
          exact (hsame i hsize hne k).firstFound?_eq ho ho' hsize (size_commit hc ▸ hsize)
        obtain ⟨o, drafts, hout, -, -⟩ := commit_eq_ok.mp hc
        obtain ⟨ks, -, -, hks, -⟩ := outline_eq_ok.mp hout
        rcases agreeOn_of_contested (k := k) hks hi hj with hagree | ⟨-, hd⟩
        · intro p q hp hq
          exact hagree p q (hfound i hi ▸ hp) (hfound j hj ▸ hq)
        · exact absurd hd hdecl
  · exact hothers h hh hne k

/-! ## Built graphs -/

theorem ordered_addFile (ho : g.Ordered) {name : String} {includes : List FileId}
    (hincludes : ∀ i ∈ includes, i ≠ transientFile ∧ i < g.files.size) :
    (g.addFile name includes).Ordered := by
  refine ⟨by simp, ?_⟩
  intro h i hi
  rw [includesOf_addFile] at hi
  split at hi
  · next heq =>
    subst heq
    obtain ⟨hne, hlt⟩ := hincludes i hi
    refine ⟨hne, ?_⟩
    rw [rank, if_neg (Nat.ne_of_gt ho.transientFile_lt_size)]
    exact hlt
  · obtain ⟨hne, hlt⟩ := ho.lower h i hi
    refine ⟨hne, Nat.lt_of_lt_of_le hlt ?_⟩
    unfold rank
    rw [size_addFile]
    split <;> omega

/-- Below the files that were there before, a new file changes nothing. -/
theorem sameBelow_addFile (ho : g.Ordered) (hf : f < g.files.size) (name : String)
    (includes : List FileId) (k : Key) : g.SameBelow (g.addFile name includes) f k := by
  intro h hb
  have hh := ho.lt_size_of_below hf hb
  rw [includesOf_addFile, if_neg (Nat.ne_of_lt hh), declared?_addFile]
  exact ⟨rfl, rfl⟩

/-- A new file is below none of the files that were there. -/
theorem not_below_addFile (ho : g.Ordered) (hh : h < g.files.size) (name : String)
    (includes : List FileId) : ¬ (g.addFile name includes).Below h g.files.size := by
  intro hb
  have hsame := sameBelow_addFile ho hh name includes ⟨""⟩
  exact Nat.lt_irrefl _ (ho.lt_size_of_below hh (hsame.below_iff.mp hb))

/-- Every file includes files that were there. -/
theorem lt_size_of_include_addFile (ho : g.Ordered) {name : String} {includes : List FileId}
    (hincludes : ∀ i ∈ includes, i ≠ transientFile ∧ i < g.files.size) {i : FileId}
    (hi : i ∈ (g.addFile name includes).includesOf f) : i < g.files.size := by
  rw [includesOf_addFile] at hi
  split at hi
  · exact (hincludes i hi).2
  · exact ho.lt_size_of_include hi

theorem AtHome.addFile (hhome : g.AtHome) (name : String) (includes : List FileId) :
    (g.addFile name includes).AtHome := by
  intro h k p hp
  rw [declared?_addFile] at hp
  exact hhome h k p hp

theorem Built.coherent (hb : g.Built) : g.Coherent := by
  induction hb with
  | empty =>
    have hnone : ∀ h k, ({} : Graph).declared? h k = none := by
      intro h k
      cases h <;> rfl
    refine ⟨⟨Nat.one_pos, fun f i hi => ?_⟩, fun h k p hp => ?_, fun f _ k => Or.inl ?_⟩
    · cases f <;> exact absurd hi List.not_mem_nil
    · exact absurd ((hnone h k).symm.trans hp) (by simp)
    · exact List.findSome?_eq_none_iff.mpr fun h _ => hnone h k
  | @file g limits name includes ds done _ hincludes _ hc ih =>
    have ho : (g.addFile name includes).Ordered := ordered_addFile ih.ordered hincludes
    refine coherent_commit ho (ih.home.addFile name includes) (by simp) ?_ ?_ hc
    · intro h hh hne
      have hh : h < g.files.size := by rw [size_addFile] at hh; omega
      exact not_below_addFile ih.ordered hh name includes
    · intro h hh hne k
      have hh' : h < g.files.size := by rw [size_addFile] at hh; omega
      exact (sameBelow_addFile ih.ordered hh' name includes k).settled ih.ordered ho hh' hh
        (ih.settled h hh' k)

theorem Built.declared?_transientFile (hb : g.Built) (k : Key) :
    g.declared? transientFile k = none := by
  induction hb with
  | empty => rfl
  | file hb _ _ hc ih =>
    rw [declared?_commit_of_ne hc, declared?_addFile]
    · exact ih
    · exact Nat.ne_of_lt hb.coherent.ordered.transientFile_lt_size

/-! ## Rooted graphs -/

theorem walk_congr (hincludes : ∀ h, g'.includesOf h = g.includesOf h) (n : Nat) (f : FileId) :
    g'.walk n f = g.walk n f := by
  induction n generalizing f with
  | zero => rfl
  | succ n ih =>
    rw [walk, walk, hincludes f]
    congr 2
    exact funext ih

theorem linearOrder_congr (hsize : g'.files.size = g.files.size)
    (hincludes : ∀ h, g'.includesOf h = g.includesOf h) (f : FileId) :
    g'.linearOrder f = g.linearOrder f := by
  rw [linearOrder, linearOrder, hsize, walk_congr hincludes]

/-- A commit leaves the file that was committed to with a linear chain. -/
theorem linked_commit (ho : g.Ordered) (hf : f < g.files.size)
    (hc : g.commit limits f ds = .ok done) :
    done.graph.Linked (done.graph.linearOrder f) := by
  rw [linearOrder_congr (size_commit hc) (includesOf_commit hc)]
  intro h hh
  rw [parentOf?_commit hc]
  exact ho.linked_linearize hf h hh

/-- Nothing is declared when the transient file is put in front. -/
theorem declared?_root {top : FileId}
    (hc : (g.setIncludes transientFile [top]).commit limits transientFile
      { redefinable := true } = .ok done) (h : FileId) (k : Key) :
    done.graph.declared? h k = g.declared? h k := by
  have hnone : done.parameters = [] := by
    obtain ⟨o, drafts, ho, hdraft, rfl⟩ := commit_eq_ok.mp hc
    obtain ⟨-, hrows⟩ := outline_eq_ok_of_featureless (fun d hd => absurd hd List.not_mem_nil) ho
    have hdrafts := draft_eq_ok hdraft
    rw [List.forall₂_nil_left_iff.mp hrows, List.mapM_nil] at hdrafts
    exact (pure_eq_ok.mp hdrafts).symm
  rw [declared?_commit_of_fresh hc, declared?_setIncludes]
  rw [hnone]
  exact fun q hq => absurd hq List.not_mem_nil

theorem AtHome.stored_of_find? (hhome : g.AtHome) {p : Parameter} (hp : g.find? f k = some p) :
    g.Stored p := by
  obtain ⟨h, -, hh⟩ := List.exists_of_findSome?_eq_some hp
  exact hhome.stored hh

theorem AtHome.stored_of_visible? (hhome : g.AtHome) {p : Parameter}
    (hp : g.visible? k = some p) : g.Stored p :=
  hhome.stored_of_find? hp

/-- What a reference stands for is a parameter of the graph. -/
theorem AtHome.stored_of_target? (hhome : g.AtHome) {p q : Parameter} {r : Ref}
    (hq : g.target? p r = some q) : g.Stored q := by
  cases r with
  | named name => exact hhome.stored_of_visible? hq
  | inherited =>
    obtain ⟨parent, -, hq⟩ := Option.bind_eq_some_iff.mp hq
    exact hhome.stored_of_find? hq

theorem key_of_visible? {p : Parameter} (hp : g.visible? k = some p) : p.key = k := by
  obtain ⟨h, -, hh⟩ := List.exists_of_findSome?_eq_some hp
  exact key_of_declared? hh

/-- A graph that is looked up from the transient file. -/
structure Whole (g : Graph) : Prop extends Coherent g where
  linked : g.Linked (g.linearOrder transientFile)
  below : ∀ h < g.files.size, g.Below transientFile h

theorem Whole.tick (hg : g.Whole) (t : Float) : ({ g with clock := t } : Graph).Whole := by
  have ho : ({ g with clock := t } : Graph).Ordered := ⟨hg.ordered.nonempty, hg.ordered.lower⟩
  refine ⟨⟨ho, hg.home, ?_⟩, ?_, ?_⟩
  · intro f hf k
    have hsame : g.SameBelow { g with clock := t } f k := fun h _ => ⟨rfl, rfl⟩
    exact hsame.settled hg.ordered ho hf hf (hg.settled f hf k)
  · have horder : ({ g with clock := t } : Graph).linearOrder transientFile =
        g.linearOrder transientFile := by
      refine linearOrder_congr ?_ ?_ _
      · rfl
      · exact fun h => rfl
    rw [horder]
    exact hg.linked
  · intro h hh
    exact (Below.congr (g := g) fun _ => rfl).mpr (hg.below h hh)

theorem ordered_setIncludes (ho : g.Ordered) {top : FileId}
    (htop : top ≠ transientFile ∧ top < g.files.size) :
    (g.setIncludes transientFile [top]).Ordered := by
  refine ⟨by simpa using ho.nonempty, ?_⟩
  intro h i hi
  rw [includesOf_setIncludes g _ _ _ ho.transientFile_lt_size] at hi
  simp only [rank, size_setIncludes]
  split at hi
  · next heq =>
    rw [List.mem_singleton.mp hi, if_pos heq]
    exact htop
  · exact ho.lower h i hi

/-- What is put below the transient file changes nothing below the other files. -/
theorem sameBelow_setIncludes (ho : g.Ordered) (hh : h ≠ transientFile) (includes : List FileId)
    (k : Key) : g.SameBelow (g.setIncludes transientFile includes) h k := by
  intro x hb
  have hx : x ≠ transientFile := by
    rintro rfl
    exact ho.transientFile_not_below hh hb
  rw [includesOf_setIncludes g _ _ _ ho.transientFile_lt_size, if_neg hx]
  exact ⟨rfl, declared?_setIncludes g _ _ _ _⟩

theorem Rooted.whole (hr : g.Rooted) : g.Whole := by
  induction hr with
  | @root g limits top done hb htop hall hc =>
    have hg := hb.coherent
    have ho := ordered_setIncludes hg.ordered htop
    have hsame := fun h hne k => sameBelow_setIncludes hg.ordered (h := h) hne [top] k
    have hcoherent : done.graph.Coherent := by
      refine coherent_commit ho ?_ ho.transientFile_lt_size ?_ ?_ hc
      · intro h k p hp
        rw [declared?_setIncludes] at hp
        exact hg.home h k p hp
      · exact fun h _ hne => ho.transientFile_not_below hne
      · intro h hh hne k
        have hh' : h < g.files.size := by simpa using hh
        exact (hsame h hne k).settled hg.ordered ho hh' hh (hg.settled h hh' k)
    refine ⟨hcoherent, linked_commit ho ho.transientFile_lt_size hc, ?_⟩
    intro h hh
    rw [Below.congr (includesOf_commit hc)]
    rcases hall h (by simpa [size_commit hc] using hh) with rfl | hb
    · exact Below.refl _ _
    · refine Below.head (i := top) ?_ ((hsame top htop.1 ⟨""⟩).below_iff.mpr hb)
      rw [includesOf_setIncludes g _ _ _ hg.ordered.transientFile_lt_size, if_pos rfl]
      exact List.mem_singleton_self top
  | @edit g limits ds done _ _ hc ih =>
    have ho := ih.ordered
    refine ⟨?_, linked_commit ho ho.transientFile_lt_size hc, ?_⟩
    · refine coherent_commit ho ih.home ho.transientFile_lt_size ?_ ?_ hc
      · exact fun h _ hne => ho.transientFile_not_below hne
      · exact fun h hh _ k => ih.settled h hh k
    · intro h hh
      rw [Below.congr (includesOf_commit hc)]
      exact ih.below h (size_commit hc ▸ hh)
  | tick t _ ih => exact ih.tick t

theorem Whole.below_of_declared? (hg : g.Whole) {p : Parameter}
    (hp : g.declared? h k = some p) : g.Below transientFile h :=
  hg.below h (lt_size_of_declared? hp)

/-- In a whole graph reads see what a walk of the includes finds first, and all other
files that declare the key are below the one that declares what is seen. -/
theorem Whole.visible?_eq (hg : g.Whole) (k : Key) :
    g.visible? k = g.firstFound? transientFile k ∧
      ∀ h p, g.declared? h k = some p → ∃ q, g.visible? k = some q ∧ g.Below q.file h := by
  have ho := hg.ordered
  rcases hg.settled transientFile ho.nonempty k with hnone | ⟨w, hlead, hw⟩
  · have hno := (ho.firstFound?_eq_none_iff ho.nonempty).mp hnone
    refine ⟨(ho.find?_eq_none ho.nonempty hg.linked hno).trans hnone.symm, ?_⟩
    intro h p hp
    exact absurd ((hno h (hg.below_of_declared? hp)).symm.trans hp) (by simp)
  · have hfind := ho.find?_eq_of_leads ho.nonempty hg.linked hlead
    refine ⟨hfind.trans hw.symm, ?_⟩
    intro h p hp
    obtain ⟨q, hq⟩ := Option.isSome_iff_exists.mp hlead.declares
    refine ⟨q, hfind.trans hq, ?_⟩
    rw [hg.home w k q hq]
    exact hlead.above h (hg.below_of_declared? hp) (by simp [hp])

end ParameterChain.Graph
