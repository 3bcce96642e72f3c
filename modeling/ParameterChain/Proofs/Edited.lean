/-
# What an edit can be seen to change

An edit of a key that is no root of a time feature stores one parameter in the
transient file.  Nothing is above the transient file but reads themselves, so of all
look-ups only that of the edited key from there can find something else: the chains
stay as they are, and so does what an inherited value is.

Main statement: `shows_commit`.  If the parameter that was visible under the key is
changeable, everything but changeable parameters of that key is shown as before.
-/
import ParameterChain.Proofs.Repeats
import ParameterChain.Proofs.Typed

namespace ParameterChain.Graph

variable {g g' : Graph} {f h : FileId} {k : Key} {ds : Declarations} {d : Declaration}
  {limits : Limits} {done : Commit} {p q : Parameter} {order : List FileId}

/-! ## Chains -/

theorem chain_congr (hsize : g'.files.size = g.files.size)
    (hparent : ∀ h, g'.parentOf? h = g.parentOf? h) (f : FileId) : g'.chain f = g.chain f := by
  have hfrom : ∀ n f, g'.parentsFrom n f = g.parentsFrom n f := by
    intro n
    induction n with
    | zero => exact fun f => rfl
    | succ n ih =>
      intro f
      simp only [parentsFrom, hparent, ih]
  rw [chain, chain, hsize, hfrom]

theorem mem_of_after? {a : FileId} {rest : List FileId}
    (hafter : after? f (a :: rest) = some h) : h ∈ rest := by
  induction rest generalizing a with
  | nil => cases hafter
  | cons b rest ih =>
    rw [after?] at hafter
    split at hafter
    · cases hafter
      exact List.mem_cons_self
    · exact List.mem_cons_of_mem b (ih hafter)

theorem parentOf?_eq_none_of_size_le (hf : g.files.size ≤ f) : g.parentOf? f = none := by
  rw [parentOf?, Array.getElem?_eq_none hf]
  rfl

/-- No chain of parents comes back to the transient file. -/
theorem Whole.transientFile_not_mem_chain (hg : g.Whole) (hparent : g.parentOf? f = some h) :
    transientFile ∉ g.chain h := by
  have hsize := hg.ordered.transientFile_lt_size
  obtain ⟨rest, hrest⟩ := hg.ordered.linearOrder_eq_cons hsize
  have hnodup : (transientFile :: rest).Nodup := hrest ▸ nodup_lastPlaces _
  have hnext : ∀ x, g.Below transientFile x → ∀ y, g.parentOf? x = some y → y ∈ rest := by
    intro x hb y hy
    rw [hg.linked x ((hg.ordered.mem_linearOrder hsize).mpr hb), hrest] at hy
    exact mem_of_after? hy
  have hbelow : ∀ x ∈ rest, g.Below transientFile x := by
    intro x hx
    refine (hg.ordered.mem_linearOrder hsize).mp ?_
    rw [hrest]
    exact List.mem_cons_of_mem _ hx
  have hfrom : ∀ n, ∀ x ∈ rest, ∀ y ∈ g.parentsFrom n x, y ∈ rest := by
    intro n
    induction n with
    | zero => exact fun x _ y hy => absurd hy List.not_mem_nil
    | succ n ih =>
      intro x hx y hy
      rw [parentsFrom] at hy
      cases hnext' : g.parentOf? x with
      | none =>
        rw [hnext'] at hy
        exact List.mem_singleton.mp hy ▸ hx
      | some z =>
        rw [hnext'] at hy
        rcases List.mem_cons.mp hy with rfl | hy
        · exact hx
        · exact ih z (hnext x (hbelow x hx) z hnext') y hy
  have hf : f < g.files.size := by
    refine Nat.lt_of_not_le ?_
    intro hge
    rw [parentOf?_eq_none_of_size_le hge] at hparent
    cases hparent
  intro hmem
  have hmem := hfrom _ h (hnext f (hg.below f hf) h hparent) _ hmem
  exact (List.nodup_cons.mp hnodup).1 hmem

/-! ## A commit to the transient file -/

section Commit

variable (hg : g.Whole) (hc : g.commit limits transientFile ds = .ok done)

include hg hc

theorem chain_commit (f : FileId) : done.graph.chain f = g.chain f := by
  refine chain_congr (size_commit hc) (fun h => ?_) f
  rw [parentOf?_commit hc]
  exact hg.ordered.parentOf?_linearize hg.ordered.transientFile_lt_size hg.linked h

theorem find?_commit_of_fresh (hfresh : ∀ p ∈ done.parameters, p.key ≠ k) (f : FileId) :
    done.graph.find? f k = g.find? f k := by
  rw [find?, find?, chain_commit hg hc]
  refine findSome?_congr fun x _ => declared?_commit_of_fresh hc fun p hp hslot => ?_
  exact hfresh p hp (congrArg Slot.key hslot)

/-- What is above a file does not depend on edits. -/
theorem above?_commit (f : FileId) (k : Key) : done.graph.above? f k = g.above? f k := by
  have hparent : done.graph.parentOf? f = g.parentOf? f := by
    rw [parentOf?_commit hc]
    exact hg.ordered.parentOf?_linearize hg.ordered.transientFile_lt_size hg.linked f
  rw [above?, above?, hparent]
  cases hp : g.parentOf? f with
  | none => rfl
  | some parent =>
    show done.graph.find? parent k = g.find? parent k
    rw [find?, find?, chain_commit hg hc]
    refine findSome?_congr fun x hx => declared?_commit_of_ne hc ?_
    rintro rfl
    exact hg.transientFile_not_mem_chain hp hx

end Commit

/-- What is declared in the slot is no changeable parameter of the key `k`. -/
def Untouched (g : Graph) (k : Key) (σ : Slot) : Prop :=
  ∀ p, g.declared? σ.file σ.key = some p → p.changeable → p.key ≠ k

/-- After an edit of a changeable parameter all slots are shown as before in which
there is no changeable parameter of its key. -/
theorem shows_commit (hg : g.Whole) (hc : g.commit limits transientFile ds = .ok done)
    (hds : ds.rows = [d]) (hfree : d.key.featureBase? = none)
    (hq : g.visible? d.key = some q) (hchangeable : q.changeable) :
    g.Shows (g.Untouched d.key) done.graph := by
  have hrows : ∀ d' ∈ ds.rows, d'.key.featureBase? = none := by
    intro d' hd'
    rw [hds] at hd'
    exact List.mem_singleton.mp hd' ▸ hfree
  have hfresh : ∀ k, k ≠ d.key → ∀ p ∈ done.parameters, p.key ≠ k := by
    intro k hk p hp hkey
    obtain ⟨⟨d', hd', hpd⟩, -⟩ := kind_of_mem_parameters hrows hc hp
    rw [hds] at hd'
    cases List.mem_singleton.mp hd'
    exact hk (hkey.symm.trans hpd)
  have hvisible : ∀ k, k ≠ d.key → done.graph.visible? k = g.visible? k :=
    fun k hk => find?_commit_of_fresh hg hc (hfresh k hk) transientFile
  refine ⟨hg.home, ?_, ?_, above?_commit hg hc, ?_⟩
  · intro k p hp hgood
    by_cases hk : k = d.key
    · subst hk
      cases Option.some.inj (hq.symm.trans hp)
      exact absurd (key_of_visible? hq) (hgood q (hg.home.stored_of_visible? hq) hchangeable)
    · rw [hvisible k hk]
      exact hp
  · intro k
    by_cases hk : k = d.key
    · subst hk
      have hmem : d ∈ ds.rows := hds ▸ List.mem_singleton_self d
      have hsize := hg.ordered.transientFile_lt_size
      have hwhole : (g.visible? d.key).isSome := by simp [hq]
      have hchain : transientFile ∈ g.chain transientFile := by
        rw [hg.ordered.chain_eq hsize hg.linked]
        exact (hg.ordered.mem_linearOrder hsize).mpr (Below.refl g transientFile)
      rw [hwhole, visible?, find?, chain_commit hg hc]
      exact List.findSome?_isSome_iff.mpr
        ⟨transientFile, hchain, isSome_declared?_commit hc hsize hmem⟩
    · rw [hvisible k hk]
  · intro base
    obtain ⟨o, drafts, ho, -, rfl⟩ := commit_eq_ok.mp hc
    obtain ⟨hnil, -⟩ := outline_eq_ok_of_featureless hrows ho
    rw [feature?_commit hc]
    show (o.features.reverse.find? _).or _ = _
    rw [hnil]
    rfl

end ParameterChain.Graph
