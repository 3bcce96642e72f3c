/-
# Who is told of an edit

The notices of an edit go by what consumers depend on, which is an account of their
readings.  That no edit makes a consumer out of date in silence has two sides: an
evaluation leaves in its trace all that its value rests on, and an edit can be seen by
those evaluations only that came by a changeable parameter of the edited key.

Main statement: `change_run`.
-/
import ParameterChain.Proofs.Dependencies
import ParameterChain.Proofs.Edited

namespace ParameterChain

/-! ## The order of notices -/

/-- `m` comes before `n`: by consumer, then by the key of the name read. -/
def Notice.Before (m n : Notice) : Prop :=
  m.consumer < n.consumer ∨
    m.consumer = n.consumer ∧ m.direct.key.text < n.direct.key.text

/-- What tells notices apart. -/
def Notice.id (m : Notice) : String × Key :=
  (m.consumer, m.direct.key)

/-- The consumer is told about its reading of `n`. -/
def Told (ns : List Notice) (consumer n : String) : Prop :=
  ∃ m ∈ ns, m.consumer = consumer ∧ m.direct.key = Key.ofText n

theorem told_iff {ns : List Notice} {consumer n : String} :
    Told ns consumer n ↔ (consumer, Key.ofText n) ∈ ns.map Notice.id := by
  simp only [Told, List.mem_map, Notice.id, Prod.mk.injEq]

namespace Notice

variable {m n : Notice}

/-- The order of notices is `Before` between those with different parts. -/
theorem le_iff : m.le n = true ↔ m.Before n ∨ m.id = n.id := by
  have hlt : ∀ a b : String, compare a b = .lt ↔ a < b := fun a b => compareOfLessAndEq_eq_lt
  have hkey : m.direct.key = n.direct.key ↔ m.direct.key.text = n.direct.key.text := by
    rw [Key.mk.injEq]
  rw [le, Ordering.isLE_then_iff_or, Ordering.isLE_iff_eq_lt_or_eq_eq, hlt, hlt,
    Std.compare_eq_iff_eq, Std.compare_eq_iff_eq]
  rw [Before, Notice.id, Notice.id, Prod.mk.injEq, hkey, and_or_left, or_assoc]

/-- The comparison behind the order. -/
abbrev order : Notice → Notice → Ordering :=
  compareLex (compareOn Notice.consumer) (compareOn fun m => m.direct.key.text)

theorem le_eq_isLE (m n : Notice) : m.le n = (order m n).isLE :=
  rfl

theorem le_trans (l m n : Notice) (hlm : l.le m) (hmn : m.le n) : l.le n := by
  rw [le_eq_isLE] at hlm hmn ⊢
  exact Std.TransCmp.isLE_trans hlm hmn

theorem le_total (m n : Notice) : m.le n || n.le m := by
  have hswap : order m n = (order n m).swap := Std.OrientedCmp.eq_swap
  rw [le_eq_isLE, le_eq_isLE, hswap]
  cases order n m <;> rfl

end Notice

/-! ## Readings after an edit -/

namespace Graph

variable {g : Graph} {limits : Limits} {ds : Declarations} {d : Declaration} {done : Commit}
  {q : Parameter} {n : String} {e : Expectation} {v : Value} {t : Trace}

/-- A reading that came by no changeable parameter of the key of an edit gives the same
after the edit. -/
theorem read_commit (hg : g.Whole) (hc : g.commit limits transientFile ds = .ok done)
    (hds : ds.rows = [d]) (hfree : d.key.featureBase? = none)
    (hq : g.visible? d.key = some q) (hchangeable : q.changeable)
    (hrun : (g.read limits n e).run [] = (.ok v, t))
    (ht : ∀ σ ∈ t, g.Untouched d.key σ) :
    ((done.graph.read limits n e).run []).1 = .ok v := by
  have hshows := shows_commit hg hc hds hfree hq hchangeable
  have hvalue : ∀ p, g.Stored p → Traced.Repeats (g.Untouched d.key) (g.valueOf limits p)
      (done.graph.valueOf limits p) := by
    refine evaluate_repeats hshows limits.evaluationDepth ?_
    intro n _ heval p base f _ _ _ _
    rw [clock_commit hc]
    exact evalFeature_repeats hshows (marks_evaluate hg.home n) heval f g.clock
  exact (read_repeats hshows hvalue n e).same [] v t hrun ht []

end Graph

namespace Session

variable {s s₁ s₂ : Session} {c : Change} {ds : Declarations} {d : Declaration}
  {ns : List Notice} {m : Notice} {name : String}

/-! ## The notices of a name -/

theorem mem_notices :
    m ∈ s.notices name ↔
      ∃ x ∈ s.dependencies, x.base.key = Key.ofText name ∧ m = ⟨x.consumer, x.direct⟩ := by
  rw [notices, List.mem_mergeSort, List.mem_map]
  constructor
  · rintro ⟨x, hx, rfl⟩
    obtain ⟨hx, hbase⟩ := List.mem_filter.mp hx
    exact ⟨x, hx, of_decide_eq_true hbase, rfl⟩
  · rintro ⟨x, hx, hbase, rfl⟩
    exact ⟨x, List.mem_filter.mpr ⟨hx, decide_eq_true hbase⟩, rfl⟩

/-- Told are those who depend on the name. -/
theorem id_mem_notices {consumer : String} {j : Key} :
    (consumer, j) ∈ (s.notices name).map Notice.id ↔
      s.Depends (Key.ofText name) consumer j := by
  rw [Depends, List.mem_map, List.mem_map]
  constructor
  · rintro ⟨m, hm, hid⟩
    obtain ⟨x, hx, hbase, rfl⟩ := mem_notices.mp hm
    refine ⟨x, hx, ?_⟩
    rw [Dependency.id, hbase]
    exact congrArg (Prod.mk (Key.ofText name)) hid
  · rintro ⟨x, hx, hid⟩
    simp only [Dependency.id, Prod.mk.injEq] at hid
    obtain ⟨hbase, hconsumer, hdirect⟩ := hid
    exact ⟨⟨x.consumer, x.direct⟩, mem_notices.mpr ⟨x, hx, hbase, rfl⟩,
      Prod.ext hconsumer hdirect⟩

theorem told_notices {consumer n : String} :
    Told (s.notices name) consumer n ↔
      s.Depends (Key.ofText name) consumer (Key.ofText n) := by
  rw [told_iff, id_mem_notices]

/-- Dependencies on one base are told apart by their notices. -/
theorem nodup_notices (hs : (s.dependencies.map Dependency.id).Nodup) :
    ((s.notices name).map Notice.id).Nodup := by
  have hperm := List.mergeSort_perm ((s.dependencies.filter fun x =>
    x.base.key = Key.ofText name).map fun x => Notice.mk x.consumer x.direct) Notice.le
  rw [notices, (hperm.map Notice.id).nodup_iff, List.map_map]
  have hsub := List.filter_sublist
    (p := fun x : Dependency => decide (x.base.key = Key.ofText name)) (l := s.dependencies)
  have hids := List.Nodup.sublist (hsub.map Dependency.id) hs
  have hpairs : (s.dependencies.filter fun x => x.base.key = Key.ofText name).map
        Dependency.id =
      ((s.dependencies.filter fun x => x.base.key = Key.ofText name).map
        (Notice.id ∘ fun x => Notice.mk x.consumer x.direct)).map
          (Prod.mk (Key.ofText name)) := by
    rw [List.map_map]
    refine List.map_congr_left ?_
    intro x hx
    have hbase : x.base.key = Key.ofText name := of_decide_eq_true (List.mem_filter.mp hx).2
    show (x.base.key, x.consumer, x.direct.key) = _
    rw [hbase]
    rfl
  rw [hpairs] at hids
  exact hids.of_map _

/-- The notices come in ascending order, each once. -/
theorem pairwise_notices (hs : (s.dependencies.map Dependency.id).Nodup) :
    (s.notices name).Pairwise Notice.Before := by
  have hne : (s.notices name).Pairwise fun m n => m.id ≠ n.id :=
    List.pairwise_map.mp (nodup_notices hs)
  have hle : (s.notices name).Pairwise fun m n => m.le n = true :=
    List.pairwise_mergeSort Notice.le_trans Notice.le_total _
  refine (hne.and hle).imp ?_
  intro m n h
  exact (Notice.le_iff.mp h.2).resolve_right h.1

theorem notices_congr (h : s₁.dependencies = s.dependencies) (name : String) :
    s₁.notices name = s.notices name := by
  rw [notices, notices, h]

/-- After a run the notices of a name tell of the readings that came by a changeable
parameter of that name, and of no others. -/
theorem notices_run (hs : s.dependencies = []) (steps : List Step) (name : String) :
    (∀ m ∈ (s.run steps).notices name, ∃ n, m.direct = Name.ofText n ∧
        s.Consulted steps (Key.ofText name) m.consumer n) ∧
      (∀ consumer n, s.Consulted steps (Key.ofText name) consumer n →
        Told ((s.run steps).notices name) consumer n) ∧
      ((s.run steps).notices name).Pairwise Notice.Before := by
  refine ⟨?_, ?_, pairwise_notices (nodup_run hs steps)⟩
  · intro m hm
    obtain ⟨x, hx, hbase, rfl⟩ := mem_notices.mp hm
    rw [← hbase]
    exact mem_dependencies_run hs steps hx
  · intro consumer n hconsulted
    exact told_notices.mpr ((depends_run hs steps).mpr ⟨n, rfl, hconsulted⟩)

/-! ## Edits -/

theorem change_eq_ok :
    s.change c = .ok (s₁, ns) ↔
      ∃ ds d done, c.declarations = .ok (ds, d) ∧ s.requireChangeable c d = .ok () ∧
        s.graph.commit s.limits transientFile ds = .ok done ∧ s.committed c d done = s₁ ∧
        s₁.notices d.name.text = ns := by
  simp only [change, bind_eq_ok, pure_eq_ok, Prod.exists, Prod.mk.injEq]
  constructor
  · rintro ⟨s', name, hedit, rfl, rfl⟩
    obtain ⟨ds, d, done, hc, hu, hdone, hs, rfl⟩ := edit_eq_ok.mp hedit
    exact ⟨ds, d, done, hc, hu, hdone, hs, rfl⟩
  · rintro ⟨ds, d, done, hc, hu, hdone, rfl, rfl⟩
    exact ⟨_, d.name, edit_eq_ok.mpr ⟨ds, d, done, hc, hu, hdone, rfl, rfl⟩, rfl, rfl⟩

theorem notices_change (hchange : s.change c = .ok (s₁, ns))
    (hc : c.declarations = .ok (ds, d)) : s.notices d.name.text = ns := by
  obtain ⟨ds', d', done, hc', -, -, rfl, rfl⟩ := change_eq_ok.mp hchange
  cases hc.symm.trans hc'
  exact notices_congr rfl _

/-- An edit of a changeable parameter that is no root of a time feature tells every
consumer whose last reading it changes; and every successful edit tells of those
readings that came by a changeable parameter of its key, of no others, of each once and
in ascending order. -/
theorem change_run {source : Source} {options : LoadOptions} {top : String}
    (hload : Session.load source options top = .ok s) (steps : List Step) (c : Change) :
    (∀ consumer n e v ds d q s₁ s₂ ns,
        (s.run steps).read (some consumer) n e = (.ok v, s₁) →
        c.declarations = .ok (ds, d) → (s.run steps).graph.visible? d.key = some q →
        q.changeable → d.key.featureBase? = none → s₁.change c = .ok (s₂, ns) →
        (s₂.read (some consumer) n e).1 ≠ .ok v → Told ns consumer n) ∧
      ∀ ds d s₂ ns, c.declarations = .ok (ds, d) → (s.run steps).change c = .ok (s₂, ns) →
        (∀ m ∈ ns, ∃ n, m.direct = Name.ofText n ∧ s.Consulted steps d.key m.consumer n) ∧
          (∀ consumer n, s.Consulted steps d.key consumer n → Told ns consumer n) ∧
          ns.Pairwise Notice.Before := by
  have hempty : s.dependencies = [] := by
    simp only [Session.load, bind_eq_ok, pure_eq_ok] at hload
    obtain ⟨g, -, rfl⟩ := hload
    rfl
  constructor
  · intro consumer n e v ds d q s₁ s₂ ns hread hc hq hchangeable hfree hchange hnews
    have hwhole : (s.run steps).graph.Whole := (rooted_run (rooted_load hload) steps).whole
    rcases hrun : ((s.run steps).graph.read (s.run steps).limits n e).run [] with ⟨result, t⟩
    have hresult := fst_read (s.run steps) (some consumer) n e
    rw [hread, hrun] at hresult
    obtain rfl : .ok v = result := hresult
    obtain ⟨used, xs, hs₁⟩ := exists_read (s.run steps) (some consumer) n e
    simp only [hread] at hs₁
    by_cases htouched : ∃ p ∈ (s.run steps).touched t, p.key = d.key
    · obtain ⟨p, hp, hkey⟩ := htouched
      have hstep : (s.run steps).next (.read (some consumer) n e) = s₁ :=
        congrArg Prod.snd hread
      rw [← notices_change hchange hc, ← hstep, ← run_concat]
      refine (notices_run hempty _ d.name.text).2.1 consumer n ?_
      refine consulted_concat.mpr (Or.inr ⟨e, v, t, p, rfl, hrun, hp, ?_⟩)
      exact hkey.trans d.name.key_eq
    · exfalso
      obtain ⟨ds', d', done, hc', -, hdone, rfl, -⟩ := change_eq_ok.mp hchange
      cases hc.symm.trans hc'
      rw [hs₁] at hdone hnews
      refine hnews ((fst_read _ _ _ _).trans ?_)
      exact Graph.read_commit hwhole hdone (rows_of_declarations hc) hfree hq hchangeable
        hrun fun σ hσ p hp hpc hkey =>
          htouched ⟨p, mem_touched.mpr ⟨⟨σ, hσ, hp⟩, hpc⟩, hkey⟩
  · intro ds d s₂ ns hc hchange
    have hkey : Key.ofText d.name.text = d.key := d.name.key_eq.symm
    rw [← notices_change hchange hc, ← hkey]
    exact notices_run hempty steps d.name.text

/-! ## A text that is read by another name -/

/-- A file with a changeable text. -/
def lettered : Source := fun spec =>
  if spec = "top" then .ok "sc:X = \"a\"".toUTF8
  else .error (.cannotOpen spec "no such file")

theorem change_run_lettered :
    ∃ s s₁ s₂ ns v, Session.load lettered { withDefaults := false } "top" = .ok s ∧
      (s.run [.clone "X" "Y"]).read (some "C") "Y" .any = (.ok v, s₁) ∧
      s₁.change ⟨"X", "\"b\"", false⟩ = .ok (s₂, ns) ∧
      (s₂.read (some "C") "Y" .any).1 ≠ .ok v ∧ Told ns "C" "Y" ∧
      ns.Pairwise Notice.Before := by
  have hok : (Session.load lettered { withDefaults := false } "top").toOption.any fun s =>
      let s := s.run [.clone "X" "Y"]
      let reading := s.read (some "C") "Y" .any
      reading.1.toOption.any fun v =>
        (Change.declarations ⟨"X", "\"b\"", false⟩).toOption.any fun declared =>
          (reading.2.change ⟨"X", "\"b\"", false⟩).toOption.any fun edited =>
            ((s.graph.visible? declared.2.key).any Parameter.changeable &&
              declared.2.key.featureBase? == none) &&
              (v.same v && !(edited.1.read (some "C") "Y" .any).1.toOption.any v.same) := by
    decide +kernel
  obtain ⟨s, hs, hok⟩ := (Option.any_eq_true _ _).mp hok
  obtain ⟨v, hv, hok⟩ := (Option.any_eq_true _ _).mp hok
  obtain ⟨⟨ds, d⟩, hd, hok⟩ := (Option.any_eq_true _ _).mp hok
  obtain ⟨⟨s₂, ns⟩, hns, hok⟩ := (Option.any_eq_true _ _).mp hok
  simp only [Bool.and_eq_true, beq_iff_eq, Bool.not_eq_true'] at hok
  obtain ⟨⟨hany, hfree⟩, hsame, hother⟩ := hok
  obtain ⟨q, hq, hchangeable⟩ := (Option.any_eq_true _ _).mp hany
  have hload := toOption_eq_some.mp hs
  have hread : (s.run [.clone "X" "Y"]).read (some "C") "Y" .any =
      (.ok v, ((s.run [.clone "X" "Y"]).read (some "C") "Y" .any).2) :=
    Prod.ext (toOption_eq_some.mp hv) rfl
  have hc := toOption_eq_some.mp hd
  have hchange := toOption_eq_some.mp hns
  have hnews : (s₂.read (some "C") "Y" .any).1 ≠ .ok v := by
    intro heq
    rw [heq] at hother
    exact absurd (hsame.symm.trans hother) (by decide)
  have hfirst := (change_run hload [.clone "X" "Y"] _).1 "C" "Y" .any v ds d q _ s₂ ns hread hc
    hq hchangeable hfree hchange hnews
  have hsecond := (change_run hload [.clone "X" "Y", .read (some "C") "Y" .any] _).2 ds d s₂ ns
    hc hchange
  exact ⟨s, _, s₂, ns, v, hload, hread, hchange, hnews, hfirst, hsecond.2.2⟩

end Session

end ParameterChain
