/-
# The active breakpoint of a step table

A step table is looked up by ordering its breakpoints by time, halving the ordered table at the
time that is asked for, and going back to the position that the breakpoint found there was written
at.  Two things make this come out as it does: the sorting keeps breakpoints of one time in the
order written, so the ordered table is ordered by time and then by position (`Before`,
`pairwise_ordered`); and breakpoints are sorted and compared with the time by the same order, the
one of ranks, so those that are passed stand first.

So the ordered table is split at the active entry (`exists_active`): those in front of it are
passed, and either it is not passed itself, or nothing comes after it.  If some time is still to
come, the active position is the first one that holds the next time (`IsNext`); if there is none,
the last one that holds the latest time (`IsLatest`).

The time that is found depends on which times the table holds and not on where they stand
(`getElem?_stepIndex`), which is why a table of distinct times can be written in any order.

Main statements: `stepIndex_isNext`, `stepIndex_isLatest`, `stepValue_of_perm` and
`active_breakpoint`.
-/
import Mathlib.Data.List.Nodup
import Mathlib.Data.List.TakeWhile
import ParameterChain.Proofs.Course
import ParameterChain.Proofs.DoubleOrder

namespace ParameterChain

open Number

/-! ## Sorting by a key -/

section Sorting

variable {α : Type} (key : α → Int) (l : List α)

/-- Sorted by a key, the entries of one key are in the order they had before. -/
theorem filter_mergeSort (k : Int) :
    (l.mergeSort fun a b => decide (key a ≤ key b)).filter (key · = k) = l.filter (key · = k) := by
  have hordered : (l.filter (key · = k)).Pairwise fun a b => decide (key a ≤ key b) = true := by
    refine List.pairwise_iff_forall_sublist.mpr fun {a b} hsub => ?_
    have ha := List.of_mem_filter (hsub.subset (.head _))
    have hb := List.of_mem_filter (hsub.subset (.tail _ (.head _)))
    simp only [decide_eq_true_eq] at ha hb ⊢
    omega
  have hsub := List.sublist_mergeSort (fun a b c => by simpa using Int.le_trans)
    (fun a b => by simpa using Int.le_total _ _) hordered List.filter_sublist
  have hsub := hsub.filter (key · = k)
  rw [List.filter_filter] at hsub
  simp only [Bool.and_self] at hsub
  have hlength := ((List.mergeSort_perm l fun a b => decide (key a ≤ key b)).filter
    (key · = k)).length_eq
  exact (hsub.eq_of_length hlength.symm).symm

theorem pairwise_mergeSort_key :
    (l.mergeSort fun a b => decide (key a ≤ key b)).Pairwise fun a b => key a ≤ key b := by
  have hpairwise := @List.pairwise_mergeSort α (fun a b => decide (key a ≤ key b))
    (fun a b c => by simpa using Int.le_trans) (fun a b => by simpa using Int.le_total _ _) l
  simpa only [decide_eq_true_eq] using hpairwise

end Sorting

theorem pairwise_zipIdx {α : Type} (l : List α) : l.zipIdx.Pairwise fun a b => a.2 < b.2 := by
  rw [← List.pairwise_map, List.zipIdx_map_snd]
  exact List.pairwise_lt_range'

/-! ## Halving -/

section Halving

variable {α β : Type}

theorem countPassed_map (f : α → β) (passes : β → Bool) (entries : List α) :
    countPassed passes (entries.map f) = countPassed (fun a => passes (f a)) entries := by
  simp only [countPassed, List.getElem?_toArray, List.getElem?_map, Option.any_map,
    List.size_toArray, List.length_map]

/-- A table whose passing entries all stand first is split at the entry behind them, or at its
last entry if all of them pass. -/
theorem exists_split_countPassed {passes : α → Bool} {entries : List α} (hne : entries ≠ [])
    (h : entries.Pairwise fun a b => passes b = true → passes a = true) :
    ∃ front active behind, entries = front ++ active :: behind ∧
      entries[min (countPassed passes entries) (entries.length - 1)]? = some active ∧
      (∀ a ∈ front, passes a = true) ∧
      (passes active = false ∨ behind = [] ∧ passes active = true) := by
  have hsplit := List.takeWhile_append_dropWhile (p := passes) (l := entries)
  have hfront : ∀ a ∈ entries.takeWhile passes, passes a = true := fun a =>
    List.mem_takeWhile_imp
  rw [countPassed_eq_length_takeWhile h]
  cases hrest : entries.dropWhile passes with
  | nil =>
    rw [hrest, List.append_nil] at hsplit
    rw [hsplit] at hfront
    refine ⟨entries.dropLast, entries.getLast hne, [], (List.dropLast_concat_getLast hne).symm,
      ?_, fun a ha => hfront a (List.dropLast_subset entries ha),
      .inr ⟨rfl, hfront _ (List.getLast_mem hne)⟩⟩
    rw [hsplit, Nat.min_eq_right (Nat.sub_le _ 1), ← List.getLast?_eq_getElem?,
      List.getLast?_eq_some_getLast hne]
  | cons active behind =>
    have hnot := List.head?_dropWhile_not passes entries
    rw [hrest, List.head?_cons] at hnot
    rw [hrest] at hsplit
    refine ⟨entries.takeWhile passes, active, behind, hsplit.symm, ?_, hfront, .inl hnot⟩
    have hlength := congrArg List.length hsplit
    rw [List.length_append, List.length_cons] at hlength
    rw [Nat.min_eq_left (by omega)]
    calc entries[(entries.takeWhile passes).length]?
      _ = (entries.takeWhile passes ++ active :: behind)[(entries.takeWhile passes).length]? := by
        rw [hsplit]
      _ = some active := by
        rw [List.getElem?_append_right (Nat.le_refl _), Nat.sub_self, List.getElem?_cons_zero]

end Halving

namespace TimeFeature

/-! ## The ordered table -/

/-- The breakpoints with their positions, ordered by time. -/
def ordered (times : List Float) : List (Float × Nat) :=
  times.zipIdx.mergeSort fun a b => totalLe a.1 b.1

/-- One breakpoint is earlier than another, or written before it at the same time. -/
def Before (a b : Float × Nat) : Prop :=
  rank a.1 < rank b.1 ∨ (rank a.1 = rank b.1 ∧ a.2 < b.2)

section Ordered

variable {times : List Float}

theorem ordered_perm : (ordered times).Perm times.zipIdx :=
  List.mergeSort_perm _ _

theorem mem_ordered {x : Float} {i : Nat} : (x, i) ∈ ordered times ↔ times[i]? = some x :=
  ordered_perm.mem_iff.trans List.mk_mem_zipIdx_iff_getElem?

theorem map_fst_ordered : (ordered times).map Prod.fst = times.mergeSort totalLe := by
  rw [ordered, List.map_mergeSort (s := totalLe) fun _ _ _ _ => rfl, List.zipIdx_map_fst]

/-- Among ordinary times, to sort by the total order is to sort by ranks. -/
theorem mergeSort_totalLe {α : Type} {l : List α} (time : α → Float)
    (h : ∀ a ∈ l, IsOrdinary (time a)) :
    (l.mergeSort fun a b => totalLe (time a) (time b)) =
      l.mergeSort fun a b => decide (rank (time a) ≤ rank (time b)) := by
  have hmap := List.map_mergeSort (f := id) (l := l)
    (s := fun a b => decide (rank (time a) ≤ rank (time b)))
    fun a ha b hb => Bool.eq_iff_iff.mpr
      (((h a ha).totalLe_iff (h b hb)).trans decide_eq_true_iff.symm)
  simpa only [List.map_id] using hmap

/-- The ordered table is ordered by time and then by position. -/
theorem pairwise_ordered (h : ∀ x ∈ times, IsOrdinary x) : (ordered times).Pairwise Before := by
  have hentries : ∀ a ∈ times.zipIdx, IsOrdinary a.1 := fun a ha =>
    h a.1 (List.fst_mem_of_mem_zipIdx ha)
  rw [ordered, mergeSort_totalLe Prod.fst hentries, List.pairwise_iff_forall_sublist]
  intro a b hsub
  have hle := List.pairwise_iff_forall_sublist.mp
    (pairwise_mergeSort_key (fun a : Float × Nat => rank a.1) times.zipIdx) hsub
  rcases Int.lt_or_eq_of_le hle with hlt | heq
  · exact .inl hlt
  -- entries of one time keep the order of their positions
  · refine .inr ⟨heq, ?_⟩
    have hsame := hsub.filter fun c => rank c.1 = rank a.1
    rw [filter_mergeSort, List.filter_eq_self.mpr (by simp [heq])] at hsame
    exact List.pairwise_iff_forall_sublist.mp (pairwise_zipIdx times)
      (hsame.trans List.filter_sublist)

/-- The breakpoints that are passed stand first. -/
theorem passed_first (h : ∀ x ∈ times, IsOrdinary x) {t : Float} (ht : t.isFinite = true) :
    (ordered times).Pairwise fun a b =>
      decide (b.1 ≤ t) = true → decide (a.1 ≤ t) = true := by
  refine (pairwise_ordered h).imp_of_mem fun {a b} ha hb hbefore hpassed => ?_
  have ha := h a.1 (List.mem_of_getElem? (mem_ordered.mp ha))
  have hb := h b.1 (List.mem_of_getElem? (mem_ordered.mp hb))
  rw [decide_eq_true_iff, le_iff_rank_le hb.finite ht] at hpassed
  rw [decide_eq_true_iff, le_iff_rank_le ha.finite ht]
  rcases hbefore with hlt | ⟨heq, -⟩
  · omega
  · omega

/-- The ordered table is split at the entry that is active at `t`: those in front of it are
passed, and either it is not passed itself, or nothing comes after it. -/
theorem exists_active (htimes : times ≠ []) (h : ∀ x ∈ times, IsOrdinary x) {t : Float}
    (ht : t.isFinite = true) :
    ∃ front x i behind, ordered times = front ++ (x, i) :: behind ∧ times[i]? = some x ∧
      stepIndex times t = i ∧ (∀ a ∈ front, a.1 ≤ t) ∧ (t < x ∨ behind = [] ∧ x ≤ t) := by
  have hne : ordered times ≠ [] := fun hnil => htimes <| by
    rw [← List.zipIdx_eq_nil_iff, ← List.perm_nil, ← hnil]
    exact ordered_perm.symm
  obtain ⟨front, ⟨x, i⟩, behind, hsplit, hactive, hfront, hpassed⟩ :=
    exists_split_countPassed hne (passed_first h ht)
  have hindex : stepIndex times t = i := congrArg (fun a? => (a?.map Prod.snd).getD 0) hactive
  have hget := mem_ordered.mp (List.mem_of_getElem? hactive)
  refine ⟨front, x, i, behind, hsplit, hget, hindex,
    fun a ha => of_decide_eq_true (hfront a ha), ?_⟩
  rcases hpassed with hnot | ⟨hlast, hpassed⟩
  · have hordinary := h x (List.mem_of_getElem? hget)
    have hnot := mt (le_iff_rank_le hordinary.finite ht).mpr (of_decide_eq_false hnot)
    exact .inl ((lt_iff_rank_lt ht hordinary.finite).mpr (Int.not_le.mp hnot))
  · exact .inr ⟨hlast, of_decide_eq_true hpassed⟩

end Ordered

/-! ## The active position -/

/-- Position `i` is the first one that holds the least time after `t`. -/
structure IsNext (times : List Float) (t : Float) (i : Nat) : Prop where
  lt_length : i < times.length
  after : t < times[i]
  least : ∀ x ∈ times, t < x → times[i] ≤ x
  first : ∀ j (_ : j < i), times[j] ≠ times[i]

/-- Position `i` is the last one that holds the greatest time. -/
structure IsLatest (times : List Float) (i : Nat) : Prop where
  lt_length : i < times.length
  greatest : ∀ x ∈ times, x ≤ times[i]
  last : ∀ j (_ : j < times.length), i < j → times[j] ≠ times[i]

section Active

variable {times : List Float} (h : ∀ x ∈ times, IsOrdinary x) {t : Float}
include h

/-- An entry of the ordered table stands in front of the active one or is it or stands behind. -/
theorem placed {front behind : List (Float × Nat)} {x y : Float} {i j : Nat}
    (hsplit : ordered times = front ++ (x, i) :: behind) (hget : times[j]? = some y) :
    (y, j) ∈ front ∧ (rank y < rank x ∨ rank y = rank x ∧ j < i) ∨ y = x ∧ j = i ∨
      (y, j) ∈ behind ∧ (rank x < rank y ∨ rank x = rank y ∧ i < j) := by
  have hbefore := pairwise_ordered h
  have hmem := mem_ordered.mpr hget
  rw [hsplit] at hbefore hmem
  obtain ⟨-, hright, hcross⟩ := List.pairwise_append.mp hbefore
  rcases List.mem_append.mp hmem with hfront | hrest
  · exact .inl ⟨hfront, hcross _ hfront _ List.mem_cons_self⟩
  · rcases List.mem_cons.mp hrest with hactive | hbehind
    · exact .inr (.inl (Prod.mk.inj hactive))
    · exact .inr (.inr ⟨hbehind, (List.pairwise_cons.mp hright).1 _ hbehind⟩)

/-- If some time is still to come, the next one is active, where it is written first. -/
theorem stepIndex_isNext (ht : t.isFinite = true) (hnext : ∃ x ∈ times, t < x) :
    IsNext times t (stepIndex times t) := by
  have hfinite : ∀ x ∈ times, x.isFinite = true := fun x hx => (h x hx).finite
  obtain ⟨next, hnext, htnext⟩ := hnext
  obtain ⟨front, x, i, behind, hsplit, hget, hindex, hfront, hactive⟩ :=
    exists_active (List.ne_nil_of_mem hnext) h ht
  obtain ⟨hi, hx⟩ := List.getElem?_eq_some_iff.mp hget
  have hmem : x ∈ times := hx ▸ List.getElem_mem hi
  have hlater {y : Float} {j : Nat} (hget : times[j]? = some y) (hty : t < y) :
      y = x ∧ j = i ∨ (y, j) ∈ behind ∧ (rank x < rank y ∨ rank x = rank y ∧ i < j) := by
    have hy := hfinite y (List.mem_of_getElem? hget)
    refine (placed h hsplit hget).resolve_left fun ⟨hpassed, _⟩ => ?_
    have hpassed : y ≤ t := hfront (y, j) hpassed
    rw [le_iff_rank_le hy ht] at hpassed
    rw [lt_iff_rank_lt ht hy] at hty
    omega
  have hafter : t < x := by
    rcases hactive with hafter | ⟨rfl, -⟩
    · exact hafter
    · obtain ⟨j, hj⟩ := List.mem_iff_getElem?.mp hnext
      rcases hlater hj htnext with ⟨rfl, -⟩ | ⟨hmem, -⟩
      · exact htnext
      · cases hmem
  rw [hindex]
  refine ⟨hi, hx ▸ hafter, fun y hy hty => ?_, fun j hj heq => ?_⟩
  · obtain ⟨j, hj⟩ := List.mem_iff_getElem?.mp hy
    rw [hx, le_iff_rank_le (hfinite x hmem) (hfinite y hy)]
    rcases hlater hj hty with ⟨rfl, -⟩ | ⟨-, hbefore⟩
    · exact Int.le_refl _
    · omega
  · have hj' := List.getElem?_eq_getElem (Nat.lt_trans hj hi)
    rw [heq, hx] at hj'
    rcases hlater hj' hafter with ⟨-, hsame⟩ | ⟨-, hbefore⟩
    · omega
    · omega

/-- If no time is still to come, the latest one is active, where it is written last. -/
theorem stepIndex_isLatest (htimes : times ≠ []) (ht : t.isFinite = true)
    (hnone : ¬ ∃ x ∈ times, t < x) : IsLatest times (stepIndex times t) := by
  obtain ⟨front, x, i, behind, hsplit, hget, hindex, -, hactive⟩ := exists_active htimes h ht
  obtain ⟨hi, hx⟩ := List.getElem?_eq_some_iff.mp hget
  have hmem : x ∈ times := hx ▸ List.getElem_mem hi
  obtain ⟨rfl, -⟩ := hactive.resolve_left fun hlt => hnone ⟨x, hmem, hlt⟩
  have hearlier {y : Float} {j : Nat} (hget : times[j]? = some y) :
      y = x ∧ j = i ∨ rank y < rank x ∨ rank y = rank x ∧ j < i := by
    rcases placed h hsplit hget with ⟨-, hbefore⟩ | hsame | ⟨hmem, -⟩
    · exact .inr hbefore
    · exact .inl hsame
    · cases hmem
  rw [hindex]
  refine ⟨hi, fun y hy => ?_, fun j hj hij heq => ?_⟩
  · obtain ⟨j, hj⟩ := List.mem_iff_getElem?.mp hy
    rw [hx, le_iff_rank_le (h y hy).finite (h x hmem).finite]
    rcases hearlier hj with ⟨rfl, -⟩ | hbefore
    · exact Int.le_refl _
    · omega
  · have hj' := List.getElem?_eq_getElem hj
    rw [heq, hx] at hj'
    rcases hearlier hj' with ⟨-, hsame⟩ | hbefore
    · omega
    · omega

end Active

/-! ## The order in which a table is written -/

/-- The active time is found in the sorted times, wherever it is written. -/
theorem getElem?_stepIndex {times : List Float} (htimes : times ≠ []) (t : Float) :
    times[stepIndex times t]? =
      (times.mergeSort totalLe)[min (countPassed (fun x => decide (x ≤ t))
        (times.mergeSort totalLe)) (times.length - 1)]? := by
  have hlength : (ordered times).length = times.length := by
    rw [ordered_perm.length_eq, List.length_zipIdx]
  have hpos := List.length_pos_iff.mpr htimes
  have hlt : min (countPassed (fun a : Float × Nat => decide (a.1 ≤ t)) (ordered times))
      ((ordered times).length - 1) < (ordered times).length := by omega
  obtain ⟨⟨x, i⟩, hactive⟩ : ∃ a, (ordered times)[min (countPassed (fun a : Float × Nat =>
      decide (a.1 ≤ t)) (ordered times)) ((ordered times).length - 1)]? = some a :=
    ⟨_, List.getElem?_eq_getElem hlt⟩
  have hindex : stepIndex times t = i := congrArg (fun a? => (a?.map Prod.snd).getD 0) hactive
  rw [← map_fst_ordered, countPassed_map, List.getElem?_map, ← hlength, hactive, hindex]
  exact mem_ordered.mp (List.mem_of_getElem? hactive)

/-- Ordinary times have one sorted order. -/
theorem mergeSort_eq_of_perm {times times' : List Float} (hperm : times'.Perm times)
    (h : ∀ x ∈ times, IsOrdinary x) : times'.mergeSort totalLe = times.mergeSort totalLe := by
  have h' : ∀ x ∈ times', IsOrdinary x := fun x hx => h x (hperm.mem_iff.mp hx)
  have hsorted := mergeSort_totalLe (fun x => x) h
  have hsorted' := mergeSort_totalLe (fun x => x) h'
  rw [hsorted, hsorted']
  refine List.Perm.eq_of_pairwise (fun x y hx hy hxy hyx => ?_) (pairwise_mergeSort_key rank times')
    (pairwise_mergeSort_key rank times)
    ((List.mergeSort_perm _ _).trans (hperm.trans (List.mergeSort_perm _ _).symm))
  have hx := h' x (List.mem_mergeSort.mp hx)
  have hy := h y (List.mem_mergeSort.mp hy)
  exact hx.eq_of_rank_eq hy (Int.le_antisymm hxy hyx)

/-- The active entry of a table of distinct times is the same in whatever order the entries are
written. -/
theorem getElem?_stepIndex_of_perm {α : Type} {ps qs : List (Float × α)}
    (h : ∀ p ∈ ps, IsOrdinary p.1) (hdistinct : (ps.map Prod.fst).Nodup) (hperm : qs.Perm ps)
    (t : Float) :
    qs[stepIndex (qs.map Prod.fst) t]? = ps[stepIndex (ps.map Prod.fst) t]? := by
  by_cases hps : ps = []
  · subst hps
    rw [hperm.eq_nil]
  have hne {l : List (Float × α)} (hl : l ≠ []) : l.map Prod.fst ≠ [] :=
    List.map_eq_nil_iff.not.mpr hl
  have hentry {l : List (Float × α)} (hl : l ≠ []) :
      ∃ e ∈ l, l[stepIndex (l.map Prod.fst) t]? = some e := by
    have hlt := stepIndex_lt (hne hl) t
    rw [List.length_map] at hlt
    exact ⟨_, List.getElem_mem hlt, List.getElem?_eq_getElem hlt⟩
  have hqs : qs ≠ [] := fun hnil => hps (hnil ▸ hperm).symm.eq_nil
  obtain ⟨e, hmem, he⟩ := hentry hps
  obtain ⟨e', hmem', he'⟩ := hentry hqs
  have hordinary : ∀ x ∈ ps.map Prod.fst, IsOrdinary x := List.forall_mem_map.mpr h
  have htime := getElem?_stepIndex (hne hps) t
  have htime' := getElem?_stepIndex (hne hqs) t
  rw [mergeSort_eq_of_perm (hperm.map Prod.fst) hordinary, (hperm.map Prod.fst).length_eq, ← htime,
    List.getElem?_map, List.getElem?_map, he, he', Option.map_some, Option.map_some,
    Option.some.injEq] at htime'
  rw [he, he', List.inj_on_of_nodup_map hdistinct (hperm.mem_iff.mp hmem') hmem htime']

/-- A table with a value for each of its times gives the one at the active position. -/
theorem stepValue_eq {times : List Float} {scalar : Scalar} (as : List scalar.Carrier)
    {period : Float} (hlast : times.getLast? = some period) (hlength : as.length = times.length)
    (t : Float) :
    ∃ a, as[stepIndex times (wrap t period)]? = some a ∧
      stepValue times ⟨scalar, .many as⟩ t = .ok ⟨scalar, .one a⟩ := by
  have htimes : times ≠ [] := by
    rintro rfl
    cases hlast
  have hlt := stepIndex_lt htimes (wrap t period)
  have hget := List.getElem?_eq_getElem (l := as) (hlength ▸ hlt)
  refine ⟨_, hget, ?_⟩
  rw [stepValue, hlast]
  simp only [Value.size, Shape.size, hlength, ne_eq, not_true_eq_false, if_false, Value.element?,
    Shape.at?, hget, Option.map_some]

/-- A table that is given as a list of entries, whose last entry sets the period. -/
theorem stepValue_entries {scalar : Scalar} {ps : List (Float × scalar.Carrier)}
    {p : Float × scalar.Carrier} (hlast : ps.getLast? = some p) (t : Float) :
    ∃ e, ps[stepIndex (ps.map Prod.fst) (wrap t p.1)]? = some e ∧
      stepValue (ps.map Prod.fst) ⟨scalar, .many (ps.map Prod.snd)⟩ t =
        .ok ⟨scalar, .one e.2⟩ := by
  have hperiod : (ps.map Prod.fst).getLast? = some p.1 := by
    rw [List.getLast?_map, hlast, Option.map_some]
  obtain ⟨a, ha, hvalue⟩ := stepValue_eq (ps.map Prod.snd) hperiod (by simp) t
  rw [List.getElem?_map] at ha
  obtain ⟨e, he, rfl⟩ := Option.map_eq_some_iff.mp ha
  exact ⟨e, he, hvalue⟩

/-- A table of distinct times gives the same value in whatever order its entries are written, as
long as the same entry is written last. -/
theorem stepValue_of_perm {scalar : Scalar} {ps qs : List (Float × scalar.Carrier)}
    (h : ∀ p ∈ ps, IsOrdinary p.1) (hdistinct : (ps.map Prod.fst).Nodup) (hperm : qs.Perm ps)
    (hlast : qs.getLast? = ps.getLast?) (t : Float) :
    stepValue (qs.map Prod.fst) ⟨scalar, .many (qs.map Prod.snd)⟩ t =
      stepValue (ps.map Prod.fst) ⟨scalar, .many (ps.map Prod.snd)⟩ t := by
  cases hp : ps.getLast? with
  | none =>
    cases List.getLast?_eq_none_iff.mp hp
    cases hperm.eq_nil
    rfl
  | some p =>
    obtain ⟨e, he, hvalue⟩ := stepValue_entries hp t
    obtain ⟨e', he', hvalue'⟩ := stepValue_entries (hlast.trans hp) t
    have hsame := getElem?_stepIndex_of_perm h hdistinct hperm (wrap t p.1)
    rw [he, he', Option.some.injEq] at hsame
    rw [hvalue, hvalue', hsame]

end TimeFeature

/-! ## Evaluating a step feature -/

namespace Graph

variable (g : Graph) (eval : Parameter → Traced Value)

/-- The times and the values of a step feature. -/
def evalTables (f : TimeFeature) : Traced (List Float × Value) := do
  let times ← g.evalDimensioneds eval (f.input "Times") "Time"
  let values ← eval (← g.named (f.input "Values"))
  return (times, values)

theorem evalStep_eq (f : TimeFeature) (t : Float) :
    g.evalStep eval f t = g.evalTables eval f >>= fun tables =>
      Traced.ofCause (TimeFeature.stepValue tables.1 tables.2 t) := by
  simp only [evalStep, evalTables, bind_assoc, pure_bind]

variable {g eval} {f : TimeFeature} {s m : Trace} {times : List Float} {scalar : Scalar}
  {as : List scalar.Carrier}

/-- A step feature whose tables have one length is evaluated to the element at the active
position. -/
theorem run_evalStep (htables : (g.evalTables eval f).run s = (.ok (times, ⟨scalar, .many as⟩), m))
    {period : Float} (hlast : times.getLast? = some period) (hlength : as.length = times.length)
    (t : Float) :
    ∃ a, as[TimeFeature.stepIndex times (TimeFeature.wrap t period)]? = some a ∧
      (g.evalStep eval f t).run s = (.ok ⟨scalar, .one a⟩, m) := by
  obtain ⟨a, ha, hvalue⟩ := TimeFeature.stepValue_eq as hlast hlength t
  refine ⟨a, ha, ?_⟩
  rw [evalStep_eq, Traced.run_bind_ok htables, hvalue]
  rfl

/-- What a step feature gives at a time.  The active position is the first one of the next time,
or the last one of the latest time if none is to come; tables of one length have an element there,
at every time; and if the times are distinct, entries are written in any order, but for the last
one, which sets the period. -/
theorem evalStep_active :
    (∀ times : List Float, times ≠ [] → (∀ x ∈ times, IsOrdinary x) →
      ∀ t : Float, t.isFinite = true →
        ((∃ x ∈ times, t < x) →
          TimeFeature.IsNext times t (TimeFeature.stepIndex times t)) ∧
        ((¬ ∃ x ∈ times, t < x) →
          TimeFeature.IsLatest times (TimeFeature.stepIndex times t))) ∧
    (∀ (g : Graph) (eval : Parameter → Traced Value) (f : TimeFeature) (s m : Trace)
      (times : List Float) (scalar : Scalar) (as : List scalar.Carrier),
      (g.evalTables eval f).run s = (.ok (times, ⟨scalar, .many as⟩), m) →
      times ≠ [] → as.length = times.length →
      ∀ t, ∃ a ∈ as, (g.evalStep eval f t).run s = (.ok ⟨scalar, .one a⟩, m)) ∧
    ∀ (g g' : Graph) (eval eval' : Parameter → Traced Value) (f f' : TimeFeature)
      (s s' m m' : Trace) (scalar : Scalar) (ps qs : List (Float × scalar.Carrier)),
      (g.evalTables eval f).run s =
        (.ok (ps.map Prod.fst, ⟨scalar, .many (ps.map Prod.snd)⟩), m) →
      (g'.evalTables eval' f').run s' =
        (.ok (qs.map Prod.fst, ⟨scalar, .many (qs.map Prod.snd)⟩), m') →
      ps ≠ [] → (∀ p ∈ ps, IsOrdinary p.1) → (ps.map Prod.fst).Nodup →
      qs.Perm ps → qs.getLast? = ps.getLast? →
      ∀ t, ∃ v, (g.evalStep eval f t).run s = (.ok v, m) ∧
        (g'.evalStep eval' f' t).run s' = (.ok v, m') := by
  refine ⟨fun times htimes h t ht => ⟨TimeFeature.stepIndex_isNext h ht,
    TimeFeature.stepIndex_isLatest h htimes ht⟩, ?_, ?_⟩
  · intro g eval f s m times scalar as htables htimes hlength t
    have hlast := List.getLast?_eq_some_getLast htimes
    obtain ⟨a, ha, hrun⟩ := run_evalStep htables hlast hlength t
    exact ⟨a, List.mem_of_getElem? ha, hrun⟩
  · intro g g' eval eval' f f' s s' m m' scalar ps qs htables htables' hps h hdistinct hperm hlast t
    obtain ⟨e, -, hvalue⟩ :=
      TimeFeature.stepValue_entries (List.getLast?_eq_some_getLast hps) t
    have hvalue' := (TimeFeature.stepValue_of_perm h hdistinct hperm hlast t).trans hvalue
    refine ⟨⟨scalar, .one e.2⟩, ?_, ?_⟩
    · rw [evalStep_eq, Traced.run_bind_ok htables, hvalue]
      rfl
    · rw [evalStep_eq, Traced.run_bind_ok htables', hvalue']
      rfl

/-- A motion with its times and values below its base. -/
def motions (entries : List (Float × String)) : Graph :=
  { files := #[{
      name := transientName
      parameters := [
        { name := .ofText "Tf/Motion/Times", kind := Kind.many .dimensioned, changeable := false,
          unit := some "s", rawValue := "", file := transientFile,
          plan := .literal ⟨.dimensioned, .many (entries.map Prod.fst)⟩ },
        { name := .ofText "Tf/Motion/Values", kind := Kind.many .text, changeable := false,
          unit := none, rawValue := "", file := transientFile,
          plan := .literal ⟨.text, .many (entries.map Prod.snd)⟩ }] }] }

def motion : TimeFeature :=
  ⟨.ofText "Tf/Motion", .step, Kind.one .text, none⟩

def motionTrace : Trace :=
  [⟨transientFile, .ofText "Tf/Motion/Values"⟩, ⟨transientFile, .ofText "Tf/Motion/Times"⟩]

theorem run_evalTables_motions (entries : List (Float × String)) :
    ((motions entries).evalTables ((motions entries).valueOf {}) motion).run [] =
      (.ok (entries.map Prod.fst, ⟨.text, .many (entries.map Prod.snd)⟩), motionTrace) := by
  conv_rhs => rw [← List.map_id (entries.map Prod.fst)]
  rfl

/-- The value of the motion with the given entries at time `t`. -/
def moved (entries : List (Float × String)) (t : Float) : Except Failure Value × Trace :=
  ((motions entries).evalStep ((motions entries).valueOf {}) motion t).run []

theorem evalStep_active_motion :
    TimeFeature.IsNext [10, 2, 5, 5] 2 (TimeFeature.stepIndex [10, 2, 5, 5] 2) ∧
    TimeFeature.IsLatest [10, 2, 10, 5] (TimeFeature.stepIndex [10, 2, 10, 5] 10) ∧
    (∀ t, ∃ a ∈ ["A", "B", "C"],
      moved [(10, "A"), (2, "B"), (5, "C")] t = (.ok ⟨.text, .one a⟩, motionTrace)) ∧
    ∀ t, ∃ v, moved [(10, "A"), (2, "B"), (5, "C")] t = (.ok v, motionTrace) ∧
      moved [(2, "B"), (10, "A"), (5, "C")] t = (.ok v, motionTrace) := by
  obtain ⟨hactive, hvalue, hwritten⟩ := evalStep_active
  have hread := run_evalTables_motions [(10, "A"), (2, "B"), (5, "C")]
  have hread' := run_evalTables_motions [(2, "B"), (10, "A"), (5, "C")]
  refine ⟨?_, ?_, ?_, ?_⟩
  · exact (hactive [10, 2, 5, 5] (by simp) (by decide +kernel) 2 rfl).1
      ⟨5, by simp, by decide +kernel⟩
  · exact (hactive [10, 2, 10, 5] (by simp) (by decide +kernel) 10 rfl).2 (by decide +kernel)
  · exact hvalue _ _ motion [] motionTrace [10, 2, 5] .text ["A", "B", "C"] hread (by simp) rfl
  · exact hwritten _ _ _ _ motion motion [] [] motionTrace motionTrace .text
      [(10, "A"), (2, "B"), (5, "C")] [(2, "B"), (10, "A"), (5, "C")] hread hread' (by simp)
      (by decide +kernel) (by decide +kernel) (.swap _ _ _) (by simp)

end Graph

end ParameterChain
