import Mathlib.Data.Finset.Card
import SeqPattern.Lengths
import SeqPattern.Proofs.Iterated

namespace SeqPattern

/-- A sum and the sum with one more length, among those told for the room that is left. -/
def Extends (step : Nat → List Nat) (room i j : Nat) : Prop :=
  ∃ l ∈ step (room - i), l ≤ room - i ∧ j = i + l

abbrev Reached (step : Nat → List Nat) (room k n : Nat) : Prop :=
  Iterated (Extends step room) k 0 n

variable {step : Nat → List Nat} {min bound room : Nat}

theorem mem_extendSums {sums : List Nat} {n : Nat} :
    n ∈ extendSums step room sums ↔ ∃ s ∈ sums, Extends step room s n := by
  simp only [extendSums, mem_ascending, List.mem_flatMap, List.mem_map, List.mem_filter,
    decide_eq_true_eq, Extends]
  constructor
  · rintro ⟨s, hs, l, ⟨hl, hle⟩, rfl⟩
    exact ⟨s, hs, l, hl, hle, rfl⟩
  · rintro ⟨s, hs, l, hl, hle, rfl⟩
    exact ⟨s, hs, l, ⟨hl, hle⟩, rfl⟩

theorem le_of_extends (i j : Nat) (h : Extends step room i j) : i ≤ j := by
  obtain ⟨l, _, _, rfl⟩ := h
  omega

theorem le_room_of_reached {k n : Nat} (h : Reached step room k n) : n ≤ room := by
  refine le_of_iterated_of_le (fun i j hi hj => ?_) (Nat.zero_le room) h
  obtain ⟨l, _, hle, rfl⟩ := hj
  omega

/-- With more lengths than there is room some are 0, so that one more or less of them makes no
difference. -/
theorem reached_settles (n : Nat) :
    Reached step room (room + 2) n ↔ Reached step room (room + 1) n := by
  constructor
  · intro h
    have hn := le_room_of_reached h
    exact iterated_of_succ_of_lt le_of_extends h (by omega)
  · intro h
    have hn := le_room_of_reached h
    exact iterated_succ_of_lt le_of_extends h (by omega)

theorem eq_of_pairwise_lt {ns ms : List Nat} (hn : ns.Pairwise (· < ·)) (hm : ms.Pairwise (· < ·))
    (h : ∀ n, n ∈ ns ↔ n ∈ ms) : ns = ms :=
  List.Perm.eq_of_pairwise (fun _ _ _ _ hab hba => absurd hba (Nat.lt_asymm hab)) hn hm
    ((List.perm_ext_iff_of_nodup hn.nodup hm.nodup).mpr h)

namespace Rounds

/-- The rounds before any sum counts: nothing is seen, and the frontier is not settled. -/
structure Below (step : Nat → List Nat) (min room : Nat) (r : Rounds) : Prop where
  frontier : ∀ n, n ∈ r.frontier ↔ Reached step room r.count n
  ascending : r.frontier.Pairwise (· < ·)
  seen : ∀ n, n ∉ r.seen
  count_lt : r.count < max min 1
  count_le : r.count ≤ room + 1

/-- The rounds from which on every sum counts: those seen are the ones reached since then, and all
that is reached from those not on the frontier any more is seen too. -/
structure Counting (step : Nat → List Nat) (min room : Nat) (r : Rounds) : Prop where
  le_count : max min 1 ≤ r.count
  seen : ∀ n, n ∈ r.seen ↔ ∃ k, max min 1 ≤ k ∧ k ≤ r.count ∧ Reached step room k n
  frontier : ∀ n ∈ r.frontier, n ∈ r.seen
  closed : ∀ n ∈ r.seen, n ∈ r.frontier ∨ ∀ j, Extends step room n j → j ∈ r.seen

theorem below_initial : Below step min room {} where
  frontier _ := List.mem_singleton
  ascending := List.pairwise_singleton _ _
  seen _ := Std.TreeSet.not_mem_emptyc
  count_lt := Nat.lt_of_lt_of_le Nat.zero_lt_one (Nat.le_max_right min 1)
  count_le := Nat.zero_le _

def counted (r : Rounds) (next : List Nat) (count : Nat) : Rounds :=
  ⟨next.filter fun s => !r.seen.contains s, count, r.seen.insertMany next⟩

theorem mem_seen_counted {r : Rounds} {next : List Nat} {count n : Nat} :
    n ∈ (r.counted next count).seen ↔ n ∈ r.seen ∨ n ∈ next := by
  simp [counted, Std.TreeSet.mem_insertMany_list]

theorem mem_frontier_counted {r : Rounds} {next : List Nat} {count n : Nat} :
    n ∈ (r.counted next count).frontier ↔ n ∈ next ∧ n ∉ r.seen := by
  simp [counted, ← Std.TreeSet.contains_iff_mem]

theorem advance_of_le {r : Rounds} (h : min ≤ r.count + 1) :
    r.advance step min room = r.counted (extendSums step room r.frontier) (r.count + 1) := by
  have hlt : ¬ r.count + 1 < min := by omega
  simp [advance, counted, h, hlt]

theorem advance_of_settled {r : Rounds} (h : r.count + 1 < min)
    (hs : extendSums step room r.frontier = r.frontier) :
    r.advance step min room = r.counted (extendSums step room r.frontier) min := by
  simp [advance, counted, h, hs]

theorem advance_of_not_settled {r : Rounds} (h : r.count + 1 < min)
    (hs : extendSums step room r.frontier ≠ r.frontier) :
    r.advance step min room = ⟨extendSums step room r.frontier, r.count + 1, r.seen⟩ := by
  have hlt : ¬ min ≤ r.count + 1 := by omega
  simp [advance, hs, hlt]

theorem mem_extendSums_of_below {r : Rounds} (h : Below step min room r) (n : Nat) :
    n ∈ extendSums step room r.frontier ↔ Reached step room (r.count + 1) n := by
  rw [mem_extendSums, Reached, iterated_succ_iff_last]
  exact exists_congr fun s => and_congr_left fun _ => h.frontier s

theorem counting_first {r : Rounds} (h : Below step min room r) {next : List Nat} {count : Nat}
    (hcount : count = max min 1) (hnext : ∀ n, n ∈ next ↔ Reached step room count n) :
    Counting step min room (r.counted next count) where
  le_count := Nat.le_of_eq hcount.symm
  seen n := by
    rw [mem_seen_counted, or_iff_right (h.seen n), hnext n]
    constructor
    · exact fun hn => ⟨count, Nat.le_of_eq hcount.symm, Nat.le_refl _, hn⟩
    · rintro ⟨k, hlow, hhigh, hn⟩
      have hk : k = count := by
        have hle : k ≤ count := hhigh
        omega
      exact hk ▸ hn
  frontier n hn := mem_seen_counted.mpr (Or.inr (mem_frontier_counted.mp hn).1)
  closed n hn := by
    have hn := (mem_seen_counted.mp hn).resolve_left (h.seen n)
    exact Or.inl (mem_frontier_counted.mpr ⟨hn, h.seen n⟩)

/-- A round before any sum counts leads to the next such round, or to the first that counts. When
the frontier is settled the rounds in between would not change it. -/
theorem Below.advance {r : Rounds} (h : Below step min room r) :
    (Below step min room (r.advance step min room) ∧
      (r.advance step min room).count = r.count + 1) ∨
    (Counting step min room (r.advance step min room) ∧
      (r.advance step min room).count = max min 1) := by
  have hlt := h.count_lt
  have hnext := mem_extendSums_of_below h
  have hasc := pairwise_ascending
    (r.frontier.flatMap fun s => ((step (room - s)).filter (· ≤ room - s)).map (s + ·))
  by_cases hmin : min ≤ r.count + 1
  · have hcount : r.count + 1 = max min 1 := by omega
    rw [advance_of_le hmin]
    exact Or.inr ⟨counting_first h hcount hnext, hcount⟩
  · by_cases hs : extendSums step room r.frontier = r.frontier
    · have hcount : min = max min 1 := by omega
      rw [advance_of_settled (by omega) hs]
      refine Or.inr ⟨counting_first h hcount fun n => ?_, hcount⟩
      have hstable (j : Nat) :
          Reached step room (r.count + 1) j ↔ Reached step room r.count j := by
        rw [← hnext j, hs, h.frontier j]
      have hskip := iterated_eq_of_stable hstable (min - r.count) n
      rw [Nat.add_sub_cancel' (by omega)] at hskip
      exact (hnext n).trans ((hstable n).trans hskip.symm)
    · rw [advance_of_not_settled (by omega) hs]
      refine Or.inl ⟨⟨hnext, hasc, h.seen, ?_, ?_⟩, rfl⟩
      · show r.count + 1 < max min 1
        omega
      · -- A frontier of as many lengths as do not fit any more would have settled.
        have hle := h.count_le
        by_cases hlast : r.count = room + 1
        · have hsettled : extendSums step room r.frontier = r.frontier :=
            eq_of_pairwise_lt hasc h.ascending fun n => by
              rw [hnext n, h.frontier n, hlast]
              exact reached_settles n
          exact absurd hsettled hs
        · show r.count + 1 ≤ room + 1
          omega

def missing (room : Nat) (r : Rounds) : Finset Nat :=
  (Finset.range (room + 1)).filter (· ∉ r.seen)

theorem mem_missing {r : Rounds} {n : Nat} : n ∈ missing room r ↔ n ≤ room ∧ n ∉ r.seen := by
  simp only [missing, Finset.mem_filter, Finset.mem_range, Nat.lt_succ_iff]

theorem Counting.le_room {r : Rounds} (h : Counting step min room r) {n : Nat} (hn : n ∈ r.seen) :
    n ≤ room := by
  obtain ⟨k, _, _, hk⟩ := (h.seen n).mp hn
  exact le_room_of_reached hk

theorem Counting.counted {r : Rounds} (h : Counting step min room r) :
    Counting step min room (r.counted (extendSums step room r.frontier) (r.count + 1)) := by
  have hlow := h.le_count
  refine ⟨Nat.le_succ_of_le hlow, fun n => ?_, fun n hn => ?_, fun n hn => ?_⟩
  · rw [mem_seen_counted, mem_extendSums]
    constructor
    · rintro (hn | ⟨s, hs, hn⟩)
      · obtain ⟨k, hk, hle, hreach⟩ := (h.seen n).mp hn
        exact ⟨k, hk, Nat.le_succ_of_le hle, hreach⟩
      · obtain ⟨k, hk, hle, hreach⟩ := (h.seen s).mp (h.frontier s hs)
        exact ⟨k + 1, Nat.le_succ_of_le hk, Nat.succ_le_succ hle,
          iterated_succ_iff_last.mpr ⟨s, hreach, hn⟩⟩
    · rintro ⟨k, hk, hle, hreach⟩
      by_cases hold : k ≤ r.count
      · exact Or.inl ((h.seen n).mpr ⟨k, hk, hold, hreach⟩)
      · have hlast : k = r.count + 1 := by
          have hle : k ≤ r.count + 1 := hle
          omega
        subst k
        obtain ⟨s, hs, hn⟩ := iterated_succ_iff_last.mp hreach
        have hseen := (h.seen s).mpr ⟨r.count, hlow, Nat.le_refl _, hs⟩
        rcases h.closed s hseen with hfrontier | hclosed
        · exact Or.inr ⟨s, hfrontier, hn⟩
        · exact Or.inl (hclosed n hn)
  · exact mem_seen_counted.mpr (Or.inr (mem_frontier_counted.mp hn).1)
  · by_cases hold : n ∈ r.seen
    · right
      intro j hj
      rcases h.closed n hold with hfrontier | hclosed
      · exact mem_seen_counted.mpr (Or.inr (mem_extendSums.mpr ⟨n, hfrontier, hj⟩))
      · exact mem_seen_counted.mpr (Or.inl (hclosed j hj))
    · have hnext := (mem_seen_counted.mp hn).resolve_left hold
      exact Or.inl (mem_frontier_counted.mpr ⟨hnext, hold⟩)

theorem card_missing_counted_lt {r : Rounds} {next : List Nat} {count n : Nat}
    (hn : n ∈ (r.counted next count).frontier) (hroom : n ≤ room) :
    (missing room (r.counted next count)).card < (missing room r).card := by
  obtain ⟨hnext, hnew⟩ := mem_frontier_counted.mp hn
  apply Finset.card_lt_card
  refine Finset.ssubset_iff_subset_ne.mpr ⟨fun s hs => ?_, fun heq => ?_⟩
  · obtain ⟨hs, hnot⟩ := mem_missing.mp hs
    exact mem_missing.mpr ⟨hs, fun hin => hnot (mem_seen_counted.mpr (Or.inl hin))⟩
  · have hmiss : n ∈ missing room r := mem_missing.mpr ⟨hroom, hnew⟩
    rw [← heq] at hmiss
    exact (mem_missing.mp hmiss).2 (mem_seen_counted.mpr (Or.inr hnext))

theorem Counting.advance {r : Rounds} (h : Counting step min room r) :
    Counting step min room (r.advance step min room) ∧
    (r.advance step min room).count = r.count + 1 ∧
    ((r.advance step min room).frontier = [] ∨
      (missing room (r.advance step min room)).card < (missing room r).card) := by
  have hlow := h.le_count
  have hcounted := h.counted
  rw [advance_of_le (by omega)]
  refine ⟨hcounted, rfl, ?_⟩
  cases hf : (r.counted (extendSums step room r.frontier) (r.count + 1)).frontier with
  | nil => exact Or.inl rfl
  | cons n ns =>
    have hn : n ∈ (r.counted (extendSums step room r.frontier) (r.count + 1)).frontier :=
      hf ▸ List.mem_cons_self
    exact Or.inr (card_missing_counted_lt hn (hcounted.le_room (hcounted.frontier n hn)))

theorem isOver_iff {r : Rounds} : r.isOver bound = true ↔ r.frontier = [] ∨ bound ≤ r.count := by
  simp [isOver]

theorem follow_of_isOver {r : Rounds} (h : r.isOver bound = true) (fuel : Nat) :
    follow step min bound room fuel r = r := by
  cases fuel <;> simp [follow, h]

theorem follow_counting {r : Rounds} (h : Counting step min room r) (hb : r.count ≤ bound)
    {fuel : Nat} (hfuel : (missing room r).card < fuel) :
    Counting step min room (follow step min bound room fuel r) ∧
    (follow step min bound room fuel r).count ≤ bound ∧
    (follow step min bound room fuel r).isOver bound = true := by
  induction fuel generalizing r with
  | zero => omega
  | succ fuel ih =>
    by_cases ho : r.isOver bound = true
    · rw [follow_of_isOver ho]
      exact ⟨h, hb, ho⟩
    · have hcount : r.count < bound := by
        rw [isOver_iff] at ho
        omega
      obtain ⟨hnext, hsucc, hless⟩ := h.advance
      rw [follow, if_neg ho]
      rcases hless with hnil | hless
      · have hover : (r.advance step min room).isOver bound = true := isOver_iff.mpr (Or.inl hnil)
        rw [follow_of_isOver hover]
        exact ⟨hnext, by omega, hover⟩
      · exact ih hnext (by omega) (by omega)

/-- The rounds before any sum counts end within the room there is, and those that count within as
much again. -/
theorem follow_below {r : Rounds} (h : Below step min room r) (hb : r.count ≤ bound)
    (hmin : min ≤ bound) {fuel : Nat} (hfuel : room + 1 - r.count + (room + 2) < fuel) :
    (Below step min room (follow step min bound room fuel r) ∨
      Counting step min room (follow step min bound room fuel r)) ∧
    (follow step min bound room fuel r).count ≤ bound ∧
    (follow step min bound room fuel r).isOver bound = true := by
  induction fuel generalizing r with
  | zero => omega
  | succ fuel ih =>
    by_cases ho : r.isOver bound = true
    · rw [follow_of_isOver ho]
      exact ⟨Or.inl h, hb, ho⟩
    · have hcount : r.count < bound := by
        rw [isOver_iff] at ho
        omega
      rw [follow, if_neg ho]
      rcases h.advance with ⟨hnext, hsucc⟩ | ⟨hnext, hfirst⟩
      · have hle := hnext.count_le
        exact ih hnext (by omega) (by omega)
      · have hcard : (missing room (r.advance step min room)).card ≤ room + 1 := by
          simpa [missing] using Finset.card_filter_le (Finset.range (room + 1)) _
        obtain ⟨hc, hle, hover⟩ := follow_counting hnext (show _ ≤ bound by omega)
          (show (missing room (r.advance step min room)).card < fuel by omega)
        exact ⟨Or.inr hc, hle, hover⟩

theorem Counting.mem_seen_iff {r : Rounds} (h : Counting step min room r) (hb : r.count ≤ bound)
    (ho : r.isOver bound = true) (n : Nat) :
    n ∈ r.seen ↔ ∃ k, max min 1 ≤ k ∧ k ≤ bound ∧ Reached step room k n := by
  constructor
  · intro hn
    obtain ⟨k, hlow, hhigh, hk⟩ := (h.seen n).mp hn
    exact ⟨k, hlow, Nat.le_trans hhigh hb, hk⟩
  · rintro ⟨k, hlow, hhigh, hk⟩
    rcases isOver_iff.mp ho with hnil | hfull
    · have hclosed (s : Nat) (hs : s ∈ r.seen) (j : Nat) (hj : Extends step room s j) :
          j ∈ r.seen := by
        rcases h.closed s hs with hfrontier | hclosed
        · simp [hnil] at hfrontier
        · exact hclosed j hj
      clear hhigh
      induction k, hlow using Nat.le_induction generalizing n with
      | base => exact (h.seen n).mpr ⟨_, Nat.le_refl _, h.le_count, hk⟩
      | succ k hlow ih =>
        obtain ⟨s, hs, hn⟩ := iterated_succ_iff_last.mp hk
        exact hclosed s (ih s hs) n hn
    · exact (h.seen n).mpr ⟨k, hlow, by omega, hk⟩

theorem Below.not_reached {r : Rounds} (h : Below step min room r)
    (ho : r.isOver bound = true) {k n : Nat} (hlow : max min 1 ≤ k) (hhigh : k ≤ bound) :
    ¬ Reached step room k n := by
  have hlt := h.count_lt
  rcases isOver_iff.mp ho with hnil | hfull
  · obtain ⟨d, rfl⟩ : ∃ d, k = r.count + d := ⟨k - r.count, by omega⟩
    clear hlow hhigh
    induction d generalizing n with
    | zero =>
      intro hn
      have hfrontier := (h.frontier n).mpr hn
      simp [hnil] at hfrontier
    | succ d ih =>
      intro hn
      obtain ⟨s, hs, _⟩ := iterated_succ_iff_last.mp hn
      exact ih hs
  · omega

end Rounds

/-- The sums of a repetition are those of every number of lengths within its bounds, although the
rounds below the minimum are skipped once they are settled, sums that were extended are not
extended again, and only so many rounds are made. -/
theorem mem_repeatedSums_iff (hmin : min ≤ bound) (n : Nat) :
    n ∈ repeatedSums step min bound room ↔
      ∃ k, min ≤ k ∧ k ≤ bound ∧ Reached step room k n := by
  have hinitial : Rounds.Below step min room {} := Rounds.below_initial
  have hfuel : room + 1 - 0 + (room + 2) < 2 * room + 4 := by omega
  obtain ⟨hfinal, hcount, hover⟩ :=
    Rounds.follow_below hinitial (Nat.zero_le bound) hmin hfuel
  have hseen : n ∈ (Rounds.follow step min bound room (2 * room + 4) {}).seen ↔
      ∃ k, max min 1 ≤ k ∧ k ≤ bound ∧ Reached step room k n := by
    rcases hfinal with hbelow | hcounting
    · refine iff_of_false (hbelow.seen n) ?_
      rintro ⟨k, hlow, hhigh, hk⟩
      exact hbelow.not_reached hover hlow hhigh hk
    · exact hcounting.mem_seen_iff hcount hover n
  have hsplit : (∃ k, min ≤ k ∧ k ≤ bound ∧ Reached step room k n) ↔
      (min = 0 ∧ n = 0) ∨ ∃ k, max min 1 ≤ k ∧ k ≤ bound ∧ Reached step room k n := by
    constructor
    · rintro ⟨k, hlow, hhigh, hk⟩
      cases k with
      | zero => exact Or.inl ⟨by omega, hk⟩
      | succ k => exact Or.inr ⟨k + 1, by omega, hhigh, hk⟩
    · rintro (⟨hzero, hn⟩ | ⟨k, hlow, hhigh, hk⟩)
      · exact ⟨0, by omega, by omega, hn⟩
      · exact ⟨k, by omega, hhigh, hk⟩
  rw [hsplit, ← hseen, repeatedSums, mem_ascending]
  by_cases hzero : min = 0 <;> simp [hzero, Std.TreeSet.mem_toList]

end SeqPattern
