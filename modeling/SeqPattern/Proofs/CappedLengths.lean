import SeqPattern.Expression.Text
import SeqPattern.Proofs.Equivalence
import SeqPattern.Proofs.Placement

namespace SeqPattern

namespace Lengths

variable {max : Nat}

theorem take_eq (ls : Lengths) (k : Nat) :
    ls.take k = (ls.toList.take k, decide (ls.toList.length < k)) := by
  induction ls generalizing k with
  | done => cases k <;> rfl
  | more n rest ih =>
    match k with
    | 0 => simp [take]
    | 1 => simp [take, toList]
    | k + 2 => simp [take, toList, ih]
  | later ls ih =>
    cases k with
    | zero => simp [take]
    | succ k => exact ih () (k + 1)

theorem toList_fresh (ls : Lengths) (seen : Std.TreeSet Nat) :
    (ls.fresh max seen).toList =
      (ls.toList.filter fun n => n ≤ max && !seen.contains n).eraseDups := by
  induction ls generalizing seen with
  | done => rfl
  | more n rest ih =>
    by_cases hn : (decide (n ≤ max) && !seen.contains n) = true
    · rw [fresh, if_pos hn, toList, toList, ih, List.filter_cons, if_pos hn, List.eraseDups_cons,
        List.filter_filter]
      congr 2
      refine List.filter_congr fun m _ => ?_
      rw [Bool.eq_iff_iff]
      simp [Std.TreeSet.contains_insert, @eq_comm _ m n, and_left_comm]
    · rw [fresh, if_neg hn, toList, ih, List.filter_cons, if_neg hn]
  | later ls ih => exact ih () seen

theorem nodup_toList_fresh (ls : Lengths) (seen : Std.TreeSet Nat) :
    (ls.fresh max seen).toList.Nodup := by
  induction ls generalizing seen with
  | done => exact .nil
  | more n rest ih =>
    rw [fresh]
    split
    · rw [toList, List.nodup_cons, mem_toList_fresh]
      exact ⟨fun h => h.2.1 (by simp), ih () _⟩
    · exact ih () seen
  | later ls ih => exact ih () seen

end Lengths

section Sums

variable {step : Nat → List Nat} {min bound room : Nat}

theorem le_room_of_extends {i j : Nat} (hi : i ≤ room) (h : Extends step room i j) : j ≤ room := by
  obtain ⟨l, _, hle, rfl⟩ := h
  omega

theorem le_of_mem_extendSums {ns : List Nat} (hns : ∀ n ∈ ns, n ≤ room) :
    ∀ n ∈ extendSums step room ns, n ≤ room := by
  intro n hn
  obtain ⟨s, hs, hn⟩ := mem_extendSums.mp hn
  exact le_room_of_extends (hns s hs) hn

theorem Rounds.frontier_advance_subset (r : Rounds) :
    (r.advance step min room).frontier ⊆ extendSums step room r.frontier := by
  intro n hn
  by_cases hmin : min ≤ r.count + 1
  · rw [advance_of_le hmin] at hn
    exact (mem_frontier_counted.mp hn).1
  · by_cases hs : extendSums step room r.frontier = r.frontier
    · rw [advance_of_settled (by omega) hs] at hn
      exact (mem_frontier_counted.mp hn).1
    · rwa [advance_of_not_settled (by omega) hs] at hn

theorem Rounds.le_of_mem_frontier_follow {r : Rounds} (hr : ∀ s ∈ r.frontier, s ≤ room) (k : Nat) :
    ∀ s ∈ (follow step min bound room k r).frontier, s ≤ room := by
  induction k generalizing r with
  | zero => exact hr
  | succ k ih =>
    rw [follow]
    split
    · exact hr
    · exact ih fun s hs => le_of_mem_extendSums hr s (frontier_advance_subset r hs)

theorem Rounds.isOver_follow (step : Nat → List Nat) (bounds : Bounds) (room : Nat) :
    (follow step bounds.min bounds.max room (2 * room + 4) {}).isOver bounds.max = true :=
  (follow_below below_initial (Nat.zero_le _) bounds.min_le_max (by simp; omega)).2.2

end Sums

namespace Expression

variable {α : Type} {e : Expression α} {max : Nat}

def roundsAfter (e : Expression α) (bounds : Bounds) (max k : Nat) : Rounds :=
  .follow (fun rest => (e.lengths rest).toList) bounds.min bounds.max max k {}

/-- A sum of lengths to which a part of a sequence or a round of a repetition adds while the lengths
of the pattern up to the largest are told. What is left of the largest is what the part or the round
may have. -/
inductive Adding (max : Nat) : Expression α → Nat → Prop
  | part {es fs : List (Expression α)} {e : Expression α} {s : Nat} (hs : s ∈ sums es max [0]) :
    Adding max (sequence (es ++ e :: fs)) s
  | round {e : Expression α} {bounds : Bounds} {kind : RepetitionKind} {k s : Nat}
    (hs : s ∈ (e.roundsAfter bounds max k).frontier) : Adding max (repetition e bounds kind) s

theorem le_of_mem_sums {es : List (Expression α)} {ns : List Nat} (hns : ∀ n ∈ ns, n ≤ max) :
    ∀ n ∈ sums es max ns, n ≤ max := by
  induction es generalizing ns with
  | nil => exact hns
  | cons e es ih => exact ih (le_of_mem_extendSums hns)

theorem le_of_adding {s : Nat} (h : Adding max e s) : s ≤ max := by
  cases h with
  | part hs => exact le_of_mem_sums (by simp) s hs
  | round hs => exact Rounds.le_of_mem_frontier_follow (by simp) _ s hs

theorem le_of_mem_lengths (he : e.isForeign = false) : ∀ n ∈ (e.lengths max).toList, n ≤ max := by
  cases h : e.isPlaceable with
  | false => simp [lengths_of_not_isPlaceable he h, Lengths.toList]
  | true =>
    cases hany : e.anyLength with
    | true =>
      rw [toList_lengths_of_anyLength he h hany]
      exact fun n hn => Nat.le_of_lt_succ (List.mem_range.mp hn)
    | false =>
      cases e with
      | element c =>
        rw [lengths]
        split
        · simpa
        · simp [Lengths.toList]
      | sequence es =>
        rw [lengths_sequence h hany]
        exact le_of_mem_sums (by simp)
      | alternation es =>
        rw [lengths_alternation h hany]
        split
        · simp
        · exact fun n hn => ((Lengths.mem_toList_fresh _ _).mp hn).1
      | repetition e bounds kind =>
        rw [lengths_repetition h hany]
        split
        · simp
        · intro n hn
          obtain ⟨k, _, _, hk⟩ := (mem_repeatedSums_iff bounds.min_le_max n).mp hn
          exact le_room_of_reached hk
      | lookAhead negative e | lookBehind negative e =>
        rw [lengths]
        split <;> simp [Lengths.toList]
      | anchor a => simp [lengths]
      | foreign c => cases he

theorem pairwise_lengths (he : e.isForeign = false) (h : e.isAlternation = false) :
    (e.lengths max).toList.Pairwise (· < ·) := by
  cases e with
  | sequence es => exact pairwise_lengths_sequence
  | repetition e bounds kind => exact pairwise_lengths_repetition
  | element c | lookAhead negative e | lookBehind negative e =>
    rw [lengths]
    split <;> simp [Lengths.toList]
  | anchor a => simp [lengths]
  | alternation es => cases h
  | foreign c => cases he

theorem toList_lengths_alternation {es : List (Expression α)}
    (hany : (alternation es).anyLength = false) :
    ((alternation es).lengths max).toList =
      if !(alternation es).isPlaceable then []
      else if es.isEmpty then [0]
      else ((es.flatMap fun d => (d.lengths max).toList).filter (· ≤ max)).eraseDups := by
  cases h : (alternation es).isPlaceable with
  | false => simp [lengths_of_not_isPlaceable rfl h, Lengths.toList]
  | true => simp [lengths_alternation h hany, Lengths.toList_fresh, toList_unions]

theorem nodup_lengths (he : e.isForeign = false) : (e.lengths max).toList.Nodup := by
  cases h : e.isAlternation with
  | false => exact (pairwise_lengths he h).nodup
  | true =>
    cases e with
    | alternation es =>
      rw [lengths]
      split
      · exact .nil
      · split
        · rw [Lengths.toList_upTo]
          exact List.nodup_range
        · split
          · simp
          · exact Lengths.nodup_toList_fresh _ _
    | element | sequence | repetition | lookAhead | lookBehind | anchor | foreign => cases h

/-- Whatever foreign expressions tell, all lengths of a pattern around them come to an end, none is
larger than the largest or told twice, and but for alternations they ascend. An alternation tells
them as its options do, leaving out what has been told before. No sum of lengths on the way goes
beyond the largest, and a repetition has made enough rounds when it ends. -/
theorem lengths_told_once_within_largest (he : e.isForeign = false) (max : Nat) :
    ∃ ns : List Nat, (∀ k, (e.lengths max).take k = (ns.take k, decide (ns.length < k))) ∧
      (∀ n ∈ ns, n ≤ max) ∧ ns.Nodup ∧ (e.isAlternation = false → ns.Pairwise (· < ·)) ∧
      (∀ es, e = alternation es → e.anyLength = false →
        ns = if !e.isPlaceable then []
          else if es.isEmpty then [0]
          else ((es.flatMap fun d => (d.lengths max).toList).filter (· ≤ max)).eraseDups) ∧
      (∀ s, Adding max e s → s ≤ max) ∧
      ∀ d bounds kind, e = repetition d bounds kind →
        (d.roundsAfter bounds max (2 * max + 4)).isOver bounds.max = true := by
  refine ⟨(e.lengths max).toList, Lengths.take_eq _, le_of_mem_lengths he, nodup_lengths he,
    pairwise_lengths he, ?_, fun s => le_of_adding, ?_⟩
  · rintro es rfl hany
    exact toList_lengths_alternation hany
  · rintro d bounds kind rfl
    exact Rounds.isOver_follow _ bounds max

/-- A foreign expression that tells lengths out of order, twice, and beyond the largest, as an
option and in rounds. -/
theorem lengths_told_once_within_largest_unruly :
    let unruly : Expression Nat := foreign
      { matchAt := Foreign.never, placement := some ⟨true, false, fun max => [max + 9, 3, 1, 3]⟩ }
    let e := alternation [unruly, times (sequence [unruly, value 1]) 2, value 1]
    ∃ ns : List Nat, (∀ k, (e.lengths 5).take k = (ns.take k, decide (ns.length < k))) ∧
      (∀ n ∈ ns, n ≤ 5) ∧ ns.Nodup ∧ ns = [3, 1, 4] := by
  intro unruly e
  obtain ⟨ns, htake, hle, hnodup, -, horder, -⟩ :=
    lengths_told_once_within_largest (e := e) rfl 5
  have hns := horder _ rfl rfl
  exact ⟨ns, htake, hle, hnodup, hns.trans (by decide)⟩

end Expression

end SeqPattern
