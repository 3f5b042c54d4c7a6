import SeqPattern.Proofs.Iterated
import SeqPattern.Proofs.OrderedStops

namespace SeqPattern

section Rounds

variable {child : Nat → List Nat}

theorem exists_iterated_of_mem_greedyEnds {bound need p q : Nat}
    (h : q ∈ greedyEnds child bound need p) :
    ∃ k, need ≤ k ∧ k ≤ bound ∧ Iterated (fun p q => q ∈ child p) k p q := by
  induction bound generalizing need p with
  | zero =>
    rw [greedyEnds, List.mem_ite_nil_right, List.mem_singleton] at h
    exact ⟨0, by omega, by omega, h.2⟩
  | succ bound ih =>
    rw [greedyEnds, List.mem_append, List.mem_flatMap, List.mem_ite_nil_right,
      List.mem_singleton] at h
    rcases h with ⟨m, hm, hq⟩ | ⟨hneed, hq⟩
    · obtain ⟨k, hlow, hhigh, hk⟩ := ih hq
      exact ⟨k + 1, by omega, by omega, m, (List.mem_filter.mp hm).1, hk⟩
    · exact ⟨0, by omega, by omega, hq⟩

/-- Rounds can be told apart by what they need: an empty one that is not needed is left out,
which leaves one round less and as much room as before. -/
theorem mem_greedyEnds_of_iterated {k : Nat} {bound need p q : Nat} (hlow : need ≤ k)
    (hhigh : k ≤ bound) (h : Iterated (fun p q => q ∈ child p) k p q) :
    q ∈ greedyEnds child bound need p := by
  induction k generalizing bound need p with
  | zero =>
    have hq : q = p := h
    have hneed : need = 0 := by omega
    cases bound <;> simp [greedyEnds, hneed, hq]
  | succ k ih =>
    obtain ⟨m, hm, hk⟩ := h
    by_cases hskip : m = p ∧ need = 0
    · obtain ⟨rfl, rfl⟩ := hskip
      exact ih (by omega) (by omega) hk
    · obtain ⟨bound, rfl⟩ : ∃ b, bound = b + 1 := ⟨bound - 1, by omega⟩
      have hq : q ∈ greedyEnds child bound (need - 1) m := ih (by omega) (by omega) hk
      rw [greedyEnds, List.mem_append, List.mem_flatMap]
      refine Or.inl ⟨m, List.mem_filter.mpr ⟨hm, ?_⟩, hq⟩
      simp only [Bool.or_eq_true, decide_eq_true_eq]
      omega

theorem mem_greedyEnds_iff {bound need p q : Nat} :
    q ∈ greedyEnds child bound need p ↔
      ∃ k, need ≤ k ∧ k ≤ bound ∧ Iterated (fun p q => q ∈ child p) k p q :=
  ⟨exists_iterated_of_mem_greedyEnds, fun ⟨_, hlow, hhigh, h⟩ =>
    mem_greedyEnds_of_iterated hlow hhigh h⟩

end Rounds

namespace Expression

variable {α : Type} [BEq α] {xs : Array α}

theorem mem_chainStops_iff_chained {es : List (Expression α)}
    (hes : ∀ e ∈ es, ∀ p, p ≤ xs.size → ∀ q, q ∈ e.ends xs p ↔ e.Matches xs p q)
    (hin : ∀ e ∈ es, ∀ p, ∀ q ∈ e.ends xs p, p ≤ q ∧ q ≤ xs.size) {p : Nat} (hp : p ≤ xs.size)
    (q : Nat) : q ∈ chainStops (fun e => e.ends xs) es p ↔ Chained xs es p q := by
  induction es generalizing p with
  | nil => simp [chainStops, Chained]
  | cons e es ih =>
    have ih {m : Nat} (hm : m ≤ xs.size) := ih (fun e' h' => hes e' (by simp [h']))
      (fun e' h' => hin e' (by simp [h'])) hm
    rw [chainStops, Chained, List.mem_flatMap]
    constructor
    · rintro ⟨m, hm, hq⟩
      exact ⟨m, (hes e (by simp) p hp m).mp hm, (ih (hin e (by simp) p m hm).2).mp hq⟩
    · rintro ⟨m, hm, hq⟩
      have hm := (hes e (by simp) p hp m).mpr hm
      exact ⟨m, hm, (ih (hin e (by simp) p m hm).2).mpr hq⟩

theorem mem_ends_iff_matches (hxs : xs.size ≤ maxSize) {e : Expression α}
    (he : e.isPlain = true) (hfree : e.isLookBehindFree = true) {i : Nat} (hi : i ≤ xs.size)
    (j : Nat) : j ∈ e.ends xs i ↔ e.Matches xs i j := by
  have hin {e : Expression α} (he : e.isPlain = true) := (leadsTo_ends hxs he).bounded
  induction e generalizing i j with
  | element c =>
    rw [ends, Matches, List.mem_ite_nil_right, List.mem_singleton, Option.any_eq_true, and_comm]
  | sequence es ih =>
    rw [isPlain_sequence] at he
    rw [isLookBehindFree_sequence] at hfree
    have hchain : j ∈ chainStops (fun e => e.ends xs) es i ↔ Chained xs es i j :=
      mem_chainStops_iff_chained (fun e h p hp q => ih e h (he e h) (hfree e h) hp q)
        (fun e h => hin (he e h)) hi j
    rw [ends, if_pos hi, sequenceEnds_eq_chainStops, hchain, Matches]
  | alternation es ih =>
    rw [isPlain_alternation] at he
    rw [isLookBehindFree_alternation] at hfree
    cases es with
    | nil => simp [ends, matches_alternation, hi]
    | cons e es =>
      rw [mem_ends_alternation_cons, matches_alternation, or_iff_right (by simp)]
      exact exists_congr fun e' => and_congr_right fun h => ih e' h (he e' h) (hfree e' h) hi j
  | repetition e bounds kind ih =>
    rw [isPlain_repetition] at he
    rw [isLookBehindFree_repetition] at hfree
    have hstops : j ∈ (repetition e bounds kind).ends xs i ↔
        j ∈ repeatedStops kind (e.ends xs) bounds i := by
      cases kind <;> rw [ends, if_pos hi] <;> rfl
    rw [hstops, mem_repeatedStops, mem_greedyEnds_iff, Matches]
    refine exists_congr fun k => and_congr_right fun _ => and_congr_right fun _ => ?_
    exact Iterated.congr (fun p hp q => ih he hfree hp q) (fun p q hq => (hin he p q hq).2) k hi j
  | lookAhead negative e ih =>
    rw [isPlain_lookAhead] at he
    rw [isLookBehindFree_lookAhead] at hfree
    have hsome : (e.ends xs i).isEmpty = false ↔ ∃ m, e.Matches xs i m := by
      rw [List.isEmpty_eq_false_iff_exists_mem]
      exact exists_congr fun m => ih he hfree hi m
    rw [ends, Matches, List.mem_ite_nil_right, List.mem_singleton, ← hsome]
    cases (e.ends xs i).isEmpty <;> cases negative <;> simp [hi]
  | lookBehind negative e ih => simp at hfree
  | anchor a =>
    cases a <;> simp only [ends, Matches, List.mem_ite_nil_right, List.mem_singleton] <;> omega
  | foreign c => simp at he

/-- A match of a plain pattern without lookbehinds leads from one position to another exactly
when the pattern relates the two. -/
theorem stop_of_match_iff_matches {e : Expression α} (he : e.isPlain = true)
    (hfree : e.isLookBehindFree = true) (xs : Array α) (hxs : xs.size ≤ maxSize) {i : Nat}
    (hi : i ≤ xs.size) :
    ∃ ms, e.Enumerates xs i ms ∧ ∀ j, (∃ m ∈ ms, m.stop = j) ↔ e.Matches xs i j := by
  refine ⟨_, enumerates_ends hxs he i, fun j => ?_⟩
  exact (exists_stop_iff_mem_ends hxs he).trans (mem_ends_iff_matches hxs he hfree hi j)

theorem stop_of_match_iff_matches_nullable_rounds :
    ∃ ms, (sequence [atLeast (alternation [value 1, sequence []]) 2, lookAhead true (value 1)] :
        Expression Nat).Enumerates #[1, 1, 2] 0 ms ∧
      ∀ j, (∃ m ∈ ms, m.stop = j) ↔
        (sequence [atLeast (alternation [value 1, sequence []]) 2, lookAhead true (value 1)] :
          Expression Nat).Matches #[1, 1, 2] 0 j :=
  stop_of_match_iff_matches (by decide) (by decide) #[1, 1, 2] (by decide) (by decide)

end Expression

end SeqPattern
