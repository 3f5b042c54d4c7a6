import SeqPattern.Proofs.Margin

namespace SeqPattern.Expression

open Search

variable {α : Type} [BEq α] {xs : Array α} {e : Expression α}

/-- Without assertions in the pattern no start from which it leads back to the position is
overlooked. -/
theorem exists_fits_iff_exists_start (hxs : xs.size ≤ maxSize) (he : e.isPlain = true)
    (hfree : e.isAssertionFree = true) (i : Nat) :
    (∃ n, n ≤ i ∧ e.Fits i n ∧ i ∈ e.ends xs (i - n)) ↔ ∃ q, q ≤ i ∧ i ∈ e.ends xs q := by
  constructor
  · rintro ⟨n, _, _, hi⟩
    exact ⟨i - n, Nat.sub_le i n, hi⟩
  · rintro ⟨q, hq, hi⟩
    have hmargin := margin_of_isAssertionFree hfree
    refine ⟨i - q, Nat.sub_le i q, fits_of_mem_ends hxs he hi (by omega), ?_⟩
    rwa [Nat.sub_sub_self hq]

theorem mem_ends_iff_exists_match (hxs : xs.size ≤ maxSize) (he : e.isPlain = true) (q i : Nat) :
    i ∈ e.ends xs q ↔ ∃ ms, e.Enumerates xs q ms ∧ ∃ m ∈ ms, m.stop = i := by
  rw [← exists_stop_iff_mem_ends hxs he]
  have hends := enumerates_ends hxs he q
  constructor
  · exact fun hi => ⟨_, hends, hi⟩
  · rintro ⟨ms, hms, hi⟩
    rwa [hms.unique hends] at hi

/-- A lookbehind on a pattern without assertions succeeds at a position in the sequence exactly when
some match, from wherever it starts, ends there, and a negative one exactly when none does. Then its
only match is the empty one. -/
theorem lookBehind_succeeds_iff_match_ends (he : e.isPlain = true)
    (hfree : e.isAssertionFree = true) (xs : Array α) (hxs : xs.size ≤ maxSize) (negative : Bool)
    (i : Nat) :
    ∃ success, Settles xs (fun fuel => (lookBehind negative e).matchAt? fuel i)
        (some (.zeroWidth success)) ∧
      (lookBehind negative e).Enumerates xs i (if success then [.span i i] else []) ∧
      (success = true ↔ i ≤ xs.size ∧
        ((∃ q, q ≤ i ∧ ∃ ms, e.Enumerates xs q ms ∧ ∃ m ∈ ms, m.stop = i) ↔
          negative = false)) := by
  have hsettles := settles_assertBehind_fits he (leadsTo_ends hxs he) negative i
  have hends := enumerates_ends hxs (isPlain_lookBehind.mpr he : (lookBehind negative e).isPlain) i
  rw [ends, apply_ite (List.map (Match.span i))] at hends
  refine ⟨_, hsettles.bind (settles_pure _), ?_, ?_⟩
  · simpa only [decide_eq_true_eq] using! hends
  · rw [decide_eq_true_eq, exists_fits_iff_exists_start hxs he hfree]
    simp only [mem_ends_iff_exists_match hxs he]

theorem lookBehind_succeeds_iff_match_ends_two_rounds :
    ∃ success, Settles #[1, 2, 1] (fun fuel => (lookBehind true
        (times (alternation [value 1, values [1, 2]]) 2) : Expression Nat).matchAt? fuel 3)
        (some (.zeroWidth success)) ∧
      (lookBehind true (times (alternation [value 1, values [1, 2]]) 2) :
        Expression Nat).Enumerates #[1, 2, 1] 3 (if success then [.span 3 3] else []) ∧
      (success = true ↔ 3 ≤ 3 ∧
        ((∃ q, q ≤ 3 ∧ ∃ ms, (times (alternation [value 1, values [1, 2]]) 2 :
          Expression Nat).Enumerates #[1, 2, 1] q ms ∧ ∃ m ∈ ms, m.stop = 3) ↔ true = false)) :=
  lookBehind_succeeds_iff_match_ends (by decide) (by decide) #[1, 2, 1] (by decide) true 3

end SeqPattern.Expression
