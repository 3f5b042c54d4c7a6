import SeqPattern.Proofs.OrderedStops

namespace SeqPattern.Expression

variable {α : Type}

section Ascending

variable {es : List (Expression α)} {max : Nat}

theorem pairwise_sums {ns : List Nat} (h : ns.Pairwise (· < ·)) :
    (sums es max ns).Pairwise (· < ·) := by
  induction es generalizing ns with
  | nil => exact h
  | cons e es ih => exact ih (pairwise_ascending _)

theorem pairwise_lengths_sequence :
    ((sequence es).lengths max).toList.Pairwise (· < ·) := by
  rw [lengths]
  split
  · exact .nil
  · split
    · rw [Lengths.toList_upTo]
      exact List.pairwise_lt_range
    · rw [Lengths.toList_ofList]
      exact pairwise_sums (List.pairwise_singleton _ 0)

theorem pairwise_lengths_repetition {e : Expression α} {bounds : Bounds} {kind : RepetitionKind} :
    ((repetition e bounds kind).lengths max).toList.Pairwise (· < ·) := by
  rw [lengths]
  split
  · exact .nil
  · split
    · rw [Lengths.toList_upTo]
      exact List.pairwise_lt_range
    · split <;> rw [Lengths.toList_ofList]
      · exact List.pairwise_singleton _ 0
      · exact pairwise_ascending _

end Ascending

variable [BEq α]

/-- Whether two patterns can stand for one another: they have the same matches in the same order,
are placed alike, and tell the same lengths in the same order. -/
structure Equivalent (e f : Expression α) : Prop where
  same_matches : ∀ xs : Array α, xs.size ≤ maxSize → ∀ i,
    ∃ ms, e.Enumerates xs i ms ∧ f.Enumerates xs i ms
  same_isPlaceable : e.isPlaceable = f.isPlaceable
  same_anyLength : e.anyLength = f.anyLength
  same_lengths : ∀ max, (e.lengths max).toList = (f.lengths max).toList

theorem Equivalent.of_isPlain {e f : Expression α} (he : e.isPlain = true) (hf : f.isPlain = true)
    (hends : ∀ xs : Array α, xs.size ≤ maxSize → ∀ i, e.ends xs i = f.ends xs i)
    (hlengths : ∀ max, (e.lengths max).toList = (f.lengths max).toList) : e.Equivalent f where
  same_matches xs hxs i :=
    ⟨_, enumerates_ends hxs he i, hends xs hxs i ▸ enumerates_ends hxs hf i⟩
  same_isPlaceable := (isPlaceable_of_isPlain he).trans (isPlaceable_of_isPlain hf).symm
  same_anyLength := (anyLength_of_isPlain he).trans (anyLength_of_isPlain hf).symm
  same_lengths := hlengths

end SeqPattern.Expression
