import Mathlib.Logic.Function.Iterate
import SeqPattern.Proofs.CappedLengths

namespace SeqPattern.Rounds

variable {step : Nat → List Nat} {min bound room : Nat}

/-- The state of the loop after its body has been run the given number of times, whether or not the
loop would have ended before. -/
def afterTurns (step : Nat → List Nat) (min room k : Nat) : Rounds := (advance step min room)^[k] {}

/-- The sums that have been collected. Where no length is needed, 0 is among them from the start. -/
def collected (min : Nat) (r : Rounds) : List Nat :=
  ascending (if min = 0 then 0 :: r.seen.toList else r.seen.toList)

theorem exists_turns_eq_follow (step : Nat → List Nat) (min bound room fuel : Nat) (r : Rounds) :
    ∃ k, k ≤ fuel ∧ (∀ j, j < k → ((advance step min room)^[j] r).isOver bound = false) ∧
      follow step min bound room fuel r = (advance step min room)^[k] r := by
  induction fuel generalizing r with
  | zero => exact ⟨0, Nat.le_refl 0, fun j hj => absurd hj (Nat.not_lt_zero j), rfl⟩
  | succ fuel ih =>
    cases ho : r.isOver bound with
    | true =>
      refine ⟨0, Nat.zero_le _, fun j hj => absurd hj (Nat.not_lt_zero j), ?_⟩
      exact follow_of_isOver ho (fuel + 1)
    | false =>
      obtain ⟨k, hk, hbefore, hlast⟩ := ih (r.advance step min room)
      refine ⟨k + 1, Nat.succ_le_succ hk, fun j hj => ?_, ?_⟩
      · cases j with
        | zero => exact ho
        | succ j =>
          rw [Function.iterate_succ_apply]
          exact hbefore j (Nat.lt_of_succ_lt_succ hj)
      · rw [follow, if_neg (Bool.eq_false_iff.mp ho), Function.iterate_succ_apply]
        exact hlast

/-- Whatever lengths are told for what is left of the room, and however far the bounds lie apart or
beyond it, the loop over the rounds of a repetition ends after running its body no more than
`2 * room + 4` times. It has then collected the sums of every number of lengths within the bounds,
each told for the room that was left and fitting into it, and nothing else. -/
theorem loop_ends_within_room (step : Nat → List Nat) (bounds : Bounds) (room : Nat) :
    ∃ k, k ≤ 2 * room + 4 ∧
      (∀ j, j < k → (afterTurns step bounds.min room j).isOver bounds.max = false) ∧
      (afterTurns step bounds.min room k).isOver bounds.max = true ∧
      (∀ n, n ∈ (afterTurns step bounds.min room k).collected bounds.min ↔
        ∃ count, bounds.min ≤ count ∧ count ≤ bounds.max ∧ Reached step room count n) ∧
      repeatedSums step bounds.min bounds.max room =
        (afterTurns step bounds.min room k).collected bounds.min := by
  obtain ⟨k, hk, hbefore, hlast⟩ :=
    exists_turns_eq_follow step bounds.min bounds.max room (2 * room + 4) {}
  have hover := isOver_follow step bounds room
  have hsums : repeatedSums step bounds.min bounds.max room =
      (afterTurns step bounds.min room k).collected bounds.min := by
    rw [afterTurns, ← hlast]
    rfl
  refine ⟨k, hk, hbefore, ?_, fun n => ?_, hsums⟩
  · rwa [hlast] at hover
  · rw [← hsums]
    exact mem_repeatedSums_iff bounds.min_le_max n

/-- Bounds far beyond the room, and lengths that change with what is left of it. -/
example : repeatedSums (fun left => if left < 3 then [0, 2] else [2, 3, 3, 9]) 1000000 maxSize 5 =
    [3, 4, 5] := by
  decide +kernel

end SeqPattern.Rounds
