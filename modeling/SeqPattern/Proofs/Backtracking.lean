import Mathlib.Data.List.Basic
import SeqPattern.Meaning.Ends
import SeqPattern.Proofs.Enumeration

namespace SeqPattern

open Search

variable {α : Type} [BEq α] {xs : Array α}

namespace Match

@[simp]
theorem stop_span {i j : Nat} (h : i ≤ j) : (span i j).stop = j := by
  simp only [span, stop]
  omega

end Match

/-- From every position the matches of the pattern lead to the given stops, in this order, and
never back or out of the sequence. -/
structure Expression.LeadsTo (xs : Array α) (e : Expression α) (stops : Nat → List Nat) :
    Prop where
  enumerates : ∀ p, e.Enumerates xs p ((stops p).map (Match.span p))
  bounded : ∀ p, ∀ q ∈ stops p, p ≤ q ∧ q ≤ xs.size

def chainStops (stops : Expression α → Nat → List Nat) : List (Expression α) → Nat → List Nat
  | [], p => [p]
  | e :: es, p => (stops e p).flatMap (chainStops stops es)

theorem flatMap_span {p : Nat} {qs : List Nat} (h : ∀ q ∈ qs, p ≤ q) (f : Nat → List Nat) :
    ((qs.map (Match.span p)).flatMap fun m => f m.stop) = qs.flatMap f := by
  rw [List.flatMap_map]
  exact List.flatMap_congr fun q hq => by rw [Match.stop_span (h q hq)]

namespace Cursor

section Sequence

theorem sequence_turn_resume {c d : Cursor α} (h : Settles xs (fun fuel => next fuel c) (none, d))
    (i : Nat) (es : List (Expression α)) (below : List (OpenPart α (Cursor α))) :
    Turns xs SequenceCursor.turn ⟨i, ⟨c, es⟩ :: below⟩ (.again ⟨i, below⟩) :=
  h.bind (settles_pure _)

theorem sequence_turn_give {c d : Cursor α} {m : Match}
    (h : Settles xs (fun fuel => next fuel c) (some m, d)) (i : Nat)
    (below : List (OpenPart α (Cursor α))) :
    Turns xs SequenceCursor.turn ⟨i, ⟨c, []⟩ :: below⟩
      (.give (.span i m.stop) ⟨i, ⟨d, []⟩ :: below⟩) :=
  h.bind (settles_pure _)

theorem sequence_turn_descend {c d child : Cursor α} {m : Match} {e : Expression α}
    (h : Settles xs (fun fuel => next fuel c) (some m, d))
    (hs : Settles xs (fun fuel => start fuel e m.stop) child) (i : Nat)
    (es : List (Expression α)) (below : List (OpenPart α (Cursor α))) :
    Turns xs SequenceCursor.turn ⟨i, ⟨c, e :: es⟩ :: below⟩
      (.again ⟨i, ⟨child, es⟩ :: ⟨d, e :: es⟩ :: below⟩) :=
  h.bind (hs.bind (settles_pure _))

theorem yields_sequence_nil (i : Nat) : (sequence (α := α) ⟨i, []⟩).Yields xs [] :=
  takesTurns_sequence.stop (settles_pure _)

/-- The innermost open part runs to completion and leaves those below it alone. -/
theorem yields_sequence {stops : Expression α → Nat → List Nat} {es : List (Expression α)}
    (hes : ∀ e ∈ es, e.LeadsTo xs (stops e)) (i : Nat) {below : List (OpenPart α (Cursor α))}
    {rest : List Match} (hrest : (sequence ⟨i, below⟩).Yields xs rest) {c : Cursor α}
    {ms : List Match} (hc : c.Yields xs ms) :
    (sequence ⟨i, ⟨c, es⟩ :: below⟩).Yields xs
      ((ms.flatMap fun m => chainStops stops es m.stop).map (Match.span i) ++ rest) := by
  induction es generalizing below rest c ms with
  | nil =>
    induction hc with
    | stop first again => exact takesTurns_sequence.again (sequence_turn_resume first i _ _) hrest
    | give first _ ih => exact takesTurns_sequence.give (sequence_turn_give first i _) ih
  | cons e es ihes =>
    have he := hes e (by simp)
    induction hc with
    | stop first again => exact takesTurns_sequence.again (sequence_turn_resume first i _ _) hrest
    | @give c d m ms first _ ih =>
      obtain ⟨child, hs, hchild⟩ := he.enumerates m.stop
      have h := ihes (fun e' h' => hes e' (by simp [h'])) ih hchild
      rw [flatMap_span fun q hq => (he.bounded m.stop q hq).1] at h
      refine takesTurns_sequence.again (sequence_turn_descend first hs i es below) ?_
      simpa only [List.flatMap_cons, List.map_append, List.append_assoc, chainStops] using! h

end Sequence

section Alternation

theorem yields_alternation_nil (i : Nat) :
    (alternation (α := α) ⟨i, none, []⟩).Yields xs [] :=
  takesTurns_alternation.stop (settles_pure _)

theorem yields_alternation_some {i : Nat} {es : List (Expression α)} {rest : List Match}
    (hrest : (alternation ⟨i, none, es⟩).Yields xs rest) {c : Cursor α} {ms : List Match}
    (hc : c.Yields xs ms) : (alternation ⟨i, some c, es⟩).Yields xs (ms ++ rest) := by
  induction hc with
  | stop first again => exact takesTurns_alternation.again (first.bind (settles_pure _)) hrest
  | give first _ ih => exact takesTurns_alternation.give (first.bind (settles_pure _)) ih

theorem yields_alternation {i : Nat} {matchesOf : Expression α → List Match}
    {es : List (Expression α)} (hes : ∀ e ∈ es, e.Enumerates xs i (matchesOf e)) :
    (alternation ⟨i, none, es⟩).Yields xs (es.flatMap matchesOf) := by
  induction es with
  | nil => exact yields_alternation_nil i
  | cons e es ih =>
    obtain ⟨c, hs, hc⟩ := hes e (by simp)
    have hrest := ih fun e' h' => hes e' (by simp [h'])
    exact takesTurns_alternation.again (hs.bind (settles_pure _))
      (yields_alternation_some hrest hc)

end Alternation

end Cursor

end SeqPattern
