import SeqPattern.Cursor.Next
import SeqPattern.Expression.Nodes

namespace SeqPattern

variable {α : Type} (xs : Array α)

namespace Query

@[simp]
theorem eval_get? (i : Nat) : (get? i).eval xs = xs[i]? := by
  cases h : xs[i]? <;> simp [get?, readAt, eval, h, Except.toOption]

@[simp]
theorem eval_inRange (i : Nat) : (inRange i).eval xs = decide (i ≤ xs.size) := by
  cases h : xs[i]? with
  | none => simp [inRange, readAt, eval, h]
  | some a =>
    obtain ⟨hi, _⟩ := Array.getElem?_eq_some_iff.mp h
    simp [inRange, readAt, eval, h, Nat.le_of_lt hi]

@[simp]
theorem eval_atEnd (i : Nat) : (atEnd i).eval xs = decide (i = xs.size) := by
  cases h : xs[i]? with
  | none =>
    simp only [atEnd, readAt, eval_bind, eval, h, eval_pure]
    rfl
  | some a =>
    obtain ⟨hi, _⟩ := Array.getElem?_eq_some_iff.mp h
    simp [atEnd, readAt, eval, h, Nat.ne_of_lt hi]

theorem eval_checkRange (extent : Extent) (index size : Nat) :
    (checkRange extent index size).eval xs =
      if xs.size < index then .error (.indexPastEnd index)
      else if maxSize < index + size then .error (.tooLong extent index size)
      else if xs.size < index + size then .error (.endPastEnd extent (index + size))
      else .ok () := by
  by_cases hi : xs.size < index
  · simp [checkRange, hi]
  · by_cases hm : maxSize < index + size
    · simp [checkRange, hi, hm, Nat.le_of_not_lt hi]
    · by_cases he : xs.size < index + size <;>
        simp [checkRange, hi, hm, he, Nat.le_of_not_lt]

end Query

theorem Match.eval_ofOutcomeChecked (hxs : xs.size ≤ maxSize) (i : Nat) (r : Outcome) :
    (Match.ofOutcomeChecked i r).eval xs =
      if r.success = true ∧ i + r.length ≤ xs.size then some ⟨i, r.length, true⟩ else none := by
  by_cases hs : r.success = true
  · by_cases hr : i + r.length ≤ xs.size
    · have hi : ¬ xs.size < i := by omega
      have hm : ¬ maxSize < i + r.length := by omega
      have he : ¬ xs.size < i + r.length := by omega
      simp [ofOutcomeChecked, make, Query.eval_checkRange, hs, hr, hi, hm, he, Except.toOption]
    · have he : xs.size < i + r.length := by omega
      by_cases hi : xs.size < i <;> by_cases hm : maxSize < i + r.length <;>
        simp [ofOutcomeChecked, make, Query.eval_checkRange, hs, hr, hi, hm, he, Except.toOption]
  · simp [ofOutcomeChecked, hs]

theorem ElementClass.eval_matchAt [BEq α] (c : ElementClass α) (hc : c.isProbing = false)
    (i : Nat) : (c.matchAt i).eval xs = .oneElement (xs[i]?.any c.accepts) := by
  cases c with
  | probing name holds probe => cases hc
  | any | value b | predicate label holds | oneOf cs | noneOf cs | not c =>
    simp only [matchAt, Query.eval_bind, Query.eval_get?]
    cases xs[i]? <;> rfl

theorem Anchor.eval_matchAt (a : Anchor) (i : Nat) :
    (a.matchAt i).eval xs = .zeroWidth (match a with
      | .start => decide (i = 0)
      | .stop => decide (i = xs.size)) := by
  cases a with
  | start => rfl
  | stop => simp [Anchor.matchAt]

end SeqPattern
