import SeqPattern.Expression

namespace SeqPattern

def Iterated (r : Nat → Nat → Prop) : Nat → Nat → Nat → Prop
  | 0, i, j => j = i
  | k + 1, i, j => ∃ m, r i m ∧ Iterated r k m j

namespace Expression

variable {α : Type} [BEq α]

mutual

/-- Whether a plain pattern matches from one position to another, whatever is preferred. -/
def Matches (xs : Array α) : Expression α → Nat → Nat → Prop
  | element c, i, j => j = i + 1 ∧ ∃ a, xs[i]? = some a ∧ c.accepts a = true
  | sequence es, i, j => Chained xs es i j
  | alternation es, i, j => (es = [] ∧ j = i) ∨ SomeMatches xs es i j
  | repetition e bounds _, i, j =>
    ∃ k, bounds.min ≤ k ∧ k ≤ bounds.max ∧ Iterated (e.Matches xs) k i j
  | lookAhead negative e, i, j => j = i ∧ ((∃ m, e.Matches xs i m) ↔ negative = false)
  | lookBehind negative e, i, j => j = i ∧ ((∃ q, q ≤ i ∧ e.Matches xs q i) ↔ negative = false)
  | anchor .start, i, j => i = 0 ∧ j = 0
  | anchor .stop, i, j => i = xs.size ∧ j = xs.size
  | foreign _, _, _ => False

def Chained (xs : Array α) : List (Expression α) → Nat → Nat → Prop
  | [], i, j => j = i
  | e :: es, i, j => ∃ m, e.Matches xs i m ∧ Chained xs es m j

def SomeMatches (xs : Array α) : List (Expression α) → Nat → Nat → Prop
  | [], _, _ => False
  | e :: es, i, j => e.Matches xs i j ∨ SomeMatches xs es i j

end

variable {xs : Array α}

theorem someMatches_iff {es : List (Expression α)} {i j : Nat} :
    SomeMatches xs es i j ↔ ∃ e ∈ es, e.Matches xs i j := by
  induction es with
  | nil => simp [SomeMatches]
  | cons e es ih => simp [SomeMatches, ih]

theorem matches_alternation {es : List (Expression α)} {i j : Nat} :
    (alternation es).Matches xs i j ↔ (es = [] ∧ j = i) ∨ ∃ e ∈ es, e.Matches xs i j := by
  rw [Matches, someMatches_iff]

end Expression

end SeqPattern
