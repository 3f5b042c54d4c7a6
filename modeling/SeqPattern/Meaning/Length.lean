import SeqPattern.Meaning.Relation

namespace SeqPattern.Expression

variable {α : Type}

mutual

/-- Whether a pattern without assertions could have a match of the length. -/
def HasLength : Expression α → Nat → Prop
  | element _, n => n = 1
  | sequence es, n => HasSum es n
  | alternation es, n => (es = [] ∧ n = 0) ∨ SomeHasLength es n
  | repetition e bounds _, n =>
    ∃ k, bounds.min ≤ k ∧ k ≤ bounds.max ∧
      Iterated (fun i j => ∃ l, e.HasLength l ∧ j = i + l) k 0 n
  | lookAhead _ _, n => n = 0
  | lookBehind _ _, n => n = 0
  | anchor _, n => n = 0
  | foreign _, _ => False

def HasSum : List (Expression α) → Nat → Prop
  | [], n => n = 0
  | e :: es, n => ∃ l m, e.HasLength l ∧ HasSum es m ∧ n = l + m

def SomeHasLength : List (Expression α) → Nat → Prop
  | [], _ => False
  | e :: es, n => e.HasLength n ∨ SomeHasLength es n

end

variable {n : Nat}

theorem someHasLength_iff {es : List (Expression α)} :
    SomeHasLength es n ↔ ∃ e ∈ es, e.HasLength n := by
  induction es with
  | nil => simp [SomeHasLength]
  | cons e es ih => simp [SomeHasLength, ih]

theorem hasLength_alternation {es : List (Expression α)} :
    (alternation es).HasLength n ↔ (es = [] ∧ n = 0) ∨ ∃ e ∈ es, e.HasLength n := by
  rw [HasLength, someHasLength_iff]

end SeqPattern.Expression
