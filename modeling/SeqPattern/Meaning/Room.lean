import SeqPattern.Expression.Nodes
import SeqPattern.Meaning.Relation

namespace SeqPattern.Expression

variable {α : Type}

mutual

/-- Whether the pattern could have a match of the length within the room, where all that is asserted
on the way has to find a length in the room that is left there. -/
def Fits : Expression α → Nat → Nat → Prop
  | element _, room, n => n = 1 ∧ 1 ≤ room
  | sequence es, room, n => FitTogether es room n
  | alternation es, room, n => (es = [] ∧ n = 0) ∨ SomeFits es room n
  | repetition e bounds _, room, n =>
    ∃ k, bounds.min ≤ k ∧ k ≤ bounds.max ∧
      Iterated (fun i j => ∃ l, e.Fits (room - i) l ∧ j = i + l) k 0 n
  | lookAhead _ e, room, n => n = 0 ∧ ∃ l, e.Fits room l
  | lookBehind _ e, room, n => n = 0 ∧ ∃ l, e.Fits room l
  | anchor _, _, n => n = 0
  | foreign _, _, _ => False

def FitTogether : List (Expression α) → Nat → Nat → Prop
  | [], _, n => n = 0
  | e :: es, room, n => ∃ l m, e.Fits room l ∧ FitTogether es (room - l) m ∧ n = l + m

def SomeFits : List (Expression α) → Nat → Nat → Prop
  | [], _, _ => False
  | e :: es, room, n => e.Fits room n ∨ SomeFits es room n

end

section Fits

variable {room n : Nat}

theorem someFits_iff {es : List (Expression α)} :
    SomeFits es room n ↔ ∃ e ∈ es, e.Fits room n := by
  induction es with
  | nil => simp [SomeFits]
  | cons e es ih => simp [SomeFits, ih]

theorem fits_alternation {es : List (Expression α)} :
    (alternation es).Fits room n ↔ (es = [] ∧ n = 0) ∨ ∃ e ∈ es, e.Fits room n := by
  rw [Fits, someFits_iff]

end Fits

mutual

/-- Room in which the pattern surely has a length. -/
def need : Expression α → Nat
  | element _ => 1
  | sequence es => totalNeed es
  | alternation es => leastNeed es
  | repetition e bounds _ => bounds.min * e.need
  | lookAhead _ e => e.need
  | lookBehind _ e => e.need
  | anchor _ => 0
  | foreign _ => 0

def totalNeed : List (Expression α) → Nat
  | [] => 0
  | e :: es => e.need + totalNeed es

def leastNeed : List (Expression α) → Nat
  | [] => 0
  | e :: es => if es.isEmpty then e.need else min e.need (leastNeed es)

end

mutual

/-- Room past a match with which nothing that the pattern asserts is cut off. -/
def margin : Expression α → Nat
  | element _ => 0
  | sequence es => greatestMargin es
  | alternation es => greatestMargin es
  | repetition e _ _ => e.margin
  | lookAhead _ e => e.need
  | lookBehind _ e => e.need
  | anchor _ => 0
  | foreign _ => 0

def greatestMargin : List (Expression α) → Nat
  | [] => 0
  | e :: es => max e.margin (greatestMargin es)

end

end SeqPattern.Expression
