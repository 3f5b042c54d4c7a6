import SeqPattern.Expression
import SeqPattern.Lengths

namespace SeqPattern.Expression

variable {α : Type}

mutual

def isPlaceable : Expression α → Bool
  | element _ => true
  | sequence es => allPlaceable es
  | alternation es => allPlaceable es
  | repetition e _ _ => e.isPlaceable
  | lookAhead _ e => e.isPlaceable
  | lookBehind _ e => e.isPlaceable
  | anchor _ => true
  | foreign c => c.placement.any (·.possible)

def allPlaceable : List (Expression α) → Bool
  | [] => true
  | e :: es => e.isPlaceable && allPlaceable es

end

mutual

/-- Whether every length has to be taken for possible. -/
def anyLength : Expression α → Bool
  | element _ => false
  | sequence es => someHaveAnyLength es
  | alternation es => someHaveAnyLength es
  | repetition e _ _ => e.anyLength
  | lookAhead _ _ => false
  | lookBehind _ _ => false
  | anchor _ => false
  | foreign c => c.placement.all (·.anyLength)

def someHaveAnyLength : List (Expression α) → Bool
  | [] => false
  | e :: es => e.anyLength || someHaveAnyLength es

end

mutual

/-- The lengths up to the largest that a match may have. An alternation asks an option only when
those before it have no length left. An assertion takes no room, but only where the expression
it asserts could be placed. -/
def lengths : Expression α → Nat → Lengths
  | element _, max => if 1 ≤ max then .ofList [1] else .done
  | sequence es, max =>
    if !allPlaceable es then .done
    else if someHaveAnyLength es then .upTo max
    else .ofList (sums es max [0])
  | alternation es, max =>
    if !allPlaceable es then .done
    else if someHaveAnyLength es then .upTo max
    else if es.isEmpty then .ofList [0]
    else .later fun _ => (unions es max).fresh max ∅
  | repetition e bounds _, max =>
    if !e.isPlaceable then .done
    else if e.anyLength then .upTo max
    else if bounds.max = 0 then .ofList [0]
    else .ofList (repeatedSums (fun rest => (e.lengths rest).toList) bounds.min bounds.max max)
  | lookAhead _ e, max => if e.isPlaceable && !(e.lengths max).isEmpty then .ofList [0] else .done
  | lookBehind _ e, max => if e.isPlaceable && !(e.lengths max).isEmpty then .ofList [0] else .done
  | anchor _, _ => .ofList [0]
  | foreign c, max => match c.placement with
    | some p => .ofList (p.lengths max)
    | none => .done

def sums : List (Expression α) → Nat → List Nat → List Nat
  | [], _, ns => ns
  | e :: es, max, ns => sums es max (extendSums (fun rest => (e.lengths rest).toList) max ns)

def unions : List (Expression α) → Nat → Lengths
  | [], _ => .done
  | e :: es, max => (e.lengths max).append fun _ => unions es max

end

variable {room : Nat}

theorem toList_unions (es : List (Expression α)) :
    (unions es room).toList = es.flatMap fun e => (e.lengths room).toList := by
  induction es with
  | nil => rfl
  | cons e es ih => rw [unions, Lengths.toList_append, ih, List.flatMap_cons]

theorem lengths_sequence {es : List (Expression α)} (h : (sequence es).isPlaceable = true)
    (hany : (sequence es).anyLength = false) :
    ((sequence es).lengths room).toList = sums es room [0] := by
  rw [isPlaceable] at h
  rw [anyLength] at hany
  simp [lengths, h, hany]

theorem lengths_alternation {es : List (Expression α)} (h : (alternation es).isPlaceable = true)
    (hany : (alternation es).anyLength = false) :
    ((alternation es).lengths room).toList =
      if es.isEmpty then [0] else ((unions es room).fresh room ∅).toList := by
  rw [isPlaceable] at h
  rw [anyLength] at hany
  by_cases hes : es.isEmpty <;> simp [lengths, h, hany, hes, Lengths.toList]

theorem lengths_repetition {e : Expression α} {bounds : Bounds} {kind : RepetitionKind}
    (h : (repetition e bounds kind).isPlaceable = true)
    (hany : (repetition e bounds kind).anyLength = false) :
    ((repetition e bounds kind).lengths room).toList =
      if bounds.max = 0 then [0]
      else repeatedSums (fun rest => (e.lengths rest).toList) bounds.min bounds.max room := by
  rw [isPlaceable] at h
  rw [anyLength] at hany
  by_cases hmax : bounds.max = 0 <;> simp [lengths, h, hany, hmax]

end SeqPattern.Expression
