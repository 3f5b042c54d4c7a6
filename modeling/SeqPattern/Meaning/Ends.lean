import SeqPattern.Meaning.Fitting

namespace SeqPattern

/-- Where up to `bound` rounds can lead of which `need` are needed, most rounds first. A round
that is not needed does not stay where it is. -/
def greedyEnds (child : Nat → List Nat) : Nat → Nat → Nat → List Nat
  | 0, need, p => if need = 0 then [p] else []
  | bound + 1, need, p =>
    ((child p).filter fun q => q ≠ p || need ≠ 0).flatMap (greedyEnds child bound (need - 1)) ++
      if need = 0 then [p] else []

def lazyEnds (child : Nat → List Nat) : Nat → Nat → Nat → List Nat
  | 0, need, p => if need = 0 then [p] else []
  | bound + 1, need, p =>
    (if need = 0 then [p] else []) ++
      ((child p).filter fun q => q ≠ p || need ≠ 0).flatMap (lazyEnds child bound (need - 1))

namespace Expression

variable {α : Type} [BEq α]

mutual

/-- The ends of the matches of a plain pattern at a position, most preferred first. A lookbehind
considers the starts from which what lies between fits its pattern. -/
def ends (xs : Array α) : Expression α → Nat → List Nat
  | element c, i => if xs[i]?.any c.accepts then [i + 1] else []
  | sequence es, i => if i ≤ xs.size then sequenceEnds xs es i else []
  | alternation [], i => if i ≤ xs.size then [i] else []
  | alternation (e :: es), i => e.ends xs i ++ alternationEnds xs es i
  | repetition e bounds kind, i =>
    if i ≤ xs.size then
      match kind with
      | .lazy => lazyEnds (e.ends xs) bounds.max bounds.min i
      | .greedy => greedyEnds (e.ends xs) bounds.max bounds.min i
    else []
  | lookAhead negative e, i =>
    if i ≤ xs.size && (!(e.ends xs i).isEmpty) != negative then [i] else []
  | lookBehind negative e, i =>
    if i ≤ xs.size ∧ ((∃ n, n ≤ i ∧ e.Fits i n ∧ i ∈ e.ends xs (i - n)) ↔ negative = false)
    then [i] else []
  | anchor .start, i => if i = 0 then [i] else []
  | anchor .stop, i => if i = xs.size then [i] else []
  | foreign _, _ => []

def sequenceEnds (xs : Array α) : List (Expression α) → Nat → List Nat
  | [], i => [i]
  | e :: es, i => (e.ends xs i).flatMap (sequenceEnds xs es)

def alternationEnds (xs : Array α) : List (Expression α) → Nat → List Nat
  | [], _ => []
  | e :: es, i => e.ends xs i ++ alternationEnds xs es i

end

variable {xs : Array α}

theorem alternationEnds_eq_flatMap (es : List (Expression α)) (p : Nat) :
    alternationEnds xs es p = es.flatMap fun e => e.ends xs p := by
  induction es with
  | nil => rfl
  | cons e es ih => rw [alternationEnds, List.flatMap_cons, ih]

theorem ends_alternation (xs : Array α) (es : List (Expression α)) (p : Nat) :
    (alternation es).ends xs p =
      if es.isEmpty then (if p ≤ xs.size then [p] else []) else es.flatMap (·.ends xs p) := by
  cases es with
  | nil => simp only [ends, List.isEmpty_nil, ↓reduceIte]
  | cons e es =>
    simp only [ends, alternationEnds_eq_flatMap, List.isEmpty_cons, Bool.false_eq_true,
      ↓reduceIte, List.flatMap_cons]

theorem mem_ends_alternation_cons {e : Expression α} {es : List (Expression α)} {i j : Nat} :
    j ∈ (alternation (e :: es)).ends xs i ↔ ∃ e' ∈ e :: es, j ∈ e'.ends xs i := by
  simp only [ends, alternationEnds_eq_flatMap, List.mem_append, List.mem_flatMap, List.mem_cons,
    exists_eq_or_imp]

end Expression

end SeqPattern
