import SeqPattern.Expression

namespace SeqPattern.Expression

variable {α : Type}

mutual

/-- How far a pattern without assertions can look ahead of its position. -/
def reach : Expression α → Nat
  | element _ => 1
  | sequence es => totalReach es
  | alternation es => greatestReach es
  | repetition e bounds _ => bounds.max * e.reach
  | lookAhead _ _ => 0
  | lookBehind _ _ => 0
  | anchor _ => 0
  | foreign _ => 0

def totalReach : List (Expression α) → Nat
  | [] => 0
  | e :: es => e.reach + totalReach es

def greatestReach : List (Expression α) → Nat
  | [] => 0
  | e :: es => max e.reach (greatestReach es)

end

end SeqPattern.Expression
