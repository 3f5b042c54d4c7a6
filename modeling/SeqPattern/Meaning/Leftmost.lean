import SeqPattern.Match

namespace SeqPattern

/-- The matches of a search from left to right over `size` elements, where `first` tells the end
of the preferred match at a position. -/
def leftmost (first : Nat → Option Nat) (size p : Nat) : List Match :=
  if size < p then []
  else match first p with
    | none => leftmost first size (p + 1)
    | some q => .span p q :: leftmost first size (p + max 1 (q - p))
termination_by size + 1 - p
decreasing_by all_goals omega

/-- The position to try after this one, where `first` tells the first candidate at a position,
wherever that candidate lies. -/
def following (first : Nat → Option Match) (p : Nat) : Nat :=
  match first p with
  | none => p + 1
  | some m => p + max 1 m.length

theorem lt_following (first : Nat → Option Match) (p : Nat) : p < following first p := by
  unfold following
  split <;> omega

def visits (first : Nat → Option Match) (size p : Nat) : List Nat :=
  if size < p then [] else p :: visits first size (following first p)
termination_by size + 1 - p
decreasing_by
  have := lt_following first p
  omega

/-- The positions that have a candidate among those tried, each with its first one. -/
def taken (first : Nat → Option Match) (size p : Nat) : List (Nat × Match) :=
  (visits first size p).filterMap fun q => (first q).map (q, ·)

end SeqPattern
