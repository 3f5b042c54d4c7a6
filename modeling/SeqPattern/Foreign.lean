import SeqPattern.Candidates

namespace SeqPattern

/-- What a foreign expression tells about the lengths it may match: whether it can tell any,
whether all are possible, and which are up to a largest. -/
structure Placement where
  possible : Bool
  anyLength : Bool
  lengths : Nat → List Nat

/-- An expression defined by its own computations. Without candidates of its own it has the
one match of `matchAt`, when that lies in the sequence; without a placement it can not be placed
by a lookbehind. -/
structure Foreign (α : Type) where
  name : String := "custom"
  matchAt : Nat → Query α Outcome
  candidates : Option (Nat → Query α (Candidates α)) := none
  placement : Option Placement := none

end SeqPattern
