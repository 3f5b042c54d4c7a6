import SeqPattern.Foreign

namespace SeqPattern.Foreign

/-! Foreign expressions that programs choose from. No theorem is about them; a few are examples of
what a foreign expression may do. -/

variable {α : Type} [BEq α]

def fixed (n : Nat) (_ : Nat) : Query α Outcome := return .hit n

def never (_ : Nat) : Query α Outcome := return .miss

def equals (a : α) (i : Nat) : Query α Outcome := do
  match ← Query.get? i with
  | some b => return .oneElement (b == a)
  | none => return .miss

def sameAsPrevious (i : Nat) : Query α Outcome := do
  if i = 0 then return .miss
  if (← Query.get? i).isNone then return .miss
  match ← Query.get? (i - 1), ← Query.get? i with
  | some a, some b => return .oneElement (a == b)
  | _, _ => return .miss

def runOf (limit : Nat) (a : α) (i : Nat) : Query α Outcome :=
  count limit 0
where
  count : Nat → Nat → Query α Outcome
    | 0, k => return .hit k
    | n + 1, k => do
      match ← Query.get? (i + k) with
      | some b => if b == a then count n (k + 1) else return .hit k
      | none => return .hit k

/-- No element, wherever there is an element the given distance ahead. -/
def peek (distance i : Nat) : Query α Outcome := do
  return .zeroWidth (← Query.get? (i + distance)).isSome

structure Offer where
  place : Nat
  length : Nat
  success : Bool

/-- The offers that fit into the sequence, placed from the position on or absolutely. -/
def offered (offers : List Offer) (absolute : Bool) (i : Nat) : Query α (Candidates α) :=
  pure (.ofAttempts (offers.map fun o => do
    return (← Match.make (if absolute then o.place else i + o.place) o.length o.success).toOption))

/-- The given lengths in their order, with or without those above the largest. -/
def tellLengths (lengths : List Nat) (capped : Bool) (max : Nat) : List Nat :=
  if capped then lengths.filter (· ≤ max) else lengths

end SeqPattern.Foreign
