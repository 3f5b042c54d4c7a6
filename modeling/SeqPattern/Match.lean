import SeqPattern.Window

namespace SeqPattern

variable {α : Type}

/-- The outcome of a test at one position. Without success the length is 0. -/
structure Outcome where
  success : Bool := false
  length : Nat := 0
  deriving DecidableEq, Repr

namespace Outcome

def miss : Outcome := {}

def hit (length : Nat) : Outcome := ⟨true, length⟩

def zeroWidth (success : Bool) : Outcome := ⟨success, 0⟩

def oneElement (success : Bool) : Outcome := ⟨success, if success then 1 else 0⟩

def debug (m : Outcome) : String :=
  s!"MatchLength \x7b success: {m.success}, length: {m.length} \x7d"

end Outcome

/-- A range of the sequence and whether it is a success. The sequence itself is not part of it, so
matches that are kept together are always of one and the same sequence. -/
structure Match where
  index : Nat
  length : Nat
  success : Bool
  deriving DecidableEq, Repr

namespace Match

/-- A match whose range lies in the sequence; only a success may have a length. -/
def make (index length : Nat) (success : Bool) : Query α (Except Failure Match) := do
  match ← Query.checkRange .length index length with
  | .error f => return .error f
  | .ok () =>
    if 0 < length && !success then return .error .unsuccessfulLength
    return .ok ⟨index, length, success⟩

def span (start stop : Nat) : Match := ⟨start, stop - start, true⟩

/-- The empty match that stands for no match. -/
def failure (index : Nat) : Match := ⟨index, 0, false⟩

def isEmpty (m : Match) : Bool := m.length == 0

def stop (m : Match) : Nat := m.index + m.length

def window (m : Match) : Window := ⟨m.index, m.length⟩

def items (m : Match) : Query α (List α) := m.window.toList

def ofOutcome (index : Nat) (r : Outcome) : Option Match :=
  if r.success then some ⟨index, r.length, true⟩ else none

def ofOutcomeChecked (index : Nat) (r : Outcome) : Query α (Option Match) := do
  if r.success then return (← make index r.length true).toOption
  return none

/-- How a program shows the range. No theorem is about it. -/
def rangeText (m : Match) : String := s!"{m.index}..{m.stop}"

def debug (m : Match) : String :=
  s!"Match \x7b index: {m.index}, length: {m.length}, success: {m.success} \x7d"

end Match

end SeqPattern
