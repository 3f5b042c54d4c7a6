import SeqPattern.Query

namespace SeqPattern

variable {α : Type}

/-- A read-only window of `count` elements from `index` on. Elements are read when asked for. -/
structure Window where
  index : Nat
  count : Nat
  deriving DecidableEq, Repr

structure WindowIter where
  window : Window
  position : Nat := 0
  deriving DecidableEq, Repr

namespace Window

def make (index count : Nat) : Query α (Except Failure Window) := do
  match ← Query.checkRange .count index count with
  | .ok () => return .ok ⟨index, count⟩
  | .error f => return .error f

def isEmpty (w : Window) : Bool := w.count == 0

def get? (w : Window) (i : Nat) : Query α (Option α) :=
  if i < w.count then Query.get? (w.index + i) else pure none

/-- Reads up to the given number of elements from a position on, ending early where there is
none. The elements read before are kept in reverse. -/
def readFrom (w : Window) : Nat → Nat → List α → Query α (List α)
  | 0, _, as => pure as.reverse
  | n + 1, i, as => do
    match ← w.get? i with
    | some a => readFrom w n (i + 1) (a :: as)
    | none => return as.reverse

def toList (w : Window) : Query α (List α) := w.readFrom w.count 0 []

def indexOfFrom [BEq α] (w : Window) (a : α) : Nat → Nat → Query α (Option Nat)
  | 0, _ => pure none
  | n + 1, i => do
    match ← w.get? i with
    | some b => if b == a then return some i else indexOfFrom w a n (i + 1)
    | none => return none

def indexOf? [BEq α] (w : Window) (a : α) : Query α (Option Nat) := w.indexOfFrom a w.count 0

def contains [BEq α] (w : Window) (a : α) : Query α Bool := do return (← w.indexOf? a).isSome

/-- What a program gets that assigns to a window, which can not be done. No theorem is about it. -/
def set (_ : Window) (i : Nat) (_ : α) : Except Failure Unit := .error (.windowAssigned i)

def iter (w : Window) : WindowIter := { window := w }

end Window

namespace WindowIter

def next (it : WindowIter) : Query α (Option α × WindowIter) := do
  match ← it.window.get? it.position with
  | some a => return (some a, { it with position := it.position + 1 })
  | none => return (none, it)

def remaining (it : WindowIter) : Nat := it.window.count - min it.position it.window.count

end WindowIter

end SeqPattern
