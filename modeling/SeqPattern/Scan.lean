import SeqPattern.Cursor.Next
import SeqPattern.MatchList

namespace SeqPattern

variable {α : Type}

structure Scan (α : Type) where
  pattern : Expression α
  position : Nat
  finished : Bool

namespace Scan

/-- A search from a position on. Past the end it is over from the beginning. -/
def start (pattern : Expression α) (position : Nat) : Query α (Scan α) := do
  return { pattern, position, finished := !(← Query.inRange position) }

/-- The position after a match: past its elements, and at least one further. -/
def step (m : Match) : Nat := max 1 m.length

variable [BEq α]

/-- The match at the first position that has one. The search is over once the position is out of
range, which has to be just past the end. -/
def next : Nat → Scan α → Search α (Except Failure (Option Match) × Scan α)
  | 0, _ => failure
  | fuel + 1, s => do
    if s.finished then return (.ok none, s)
    if ← .ask (Query.inRange s.position) then
      match ← s.pattern.first? fuel s.position with
      | some m => return (.ok (some m), { s with position := s.position + step m })
      | none => next fuel { s with position := s.position + 1 }
    else
      let s := { s with finished := true }
      if ← .ask (Query.isJustPast s.position) then return (.ok none, s)
      return (.error (.strayed s.position), s)

/-- Searches for up to the given number of matches. Those found before are kept in reverse. -/
def takeAfter (fuel : Nat) :
    Nat → List Match → Scan α → Search α (Except Failure (List Match × Bool) × Scan α)
  | 0, ms, s => return (.ok (ms.reverse, false), s)
  | k + 1, ms, s => do
    match ← s.next fuel with
    | (.error f, s) => return (.error f, s)
    | (.ok none, s) => return (.ok (ms.reverse, true), s)
    | (.ok (some m), s) => takeAfter fuel k (m :: ms) s

def take (fuel k : Nat) (s : Scan α) :
    Search α (Except Failure (List Match × Bool) × Scan α) :=
  s.takeAfter fuel k []

def restAfter : Nat → List Match → Scan α → Search α (Except Failure (List Match))
  | 0, _, _ => failure
  | fuel + 1, ms, s => do
    match ← s.next fuel with
    | (.error f, _) => return .error f
    | (.ok none, _) => return .ok ms.reverse
    | (.ok (some m), s) => restAfter fuel (m :: ms) s

def rest (fuel : Nat) (s : Scan α) : Search α (Except Failure (List Match)) :=
  restAfter fuel [] s

end Scan

namespace Expression

variable [BEq α]

def findAll (fuel : Nat) (e : Expression α) (start : Nat) :
    Search α (Except Failure MatchList) := do
  let s ← .ask (Scan.start e start)
  if s.finished then return .error (.startPastEnd start)
  match ← s.rest fuel with
  | .ok ms => return .ok (.collect ms)
  | .error f => return .error f

/-- The first match from a position on, or the failure at that position. -/
def find (fuel : Nat) (e : Expression α) (start : Nat) : Search α (Except Failure Match) := do
  let s ← .ask (Scan.start e start)
  if s.finished then return .error (.startPastEnd start)
  match ← s.next fuel with
  | (.ok m, _) => return .ok (m.getD (.failure start))
  | (.error f, _) => return .error f

def occurs (fuel : Nat) (e : Expression α) : Search α (Except Failure Bool) := do
  let s ← .ask (Scan.start e 0)
  match ← s.next fuel with
  | (.ok m, _) => return .ok m.isSome
  | (.error f, _) => return .error f

def occursAt (fuel : Nat) (e : Expression α) (i : Nat) : Search α Bool := do
  return (← e.first? fuel i).isSome

end Expression

end SeqPattern
