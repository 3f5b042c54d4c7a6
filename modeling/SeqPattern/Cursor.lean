import SeqPattern.Expression

namespace SeqPattern

variable {α γ : Type}

/-- How a composite opens its children and draws matches from what it has opened: `start` opens
an expression at a position, `next` draws one match, and `holds` draws until one passes. -/
structure Children (α γ : Type) where
  start : Expression α → Nat → Search α γ
  next : γ → Search α (Option Match × γ)
  holds : (Match → Bool) → γ → Search α Bool

inductive Turn (σ : Type) where
  | give (m : Match) (state : σ)
  | again (state : σ)
  | stop (state : σ)

structure OpenPart (α γ : Type) where
  cursor : γ
  after : List (Expression α)

/-- The parts of a sequence, depth first. The open parts are kept innermost first, so that a
part without matches left resumes the one before it. -/
structure SequenceCursor (α γ : Type) where
  index : Nat
  stack : List (OpenPart α γ)

def SequenceCursor.turn (c : Children α γ) (s : SequenceCursor α γ) :
    Search α (Turn (SequenceCursor α γ)) :=
  match s.stack with
  | [] => return .stop s
  | top :: below => do
    match ← c.next top.cursor with
    | (none, _) => return .again { s with stack := below }
    | (some m, cursor) =>
      let top := { top with cursor }
      match top.after with
      | [] => return .give (.span s.index m.stop) { s with stack := top :: below }
      | part :: after =>
        let child ← c.start part m.stop
        return .again { s with stack := ⟨child, after⟩ :: top :: below }

/-- The options of an alternation in turn, each opened when it is reached. -/
structure AlternationCursor (α γ : Type) where
  index : Nat
  current : Option γ
  rest : List (Expression α)

def AlternationCursor.turn (c : Children α γ) (s : AlternationCursor α γ) :
    Search α (Turn (AlternationCursor α γ)) :=
  match s.current, s.rest with
  | some child, _ => do
    match ← c.next child with
    | (some m, child) => return .give m { s with current := some child }
    | (none, _) => return .again { s with current := none }
  | none, e :: es => do
    let child ← c.start e s.index
    return .again { s with current := some child, rest := es }
  | none, [] => return .stop s

structure Repeated (α : Type) where
  child : Expression α
  bounds : Bounds
  index : Nat

namespace Repeated

/-- Whether the match may be the round of that number: only the rounds that are needed may be
empty. -/
def admits (r : Repeated α) (m : Match) (number : Nat) : Bool :=
  !m.isEmpty || number ≤ r.bounds.min

def span (r : Repeated α) (stop : Nat) : Match := .span r.index stop

end Repeated

/-- An open round of a repetition, counted from 1. The number is the place of the round in the
stack, kept with it so that no turn has to count the rounds. -/
structure Round (γ : Type) where
  number : Nat
  cursor : γ

def Round.last : List (Round γ) → Nat
  | [] => 0
  | r :: _ => r.number

/-- Fewest rounds first: each accepted round is given before the round after it is drawn from.
Rounds are kept innermost first. -/
structure LazyCursor (α γ : Type) extends Repeated α where
  started : Bool := false
  stack : List (Round γ) := []

namespace LazyCursor

def deepen (c : Children α γ) (s : LazyCursor α γ) (position : Nat) :
    Search α (LazyCursor α γ) := do
  let number := Round.last s.stack
  if number < s.bounds.max then
    let cursor ← c.start s.child position
    return { s with stack := ⟨number + 1, cursor⟩ :: s.stack }
  return s

def turn (c : Children α γ) (s : LazyCursor α γ) : Search α (Turn (LazyCursor α γ)) :=
  if !s.started then do
    let s ← { s with started := true }.deepen c s.index
    if s.bounds.min = 0 then return .give (s.span s.index) s else return .again s
  else
    match s.stack with
    | [] => return .stop s
    | top :: below => do
      match ← c.next top.cursor with
      | (none, _) => return .again { s with stack := below }
      | (some m, cursor) =>
        let s := { s with stack := { top with cursor } :: below }
        if !s.admits m top.number then return .again s
        let s ← s.deepen c m.stop
        if s.bounds.min ≤ top.number then return .give (s.span m.stop) s else return .again s

end LazyCursor

inductive GreedyPhase where
  | deepen
  | draw
  /-- Give the current end and take back the innermost round. -/
  | retreat
  /-- Every round has been taken back; what is left is the empty match. -/
  | finish
  | over
  deriving DecidableEq, Repr

/-- Most rounds first. Rounds and the ends they have reached are kept innermost first. -/
structure GreedyCursor (α γ : Type) extends Repeated α where
  stack : List (Round γ) := []
  ends : List Nat := []
  phase : GreedyPhase := .deepen

namespace GreedyCursor

def turn (c : Children α γ) (s : GreedyCursor α γ) : Search α (Turn (GreedyCursor α γ)) :=
  match s.phase with
  | .deepen => do
    let number := Round.last s.stack
    if number < s.bounds.max then
      let cursor ← c.start s.child (s.ends.headD s.index)
      return .again { s with stack := ⟨number + 1, cursor⟩ :: s.stack, phase := .draw }
    return .again { s with phase := .retreat }
  | .draw =>
    match s.stack with
    | [] => return .again { s with phase := .finish }
    | top :: below => do
      match ← c.next top.cursor with
      | (some m, cursor) =>
        let s := { s with stack := { top with cursor } :: below }
        if s.admits m top.number then
          return .again { s with ends := m.stop :: s.ends, phase := .deepen }
        return .again s
      | (none, _) =>
        let phase := if s.ends.isEmpty then .finish else .retreat
        return .again { s with stack := below, phase }
  | .retreat =>
    match s.ends with
    | [] => return .again { s with phase := .finish }
    | stop :: ends =>
      let t := { s with ends, phase := .draw }
      if s.bounds.min ≤ Round.last s.stack then return .give (s.span stop) t else return .again t
  | .finish =>
    let t := { s with phase := .over }
    if s.bounds.min = 0 then return .give (s.span s.index) t else return .again t
  | .over => return .stop s

end GreedyCursor

inductive Cursor (α : Type) where
  | ready (m : Option Match)
  | candidates (cs : Candidates α)
  | sequence (s : SequenceCursor α (Cursor α))
  | alternation (s : AlternationCursor α (Cursor α))
  | lazy (s : LazyCursor α (Cursor α))
  | greedy (s : GreedyCursor α (Cursor α))

end SeqPattern
