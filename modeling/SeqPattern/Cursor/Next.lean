import SeqPattern.Cursor
import SeqPattern.Expression.Placement

namespace SeqPattern

variable {α : Type} [BEq α]

namespace Anchor

def matchAt (a : Anchor) (i : Nat) : Query α Outcome :=
  match a with
  | .start => return .zeroWidth (isAtStart i)
  | .stop => return .zeroWidth (← Query.atEnd i)

end Anchor

namespace Children

variable {γ : Type}

def hasMatch (c : Children α γ) (e : Expression α) (i : Nat) : Search α Bool := do
  let (m, _) ← c.next (← c.start e i)
  return m.isSome

def hasMatchBehind (c : Children α γ) (e : Expression α) (i : Nat) : Lengths → Search α Bool
  | .done => return false
  | .more n rest => do
    if n ≤ i then
      if ← c.holds (·.length == n) (← c.start e (i - n)) then return true
    hasMatchBehind c e i (rest ())
  | .later ls => hasMatchBehind c e i (ls ())

def assertAhead (c : Children α γ) (negative : Bool) (e : Expression α) (i : Nat) :
    Search α Outcome := do
  if !(← .ask (Query.inRange i)) then return .miss
  return .zeroWidth ((← c.hasMatch e i) != negative)

/-- An expression that can not be placed makes the assertion fail, negative or not. -/
def assertBehind (c : Children α γ) (negative : Bool) (e : Expression α) (i : Nat) :
    Search α Outcome := do
  if !(← .ask (Query.inRange i)) then return .miss
  if !e.isPlaceable then return .miss
  return .zeroWidth ((← c.hasMatchBehind e i (e.lengths i)) != negative)

end Children

namespace Cursor

/-- Opens an expression at a position. Elements, assertions and anchors are tested at once, a
sequence opens its first part, and the others wait until they are drawn from. Outcomes that
come from outside have to lie in the sequence. -/
def opened (c : Children α (Cursor α)) (e : Expression α) (i : Nat) : Search α (Cursor α) :=
  match e with
  | .element e => return ready (← .ask (e.matchAt i >>= Match.ofOutcomeChecked i))
  | .sequence es => do
    if !(← .ask (Query.inRange i)) then return ready none
    match es with
    | [] => return ready (some (.span i i))
    | e :: es => return sequence ⟨i, [⟨← c.start e i, es⟩]⟩
  | .alternation [] => do
    return ready (if ← .ask (Query.inRange i) then some (.span i i) else none)
  | .alternation (e :: es) => return alternation ⟨i, none, e :: es⟩
  | .repetition child bounds kind => do
    if !(← .ask (Query.inRange i)) then return ready none
    match kind with
    | .lazy => return lazy { child, bounds, index := i }
    | .greedy => return greedy { child, bounds, index := i }
  | .lookAhead negative e => return ready (Match.ofOutcome i (← c.assertAhead negative e i))
  | .lookBehind negative e => return ready (Match.ofOutcome i (← c.assertBehind negative e i))
  | .anchor a => return ready (Match.ofOutcome i (← .ask (a.matchAt i)))
  | .foreign e =>
    match e.candidates with
    | some cs => return candidates (← .ask (cs i))
    | none => return ready (← .ask (e.matchAt i >>= Match.ofOutcomeChecked i))

def afterTurn {σ : Type} (c : Children α (Cursor α)) (wrap : σ → Cursor α) (t : Turn σ) :
    Search α (Option Match × Cursor α) :=
  match t with
  | .give m s => return (some m, wrap s)
  | .again s => c.next (wrap s)
  | .stop s => return (none, wrap s)

def drawn (c : Children α (Cursor α)) (cursor : Cursor α) : Search α (Option Match × Cursor α) :=
  match cursor with
  | ready m => return (m, ready none)
  | candidates cs => do
    let (m, cs) ← .ask cs.next
    return (m, candidates cs)
  | sequence s => do afterTurn c sequence (← s.turn c)
  | alternation s => do afterTurn c alternation (← s.turn c)
  | lazy s => do afterTurn c lazy (← s.turn c)
  | greedy s => do afterTurn c greedy (← s.turn c)

def held (c : Children α (Cursor α)) (p : Match → Bool) (cursor : Cursor α) : Search α Bool := do
  match ← c.next cursor with
  | (none, _) => return false
  | (some m, cursor) => if p m then return true else c.holds p cursor

mutual

/-- Opens an expression at a position, with fuel for nested openings and for the turns they
take. -/
def start : Nat → Expression α → Nat → Search α (Cursor α)
  | 0, _, _ => failure
  | fuel + 1, e, i => opened ⟨start fuel, next fuel, holds fuel⟩ e i

def next : Nat → Cursor α → Search α (Option Match × Cursor α)
  | 0, _ => failure
  | fuel + 1, cursor => drawn ⟨start fuel, next fuel, holds fuel⟩ cursor

def holds : Nat → (Match → Bool) → Cursor α → Search α Bool
  | 0, _, _ => failure
  | fuel + 1, p, cursor => held ⟨start fuel, next fuel, holds fuel⟩ p cursor

end

def children (fuel : Nat) : Children α (Cursor α) := ⟨start fuel, next fuel, holds fuel⟩

theorem start_succ (fuel : Nat) (e : Expression α) (i : Nat) :
    start (fuel + 1) e i = opened (children fuel) e i := rfl

theorem next_succ (fuel : Nat) (cursor : Cursor α) :
    next (fuel + 1) cursor = drawn (children fuel) cursor := rfl

/-- Draws up to the given number of matches. Those drawn before are kept in reverse. -/
def takeAfter (fuel : Nat) : Nat → List Match → Cursor α → Search α (List Match × Bool × Cursor α)
  | 0, ms, cursor => return (ms.reverse, false, cursor)
  | k + 1, ms, cursor => do
    match ← cursor.next fuel with
    | (none, cursor) => return (ms.reverse, true, cursor)
    | (some m, cursor) => takeAfter fuel k (m :: ms) cursor

def take (fuel k : Nat) (cursor : Cursor α) : Search α (List Match × Bool × Cursor α) :=
  cursor.takeAfter fuel k []

end Cursor

namespace Expression

def first? (fuel : Nat) (e : Expression α) (i : Nat) : Search α (Option Match) := do
  let (m, _) ← (← Cursor.start fuel e i).next fuel
  return m

/-- The outcome at a position of an expression that is tested as a whole. -/
def matchAt? (fuel : Nat) (e : Expression α) (i : Nat) : Search α (Option Outcome) :=
  match e with
  | .element e => return some (← .ask (e.matchAt i))
  | .lookAhead negative e => return some (← (Cursor.children fuel).assertAhead negative e i)
  | .lookBehind negative e => return some (← (Cursor.children fuel).assertBehind negative e i)
  | .anchor a => return some (← .ask (a.matchAt i))
  | .foreign e => return some (← .ask (e.matchAt i))
  | .sequence _ | .alternation _ | .repetition .. => return none

end Expression

end SeqPattern
