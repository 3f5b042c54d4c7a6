import SeqPattern.Foreign
import SeqPattern.ElementClass

namespace SeqPattern

structure Bounds where
  min : Nat
  max : Nat
  min_le_max : min ≤ max := by omega
  deriving DecidableEq, Repr

inductive RepetitionKind where
  | lazy
  | greedy
  deriving DecidableEq, Repr

inductive Anchor where
  | start
  | stop
  deriving DecidableEq, Repr

inductive Expression (α : Type) where
  | element (c : ElementClass α)
  | sequence (parts : List (Expression α))
  | alternation (options : List (Expression α))
  | repetition (child : Expression α) (bounds : Bounds) (kind : RepetitionKind)
  | lookAhead (negative : Bool) (child : Expression α)
  | lookBehind (negative : Bool) (child : Expression α)
  | anchor (a : Anchor)
  | foreign (c : Foreign α)

namespace Expression

variable {α : Type}

def any : Expression α := element .any

def value (a : α) : Expression α := element (.value a)

def values (as : List α) : Expression α := sequence (as.map value)

def predicate (label : String) (holds : α → Bool) : Expression α :=
  element (.predicate (some label) holds)

def start : Expression α := anchor .start

def stop : Expression α := anchor .stop

def times (e : Expression α) (n : Nat) : Expression α :=
  repetition e { min := n, max := n } .greedy

def between (e : Expression α) (min max : Nat) (kind : RepetitionKind := .greedy) :
    Except Failure (Expression α) :=
  if h : min ≤ max then .ok (repetition e ⟨min, max, h⟩ kind) else .error (.boundsCrossed min max)

def atLeast (e : Expression α) (min : Nat) (kind : RepetitionKind := .greedy) : Expression α :=
  repetition e { min := min, max := max min maxSize } kind

def zeroOrMore (e : Expression α) (kind : RepetitionKind := .greedy) : Expression α :=
  e.atLeast 0 kind

def oneOrMore (e : Expression α) (kind : RepetitionKind := .greedy) : Expression α :=
  e.atLeast 1 kind

def optional (e : Expression α) (kind : RepetitionKind := .greedy) : Expression α :=
  repetition e { min := 0, max := 1 } kind

end Expression

end SeqPattern
