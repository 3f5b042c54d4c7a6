import SeqPattern.Match
import SeqPattern.Text.Shown

namespace SeqPattern

/-- A test of one element. A `probing` class decides about a position by questions of its own,
and is an ordinary test inside other classes. -/
inductive ElementClass (α : Type) where
  | any
  | value (a : α)
  | predicate (label : Option String) (holds : α → Bool)
  | oneOf (members : List (ElementClass α))
  | noneOf (members : List (ElementClass α))
  | not (c : ElementClass α)
  | probing (name : String) (holds : α → Bool) (probe : Nat → Query α Outcome)

namespace ElementClass

variable {α : Type}

mutual

def accepts [BEq α] : ElementClass α → α → Bool
  | any, _ => true
  | value b, a => a == b
  | predicate _ holds, a => holds a
  | oneOf cs, a => someAccepts cs a
  | noneOf cs, a => !someAccepts cs a
  | not c, a => !c.accepts a
  | probing _ holds _, a => holds a

def someAccepts [BEq α] : List (ElementClass α) → α → Bool
  | [], _ => false
  | c :: cs, a => c.accepts a || someAccepts cs a

end

def matchAt [BEq α] (c : ElementClass α) (i : Nat) : Query α Outcome :=
  match c with
  | probing _ _ probe => probe i
  | c => do
    match ← Query.get? i with
    | some a => return .oneElement (c.accepts a)
    | none => return .miss

mutual

def name [Shown α] : ElementClass α → String
  | any => "any"
  | value a => shown a
  | predicate label _ => label.getD "predicate"
  | oneOf cs => Text.listing (names cs)
  | noneOf cs => "!" ++ Text.listing (names cs)
  | not c => "!" ++ c.name
  | probing name _ _ => name

def names [Shown α] : List (ElementClass α) → List String
  | [] => []
  | c :: cs => c.name :: names cs

end

end ElementClass

end SeqPattern
