import SeqPattern.Window

namespace SeqPattern

inductive Probe where
  | get (i : Nat)
  | get? (i : Nat)
  | atStart (i : Nat)
  | atEnd (i : Nat)
  | inRange (i : Nat)
  | justPast (i : Nat)
  | window (index count : Nat)
  deriving DecidableEq, Repr

inductive Finding (α : Type) where
  | element (r : Except Failure α)
  | element? (a : Option α)
  | verdict (b : Bool)
  | window (r : Except Failure Window)

namespace Probe

variable {α : Type}

def ask : Probe → Query α (Finding α)
  | get i => .element <$> Query.get i
  | get? i => .element? <$> Query.get? i
  | atStart i => pure (.verdict (isAtStart i))
  | atEnd i => .verdict <$> Query.atEnd i
  | inRange i => .verdict <$> Query.inRange i
  | justPast i => .verdict <$> Query.isJustPast i
  | window index count => .window <$> Window.make index count

def askAll (ps : List Probe) : Query α (List (Finding α)) := ps.mapM ask

end Probe

end SeqPattern
