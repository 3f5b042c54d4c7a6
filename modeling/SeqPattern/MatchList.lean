import SeqPattern.Match

namespace SeqPattern

variable {α : Type}

/-- An ordered collection that takes matches until it is locked. -/
structure MatchList where
  content : Array Match := #[]
  locked : Bool := false
  deriving DecidableEq, Repr

namespace MatchList

def collect (ms : List Match) : MatchList := ⟨ms.toArray, true⟩

def add (l : MatchList) (m : Match) : Except Failure MatchList :=
  if l.locked then .error .collectionLocked else .ok { l with content := l.content.push m }

def lock (l : MatchList) : MatchList := { l with locked := true }

def remove (_ : MatchList) (i : Nat) : Except Failure Match := .error (.matchRemoved i)

def size (l : MatchList) : Nat := l.content.size

def isEmpty (l : MatchList) : Bool := l.content.isEmpty

def get? (l : MatchList) (i : Nat) : Option Match := l.content[i]?

def entry (l : MatchList) (i : Nat) : Except Failure Match :=
  match l.content[i]? with
  | some m => .ok m
  | none => .error (.noMatchAt i l.size)

def toList (l : MatchList) : List Match := l.content.toList

/-- The elements of every match, in the order of the matches. These do not carry a sequence of their
own: all are read from the one that is asked. -/
def items (l : MatchList) : Query α (List α) := do
  return (← l.toList.mapM Match.items).flatten

def debug (l : MatchList) : String :=
  "[" ++ ", ".intercalate (l.toList.map Match.debug) ++ "]"

end MatchList

end SeqPattern
