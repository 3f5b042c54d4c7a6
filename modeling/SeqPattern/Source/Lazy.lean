import SeqPattern.Query

namespace SeqPattern

/-- A sequence whose elements are drawn one at a time and kept. The feed tells how it answers
each poll; after its first report of the end it is not polled again. -/
structure LazySource (α : Type) where
  feed : Nat → Option α
  cache : Array α := #[]
  exhausted : Bool := false
  polls : Nat := 0

namespace LazySource

variable {α : Type}

def poll (s : LazySource α) : LazySource α :=
  match s.feed s.polls with
  | some a => { s with cache := s.cache.push a, polls := s.polls + 1 }
  | none => { s with exhausted := true, polls := s.polls + 1 }

def pollTimes : Nat → LazySource α → LazySource α
  | 0, s => s
  | n + 1, s => if s.exhausted then s else pollTimes n s.poll

/-- Draws elements until one is known at the index or the end is reached. -/
def ensure (s : LazySource α) (i : Nat) : LazySource α := s.pollTimes (i + 1 - s.cache.size)

def read (s : LazySource α) (i : Nat) : Except Nat α × LazySource α :=
  let s := s.ensure i
  match s.cache[i]? with
  | some a => (.ok a, s)
  | none => (.error s.cache.size, s)

/-- An index that is already known to be in range is answered without drawing. -/
def justPast (s : LazySource α) (i : Nat) : Bool × LazySource α :=
  if i ≤ s.cache.size then (false, s)
  else
    let s := s.ensure i
    (i == s.cache.size + 1, s)

end LazySource

def Query.drive {α β : Type} : Query α β → LazySource α → β × LazySource α
  | .answer b, s => (b, s)
  | .read i next, s => let (r, s) := s.read i; (next r).drive s
  | .justPast i next, s => let (b, s) := s.justPast i; (next b).drive s

@[simp]
theorem Query.drive_pure {α β : Type} (b : β) (s : LazySource α) :
    (pure b : Query α β).drive s = (b, s) := rfl

@[simp]
theorem Query.drive_bind {α β γ : Type} (q : Query α β) (f : β → Query α γ) (s : LazySource α) :
    (q >>= f).drive s = (f (q.drive s).1).drive (q.drive s).2 := by
  change (q.bind f).drive s = _
  induction q generalizing s with
  | answer b => rfl
  | read i next ih => exact ih _ _
  | justPast i next ih => exact ih _ _

end SeqPattern
