import SeqPattern.Match

namespace SeqPattern

/-- Candidate matches that are computed one at a time, each by asking. -/
inductive Candidates (α : Type) where
  | done
  | give (m : Match) (rest : Candidates α)
  | read (i : Nat) (next : Except Nat α → Candidates α)
  | justPast (i : Nat) (next : Bool → Candidates α)

namespace Candidates

variable {α β : Type}

def after : Query α β → (β → Candidates α) → Candidates α
  | .answer b, f => f b
  | .read i next, f => read i fun r => after (next r) f
  | .justPast i next, f => justPast i fun b => after (next b) f

/-- The results of the attempts that succeed, each made when its turn comes. -/
def ofAttempts : List (Query α (Option Match)) → Candidates α
  | [] => done
  | q :: qs => after q fun
    | some m => give m (ofAttempts qs)
    | none => ofAttempts qs

def next : Candidates α → Query α (Option Match × Candidates α)
  | done => pure (none, done)
  | give m rest => pure (some m, rest)
  | read i k => .read i fun r => (k r).next
  | justPast i k => .justPast i fun b => (k b).next

end Candidates

end SeqPattern
