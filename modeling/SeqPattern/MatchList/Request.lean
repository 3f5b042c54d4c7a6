import SeqPattern.MatchList

namespace SeqPattern.MatchList

variable {α : Type}

inductive Request where
  | add (m : Match)
  | lock
  | remove (i : Nat)
  | get (i : Nat)
  | entry (i : Nat)
  | list
  | items
  deriving DecidableEq, Repr

inductive Reply (α : Type) where
  | done
  | found (m : Option Match)
  | listed (ms : List Match)
  | elements (as : List α)
  | failed (f : Failure)

def serve (l : MatchList) : Request → Query α (Reply α × MatchList)
  | .add m =>
    match l.add m with
    | .ok l => return (.done, l)
    | .error f => return (.failed f, l)
  | .lock => return (.done, l.lock)
  | .remove i =>
    match l.remove i with
    | .ok m => return (.found (some m), l)
    | .error f => return (.failed f, l)
  | .get i => return (.found (l.get? i), l)
  | .entry i =>
    match l.entry i with
    | .ok m => return (.found (some m), l)
    | .error f => return (.failed f, l)
  | .list => return (.listed l.toList, l)
  | .items => return (.elements (← l.items), l)

/-- Serves requests in turn, those after a failure too. -/
def serveAll : MatchList → List Request → Query α (List (Reply α) × MatchList)
  | l, [] => return ([], l)
  | l, request :: requests => do
    let (reply, l) ← l.serve request
    let (replies, l) ← serveAll l requests
    return (reply :: replies, l)

end SeqPattern.MatchList
