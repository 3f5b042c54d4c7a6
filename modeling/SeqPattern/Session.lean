import SeqPattern.Scan

namespace SeqPattern

variable {α : Type}

/-- What can be asked of a pattern on a sequence. Searches and enumerations that stay open are
numbered in the order in which they were opened. -/
inductive Request where
  | findAll (start : Nat)
  | find (start : Nat)
  | scan (start limit : Nat)
  | openScan (start : Nat)
  | nextMatch (handle : Nat)
  | occurs
  | occursAt (index : Nat)
  | candidates (index limit : Nat)
  | openCandidates (index : Nat)
  | nextCandidate (handle : Nat)
  | matchAt (index : Nat)
  deriving DecidableEq, Repr

/-- What is answered. Matches that are shown in full come with their elements. -/
inductive Reply (α : Type) where
  | found (m : Match) (items : List α)
  | foundAll (c : MatchList) (each : List (List α)) (items : List α)
  | pulled (ms : List Match) (complete : Bool)
  | opened (handle : Nat)
  | candidate (m : Match)
  | over
  | verdict (b : Bool)
  | outcome (r : Outcome)
  | failed (f : Failure)
  | unknown

structure Session (α : Type) where
  scans : Array (Scan α) := #[]
  cursors : Array (Cursor α) := #[]

namespace Reply

def ofMatch (m : Match) : Query α (Reply α) := do return .found m (← m.items)

def ofMatch? : Option Match → Query α (Reply α)
  | some m => ofMatch m
  | none => pure .over

def ofCollection (c : MatchList) : Query α (Reply α) := do
  return .foundAll c (← c.toList.mapM Match.items) (← c.items)

def bare : Reply α → List Match
  | pulled ms _ => ms
  | candidate m => [m]
  | _ => []

end Reply

/-- A reply, and the elements of each match that comes without them. -/
structure FullReply (α : Type) where
  reply : Reply α
  items : List (List α)

def Reply.inFull (r : Reply α) : Query α (FullReply α) := do
  return ⟨r, ← r.bare.mapM Match.items⟩

namespace Session

variable [BEq α]

def serve (fuel : Nat) (e : Expression α) (s : Session α) :
    Request → Search α (Reply α × Session α)
  | .findAll start => do
    match ← e.findAll fuel start with
    | .ok c => return (← .ask (Reply.ofCollection c), s)
    | .error f => return (.failed f, s)
  | .find start => do
    match ← e.find fuel start with
    | .ok m => return (← .ask (Reply.ofMatch m), s)
    | .error f => return (.failed f, s)
  | .scan start limit => do
    match ← (← .ask (Scan.start e start)).take fuel limit with
    | (.ok (ms, complete), _) => return (.pulled ms complete, s)
    | (.error f, _) => return (.failed f, s)
  | .openScan start => do
    let scan ← .ask (Scan.start e start)
    return (.opened s.scans.size, { s with scans := s.scans.push scan })
  | .nextMatch handle =>
    match s.scans[handle]? with
    | none => return (.unknown, s)
    | some scan => do
      let (r, scan) ← scan.next fuel
      let s := { s with scans := s.scans.setIfInBounds handle scan }
      match r with
      | .ok m => return (← .ask (Reply.ofMatch? m), s)
      | .error f => return (.failed f, s)
  | .occurs => do
    match ← e.occurs fuel with
    | .ok b => return (.verdict b, s)
    | .error f => return (.failed f, s)
  | .occursAt index => do return (.verdict (← e.occursAt fuel index), s)
  | .candidates index limit => do
    let (ms, complete, _) ← (← Cursor.start fuel e index).take fuel limit
    return (.pulled ms complete, s)
  | .openCandidates index => do
    let cursor ← Cursor.start fuel e index
    return (.opened s.cursors.size, { s with cursors := s.cursors.push cursor })
  | .nextCandidate handle =>
    match s.cursors[handle]? with
    | none => return (.unknown, s)
    | some cursor => do
      let (m, cursor) ← cursor.next fuel
      let s := { s with cursors := s.cursors.setIfInBounds handle cursor }
      match m with
      | some m => return (.candidate m, s)
      | none => return (.over, s)
  | .matchAt index => do
    match ← e.matchAt? fuel index with
    | some r => return (.outcome r, s)
    | none => return (.unknown, s)

/-- Serves requests in turn, each with a pattern of its own, and reads of each reply what is wanted
as soon as it is given. Searches and enumerations that are open go on with the pattern they were
opened for. -/
def serveAll {β : Type} (read : Reply α → Query α β) (fuel : Nat) :
    Session α → List (Expression α × Request) → Search α (List β × Session α)
  | s, [] => return ([], s)
  | s, (e, request) :: steps => do
    let (reply, s) ← s.serve fuel e request
    let shown ← .ask (read reply)
    let (replies, s) ← serveAll read fuel s steps
    return (shown :: replies, s)

end Session

end SeqPattern
