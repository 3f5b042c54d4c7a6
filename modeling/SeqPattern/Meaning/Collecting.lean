import SeqPattern.Meaning.Supply
import SeqPattern.MatchList.Request

namespace SeqPattern

variable {α : Type}

def Supply.slice (u : Supply α) (index count : Nat) : List α :=
  (List.range' index count).filterMap u.get?

namespace MatchList

def Request.added? : Request → Option Match
  | add m => some m
  | _ => none

/-- The matches that are added before the collection is locked. -/
def admitted (requests : List Request) : List Match :=
  (requests.takeWhile (· ≠ .lock)).filterMap Request.added?

/-- What a collection has come to after the requests: to its matches those have been put that were
added while it was open. -/
def after (l : MatchList) (requests : List Request) : MatchList where
  content := l.content ++ if l.locked then [] else admitted requests
  locked := l.locked || requests.contains .lock

def answer (u : Supply α) (l : MatchList) : Request → Reply α
  | .add _ => if l.locked then .failed .collectionLocked else .done
  | .lock => .done
  | .remove i => .failed (.matchRemoved i)
  | .get i => .found l.toList[i]?
  | .entry i =>
    match l.toList[i]? with
    | some m => .found (some m)
    | none => .failed (.noMatchAt i l.toList.length)
  | .list => .listed l.toList
  | .items => .elements (l.toList.flatMap fun m => u.slice m.index m.length)

end MatchList

end SeqPattern
