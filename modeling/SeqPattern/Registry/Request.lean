import SeqPattern.Registry

namespace SeqPattern.Registry

variable {m : Type → Type} {α : Type}

inductive Request (m : Type → Type) (α : Type) where
  | register (name : String) (make : m (Expression α))
  | contains (name : String)
  | names
  | get (name : String)
  | getSequence (names : List String)
  | getAlternation (names : List String)

inductive Reply (α : Type) where
  | done
  | verdict (b : Bool)
  | names (names : List String)
  | built (result : Except Failure (Expression α))

variable [Monad m]

/-- Serves one request, with the effects of the constructors that it runs. -/
def serve (r : Registry m α) : Request m α → m (Reply α × Registry m α)
  | .register name make => return (.done, r.register name make)
  | .contains name => return (.verdict (r.contains name), r)
  | .names => return (.names r.names, r)
  | .get name => return (.built (← (r.get name).run), r)
  | .getSequence names => return (.built (← (r.getSequence names).run), r)
  | .getAlternation names => return (.built (← (r.getAlternation names).run), r)

def serveAll : Registry m α → List (Request m α) → m (List (Reply α) × Registry m α)
  | r, [] => return ([], r)
  | r, request :: requests => do
    let (reply, r) ← r.serve request
    let (replies, r) ← serveAll r requests
    return (reply :: replies, r)

end SeqPattern.Registry
