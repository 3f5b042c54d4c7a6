import SeqPattern.Expression
import Std.Data.TreeMap

namespace SeqPattern

/-- Named constructors of patterns. A constructor is run anew for every pattern that is asked
for, with whatever effects it has. -/
structure Registry (m : Type → Type) (α : Type) where
  constructors : Std.TreeMap String (m (Expression α)) := ∅

namespace Registry

variable {m : Type → Type} {α : Type}

def register (r : Registry m α) (name : String) (make : m (Expression α)) : Registry m α :=
  ⟨r.constructors.insert name make⟩

def contains (r : Registry m α) (name : String) : Bool := r.constructors.contains name

def names (r : Registry m α) : List String := r.constructors.keys

variable [Monad m]

def get (r : Registry m α) (name : String) : ExceptT Failure m (Expression α) :=
  match r.constructors[name]? with
  | some make => ExceptT.lift make
  | none => throw (.unknownName name)

/-- The patterns of the names in order, up to the first name that is not registered. -/
def getEach (r : Registry m α) : List String → ExceptT Failure m (List (Expression α))
  | [] => return []
  | name :: names => do
    let e ← r.get name
    return e :: (← r.getEach names)

def getSequence (r : Registry m α) (names : List String) : ExceptT Failure m (Expression α) := do
  return .sequence (← r.getEach names)

def getAlternation (r : Registry m α) (names : List String) : ExceptT Failure m (Expression α) := do
  return .alternation (← r.getEach names)

end Registry

end SeqPattern
