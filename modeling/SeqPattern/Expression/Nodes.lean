import SeqPattern.Expression

namespace SeqPattern

variable {α : Type}

def ElementClass.isProbing : ElementClass α → Bool
  | .probing .. => true
  | _ => false

namespace Expression

mutual

def everyNode (p : Expression α → Bool) : Expression α → Bool
  | element c => p (element c)
  | sequence es => p (sequence es) && everyNodeOf p es
  | alternation es => p (alternation es) && everyNodeOf p es
  | repetition e bounds kind => p (repetition e bounds kind) && e.everyNode p
  | lookAhead negative e => p (lookAhead negative e) && e.everyNode p
  | lookBehind negative e => p (lookBehind negative e) && e.everyNode p
  | anchor a => p (anchor a)
  | foreign c => p (foreign c)

def everyNodeOf (p : Expression α → Bool) : List (Expression α) → Bool
  | [] => true
  | e :: es => e.everyNode p && everyNodeOf p es

end

def inside : Expression α → List (Expression α)
  | sequence es | alternation es => es
  | repetition e _ _ | lookAhead _ e | lookBehind _ e => [e]
  | element _ | anchor _ | foreign _ => []

def isLookAhead : Expression α → Bool
  | lookAhead .. => true
  | _ => false

def isLookBehind : Expression α → Bool
  | lookBehind .. => true
  | _ => false

def isStart : Expression α → Bool
  | anchor .start => true
  | _ => false

def isForeign : Expression α → Bool
  | foreign _ => true
  | _ => false

/-- Whether the pattern is the other one or inside it, however deep. Only nodes that pass are
entered. -/
inductive Within (enters : Expression α → Bool) (f : Expression α) : Expression α → Prop
  | self : Within enters f f
  | inside {d e : Expression α} (he : enters e = true) (hd : d ∈ e.inside)
    (hf : Within enters f d) : Within enters f e

def asksItself : Expression α → Bool
  | element c => c.isProbing
  | foreign _ => true
  | _ => false

def enumeratesItself : Expression α → Bool
  | foreign c => c.candidates.isSome
  | _ => false

/-- Whether the pattern is built without foreign expressions and without classes that decide
about positions by themselves. -/
def isPlain (e : Expression α) : Bool := e.everyNode fun d => !d.asksItself

/-- Whether what foreign expressions and classes of the pattern decide by themselves is only what
is tested, one outcome for each position. -/
def isTested (e : Expression α) : Bool := e.everyNode fun d => !d.enumeratesItself

def isLookBehindFree (e : Expression α) : Bool := e.everyNode fun d => !d.isLookBehind

def isStartFree (e : Expression α) : Bool := e.everyNode fun d => !d.isStart

def isAssertionFree (e : Expression α) : Bool :=
  e.everyNode fun d => !d.isLookAhead && !d.isLookBehind

end Expression

end SeqPattern
