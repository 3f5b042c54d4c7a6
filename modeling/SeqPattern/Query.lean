import SeqPattern.Failure

namespace SeqPattern

/-- A computation on a sequence that learns about it only by asking. Reading a position is
answered by the element there or, past the end, by the number of elements. -/
inductive Query (α β : Type) where
  | answer (b : β)
  | read (i : Nat) (next : Except Nat α → Query α β)
  | justPast (i : Nat) (next : Bool → Query α β)

namespace Query

variable {α β γ : Type}

def bind : Query α β → (β → Query α γ) → Query α γ
  | answer b, f => f b
  | read i next, f => read i fun r => (next r).bind f
  | justPast i next, f => justPast i fun b => (next b).bind f

instance : Monad (Query α) where
  pure := answer
  bind := bind

theorem bind_answer (q : Query α β) : q.bind answer = q := by
  induction q with
  | answer b => rfl
  | read i next ih => simp only [bind, ih]
  | justPast i next ih => simp only [bind, ih]

theorem bind_assoc {δ : Type} (q : Query α β) (f : β → Query α γ) (g : γ → Query α δ) :
    (q.bind f).bind g = q.bind fun b => (f b).bind g := by
  induction q with
  | answer b => rfl
  | read i next ih => simp only [bind, ih]
  | justPast i next ih => simp only [bind, ih]

instance : LawfulMonad (Query α) :=
  LawfulMonad.mk' _ bind_answer (fun _ _ => rfl) bind_assoc

def eval (xs : Array α) : Query α β → β
  | answer b => b
  | read i next => eval xs (next (match xs[i]? with | some a => .ok a | none => .error xs.size))
  | justPast i next => eval xs (next (i == xs.size + 1))

@[simp]
theorem eval_pure (xs : Array α) (b : β) : eval xs (pure b : Query α β) = b := rfl

@[simp]
theorem eval_bind (xs : Array α) (q : Query α β) (f : β → Query α γ) :
    eval xs (q >>= f) = eval xs (f (eval xs q)) := by
  change eval xs (q.bind f) = _
  induction q with
  | answer b => rfl
  | read i next ih => exact ih _
  | justPast i next ih => exact ih _

@[simp]
theorem eval_map (xs : Array α) (f : β → γ) (q : Query α β) :
    eval xs (f <$> q) = f (eval xs q) := by
  rw [map_eq_pure_bind, eval_bind, eval_pure]

def readAt (i : Nat) : Query α (Except Nat α) := read i answer

def get? (i : Nat) : Query α (Option α) := do return (← readAt i).toOption

def get (i : Nat) : Query α (Except Failure α) := do
  match ← readAt i with
  | .ok a => return .ok a
  | .error n => return .error (.noElement i n)

def atEnd (i : Nat) : Query α Bool := do
  match ← readAt i with
  | .ok _ => return false
  | .error n => return i == n

def inRange (i : Nat) : Query α Bool := do
  match ← readAt i with
  | .ok _ => return true
  | .error n => return i ≤ n

/-- Whether the index is one past the end. -/
def isJustPast (i : Nat) : Query α Bool := justPast i answer

/-- Checks that a range lies in the sequence: its first index, then its size, then its end. -/
def checkRange (extent : Extent) (index size : Nat) : Query α (Except Failure Unit) := do
  if !(← inRange index) then return .error (.indexPastEnd index)
  if index + size > maxSize then return .error (.tooLong extent index size)
  if !(← inRange (index + size)) then return .error (.endPastEnd extent (index + size))
  return .ok ()

end Query

def isAtStart (i : Nat) : Bool := i == 0

/-- A computation that asks questions and may run out of the work it is allowed. -/
abbrev Search (α : Type) := OptionT (Query α)

namespace Search

variable {α β γ : Type}

def ask (q : Query α β) : Search α β := OptionT.lift q

def eval (xs : Array α) (s : Search α β) : Option β := Query.eval xs s.run

@[simp]
theorem eval_pure (xs : Array α) (b : β) : eval xs (pure b) = some b := rfl

@[simp]
theorem eval_failure (xs : Array α) : eval xs (failure : Search α β) = none := rfl

@[simp]
theorem eval_ask (xs : Array α) (q : Query α β) : eval xs (ask q) = some (q.eval xs) := by
  simp [eval, ask]

@[simp]
theorem eval_bind (xs : Array α) (s : Search α β) (f : β → Search α γ) :
    eval xs (s >>= f) = (eval xs s).bind fun b => eval xs (f b) := by
  simp only [eval, OptionT.run_bind, Option.elimM, Query.eval_bind]
  cases Query.eval xs s.run <;> rfl

end Search

end SeqPattern
