import SeqPattern.Source.Probe

namespace SeqPattern

/-- All the items that a feed gives before it first reports the end, if it ever does. -/
inductive Supply (α : Type) where
  | finite (xs : Array α)
  | endless (us : Nat → α)

namespace Supply

variable {α : Type}

/-- Whether these are the items of the feed. What it would give after the end does not matter. -/
def Of (feed : Nat → Option α) : Supply α → Prop
  | finite xs => ∀ i, i ≤ xs.size → feed i = xs[i]?
  | endless us => ∀ i, feed i = some (us i)

def get? : Supply α → Nat → Option α
  | finite xs, i => xs[i]?
  | endless us, i => some (us i)

def countUpTo : Supply α → Nat → Nat
  | finite xs, n => min xs.size n
  | endless _, n => n

/-- What a sequence of these items answers. An endless one has every element, and no end. -/
def answer : Supply α → Probe → Finding α
  | finite xs, p => p.ask.eval xs
  | endless us, .get i => .element (.ok (us i))
  | endless us, .get? i => .element? (some (us i))
  | endless _, .atStart i => .verdict (i == 0)
  | endless _, .atEnd _ => .verdict false
  | endless _, .inRange _ => .verdict true
  | endless _, .justPast _ => .verdict false
  | endless _, .window index count =>
    .window (if maxSize < index + count then .error (.tooLong .count index count)
      else .ok ⟨index, count⟩)

/-- How many items have to be known for the answer, when some are known already. A window is not
looked at further when its first index or its size is refused. -/
def demand (u : Supply α) (known : Nat) : Probe → Nat
  | .get i | .get? i | .atEnd i | .inRange i => i + 1
  | .atStart _ => 0
  | .justPast i => if i ≤ known then 0 else i + 1
  | .window index count =>
    if u.countUpTo index = index ∧ index + count ≤ maxSize then index + count + 1 else index + 1

end Supply

end SeqPattern
