import Mathlib.Data.List.Forall2
import SeqPattern.Expression

namespace SeqPattern.Expression

variable {α : Type}

/-- Whether the second pattern differs from the first, at any depth, in nothing but the kinds of
repetitions and the order of options. -/
inductive Rearranged : Expression α → Expression α → Prop
  | element (c : ElementClass α) : Rearranged (element c) (element c)
  | sequence {es fs : List (Expression α)} (parts : List.Forall₂ Rearranged es fs) :
    Rearranged (sequence es) (sequence fs)
  | alternation {es fs gs : List (Expression α)} (options : List.Forall₂ Rearranged es fs)
    (order : fs.Perm gs) : Rearranged (alternation es) (alternation gs)
  | repetition {e f : Expression α} (child : Rearranged e f) (bounds : Bounds)
    (kind kind' : RepetitionKind) :
    Rearranged (repetition e bounds kind) (repetition f bounds kind')
  | lookAhead {e f : Expression α} (negative : Bool) (child : Rearranged e f) :
    Rearranged (lookAhead negative e) (lookAhead negative f)
  | lookBehind {e f : Expression α} (negative : Bool) (child : Rearranged e f) :
    Rearranged (lookBehind negative e) (lookBehind negative f)
  | anchor (a : Anchor) : Rearranged (anchor a) (anchor a)
  | foreign (c : Foreign α) : Rearranged (foreign c) (foreign c)

end SeqPattern.Expression
