import SeqPattern.Expression

namespace SeqPattern

def Anchor.text : Anchor → String
  | .start => "start"
  | .stop => "end"

/-- A repetition around a text. Equal bounds leave nothing to prefer, and the usual bounds have
names of their own. -/
def Bounds.text (b : Bounds) (kind : RepetitionKind) (child : String) : String :=
  let suffix := match kind with | .lazy => "_lazy" | .greedy => ""
  if b.min = b.max then s!"repeat({child}, {b.min})"
  else if b.max = maxSize then
    if b.min = 0 then s!"zero_or_more{suffix}({child})"
    else if b.min = 1 then s!"one_or_more{suffix}({child})"
    else s!"at_least{suffix}({child}, {b.min})"
  else if b.min = 0 ∧ b.max = 1 then s!"optional{suffix}({child})"
  else s!"repeat_range{suffix}({child}, {b.min}, {b.max})"

namespace Expression

variable {α : Type}

def isAlternation : Expression α → Bool
  | alternation _ => true
  | _ => false

mutual

/-- The text of a pattern. An alternation has parentheses of its own only inside another one. -/
def text [Shown α] : Expression α → String
  | element c => c.name
  | sequence es => "(" ++ ", ".intercalate (texts es) ++ ")"
  | alternation [] => "()"
  | alternation (e :: es) => " || ".intercalate (optionTexts (e :: es))
  | repetition e bounds kind => bounds.text kind e.text
  | lookAhead negative e => (if negative then "is_not_before(" else "is_before(") ++ e.text ++ ")"
  | lookBehind negative e => (if negative then "is_not_after(" else "is_after(") ++ e.text ++ ")"
  | anchor a => a.text
  | foreign c => c.name

def texts [Shown α] : List (Expression α) → List String
  | [] => []
  | e :: es => e.text :: texts es

def optionTexts [Shown α] : List (Expression α) → List String
  | [] => []
  | e :: es => (if e.isAlternation then "(" ++ e.text ++ ")" else e.text) :: optionTexts es

end

end Expression

end SeqPattern
