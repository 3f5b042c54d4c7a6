import SeqPattern.Expression.Text
import SeqPattern.Expression.Nodes

namespace SeqPattern

inductive Atom where
  | any
  | anchor (a : Anchor)
  | number (n : Int)
  deriving DecidableEq

/-- A word that says something of what stands behind it in parentheses. -/
inductive Head where
  | before (negative : Bool)
  | after (negative : Bool)
  | exactly
  | between (kind : RepetitionKind)
  | atLeast (kind : RepetitionKind)
  | zeroOrMore (kind : RepetitionKind)
  | oneOrMore (kind : RepetitionKind)
  | optional (kind : RepetitionKind)
  deriving DecidableEq

mutual

inductive Term where
  | atom (a : Atom)
  | not (t : Term)
  | listing (items : List Term)
  | group (parts : List Phrase)
  | call (h : Head) (child : Phrase) (counts : List Nat)

/-- The text of a pattern, taken apart into its options. Most texts have a single one. -/
inductive Phrase where
  | mk (first : Term) (more : List Term)

end

section Spelling

def Atom.chars : Atom → List Char
  | any => "any".toList
  | anchor a => a.text.toList
  | number n => (toString n).toList

def Head.name : Head → String
  | before negative => if negative then "is_not_before" else "is_before"
  | after negative => if negative then "is_not_after" else "is_after"
  | exactly => "repeat"
  | between kind => if kind = .lazy then "repeat_range_lazy" else "repeat_range"
  | atLeast kind => if kind = .lazy then "at_least_lazy" else "at_least"
  | zeroOrMore kind => if kind = .lazy then "zero_or_more_lazy" else "zero_or_more"
  | oneOrMore kind => if kind = .lazy then "one_or_more_lazy" else "one_or_more"
  | optional kind => if kind = .lazy then "optional_lazy" else "optional"

def separated (sep : List Char) : List (List Char) → List Char
  | [] => []
  | cs :: css => cs ++ css.flatMap (sep ++ ·)

def count (n : Nat) : List Char := (toString n).toList

def comma : List Char := [',', ' ']

def bar : List Char := [' ', '|', '|', ' ']

mutual

def Term.chars : Term → List Char
  | .atom a => a.chars
  | .not t => '!' :: t.chars
  | .listing ts => '[' :: (separated comma (termsChars ts) ++ [']'])
  | .group ps => '(' :: (separated comma (phrasesChars ps) ++ [')'])
  | .call h p ns =>
    h.name.toList ++ '(' :: (p.chars ++ (ns.map count).flatMap (comma ++ ·) ++ [')'])

def Phrase.chars : Phrase → List Char
  | .mk t ts => separated bar (t.chars :: termsChars ts)

def termsChars : List Term → List (List Char)
  | [] => []
  | t :: ts => t.chars :: termsChars ts

def phrasesChars : List Phrase → List (List Char)
  | [] => []
  | p :: ps => p.chars :: phrasesChars ps

end

end Spelling

namespace ElementClass

mutual

/-- Whether the name of the class tells which elements it accepts. -/
def isSpelledOut {α : Type} : ElementClass α → Bool
  | any | value _ => true
  | oneOf cs | noneOf cs => allSpelledOut cs
  | not c => c.isSpelledOut
  | predicate .. | probing .. => false

def allSpelledOut {α : Type} : List (ElementClass α) → Bool
  | [] => true
  | c :: cs => c.isSpelledOut && allSpelledOut cs

end

mutual

def term : ElementClass Int → Term
  | any => .atom .any
  | value a => .atom (.number a)
  | oneOf cs => .listing (terms cs)
  | noneOf cs => .not (.listing (terms cs))
  | not c => .not c.term
  | predicate .. | probing .. => .atom .any

def terms : List (ElementClass Int) → List Term
  | [] => []
  | c :: cs => c.term :: terms cs

end

end ElementClass

mutual

def Term.namedClass : Term → ElementClass Int
  | .atom (.number n) => .value n
  | .not t => .not t.namedClass
  | .listing ts => .oneOf (namedClasses ts)
  | .atom _ | .group _ | .call .. => .any

def namedClasses : List Term → List (ElementClass Int)
  | [] => []
  | t :: ts => t.namedClass :: namedClasses ts

end

/-- The head and the numbers that the text of a repetition has. -/
def Bounds.head (b : Bounds) (kind : RepetitionKind) : Head × List Nat :=
  if b.min = b.max then (.exactly, [b.min])
  else if b.max = maxSize then
    if b.min = 0 then (.zeroOrMore kind, [])
    else if b.min = 1 then (.oneOrMore kind, [])
    else (.atLeast kind, [b.min])
  else if b.min = 0 ∧ b.max = 1 then (.optional kind, [])
  else (.between kind, [b.min, b.max])

def Head.pattern {α : Type} : Head → List Nat → Expression α → Expression α
  | before negative, _, e => .lookAhead negative e
  | after negative, _, e => .lookBehind negative e
  | exactly, n :: _, e => e.times n
  | between kind, m :: n :: _, e => .repetition e { min := m, max := max m n } kind
  | atLeast kind, m :: _, e => e.atLeast m kind
  | zeroOrMore kind, _, e => e.zeroOrMore kind
  | oneOrMore kind, _, e => e.oneOrMore kind
  | optional kind, _, e => e.optional kind
  | _, _, e => e

mutual

def Term.pattern : Term → Expression Int
  | .atom (.anchor a) => .anchor a
  | .atom a => .element (Term.atom a).namedClass
  | .not t => .element (.not t.namedClass)
  | .listing ts => .element (.oneOf (namedClasses ts))
  | .group ps => .sequence (partPatterns ps)
  | .call h p ns => h.pattern ns p.pattern

def Phrase.pattern : Phrase → Expression Int
  | .mk t ts => if ts.isEmpty then t.pattern else .alternation (t.pattern :: optionPatterns ts)

def optionPatterns : List Term → List (Expression Int)
  | [] => []
  | t :: ts => t.pattern :: optionPatterns ts

def partPatterns : List Phrase → List (Expression Int)
  | [] => []
  | p :: ps => p.pattern :: partPatterns ps

end

def Phrase.first : Phrase → Term
  | .mk t _ => t

/-- A phrase as one option of another: in parentheses if it is an alternation itself. -/
def Phrase.option (p : Phrase) (isAlternation : Bool) : Term :=
  if isAlternation then .group [p] else p.first

namespace Expression

/-- Whether the text of the pattern tells all that there is to it. -/
def isSpelledOut {α : Type} (e : Expression α) : Bool :=
  e.everyNode fun d => match d with
    | element c => c.isSpelledOut
    | foreign _ => false
    | _ => true

mutual

def phrase : Expression Int → Phrase
  | element c => .mk c.term []
  | sequence es => .mk (.group (phrases es)) []
  | alternation [] => .mk (.group []) []
  | alternation (e :: es) => .mk (e.phrase.option e.isAlternation) (phraseOptions es)
  | repetition e bounds kind => .mk (.call (bounds.head kind).1 e.phrase (bounds.head kind).2) []
  | lookAhead negative e => .mk (.call (.before negative) e.phrase []) []
  | lookBehind negative e => .mk (.call (.after negative) e.phrase []) []
  | anchor a => .mk (.atom (.anchor a)) []
  | foreign _ => .mk (.atom .any) []

def phrases : List (Expression Int) → List Phrase
  | [] => []
  | e :: es => e.phrase :: phrases es

def phraseOptions : List (Expression Int) → List Term
  | [] => []
  | e :: es => e.phrase.option e.isAlternation :: phraseOptions es

end

end Expression

end SeqPattern
