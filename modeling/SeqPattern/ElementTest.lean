namespace SeqPattern.ElementTest

/-! Tests of characters, of numbers and of words, by which programs choose predicates. No theorem is
about them. -/

def isHex (c : Char) : Bool :=
  c.isDigit || 'a' ≤ c && c ≤ 'f' || 'A' ≤ c && c ≤ 'F'

def isBlank (c : Char) : Bool := c == ' ' || c == '\t' || c == '\n' || c == '\r'

def isNonAscii (c : Char) : Bool := 127 < c.toNat

def isEven (n : Int) : Bool := n % 2 == 0

def isOdd (n : Int) : Bool := n % 2 != 0

def isNumeral (s : String) : Bool := !s.toList.isEmpty && s.toList.all Char.isDigit

def isWord (s : String) : Bool := !s.toList.isEmpty && s.toList.all Char.isAlpha

end SeqPattern.ElementTest
