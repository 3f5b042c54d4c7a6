namespace SeqPattern.Text

/-- Ranges of code points that do not show as they are: controls, spaces other than U+0020,
separators, invisible format characters, combining marks, surrogates and private use. The list is
not complete: of the combining marks it has only the blocks in general use, and of the code points
that stand for no character only those from U+E0000 on. -/
def hiddenRanges : List (Nat × Nat) :=
  [(0x0, 0x1f), (0x7f, 0xa0), (0xad, 0xad), (0x300, 0x36f), (0x483, 0x489), (0x591, 0x5bd),
   (0x600, 0x605), (0x610, 0x61a), (0x61c, 0x61c), (0x64b, 0x65f), (0x6dd, 0x6dd),
   (0x70f, 0x70f), (0x1680, 0x1680), (0x180b, 0x180e), (0x1ab0, 0x1aff), (0x1dc0, 0x1dff),
   (0x2000, 0x200f), (0x2028, 0x202f), (0x205f, 0x206f), (0x20d0, 0x20f0), (0x3000, 0x3000),
   (0x302a, 0x302d), (0x3099, 0x309a), (0xd800, 0xf8ff), (0xfe00, 0xfe0f), (0xfe20, 0xfe2f),
   (0xfeff, 0xfeff), (0xfff0, 0xfffb), (0xe0000, 0x10ffff)]

def isHidden (c : Char) : Bool := hiddenRanges.any fun r => r.1 ≤ c.toNat && c.toNat ≤ r.2

/-- A character between quotes: the usual short escapes, a backslash before the quote itself,
and the code point of a character that does not show. -/
def escape (quote c : Char) : List Char :=
  if c = '\x00' then ['\\', '0']
  else if c = '\t' then ['\\', 't']
  else if c = '\n' then ['\\', 'n']
  else if c = '\r' then ['\\', 'r']
  else if c = '\\' then ['\\', '\\']
  else if c = quote then ['\\', quote]
  else if isHidden c then ['\\', 'u', '\x7b'] ++ Nat.toDigits 16 c.toNat ++ ['\x7d']
  else [c]

def quoted (quote : Char) (cs : List Char) : String :=
  String.ofList (quote :: cs.flatMap (escape quote) ++ [quote])

def listing (items : List String) : String := "[" ++ ", ".intercalate items ++ "]"

end SeqPattern.Text
