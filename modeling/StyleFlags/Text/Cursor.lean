/-!
# Cursors

A place in a text, with what lies behind it and what lies ahead. Reading moves
characters from ahead to behind, so the text itself is never lost:
`Cursor.source` is the same after every step. Positions count the bytes of the
characters behind, in UTF-8.
-/

namespace StyleFlags

/-- A place in a text. What lies behind is listed with the nearest character first. -/
structure Cursor where
  behind : List Char
  ahead : List Char
deriving DecidableEq, Repr

namespace Cursor

/-- The place before the first character. -/
def start (text : String) : Cursor := ⟨[], text.toList⟩

/-- The characters of the whole text. -/
def source (c : Cursor) : List Char := c.behind.reverse ++ c.ahead

/-- The number of bytes behind. -/
def position (c : Cursor) : Nat := c.behind.foldl (fun n char => n + char.utf8Size) 0

/-- The number of characters ahead. -/
def size (c : Cursor) : Nat := c.ahead.length

/-- Whether nothing lies ahead. -/
def atEnd (c : Cursor) : Bool := c.ahead.isEmpty

/-- The text that lies ahead. -/
def remaining (c : Cursor) : String := String.ofList c.ahead

/-- Moves over `n` characters, or over all that are left. -/
def advance (c : Cursor) (n : Nat) : Cursor :=
  ⟨(c.ahead.take n).reverse ++ c.behind, c.ahead.drop n⟩

@[simp] theorem size_advance (c : Cursor) (n : Nat) : (c.advance n).size = c.size - n := by
  simp [advance, size]

@[simp] theorem source_advance (c : Cursor) (n : Nat) : (c.advance n).source = c.source := by
  simp [advance, source]

@[simp] theorem source_start (text : String) : (start text).source = text.toList := by
  simp [start, source]

/-- A place with less ahead than `c`. -/
abbrev Shorter (c : Cursor) := { d : Cursor // d.size < c.size }

/-- A place with no more ahead than `c`. -/
abbrev NotLonger (c : Cursor) := { d : Cursor // d.size ≤ c.size }

/-- The cursor itself. -/
def NotLonger.self (c : Cursor) : c.NotLonger := ⟨c, Nat.le_refl _⟩

end Cursor

/-! ## Classes of characters -/

namespace Text

/-- Whether a character can begin an identifier. -/
def isNameStart (c : Char) : Bool := c.isAlpha || c == '$' || c == '_'

/-- Whether a character can go on in an identifier. -/
def isWord (c : Char) : Bool := isNameStart c || c.isDigit

/-- Whether a character opens and closes a string. -/
def isQuote (c : Char) : Bool := c == '"' || c == '\''

/-- Whether a character begins an operator. -/
def isOperator (c : Char) : Bool := "|&=!<>-()\x7b\x7d[]:,;.".toList.contains c

/-- Whether a character stands between tokens only. -/
def isIgnored (c : Char) : Bool := !isWord c && !isQuote c && !isOperator c

/-- Whether a character can stand between a keyword and its parenthesis. -/
def isGap (c : Char) : Bool := c == ' ' || c == '\t' || c == '\n' || c == '\x0c' || c == '\r'

/-- Whether a character is white space. -/
def isBlank (c : Char) : Bool :=
  let n := c.toNat
  (0x9 ≤ n && n ≤ 0xd) || n == 0x20 || n == 0x85 || n == 0xa0 || n == 0x1680 ||
    (0x2000 ≤ n && n ≤ 0x200a) || n == 0x2028 || n == 0x2029 || n == 0x202f || n == 0x205f ||
    n == 0x3000

/-- Drops the white space at both ends. -/
def trim (text : List Char) : List Char :=
  ((text.dropWhile isBlank).reverse.dropWhile isBlank).reverse

end Text

end StyleFlags
