import StyleFlags.Literal

/-!
# Names of flags

A flag is a custom property, and its name spells the condition it stands for.
Operators become glyphs, a space becomes `␣`, strings stand between `´`. Every
other character that cannot be part of a name is escaped by a backslash, and so
is a character of the text that is itself a glyph, so that two texts never get
the same name.
-/

namespace StyleFlags.Name

/-- The glyph of a negation. -/
def negation : Char := '¬'

/-- The glyph on either side of a string. -/
def quote : Char := '´'

/-- The glyph on either side of a group. -/
def bar : Char := '∣'

/-- The glyph of a space. -/
def blank : Char := '␣'

/-- The characters that have a meaning in a name. -/
def glyphs : List Char := [negation, quote, bar, blank, '≡', '≠', '⋖', '⋗', '⋜', '⋝', '⋁', '∧']

/-- The glyph of two characters that are an operator together. -/
def pairGlyph? : Char → Char → Option Char
  | '|', '|' => some '⋁'
  | '&', '&' => some '∧'
  | '=', '=' => some '≡'
  | '!', '=' => some '≠'
  | '<', '=' => some '⋜'
  | '>', '=' => some '⋝'
  | _, _ => none

/-- The glyph of a character that is an operator by itself. -/
def charGlyph? : Char → Option Char
  | '!' => some negation
  | '<' => some '⋖'
  | '>' => some '⋗'
  | _ => none

/-- Whether a character is a control character. -/
def isControl (c : Char) : Bool := c.toNat < 0x20 || (0x7f ≤ c.toNat && c.toNat ≤ 0x9f)

/-- The spelling of one character. -/
def escapeChar (c : Char) : List Char :=
  if c = ' ' then [blank]
  else if c.isAlphanum || c = '-' || c = '_' then [c]
  else if isControl c then '\\' :: Nat.toDigits 16 c.toNat ++ [' ']
  else if 0x80 ≤ c.toNat && !glyphs.contains c then [c]
  else
    match charGlyph? c with
    | some glyph => [glyph]
    | none => ['\\', c]

/-- The spelling of a text. Of two characters that are an operator together, one glyph is made. -/
def escapeChars : List Char → List Char
  | [] => []
  | [c] => escapeChar c
  | c :: d :: rest =>
    match pairGlyph? c d with
    | some glyph => glyph :: escapeChars rest
    | none => escapeChar c ++ escapeChars (d :: rest)

def escape (text : String) : String := String.ofList (escapeChars text.toList)

/-- The spelling of a property, negated or not. -/
def property (name : String) (negated : Bool) : String :=
  if negated then negation.toString ++ escape name else escape name

/-- The spelling of a literal. -/
def literal (l : Literal) : String :=
  if l.kind = .string then quote.toString ++ escape l.text ++ quote.toString else escape l.text

end StyleFlags.Name
