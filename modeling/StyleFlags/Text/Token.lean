import StyleFlags.Literal
import StyleFlags.Text.Cursor

/-!
# Tokens

Reads the tokens of a text one after another: identifiers, numerals, strings,
reserved words and operators. Whatever is none of these is passed over. A string
keeps its text without the quotes. Reading fails at a numeral with a misplaced
point, at a string that is not closed, and at half of `&&` or `||`; the cursor
then stays at the token that failed.
-/

namespace StyleFlags

/-- The kinds of tokens. -/
inductive TokenKind where
  | identifier
  | literal
  | operator (op : Operator)
deriving DecidableEq, Repr

def TokenKind.text : TokenKind → String
  | identifier => "Identifier"
  | literal => "Literal"
  | operator op => op.symbol

/-- A token: its text without quotes, and the byte offset of its first character. -/
structure Token where
  kind : TokenKind
  text : String
  quoted : Bool
  offset : Nat
deriving DecidableEq, Repr

/-- A token as it is written, a string between single quotes. -/
def Token.spelling (t : Token) : String := if t.quoted then "'" ++ t.text ++ "'" else t.text

/-- Why no token could be read, and where. -/
structure Fault where
  cause : LexCause
  place : Cursor
deriving DecidableEq, Repr

def Fault.error (f : Fault) : CompileError := .lex f.place.position f.cause

namespace Cursor

/-- Moves over the characters of a class. -/
def skip (p : Char → Bool) (c : Cursor) : Cursor := c.advance (c.ahead.takeWhile p).length

/-- The number of characters from an opening quote, which is at the cursor, to the one that closes
it, both counted. -/
def quotedLength? (c : Cursor) : Option Nat :=
  match c.ahead with
  | [] => none
  | quote :: tail =>
    let inside := tail.takeWhile (· != quote)
    if inside.length < tail.length then some (inside.length + 2) else none

theorem two_le_quotedLength {c : Cursor} {n : Nat} (found : c.quotedLength? = some n) : 2 ≤ n := by
  unfold quotedLength? at found
  split at found
  · cases found
  · simp only at found
    split at found
    · cases found
      omega
    · cases found

/-- A word is a reserved literal or an identifier. -/
def wordToken (word : List Char) (offset : Nat) : Token :=
  let text := String.ofList word
  ⟨if (LiteralKind.ofWord? text).isSome then .literal else .identifier, text, false, offset⟩

/-- The token that begins with the character at the cursor, and its length. -/
def lexeme (c : Cursor) (first : Char) : Except Fault (Token × Nat) :=
  if Text.isNameStart first then
    let word := c.ahead.takeWhile Text.isWord
    .ok (wordToken word c.position, word.length)
  else if first.isDigit then
    let numeral := c.ahead.takeWhile fun x => x.isDigit || x == '.'
    if Literal.isNumeral numeral then
      .ok (⟨.literal, String.ofList numeral, false, c.position⟩, numeral.length)
    else .error ⟨.malformedNumber (String.ofList numeral), c⟩
  else if Text.isQuote first then
    match c.quotedLength? with
    | some n => .ok (⟨.literal, String.ofList ((c.ahead.take (n - 1)).drop 1), true, c.position⟩, n)
    | none => .error ⟨.unterminatedString, c⟩
  else
    match Operator.atStart? c.ahead with
    | some op => .ok (⟨.operator op, op.symbol, false, c.position⟩, op.symbol.length)
    | none => .error ⟨.unexpected first, c⟩

/-- Reads the next token, if there is one, and moves over it. -/
def next (c : Cursor) : Except Fault (Option Token × Cursor) :=
  let here := c.skip Text.isIgnored
  match here.ahead with
  | [] => .ok (none, here)
  | first :: _ =>
    match here.lexeme first with
    | .ok (token, n) => .ok (some token, here.advance n)
    | .error fault => .error fault

theorem size_skip_le (p : Char → Bool) (c : Cursor) : (c.skip p).size ≤ c.size := by
  simp [skip]

theorem one_le_symbol_length (op : Operator) : 1 ≤ op.symbol.length := by
  cases op with
  | binary op => rcases op with op | op <;> cases op <;> decide
  | _ => decide

theorem one_le_length_takeWhile {p : Char → Bool} {first : Char} {rest : List Char}
    (holds : p first = true) : 1 ≤ ((first :: rest).takeWhile p).length := by
  simp [holds]

/-- A token has at least one character. -/
theorem one_le_lexeme {c : Cursor} {first : Char} {rest : List Char} {token : Token} {n : Nat}
    (ahead : c.ahead = first :: rest) (read : c.lexeme first = .ok (token, n)) : 1 ≤ n := by
  unfold lexeme at read
  split at read
  · next isName =>
    cases read
    rw [ahead]
    exact one_le_length_takeWhile (by simp [Text.isWord, isName])
  · split at read
    · next isDigit =>
      simp only at read
      split at read
      · cases read
        rw [ahead]
        exact one_le_length_takeWhile (by simp [isDigit])
      · cases read
    · split at read
      · split at read
        · next found =>
          cases read
          have := two_le_quotedLength found
          omega
        · cases read
      · split at read
        · cases read
          exact one_le_symbol_length _
        · cases read

/-- Reading a token moves the cursor. -/
theorem next_shorter {c d : Cursor} {token : Token} (read : c.next = .ok (some token, d)) :
    d.size < c.size := by
  unfold next at read
  simp only at read
  split at read
  · cases read
  · next first rest ahead =>
    split at read
    · next found =>
      cases read
      have positive := one_le_lexeme ahead found
      have skipped := size_skip_le Text.isIgnored c
      have left : (c.skip Text.isIgnored).size = rest.length + 1 := by simp [size, ahead]
      rw [size_advance]
      omega
    · cases read

/-- The next token and the place after it. -/
def peek (c : Cursor) : Except CompileError (Option (Token × c.Shorter)) :=
  match read : c.next with
  | .ok (some token, d) => .ok (some (token, ⟨d, next_shorter read⟩))
  | .ok (none, _) => .ok none
  | .error fault => .error fault.error

/-- The place after a token of this kind, which has to come next. -/
def expect (c : Cursor) (kind : TokenKind) : Except CompileError (Token × c.Shorter) := do
  match ← c.peek with
  | some (token, d) =>
    if token.kind = kind then return (token, d)
    else throw (.unexpectedToken token.spelling kind.text)
  | none => throw (.unexpectedEnd kind.text)

/-- Succeeds if no token is left. -/
def finish (c : Cursor) : Except CompileError Unit := do
  match ← c.peek with
  | some (token, _) => throw (.unexpectedToken token.spelling "end of input")
  | none => return

end Cursor

end StyleFlags
