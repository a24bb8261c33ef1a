import StyleFlags.Condition.Read
import StyleFlags.Expression.Basic
import StyleFlags.Text.Span

/-!
# Reading structured values

A value is a group, an array, an object, or a word or literal with members and
calls after it. The comma between the items of a list may be left out, and one
may stand after the last item.
-/

namespace StyleFlags.Expression

/-- Moves over a comma, if one comes next. -/
def skipComma (c : Cursor) : Except CompileError c.NotLonger := do
  match ← c.peek with
  | some (found, ⟨d, hd⟩) =>
    if found.kind = .operator .comma then return ⟨d, Nat.le_of_lt hd⟩
    else return .self c
  | none => return .self c

/-- Reads an identifier or a literal. -/
def readPrimary (c : Cursor) : Except CompileError (Expression × c.Shorter) := do
  match ← c.peek with
  | some (found, d) =>
    match found.kind with
    | .identifier => return (identifier found.text, d)
    | .literal =>
      let l ← Literal.read found.text found.quoted found.offset
      return (literal l, d)
    | .operator _ => throw (.unexpectedToken found.spelling Condition.operandExpected)
  | none => throw (.unexpectedEnd Condition.operandExpected)

/-- Reads raw text up to the parenthesis that closes it, and moves over that. -/
def readRaw (c : Cursor) : Except CompileError (String × c.NotLonger) :=
  match read : c.piece [")"] [] with
  | .ok (raw, .stop _, d) =>
    .ok (String.ofList raw, ⟨d.advance 1, by
      have := Cursor.size_piece read
      rw [Cursor.size_advance]
      omega⟩)
  | .ok _ => .error (.unexpectedEnd ")")
  | .error fault => .error fault.error

mutual

/-- Reads a structured value. -/
def readValue (c : Cursor) : Except CompileError (Expression × c.Shorter) := do
  match ← c.peek with
  | some (⟨.operator .openParen, _, _, _⟩, ⟨d, hd⟩) =>
    let (inner, ⟨e, he⟩) ← readValue d
    let (_, ⟨f, hf⟩) ← e.expect (.operator .closeParen)
    return (inner, ⟨f, by omega⟩)
  | some (⟨.operator .openBrace, _, _, _⟩, ⟨d, hd⟩) =>
    let (entries, ⟨e, he⟩) ← readEntries d
    return (object entries, ⟨e, by omega⟩)
  | some (⟨.operator .openBracket, _, _, _⟩, ⟨d, hd⟩) =>
    let (items, ⟨e, he⟩) ← readItems .closeBracket d
    return (array items, ⟨e, by omega⟩)
  | _ =>
    let (first, ⟨d, hd⟩) ← readPrimary c
    let (whole, ⟨e, he⟩) ← readChain first d
    return (whole, ⟨e, by omega⟩)
termination_by 3 * c.size + 1

/-- Reads values up to the symbol that closes their list. -/
def readItems (closing : Operator) (c : Cursor) :
    Except CompileError (List Expression × c.Shorter) := do
  match ← c.peek with
  | none => throw (.unexpectedEnd closing.symbol)
  | some (found, ⟨d, hd⟩) =>
    if found.kind = .operator closing then return ([], ⟨d, hd⟩)
    else
      let (item, ⟨e, he⟩) ← readValue c
      let ⟨f, hf⟩ ← skipComma e
      let (rest, ⟨g, hg⟩) ← readItems closing f
      return (item :: rest, ⟨g, by omega⟩)
termination_by 3 * c.size + 2

/-- Reads keys with their values up to a closing brace. -/
def readEntries (c : Cursor) : Except CompileError (List (String × Expression) × c.Shorter) := do
  match ← c.peek with
  | some (⟨.operator .closeBrace, _, _, _⟩, ⟨d, hd⟩) => return ([], ⟨d, hd⟩)
  | _ =>
    let (key, ⟨d, hd⟩) ← c.expect .identifier
    let (_, ⟨e, he⟩) ← d.expect (.operator .colon)
    let (value, ⟨f, hf⟩) ← readValue e
    let ⟨g, hg⟩ ← skipComma f
    let (rest, ⟨h, hh⟩) ← readEntries g
    return ((key.text, value) :: rest, ⟨h, by omega⟩)
termination_by 3 * c.size + 2

/-- Reads the members and calls after a value. -/
def readChain (value : Expression) (c : Cursor) :
    Except CompileError (Expression × c.NotLonger) := do
  match ← c.peek with
  | some (⟨.operator .dot, _, _, _⟩, ⟨d, hd⟩) =>
    let (key, ⟨e, he⟩) ← d.expect .identifier
    let (whole, ⟨f, hf⟩) ← readChain (member value (identifier key.text) false) e
    return (whole, ⟨f, by omega⟩)
  | some (⟨.operator .openBracket, _, _, _⟩, ⟨d, hd⟩) =>
    let (key, ⟨e, he⟩) ← readValue d
    let (_, ⟨f, hf⟩) ← e.expect (.operator .closeBracket)
    let (whole, ⟨g, hg⟩) ← readChain (member value key true) f
    return (whole, ⟨g, by omega⟩)
  | some (⟨.operator .openParen, _, _, _⟩, ⟨d, hd⟩) =>
    match value with
    | identifier "token" =>
      let (raw, ⟨e, he⟩) ← readRaw d
      let (whole, ⟨f, hf⟩) ← readChain (token raw) e
      return (whole, ⟨f, by omega⟩)
    | _ =>
      let (arguments, ⟨e, he⟩) ← readItems .closeParen d
      let (whole, ⟨f, hf⟩) ← readChain (call value arguments) e
      return (whole, ⟨f, by omega⟩)
  | _ => return (value, ⟨c, Nat.le_refl _⟩)
termination_by 3 * c.size

end

/-- Reads a whole text as a structured value. -/
def read (text : String) : Except CompileError Expression := do
  let (value, ⟨d, _⟩) ← readValue (Cursor.start text)
  d.finish
  return value

end StyleFlags.Expression
