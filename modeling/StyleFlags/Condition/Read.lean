import StyleFlags.Condition.Build
import StyleFlags.Text.Token

/-!
# Reading conditions

The grammar of conditions, by precedence: a condition is an operand with infix
operators after it, each of which takes on its right whatever binds tighter
than itself. Conditions are built as they are read, so an operator that does
not fit its operands is an error of reading.
-/

namespace StyleFlags.Condition

/-- What has to come where a condition begins. -/
def operandExpected : String := "identifier or literal"

mutual

/-- Reads a condition whose infix operators all bind tighter than `least`. -/
def readAt (least : Nat) (c : Cursor) : Except CompileError (Condition × c.Shorter) := do
  let (left, ⟨d, hd⟩) ← readOperand c
  let (whole, ⟨e, he⟩) ← readInfix least left d
  return (whole, ⟨e, by omega⟩)
termination_by 2 * c.size + 1

/-- Reads a property, a literal, a group, or an operand after a negation or a minus. -/
def readOperand (c : Cursor) : Except CompileError (Condition × c.Shorter) := do
  match ← c.peek with
  | none => throw (.unexpectedEnd operandExpected)
  | some (token, ⟨d, hd⟩) =>
    match token.kind with
    | .identifier => return (property false token.text, ⟨d, hd⟩)
    | .literal =>
      let l ← Literal.read token.text token.quoted token.offset
      return (literal false l, ⟨d, hd⟩)
    | .operator .openParen =>
      let (inner, ⟨e, he⟩) ← readAt 0 d
      let (_, ⟨f, hf⟩) ← e.expect (.operator .closeParen)
      return (inner, ⟨f, by omega⟩)
    | .operator .bang =>
      let (operand, ⟨e, he⟩) ← readAt Operator.bang.precedence d
      return (← prefixed .bang operand, ⟨e, by omega⟩)
    | .operator .minus =>
      let (operand, ⟨e, he⟩) ← readAt Operator.minus.precedence d
      return (← prefixed .minus operand, ⟨e, by omega⟩)
    | .operator _ => throw (.unexpectedToken token.spelling operandExpected)
termination_by 2 * c.size

/-- Reads the infix operators after `left`, as long as they bind tighter than `least`. -/
def readInfix (least : Nat) (left : Condition) (c : Cursor) :
    Except CompileError (Condition × c.NotLonger) := do
  match ← c.peek with
  | some (⟨.operator op, _, _, _⟩, ⟨d, hd⟩) =>
    if op.precedence ≤ least then return (left, ⟨c, Nat.le_refl _⟩)
    else
      let (right, ⟨e, he⟩) ← readAt op.precedence d
      let joined ← infixed op left right
      let (whole, ⟨f, hf⟩) ← readInfix least joined e
      return (whole, ⟨f, by omega⟩)
  | _ => return (left, ⟨c, Nat.le_refl _⟩)
termination_by 2 * c.size

end

/-- Reads a whole text as a condition. -/
def read (text : String) : Except CompileError Condition := do
  let (condition, ⟨d, _⟩) ← readAt 0 (Cursor.start text)
  d.finish
  return condition

end StyleFlags.Condition
