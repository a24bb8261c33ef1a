import StyleFlags.Error
import StyleFlags.Number.Decimal
import StyleFlags.Value

/-!
# Literals

The constant operands of conditions. A literal keeps the text it was written
with, so that printing and naming are stable; `Literal.value` reads that text.
-/

namespace StyleFlags

/-- The kinds of literals. A type name is compared with the type of a value. -/
inductive LiteralKind where
  | number
  | boolean
  | null
  | string
  | typeName
deriving DecidableEq, Repr

namespace LiteralKind

/-- The place of a kind in the order of facts and in a snapshot. -/
def rank : LiteralKind → Nat
  | number => 0
  | boolean => 1
  | null => 2
  | string => 3
  | typeName => 4

theorem rank_injective {a b : LiteralKind} (same : a.rank = b.rank) : a = b := by
  cases a <;> cases b <;> simp_all [rank]

theorem rank_lt (kind : LiteralKind) : kind.rank < 5 := by
  cases kind <;> simp [rank]

/-- The kind of a bare word that is no identifier. -/
def ofWord? (word : String) : Option LiteralKind :=
  if word = "true" ∨ word = "false" then some boolean
  else if word = "null" then some null
  else if word = "Number" ∨ word = "String" ∨ word = "Boolean" ∨ word = "Function" then
    some typeName
  else none

end LiteralKind

/-- A constant operand: its kind, and its text without quotes. -/
structure Literal where
  kind : LiteralKind
  text : String
deriving DecidableEq, Repr

namespace Literal

def boolean (b : Bool) : Literal := ⟨.boolean, if b then "true" else "false"⟩

def null : Literal := ⟨.null, "null"⟩

def string (text : String) : Literal := ⟨.string, text⟩

def number (n : Number) : Literal := ⟨.number, n.text⟩

/-- Whether a text is an unsigned numeral: digits, and after a point more digits. -/
def isUnsigned (text : List Char) : Bool :=
  let whole := text.takeWhile Char.isDigit
  !whole.isEmpty &&
    match text.dropWhile Char.isDigit with
    | [] => true
    | '.' :: fraction => !fraction.isEmpty && fraction.all Char.isDigit
    | _ => false

/-- Whether a text is a numeral, with a minus or without. -/
def isNumeral (text : List Char) : Bool :=
  match text with
  | '-' :: rest => isUnsigned rest
  | _ => isUnsigned text

/-- Reads the text of a literal that stands at a byte offset. Quoted text is a string whatever it
holds; bare text has to be a numeral or one of the reserved words. -/
def read (text : String) (quoted : Bool) (offset : Nat) : Except CompileError Literal :=
  if quoted then .ok (string text)
  else if isNumeral text.toList then .ok ⟨.number, text⟩
  else
    match LiteralKind.ofWord? text with
    | some kind => .ok ⟨kind, text⟩
    | none => .error (.lex offset (.malformedLiteral text))

/-- The type that a type name stands for. -/
def typeName? (l : Literal) : Option String :=
  if l.kind = .typeName then
    match l.text with
    | "Number" => some "number"
    | "String" => some "string"
    | "Boolean" => some "boolean"
    | "Function" => some "function"
    | _ => none
  else none

/-- The value of a literal. A type name has the name of the type as its value. -/
def value (l : Literal) : Value :=
  match l.kind with
  | .number => .number ((Number.read? l.text).getD Number.nan)
  | .boolean => .bool (l.text == "true")
  | .null => .null
  | .string => .string l.text
  | .typeName => .string (l.typeName?.getD "")

def truthy (l : Literal) : Bool := l.value.truthy

/-- The boolean literal that is true exactly when this one is not truthy. -/
def complement (l : Literal) : Literal := boolean (!l.truthy)

/-- A number with its sign changed in the text. -/
def negateSign? (l : Literal) : Option Literal :=
  if l.kind = .number then
    match l.text.toList with
    | '-' :: rest => some ⟨.number, String.ofList rest⟩
    | _ => some ⟨.number, "-" ++ l.text⟩
  else none

/-- A literal as it is written, a string between single quotes. -/
def spelling (l : Literal) : String :=
  if l.kind = .string then "'" ++ l.text ++ "'" else l.text

end Literal

end StyleFlags
