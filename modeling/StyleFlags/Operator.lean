/-!
# Operators

The operators of the test language: the comparisons of a property with an
operand, the two connectives, and every symbol that a token can be. Each
comparison and each connective has a dual, the operator that takes over when a
negation is pushed past it, and a glyph, its spelling inside a generated name.
-/

namespace StyleFlags

/-- The comparisons of a property with an operand. -/
inductive Comparison where
  | eq
  | ne
  | gt
  | ge
  | lt
  | le
deriving DecidableEq, Repr

namespace Comparison

/-- The comparison that stands for the negation of this one. -/
def dual : Comparison → Comparison
  | eq => ne
  | ne => eq
  | lt => ge
  | ge => lt
  | gt => le
  | le => gt

/-- Whether this compares for equality, not for order. -/
def isEquality : Comparison → Bool
  | eq => true
  | ne => true
  | _ => false

def symbol : Comparison → String
  | eq => "=="
  | ne => "!="
  | gt => ">"
  | ge => ">="
  | lt => "<"
  | le => "<="

def glyph : Comparison → Char
  | eq => '≡'
  | ne => '≠'
  | gt => '⋗'
  | ge => '⋝'
  | lt => '⋖'
  | le => '⋜'

/-- The place of a comparison in the order of facts and in a snapshot. -/
def rank : Comparison → Nat
  | eq => 0
  | ne => 1
  | gt => 2
  | ge => 3
  | lt => 4
  | le => 5

@[simp] theorem dual_dual (op : Comparison) : op.dual.dual = op := by
  cases op <;> rfl

@[simp] theorem isEquality_dual (op : Comparison) : op.dual.isEquality = op.isEquality := by
  cases op <;> rfl

theorem rank_injective {a b : Comparison} (same : a.rank = b.rank) : a = b := by
  cases a <;> cases b <;> simp_all [rank]

end Comparison

/-- The two ways to join conditions. -/
inductive Connective where
  | or
  | and
deriving DecidableEq, Repr

namespace Connective

def dual : Connective → Connective
  | or => and
  | and => or

@[simp] theorem dual_dual (op : Connective) : op.dual.dual = op := by
  cases op <;> rfl

theorem dual_ne (op : Connective) : op.dual ≠ op := by
  cases op <;> simp [dual]

/-- The truth value that decides a junction by itself. -/
def absorbing : Connective → Bool
  | or => true
  | and => false

end Connective

/-- An operator with a condition on either side. -/
inductive BinaryOperator where
  | junction (op : Connective)
  | compare (op : Comparison)
deriving DecidableEq, Repr

namespace BinaryOperator

def dual : BinaryOperator → BinaryOperator
  | junction op => junction op.dual
  | compare op => compare op.dual

@[simp] theorem dual_dual (op : BinaryOperator) : op.dual.dual = op := by
  cases op <;> simp [dual]

/-- Whether this joins conditions. -/
def isJunction : BinaryOperator → Bool
  | junction _ => true
  | compare _ => false

def symbol : BinaryOperator → String
  | junction .or => "||"
  | junction .and => "&&"
  | compare op => op.symbol

def glyph : BinaryOperator → Char
  | junction .or => '⋁'
  | junction .and => '∧'
  | compare op => op.glyph

end BinaryOperator

/-- Every symbol that a token can be. -/
inductive Operator where
  | binary (op : BinaryOperator)
  | minus
  | bang
  | openParen
  | closeParen
  | openBrace
  | closeBrace
  | openBracket
  | closeBracket
  | colon
  | comma
  | semicolon
  | dot
  | assign
deriving DecidableEq, Repr

namespace Operator

def symbol : Operator → String
  | binary op => op.symbol
  | minus => "-"
  | bang => "!"
  | openParen => "("
  | closeParen => ")"
  | openBrace => "\x7b"
  | closeBrace => "\x7d"
  | openBracket => "["
  | closeBracket => "]"
  | colon => ":"
  | comma => ","
  | semicolon => ";"
  | dot => "."
  | assign => "="

/-- The operators, each two-character symbol before the symbols that it begins with. -/
def all : List Operator :=
  [binary (.junction .or), binary (.junction .and), binary (.compare .eq), binary (.compare .ne),
   binary (.compare .le), binary (.compare .ge), binary (.compare .lt), binary (.compare .gt),
   minus, bang, openParen, closeParen, openBrace, closeBrace, openBracket, closeBracket, colon,
   comma, semicolon, dot, assign]

/-- The operator that a whole text is the symbol of. -/
def ofSymbol? (text : String) : Option Operator := all.find? (·.symbol == text)

/-- The operator whose symbol the text begins with, the longer of two. -/
def atStart? (text : List Char) : Option Operator :=
  all.find? fun op => op.symbol.toList.isPrefixOf text

/-- How tightly an operator binds. Zero means that it never continues a condition. -/
def precedence : Operator → Nat
  | binary (.junction .or) => 1
  | binary (.junction .and) => 2
  | binary (.compare _) => 3
  | minus => 4
  | bang => 4
  | _ => 0

end Operator

end StyleFlags
