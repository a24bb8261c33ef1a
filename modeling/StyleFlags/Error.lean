/-!
# Errors of conditions and directives

Why a source is refused, or a bag of values is. Every error names its cause;
`CompileError.message` holds the wording of all of them.
-/

namespace StyleFlags

/-- Why the characters at a place form no token, or a text no literal. -/
inductive LexCause where
  | malformedNumber (text : String)
  | malformedLiteral (text : String)
  | unterminatedString
  | unexpected (c : Char)
deriving DecidableEq, Repr

namespace LexCause

def message : LexCause → String
  | malformedNumber text => "malformed number \"" ++ text ++ "\""
  | malformedLiteral text => "malformed literal \"" ++ text ++ "\""
  | unterminatedString => "unterminated string literal"
  | unexpected c => "unexpected '" ++ c.toString ++ "'"

end LexCause

/-- Why an operator cannot be applied to the conditions beside it. -/
inductive Misuse where
  | leftOperand
  | rightOperand
  | orderedTypeName
  | minusOperand
  | noCondition
deriving DecidableEq, Repr

namespace Misuse

def message : Misuse → String
  | leftOperand => "left operand must be a bare identifier"
  | rightOperand => "right operand must be an identifier or a literal"
  | orderedTypeName => "type names can only be compared with == or !="
  | minusOperand => "unary minus needs a number"
  | noCondition => "expected a condition"

end Misuse

/-- Why a condition, a structured value, a directive or a bag of values is refused. -/
inductive CompileError where
  | lex (position : Nat) (cause : LexCause)
  | unexpectedEnd (expected : String)
  | unexpectedToken (found expected : String)
  | malformed (expression : String) (misuse : Misuse)
  | unknownOperator (symbol : String)
  | unregistered (sheet property : String)
deriving DecidableEq, Repr

namespace CompileError

def message : CompileError → String
  | lex position cause => "lex error at byte " ++ toString position ++ ": " ++ cause.message
  | unexpectedEnd expected => "unexpected end of input, expected \"" ++ expected ++ "\""
  | unexpectedToken found expected =>
    "unexpected token \"" ++ found ++ "\", expected \"" ++ expected ++ "\""
  | malformed expression misuse =>
    "malformed expression \"" ++ expression ++ "\": " ++ misuse.message
  | unknownOperator symbol => "unknown operator \"" ++ symbol ++ "\""
  | unregistered sheet property =>
    "property '" ++ property ++ "' is not registered in scheme '" ++ sheet ++ "'"

/-- Whether tokens came in an order that the grammar does not have. -/
def isSyntax : CompileError → Bool
  | unexpectedEnd _ => true
  | unexpectedToken _ _ => true
  | _ => false

end CompileError

end StyleFlags
