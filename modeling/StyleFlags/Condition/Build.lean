import StyleFlags.Condition.Basic

/-!
# Building conditions

The operations that join conditions. They fold constants as they go: a
junction with a literal is decided by it or drops it, the negation of a literal
is its complement, and comparing a property with a boolean literal for equality
is the property itself or its negation.
-/

namespace StyleFlags.Condition

def boolean (b : Bool) : Condition := literal false (.boolean b)

/-- The opposite condition. -/
def negate : Condition → Condition
  | property negated name => property (!negated) name
  | literal negated l => literal negated l.complement
  | binary negated op left right => binary (!negated) op left right

/-- Two conditions under a connective, folded if one is a literal. -/
def junction (op : Connective) (left right : Condition) : Condition :=
  match left.constant?, right.constant? with
  | some l, some r => boolean (if op.absorbing then l || r else l && r)
  | some l, none => if l = op.absorbing then boolean op.absorbing else right
  | none, some r => if r = op.absorbing then boolean op.absorbing else left
  | none, none => binary false (.junction op) left right

/-- What is wrong with a comparison of two conditions. Its left side has to be a bare property and
its right side a leaf, and a type name has no order. -/
def misuse? (op : Comparison) (left right : Condition) : Option Misuse :=
  match left, right with
  | property false _, literal _ l =>
    if l.kind = .typeName && !op.isEquality then some .orderedTypeName else none
  | property false _, property _ _ => none
  | property false _, binary _ _ _ _ => some .rightOperand
  | _, _ => some .leftOperand

/-- A comparison, folded if it tests for equality with a boolean literal. -/
def comparison (op : Comparison) (left right : Condition) : Except CompileError Condition :=
  match misuse? op left right with
  | some misuse =>
    .error (.malformed (left.text ++ " " ++ op.symbol ++ " " ++ right.text) misuse)
  | none =>
    match right.literal? with
    | some l =>
      if op.isEquality && l.kind = .boolean then
        .ok (if l.truthy = decide (op = .eq) then left else left.negate)
      else .ok (binary false (.compare op) left right)
    | none => .ok (binary false (.compare op) left right)

/-- Two conditions under an operator between them. -/
def join (op : BinaryOperator) (left right : Condition) : Except CompileError Condition :=
  match op with
  | .junction op => .ok (junction op left right)
  | .compare op => comparison op left right

/-- Two conditions under any symbol between them. -/
def infixed (op : Operator) (left right : Condition) : Except CompileError Condition :=
  match op with
  | .binary op => join op left right
  | _ => .error (.unknownOperator op.symbol)

/-- A condition under a symbol before it. A minus needs a number. -/
def prefixed (op : Operator) (operand : Condition) : Except CompileError Condition :=
  match op with
  | .bang => .ok operand.negate
  | .minus =>
    match operand.literal?.bind Literal.negateSign? with
    | some l => .ok (literal false l)
    | none => .error (.malformed ("-" ++ operand.text) .minusOperand)
  | _ => .error (.unknownOperator op.symbol)

end StyleFlags.Condition
