import StyleFlags.Condition.Basic

/-!
# The value of a condition

Evaluates a condition on a bag of values. A junction yields one of its sides, a
comparison and a negation yield a truth value.
-/

namespace StyleFlags

/-- Takes the negation of a node into account. -/
def Value.signed (v : Value) (negated : Bool) : Value := if negated then .bool (!v.truthy) else v

namespace Condition

/-- Whether a value compares with an operand. Next to a type name, the type of the value is
compared. -/
def compares (op : Comparison) (value : Value) (typeName : Option String) (operand : Value) :
    Bool :=
  match typeName with
  | some name => (Value.string value.typeOf).holds op (.string name)
  | none => value.holds op operand

/-- The value of a condition on a bag. -/
def evaluate (bag : Bag) : Condition → Value
  | property negated name => (bag.get name).signed negated
  | literal negated l => l.value.signed negated
  | binary negated (.junction .or) left right =>
    let value := left.evaluate bag
    (if value.truthy then value else right.evaluate bag).signed negated
  | binary negated (.junction .and) left right =>
    let value := left.evaluate bag
    (if value.truthy then right.evaluate bag else value).signed negated
  | binary negated (.compare op) left right =>
    (Value.bool (compares op (left.evaluate bag) (right.literal?.bind Literal.typeName?)
      (right.evaluate bag))).signed negated

/-- Whether a condition is satisfied on a bag. -/
def satisfied (bag : Bag) (c : Condition) : Bool := (c.evaluate bag).truthy

end Condition

end StyleFlags
