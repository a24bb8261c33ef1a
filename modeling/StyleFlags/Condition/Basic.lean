import StyleFlags.Name
import StyleFlags.Operator

/-!
# Conditions

The boolean expressions that directives test: properties, literals, and
operators between conditions. Every node has a flag for its negation. The same
tree is written in two ways: as source text that reads back, and as a name for
a custom property. Both leave out the grouping of a child that has its parent's
operator.
-/

namespace StyleFlags

/-- A boolean expression over properties. -/
inductive Condition where
  | property (negated : Bool) (name : String)
  | literal (negated : Bool) (value : Literal)
  | binary (negated : Bool) (op : BinaryOperator) (left right : Condition)
deriving DecidableEq, Repr

namespace Condition

/-! ## Parts -/

/-- Whether the node itself is negated. -/
def isNegated : Condition → Bool
  | property negated _ => negated
  | literal negated _ => negated
  | binary negated _ _ _ => negated

/-- The operator of the node. -/
def op? : Condition → Option BinaryOperator
  | binary _ op _ _ => some op
  | _ => none

/-- The property that the node is, negated or not. -/
def property? : Condition → Option String
  | property _ name => some name
  | _ => none

/-- The literal that the node is. -/
def literal? : Condition → Option Literal
  | literal _ l => some l
  | _ => none

/-- The truth of a literal. Other conditions have none without a bag of values. -/
def constant? (c : Condition) : Option Bool := c.literal?.map Literal.truthy

/-- Whether the node joins two conditions. -/
def isJunction (c : Condition) : Bool := c.op?.any BinaryOperator.isJunction

/-- The properties that occur, with repetitions, from left to right. -/
def occurrences : Condition → List String
  | property _ name => [name]
  | literal _ _ => []
  | binary _ _ left right => left.occurrences ++ right.occurrences

/-- The properties that occur, each once, in the order of their first occurrence. -/
def properties (c : Condition) : List String := c.occurrences.eraseDups

/-! ## Text -/

/-- A way of writing conditions. -/
structure Spelling where
  negation : String
  opening : String
  closing : String
  property : String → Bool → String
  literal : Literal → String
  operator : BinaryOperator → String

/-- The spelling that reads back as a condition. -/
def Spelling.source : Spelling where
  negation := "!"
  opening := "("
  closing := ")"
  property name negated := if negated then "!" ++ name else name
  literal := Literal.spelling
  operator op := " " ++ op.symbol ++ " "

/-- The spelling of names of custom properties. -/
def Spelling.glyphs : Spelling where
  negation := Name.negation.toString
  opening := Name.bar.toString
  closing := Name.bar.toString
  property := Name.property
  literal := Name.literal
  operator op := op.glyph.toString

/-- Writes a condition that stands below an operator. Only a binary node that is negated, or whose
operator is another one, is grouped. -/
def render (s : Spelling) (parent : Option BinaryOperator) : Condition → String
  | property negated name => s.property name negated
  | literal _ l => s.literal l
  | binary negated op left right =>
    let joined := left.render s (some op) ++ s.operator op ++ right.render s (some op)
    if negated then s.negation ++ s.opening ++ joined ++ s.closing
    else if some op = parent then joined
    else s.opening ++ joined ++ s.closing

/-- The condition as source text. -/
def text (c : Condition) : String := c.render .source c.op?

/-- The condition as the name of a custom property. -/
def name (c : Condition) : String := c.render .glyphs c.op?

end Condition

end StyleFlags
