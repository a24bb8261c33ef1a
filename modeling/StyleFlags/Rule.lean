import StyleFlags.Fact
import StyleFlags.Guard
import StyleFlags.Value

/-!
# Rules

A rule says how flags follow from a bag of values. Each rule belongs to one
property; an operand may be a second property that it reads. The two flags of an
equality, and of a test for a type, are always opposite. A rule for an order
comparison is sparse: it declares its flag only while the comparison holds, and
otherwise leaves the flag to the base block.
-/

namespace StyleFlags

/-- How flags follow from a bag of values. -/
inductive Rule where
  | truthy (property flag : String)
  | falsy (property flag : String)
  | equality (property : String) (operand : Operand) (positive complement : String)
  | typeOf (property typeName positive complement : String)
  | relational (property : String) (op : Comparison) (operand : Operand) (flag : String)
deriving DecidableEq, Repr

/-- The value of an operand on a bag. -/
def Operand.value (bag : Bag) : Operand → Value
  | literal l => l.value
  | property name negated => if negated then .bool (!(bag.get name).truthy) else bag.get name

/-- The declaration of a custom property. -/
structure Declaration where
  name : String
  value : String
deriving DecidableEq, Repr

def Declaration.text (d : Declaration) : String := "--" ++ d.name ++ ":" ++ d.value ++ ";"

/-- The declaration of the state of a flag. -/
def Options.declare (options : Options) (flag : String) (on : Bool) : Declaration :=
  ⟨flag, if on then options.on else options.off⟩

/-- Declarations as the text of a block, one on a line. -/
def declarationsText (declarations : List Declaration) : String :=
  "\n".intercalate (declarations.map Declaration.text)

namespace Rule

/-- The property that the rule belongs to. -/
def property : Rule → String
  | truthy property _ => property
  | falsy property _ => property
  | equality property _ _ _ => property
  | typeOf property _ _ _ => property
  | relational property _ _ _ => property

/-- The flags that the rule sets. -/
def flags : Rule → List String
  | truthy _ flag => [flag]
  | falsy _ flag => [flag]
  | equality _ _ positive complement => [positive, complement]
  | typeOf _ _ positive complement => [positive, complement]
  | relational _ _ _ flag => [flag]

/-- The second property that the rule reads. -/
def dependency? : Rule → Option String
  | equality _ operand _ _ => operand.property?
  | relational _ _ operand _ => operand.property?
  | _ => none

/-- Whether the rule declares only flags that are on. -/
def isSparse : Rule → Bool
  | relational _ _ _ _ => true
  | _ => false

def text : Rule → String
  | truthy property flag => property ++ " => --" ++ flag
  | falsy property flag => "!" ++ property ++ " => --" ++ flag
  | equality property operand positive complement =>
    property ++ " == " ++ operand.text ++ " => --" ++ positive ++ " | --" ++ complement
  | typeOf property typeName positive complement =>
    "typeof " ++ property ++ " == " ++ typeName ++ " => --" ++ positive ++ " | --" ++ complement
  | relational property op operand flag =>
    property ++ " " ++ op.symbol ++ " " ++ operand.text ++ " => --" ++ flag

/-- The state of every flag of the rule on a bag. -/
def states (bag : Bag) : Rule → List (String × Bool)
  | truthy property flag => [(flag, (bag.get property).truthy)]
  | falsy property flag => [(flag, !(bag.get property).truthy)]
  | equality property operand positive complement =>
    let equal := (bag.get property).looseEq (operand.value bag)
    [(positive, equal), (complement, !equal)]
  | typeOf property typeName positive complement =>
    let equal := (bag.get property).typeOf == typeName
    [(positive, equal), (complement, !equal)]
  | relational property op operand flag =>
    [(flag, (bag.get property).holds op (operand.value bag))]

/-- What the rule declares on a bag. -/
def declarations (options : Options) (bag : Bag) (rule : Rule) : List Declaration :=
  ((rule.states bag).filter fun (_, on) => on || !rule.isSparse).map fun (flag, on) =>
    options.declare flag on

/-- What the rule declares in the base block, for properties that are not set. -/
def defaults (options : Options) (rule : Rule) : List Declaration :=
  (rule.states Table.empty).map fun (flag, on) => options.declare flag (on && !rule.isSparse)

/-! ## Rules of facts -/

/-- The rule for both facts of equality with an operand. -/
def ofEquality (property : String) (operand : Operand) : Rule :=
  let positive := Fact.name ⟨property, .compare .eq operand⟩
  let complement := Fact.name ⟨property, .compare .ne operand⟩
  match operand.typeName? with
  | some typeName => typeOf property typeName positive complement
  | none => equality property operand positive complement

/-- The rule of a single test. -/
def ofTest (property : String) : Test → Rule
  | .truthy false => truthy property (Fact.name ⟨property, .truthy false⟩)
  | .truthy true => falsy property (Fact.name ⟨property, .truthy true⟩)
  | .compare op operand =>
    if op.isEquality then ofEquality property operand
    else relational property op operand (Fact.name ⟨property, .compare op operand⟩)

/-- The operand of a test for equality. -/
def equalityOperand? : Test → Option Operand
  | .truthy _ => none
  | .compare op operand => if op.isEquality then some operand else none

/-- The rules of the tests of a property, one for all tests of equality with the same operand. The
operands in `seen` have their rule already. -/
def ofTests (property : String) (seen : List Operand) : List Test → List Rule
  | [] => []
  | test :: rest =>
    match equalityOperand? test with
    | none => ofTest property test :: ofTests property seen rest
    | some operand =>
      if seen.contains operand then ofTests property seen rest
      else ofTest property test :: ofTests property (operand :: seen) rest

end Rule

end StyleFlags
