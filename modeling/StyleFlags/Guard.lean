import StyleFlags.Condition.Basic

/-!
# Guards

The custom-property value of a condition in disjunctive normal form. A flag
that is on has a value that lets `var(--flag,x)` fall back to `x`; a flag that
is off has a blank value. So an `&&` nests its sides as fallbacks, and an `||`
sets its sides beside each other. `Guard.isOn` says when such a value is on,
given which flags are.
-/

namespace StyleFlags

/-- The texts that a sheet is written with. -/
structure Options where
  /-- The value of a flag that is on. -/
  on : String := "initial"
  /-- The value of a flag that is off. -/
  off : String := " "
  /-- What every key begins with. -/
  keyPrefix : String := "c"
deriving DecidableEq, Repr

/-- A value made of references to flags. -/
inductive Guard where
  | on
  | off
  | flag (name : String)
  | gated (name : String) (inner : Guard)
  | either (left right : Guard)
deriving DecidableEq, Repr

/-- A reference to a custom property. -/
def reference (name : String) : String := "var(--" ++ name ++ ")"

/-- A reference to a custom property with what takes its place. -/
def referenceOr (name fallback : String) : String := "var(--" ++ name ++ "," ++ fallback ++ ")"

namespace Guard

/-- The guard of a condition, with `tail` behind every flag of it that has to be on. -/
def ofCondition (tail : Option Guard) : Condition → Guard
  | .binary false (.junction .or) left right =>
    either (ofCondition tail left) (ofCondition tail right)
  | .binary false (.junction .and) left right =>
    ofCondition (some (ofCondition tail right)) left
  | .literal _ l => if l.truthy then tail.getD on else off
  | c =>
    match tail with
    | some inner => gated c.name inner
    | none => flag c.name

/-- A guard as it is written. -/
def text (options : Options) : Guard → String
  | on => options.on
  | off => options.off
  | flag name => reference name
  | gated name inner => referenceOr name (inner.text options)
  | either left right => left.text options ++ " " ++ right.text options

/-- Whether the value is on when exactly the flags in `flags` are. -/
def isOn (flags : String → Bool) : Guard → Bool
  | on => true
  | off => false
  | flag name => flags name
  | gated name inner => flags name && inner.isOn flags
  | either left right => left.isOn flags || right.isOn flags

end Guard

end StyleFlags
