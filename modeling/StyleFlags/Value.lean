import StyleFlags.Number.Shortest
import StyleFlags.Operator
import StyleFlags.Ordered

/-!
# Values and bags

What a property can hold, and the bag of all properties that are set. Values
compare without coercion: only values of one type are equal or ordered, except
that null and undefined are equal to each other. `Value.normalized` names the
values that style rules cannot tell apart, and `Value.keyText` is the text that
stands for a value in a cache key.
-/

namespace StyleFlags

/-- What a property holds. A function is known by its name only. -/
inductive Value where
  | undefined
  | null
  | bool (b : Bool)
  | number (n : Number)
  | string (s : String)
  | function (name : String)
deriving DecidableEq, Repr

namespace Value

/-- False, zero, NaN, the empty string, null and undefined are not truthy. -/
def truthy : Value → Bool
  | undefined => false
  | null => false
  | bool b => b
  | number n => !n.isZero && !n.isNaN
  | string s => !s.isEmpty
  | function _ => true

/-- The name of the type of a value. -/
def typeOf : Value → String
  | undefined => "undefined"
  | null => "object"
  | bool _ => "boolean"
  | number _ => "number"
  | string _ => "string"
  | function _ => "function"

/-- Whether two values are of one type and equal. Unlike `=`, it takes numbers by their value: the
zeros are the same, and a NaN is not the same as itself. -/
def same : Value → Value → Bool
  | undefined, undefined => true
  | null, null => true
  | bool a, bool b => a == b
  | number a, number b => a.equals b
  | string a, string b => a == b
  | function a, function b => a == b
  | _, _ => false

/-- Equality in a condition: null and undefined are equal to each other. -/
def looseEq : Value → Value → Bool
  | undefined, null => true
  | null, undefined => true
  | a, b => a.same b

/-- The order of two values, if they have one. -/
def order? : Value → Value → Option Ordering
  | number a, number b => a.compare? b
  | string a, string b => some (compare a b)
  | bool a, bool b => some (compare a b)
  | _, _ => none

/-- Whether a comparison holds. Values without an order satisfy no comparison of order. -/
def holds (a : Value) (op : Comparison) (b : Value) : Bool :=
  match op with
  | .eq => a.looseEq b
  | .ne => !a.looseEq b
  | .gt => (a.order? b).any (· == .gt)
  | .ge => (a.order? b).any (· != .lt)
  | .lt => (a.order? b).any (· == .lt)
  | .le => (a.order? b).any (· != .gt)

/-- The representative of all values that share a cache key with this one. -/
def normalized : Value → Value
  | string "" => undefined
  | function _ => function ""
  | v => v

/-- The text of a value inside the input of a cache key, tagged by type. -/
def keyText : Value → String
  | undefined => "∅"
  | null => "null"
  | bool b => "b:" ++ toString b
  | number n => "n:" ++ n.text
  | string "" => "∅"
  | string s => "s:" ++ s
  | function _ => "ƒ"

/-- A value as text, a string between double quotes. -/
def text : Value → String
  | undefined => "undefined"
  | null => "null"
  | bool b => toString b
  | number n => n.text
  | string s => "\"" ++ s ++ "\""
  | function name => "function " ++ name

end Value

/-- The properties that are set, with their values. -/
abbrev Bag := Table Value

namespace Bag

/-- The value of a property, undefined if it is not set. -/
def get (bag : Bag) (name : String) : Value := (bag.get? name).getD .undefined

/-- The bag with the representative of every value. -/
def normalized (bag : Bag) : Bag := bag.map Value.normalized

end Bag

end StyleFlags
