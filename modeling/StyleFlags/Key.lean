import StyleFlags.Digest
import StyleFlags.Value

/-!
# Keys of blocks

A block is found by a key: a fixed beginning and sixteen hexadecimal digits of
a digest. What goes into the digest tells apart the values that rules can tell
apart; a zero byte closes every name and every value.
-/

namespace StyleFlags.Key

/-- The bytes of a text, in UTF-8. -/
def bytes (text : String) : List UInt8 := text.toList.flatMap String.utf8EncodeChar

/-- A name with its value, each closed by a zero byte. -/
def field (property : String) (value : Value) : List UInt8 :=
  bytes property ++ [0] ++ bytes value.keyText ++ [0]

/-- What the key of one value of a property is made from. -/
def valueInput (property : String) (value : Value) : List UInt8 := field property value

/-- What the key of the values of several properties is made from. -/
def dependencyInput (properties : List String) (bag : Bag) : List UInt8 :=
  bytes "deps" ++ [0] ++ properties.flatMap fun property => field property (bag.get property)

/-- What the key of a text is made from. -/
def contentInput (text : String) : List UInt8 := bytes text

/-- The key made from some input. -/
def ofInput (keyPrefix : String) (input : List UInt8) : String :=
  keyPrefix ++ String.ofList (Digest.hex ((Digest.digest input).take 8))

end StyleFlags.Key
