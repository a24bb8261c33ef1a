/-!
# Numbers

A number is an IEEE double given by its 64 bits. Nothing here computes with
floating point: the order of two numbers and the exact value of one are read
off the bits as integers. Zero and negative zero are two numbers that compare
equal, and a NaN compares with nothing, itself included.
-/

namespace StyleFlags

/-- An IEEE double, by its bits. -/
structure Number where
  bits : UInt64
deriving DecidableEq, Repr

namespace Number

/-- The bits without the sign. They grow with the absolute value. -/
def magnitude (n : Number) : Nat := n.bits.toNat % 0x8000000000000000

/-- Whether the sign bit is set. -/
def isNegative (n : Number) : Bool := decide (0x8000000000000000 ≤ n.bits.toNat)

/-- The magnitude of the two infinities. Anything above it is no number. -/
def infinity : Nat := 0x7ff0000000000000

/-- The number of a sign and a magnitude. -/
def ofMagnitude (negative : Bool) (magnitude : Nat) : Number :=
  ⟨(magnitude + if negative then 0x8000000000000000 else 0).toUInt64⟩

/-- A NaN, the value of a text that reads as no number. -/
def nan : Number := ⟨0x7ff8000000000000⟩

/-- Whether the bits stand for no number. -/
def isNaN (n : Number) : Bool := decide (infinity < n.magnitude)

/-- Whether this is zero or negative zero. -/
def isZero (n : Number) : Bool := n.magnitude == 0

/-- The place of a number in the order of all numbers. -/
def rank (n : Number) : Int := if n.isNegative then -n.magnitude else n.magnitude

/-- The order of two numbers, if both are numbers. -/
def compare? (a b : Number) : Option Ordering :=
  if a.isNaN || b.isNaN then none else some (compare a.rank b.rank)

/-- Numeric equality: the zeros are equal, a NaN equals nothing. -/
def equals (a b : Number) : Bool := a.compare? b == some .eq

/-- The absolute value of finite bits, as a multiple of the smallest positive double. -/
def units (magnitude : Nat) : Nat :=
  let exponent := magnitude / 0x10000000000000
  let fraction := magnitude % 0x10000000000000
  if exponent = 0 then fraction else (0x10000000000000 + fraction) <<< (exponent - 1)

/-- The smallest positive double is one over this. -/
def unitsPerOne : Nat := 1 <<< 1074

end Number

end StyleFlags
