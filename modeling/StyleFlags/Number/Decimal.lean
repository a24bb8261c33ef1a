import StyleFlags.Number.Basic

/-!
# Numbers from decimals

Reads decimal text as the nearest double, a tie going to the even one. Values
too large become infinite and values too small become zero. The text has an
optional sign, digits with an optional point among or around them, and an
optional exponent; `inf`, `infinity` and `nan` are read in any case.
-/

namespace StyleFlags.Number

/-- The integer nearest to `a / b`, a tie going to the even one. -/
def roundRatio (a b : Nat) : Nat :=
  let quotient := a / b
  let remainder := a % b
  if 2 * remainder < b then quotient
  else if b < 2 * remainder then quotient + 1
  else quotient + quotient % 2

/-- The magnitude of the double nearest to `a / b`. -/
def nearest (a b : Nat) : Nat :=
  let scaled := a * unitsPerOne
  let shift := (scaled / b).log2 - 52
  min (shift * 0x10000000000000 + roundRatio scaled (b <<< shift)) infinity

/-- The double nearest to an integer. -/
def ofInt (n : Int) : Number := ofMagnitude (decide (n < 0)) (nearest n.natAbs 1)

/-- The magnitude nearest to `digits * 10 ^ exponent`. Exponents past the range of doubles give the
same answer as the ends of the range. -/
def nearestDecimal (digits : Nat) : Int → Nat
  | .ofNat exponent => nearest (digits * Nat.pow 10 (min exponent 400)) 1
  | .negSucc exponent => nearest digits (Nat.pow 10 (min (exponent + 1) (digits.log2 + 400)))

/-- The number that decimal digits spell. -/
def ofDigits (digits : List Char) : Nat :=
  digits.foldl (fun n c => 10 * n + (c.toNat - '0'.toNat)) 0

/-- Reads an exponent: an optional sign and at least one digit. -/
def readExponent? (text : List Char) : Option Int :=
  let (negative, digits) := match text with
    | '-' :: rest => (true, rest)
    | '+' :: rest => (false, rest)
    | _ => (false, text)
  if digits.isEmpty || !digits.all Char.isDigit then none
  else some (if negative then -(ofDigits digits : Int) else ofDigits digits)

/-- Reads digits with an optional point and an optional exponent. -/
def readUnsigned? (text : List Char) : Option Nat :=
  let whole := text.takeWhile Char.isDigit
  let afterWhole := text.dropWhile Char.isDigit
  let (fraction, rest) := match afterWhole with
    | '.' :: more => (more.takeWhile Char.isDigit, more.dropWhile Char.isDigit)
    | _ => ([], afterWhole)
  if whole.isEmpty && fraction.isEmpty then none
  else
    let magnitude (exponent : Int) :=
      nearestDecimal (ofDigits (whole ++ fraction)) (exponent - fraction.length)
    match rest with
    | [] => some (magnitude 0)
    | mark :: more =>
      if mark == 'e' || mark == 'E' then (readExponent? more).map magnitude else none

/-- Reads the names of the values that have no digits. -/
def readWord? (text : List Char) : Option Nat :=
  match String.ofList (text.map Char.toLower) with
  | "inf" => some infinity
  | "infinity" => some infinity
  | "nan" => some nan.magnitude
  | _ => none

/-- Reads a whole text as a number. -/
def read? (text : String) : Option Number :=
  let (negative, unsigned) := match text.toList with
    | '-' :: rest => (true, rest)
    | '+' :: rest => (false, rest)
    | whole => (false, whole)
  ((readUnsigned? unsigned).or (readWord? unsigned)).map (ofMagnitude negative)

end StyleFlags.Number
