import StyleFlags.Number.Basic

/-!
# Numbers as text

The text of a number has the fewest digits that still read back as it, and of
those the nearest to it. It is always positional: no exponent is written,
however large or small the number. Zero has no sign.
-/

namespace StyleFlags.Number

/-- The decimal digits of a positive magnitude: `digits * 10 ^ exponent`. -/
structure Digits where
  digits : Nat
  exponent : Int
deriving DecidableEq, Repr

/-- `digits * 10 ^ exponent` against `halves` half units, both multiplied to integers. -/
def onGrid (digits : Nat) (exponent : Int) (halves : Nat) : Nat × Nat :=
  match exponent with
  | .ofNat e => (digits * Nat.pow 10 e * (2 * unitsPerOne), halves)
  | .negSucc e => (digits * (2 * unitsPerOne), halves * Nat.pow 10 (e + 1))

/-- Whether `digits * 10 ^ exponent` rounds to the double of this magnitude: it lies between the
middles to both neighbours, or on one of them if the magnitude is even. -/
def readsBack (magnitude digits : Nat) (exponent : Int) : Bool :=
  let below := onGrid digits exponent (units (magnitude - 1) + units magnitude)
  let above := onGrid digits exponent (units magnitude + units (magnitude + 1))
  if magnitude % 2 = 0 then below.2 ≤ below.1 && above.1 ≤ above.2
  else below.2 < below.1 && above.1 < above.2

/-- The multiple of `10 ^ exponent` that reads back as this magnitude, the nearer of two. -/
def onGrid? (magnitude : Nat) (exponent : Int) : Option Nat :=
  let (grid, value) := onGrid 1 exponent (2 * units magnitude)
  let low := value / grid
  match readsBack magnitude low exponent, readsBack magnitude (low + 1) exponent with
  | true, true => some (if 2 * (value % grid) < grid then low else low + 1)
  | true, false => some low
  | false, true => some (low + 1)
  | false, false => none

/-- The coarsest of `count` grids from `10 ^ exponent` down that has a number reading back. -/
def coarsest? (magnitude : Nat) (exponent : Int) : Nat → Option Digits
  | 0 => none
  | count + 1 =>
    match onGrid? magnitude exponent with
    | some digits => some ⟨digits, exponent⟩
    | none => coarsest? magnitude (exponent - 1) count

/-- The fewest digits that read back as a positive finite magnitude. No double needs a grid finer
than `10 ^ (-1074)`. -/
def shortest (magnitude : Nat) : Digits :=
  let top := (Nat.toDigits 10 (units magnitude / unitsPerOne)).length
  (coarsest? magnitude top (top + 1075)).getD ⟨0, 0⟩

/-- Digits in positional form. -/
def Digits.positional (d : Digits) : String :=
  let digits := Nat.toDigits 10 d.digits
  match d.exponent with
  | .ofNat zeros => String.ofList (digits ++ List.replicate zeros '0')
  | .negSucc e =>
    let places := e + 1
    let padded := List.replicate (places + 1 - digits.length) '0' ++ digits
    let split := padded.length - places
    String.ofList (padded.take split ++ '.' :: padded.drop split)

/-- The text of a number. -/
def text (n : Number) : String :=
  if n.isNaN then "NaN"
  else if n.isZero then "0"
  else
    let unsigned := if n.magnitude = infinity then "inf" else (shortest n.magnitude).positional
    if n.isNegative then "-" ++ unsigned else unsigned

end StyleFlags.Number
