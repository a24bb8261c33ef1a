import StyleFlags.Key
import StyleFlags.Ordered

/-!
# Codecs

How data is laid out in bytes, and read back. A codec writes a value and reads
one from the front of a sequence of bytes. Numbers take one byte below 251, and
otherwise a mark and two, four or eight bytes, the lowest first; the shortest
form is written, and every form that fits is read. Texts, lists and tables
begin with their length.
-/

namespace StyleFlags

/-- A layout in bytes: a writer, and a reader that also yields the bytes it has left. -/
structure Codec (α : Type) where
  encode : α → List UInt8
  decode : List UInt8 → Option (α × List UInt8)

namespace Codec

variable {α β : Type}

/-! ## Numbers -/

/-- The lowest `width` bytes of a number, the lowest first. -/
def littleEndian : Nat → Nat → List UInt8
  | 0, _ => []
  | width + 1, n => n.toUInt8 :: littleEndian width (n / 256)

/-- The number of some bytes, the lowest first. -/
def ofLittleEndian (bytes : List UInt8) : Nat :=
  bytes.foldr (fun byte n => byte.toNat + 256 * n) 0

/-- Splits off `n` bytes, if there are as many. -/
def split? (n : Nat) (bytes : List UInt8) : Option (List UInt8 × List UInt8) :=
  let taken := bytes.take n
  if taken.length < n then none else some (taken, bytes.drop n)

/-- A number in the shortest form. -/
def encodeNat (n : Nat) : List UInt8 :=
  if n < 251 then [n.toUInt8]
  else if n < 0x10000 then 251 :: littleEndian 2 n
  else if n < 0x100000000 then 252 :: littleEndian 4 n
  else 253 :: littleEndian 8 n

/-- The number of bytes that follow a mark. -/
def width? (mark : UInt8) : Option Nat :=
  if mark = 251 then some 2
  else if mark = 252 then some 4
  else if mark = 253 then some 8
  else none

/-- Reads a number of at most `widest` bytes, in any form. -/
def decodeNat (widest : Nat) : List UInt8 → Option (Nat × List UInt8)
  | [] => none
  | first :: rest =>
    if first < 251 then some (first.toNat, rest)
    else do
      let width ← width? first
      if width ≤ widest then
        let (bytes, rest) ← split? width rest
        return (ofLittleEndian bytes, rest)
      else none

/-- Lengths and counts. -/
def nat : Codec Nat := ⟨encodeNat, decodeNat 8⟩

/-- Numbers of alternatives. -/
def tag : Codec Nat := ⟨encodeNat, decodeNat 4⟩

/-- The members of an enumeration, by their place in it. -/
def choice (members : List α) (rank : α → Nat) : Codec α where
  encode a := tag.encode (rank a)
  decode bytes := do
    let (n, rest) ← tag.decode bytes
    let a ← members[n]?
    return (a, rest)

/-! ## Texts and containers -/

def bool : Codec Bool where
  encode b := [if b then 1 else 0]
  decode
    | 0 :: rest => some (false, rest)
    | 1 :: rest => some (true, rest)
    | _ => none

/-- A text, as the number of its bytes and its bytes. -/
def string : Codec String where
  encode s := nat.encode (Key.bytes s).length ++ Key.bytes s
  decode bytes := do
    let (n, rest) ← nat.decode bytes
    let (taken, rest) ← split? n rest
    let s ← String.fromUTF8? ⟨taken.toArray⟩
    return (s, rest)

def pair (a : Codec α) (b : Codec β) : Codec (α × β) where
  encode p := a.encode p.1 ++ b.encode p.2
  decode bytes := do
    let (x, rest) ← a.decode bytes
    let (y, rest) ← b.decode rest
    return ((x, y), rest)

/-- A layout of `α` used for `β`. -/
def map (c : Codec α) (ofα : α → β) (toα : β → α) : Codec β where
  encode b := c.encode (toα b)
  decode bytes := do
    let (a, rest) ← c.decode bytes
    return (ofα a, rest)

/-- Reads `n` items. -/
def decodeItems (c : Codec α) : Nat → List UInt8 → Option (List α × List UInt8)
  | 0, bytes => some ([], bytes)
  | n + 1, bytes => do
    let (item, rest) ← c.decode bytes
    let (items, rest) ← decodeItems c n rest
    return (item :: items, rest)

/-- A list, as the number of its items and the items. -/
def list (c : Codec α) : Codec (List α) where
  encode l := nat.encode l.length ++ l.flatMap c.encode
  decode bytes := do
    let (n, rest) ← nat.decode bytes
    decodeItems c n rest

/-- A table, as the list of its entries. They are read in any order, and of several entries of one
name the last counts. -/
def table (c : Codec β) : Codec (Table β) := (list (pair string c)).map Table.ofList Table.entries

end Codec

end StyleFlags
