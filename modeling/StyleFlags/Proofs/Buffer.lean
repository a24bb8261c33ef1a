import Mathlib.Data.List.Find
import Mathlib.Data.List.TakeWhile
import StyleFlags.Proofs.Coverage

/-!
# Reading a text by its bytes

The reader keeps the characters ahead in a list, so it cannot stand inside of a character. Here the
same calls are made on the bytes of the text, with an offset for the place, as they are on a buffer.
Runs and comparisons go byte by byte, and the text is cut at the offsets that they give. A cut that
is not on the boundary of a character breaks off, and so does one beyond the end.

A call is compared to the one on a cursor by `Trace.Reaches`: all offsets that it marks are
boundaries, and its outcome is that of the cursor, with the position in the place of the cursor.

Results:
1. `Trace.Reaches.bind`: calls one after the other.
2. `Buffer.reaches_slice`: between two places in the text it can be cut.
3. `Operator.atStart?_cons`: two characters tell which operator a text begins with.
4. `Buffer.reaches_next`, `Buffer.reaches_remaining`: the calls that read tokens.
-/

namespace StyleFlags

open Key (encoded encoded_append)

/-- Whether an offset is in a text, or at its end, and on the boundary of a character. -/
def Boundary (text : String) (n : Nat) : Prop :=
  n ≤ (Key.bytes text).length ∧ (⟨n⟩ : String.Pos.Raw).IsValid text

/-! ## Traces -/

/-- Why reading by bytes breaks off: the text is cut inside of a character or beyond its end, or a
handler has not moved on. -/
inductive Break where
  | cut
  | idle
deriving DecidableEq, Repr

/-- Part of a reading by bytes: the offsets that the text is cut at or that a call ends at, and the
result. -/
structure Trace (α : Type) where
  marks : List Nat
  outcome : Except Break α

namespace Trace

variable {α β : Type}

instance : Monad Trace where
  pure a := ⟨[], .ok a⟩
  bind x f :=
    match x.outcome with
    | .error reason => ⟨x.marks, .error reason⟩
    | .ok a => ⟨x.marks ++ (f a).marks, (f a).outcome⟩

/-- Breaks off. -/
def halt (reason : Break) : Trace α := ⟨[], .error reason⟩

/-- Records an offset. -/
def mark (n : Nat) : Trace Unit := ⟨[n], .ok ()⟩

/-- Whether a trace has boundaries as its marks only, and an outcome. -/
structure Reaches (text : String) (x : Trace α) (outcome : Except Break α) : Prop where
  marks : ∀ n ∈ x.marks, Boundary text n
  outcome : x.outcome = outcome

variable {text : String} {x : Trace α} {f : α → Trace β} {a : α} {result : Except Break β}

theorem reaches_pure (a : α) : Reaches text (pure a) (.ok a) :=
  ⟨fun _ member => absurd member List.not_mem_nil, rfl⟩

theorem reaches_halt (reason : Break) : Reaches text (halt reason : Trace α) (.error reason) :=
  ⟨fun _ member => absurd member List.not_mem_nil, rfl⟩

theorem reaches_mark {n : Nat} (boundary : Boundary text n) : Reaches text (mark n) (.ok ()) :=
  ⟨fun _ member => List.mem_singleton.mp member ▸ boundary, rfl⟩

theorem Reaches.bind (first : Reaches text x (.ok a)) (next : Reaches text (f a) result) :
    Reaches text (x >>= f) result := by
  obtain ⟨marks, outcome⟩ := x
  obtain rfl : outcome = .ok a := first.outcome
  refine ⟨fun n member => ?_, next.outcome⟩
  rcases List.mem_append.mp (show n ∈ marks ++ (f a).marks from member) with before | behind
  · exact first.marks n before
  · exact next.marks n behind

theorem Reaches.bind_error {reason : Break} (first : Reaches text x (.error reason)) :
    Reaches text (x >>= f) (.error reason) := by
  obtain ⟨marks, outcome⟩ := x
  obtain rfl : outcome = .error reason := first.outcome
  exact ⟨first.marks, rfl⟩

end Trace

/-! ## Reading by bytes -/

namespace Buffer

open Trace (halt)

/-- The bytes from an offset on. -/
def tail (text : String) (pos : Nat) : Trace (List UInt8) :=
  if pos ≤ (Key.bytes text).length then pure ((Key.bytes text).drop pos) else halt .cut

/-- The byte at an offset. -/
def byte (text : String) (pos : Nat) : Trace UInt8 :=
  match (Key.bytes text)[pos]? with
  | some b => pure b
  | none => halt .cut

/-- The text between two offsets, which have to be on the boundaries of characters. -/
def slice (text : String) (first last : Nat) : Trace String :=
  ⟨[first, last],
    if valid : (⟨first⟩ : String.Pos.Raw).IsValid text ∧ (⟨last⟩ : String.Pos.Raw).IsValid text ∧
        first ≤ last then
      .ok (String.extract (text.pos ⟨first⟩ valid.1) (text.pos ⟨last⟩ valid.2.1))
    else .error .cut⟩

/-- The offset behind the bytes of a class. -/
def runWhile (text : String) (pos : Nat) (p : Char → Bool) : Trace Nat := do
  let bytes ← tail text pos
  return pos + (bytes.takeWhile fun b => p (Char.ofUInt8 b)).length

/-- The number of bytes in the string whose opening quote is at an offset, if it is closed. -/
def insideLength? (text : String) (pos : Nat) : Trace (Option Nat) := do
  let quote ← byte text pos
  let bytes ← tail text (pos + 1)
  let inside := bytes.takeWhile (· != quote)
  return if inside.length < bytes.length then some inside.length else none

/-! ### Tokens -/

/-- The operator that begins with the character `first`. Two characters go before one. -/
def operator? (text : String) (pos : Nat) (first : Char) : Trace (Option Operator) := do
  let second := (Key.bytes text)[pos + 1]?
  match second.bind fun b => Operator.ofSymbol? (String.ofList [first, Char.ofUInt8 b]) with
  | some op => return some op
  | none =>
    if first = '&' ∨ first = '|' then return none
    else return Operator.ofSymbol? (← slice text pos (pos + 1))

/-- The token that begins with the character `first`, and the offset behind it. -/
def lexeme (text : String) (pos : Nat) (first : Char) : Trace (Except LexCause (Token × Nat)) := do
  if Text.isNameStart first then
    let last ← runWhile text pos Text.isWord
    let word ← slice text pos last
    return .ok (Cursor.wordToken word.toList pos, last)
  else if first.isDigit then
    let last ← runWhile text pos Text.isNumeric
    let numeral ← slice text pos last
    if Literal.isNumeral numeral.toList then
      return .ok (⟨.literal, numeral, false, pos⟩, last)
    else return .error (.malformedNumber numeral)
  else if Text.isQuote first then
    match ← insideLength? text pos with
    | some n =>
      let inside ← slice text (pos + 1) (pos + 1 + n)
      return .ok (⟨.literal, inside, true, pos⟩, pos + 1 + n + 1)
    | none => return .error .unterminatedString
  else
    match ← operator? text pos first with
    | some op =>
      return .ok (⟨.operator op, op.symbol, false, pos⟩, pos + (Key.bytes op.symbol).length)
    | none => return .error (.unexpected first)

/-- The next token, if there is one, and the offset behind it. -/
def next (text : String) (pos : Nat) : Trace (Except CompileError (Option Token) × Nat) := do
  let first ← runWhile text pos Text.isIgnored
  match (Key.bytes text)[first]? with
  | none => return (.ok none, first)
  | some b =>
    match ← lexeme text first (Char.ofUInt8 b) with
    | .ok (token, last) => return (.ok (some token), last)
    | .error cause => return (.error (.lex first cause), first)

/-- What is left, and nothing where the text cannot be cut. -/
def remaining (text : String) (pos : Nat) : Trace String :=
  if (⟨pos⟩ : String.Pos.Raw).IsValid text then slice text pos (Key.bytes text).length
  else return ""

/-! ### Stops -/

/-- Whether there is a word right before an offset. -/
def followsWord (text : String) (pos : Nat) : Trace Bool := do
  if pos = 0 then return false
  else return Text.isWord (Char.ofUInt8 (← byte text (pos - 1)))

/-- Whether what stands at an offset is no word, and a parenthesis comes behind the gap. -/
def opensCall (text : String) (pos : Nat) : Trace Bool := do
  let paren ← runWhile text pos Text.isGap
  if pos < (Key.bytes text).length then
    let after ← byte text pos
    return !Text.isWord (Char.ofUInt8 after) &&
      (Key.bytes text)[paren]?.any fun b => Char.ofUInt8 b == '('
  else return false

/-- Whether a stop stands at an offset. -/
def meets (text : String) (pos : Nat) (stop : String) : Trace Bool := do
  let bytes ← tail text pos
  if (Key.bytes stop).isPrefixOf bytes then
    if (Key.bytes stop).head?.any fun b => Text.isNameStart (Char.ofUInt8 b) then
      if ← followsWord text pos then return false
      else opensCall text (pos + (Key.bytes stop).length)
    else return true
  else return false

/-- The first of several stops that stands at an offset. -/
def meetsAny? (text : String) (pos : Nat) : List String → Trace (Option String)
  | [] => return none
  | stop :: stops => do
    if ← meets text pos stop then return some stop
    else meetsAny? text pos stops

/-- Goes on byte by byte to the first stop. -/
def upToFrom (text : String) (stops : List String) (pos : Nat) : Trace (Option String × Nat) := do
  if _ : pos < (Key.bytes text).length then
    match ← meetsAny? text pos stops with
    | some stop => return (some stop, pos)
    | none => upToFrom text stops (pos + 1)
  else return (none, pos)
termination_by (Key.bytes text).length - pos

/-- Copies text up to the first stop; without a stop, all that is left. -/
def upTo (text : String) (stops : List String) (pos : Nat) :
    Trace (String × Option String × Nat) := do
  match ← upToFrom text stops pos with
  | (some stop, last) => return (← slice text pos last, some stop, last)
  | (none, last) => return (← slice text pos (Key.bytes text).length, none, last)

/-! ### Balanced spans -/

/-- The stop or else the keyword that stands at an offset. -/
def ending? (text : String) (stops keywords : List String) (pos : Nat) :
    Trace (Option Cursor.Ending) := do
  match ← meetsAny? text pos stops with
  | some stop => return some (.stop stop)
  | none => return (← meetsAny? text pos keywords).map .keyword

/-- What stands at an offset, but at the depth zero only. -/
def endingAt? (text : String) (stops keywords : List String) (depth pos : Nat) :
    Trace (Option Cursor.Ending) :=
  if depth = 0 then ending? text stops keywords pos else return none

/-- Goes on, byte by byte and over whole strings, to where a piece ends. An error is the offset of a
string that is not closed. -/
def pieceFrom (text : String) (stops keywords : List String) (depth pos : Nat) :
    Trace (Except Nat (Cursor.Ending × Nat)) := do
  if _ : pos < (Key.bytes text).length then
    match ← endingAt? text stops keywords depth pos with
    | some ending => return .ok (ending, pos)
    | none =>
      let b ← byte text pos
      if Text.isQuote (Char.ofUInt8 b) then
        match ← insideLength? text pos with
        | some n => pieceFrom text stops keywords depth (pos + 1 + n + 1)
        | none => return .error pos
      else pieceFrom text stops keywords (Cursor.depthAfter depth (Char.ofUInt8 b)) (pos + 1)
  else return .ok (.finish, pos)
termination_by (Key.bytes text).length - pos

/-! ## At a boundary -/

section Boundaries

open Trace

variable {text : String} {c : Cursor} {first : Char} {chars rest : List Char} {p : Char → Bool}

theorem boundary_position (inText : c.source = text.toList) : Boundary text c.position :=
  ⟨c.position_le inText, c.isValid_position inText⟩

theorem reaches_tail (inText : c.source = text.toList) :
    Reaches text (tail text c.position) (.ok (encoded c.ahead)) := by
  unfold tail
  rw [if_pos (c.position_le inText), c.drop_position inText]
  exact reaches_pure _

theorem getElem?_position (inText : c.source = text.toList) :
    (Key.bytes text)[c.position]? = (encoded c.ahead).head? := by
  rw [← c.drop_position inText, List.head?_drop]

theorem reaches_byte (inText : c.source = text.toList) {b : UInt8}
    (head : (encoded c.ahead).head? = some b) : Reaches text (byte text c.position) (.ok b) := by
  unfold byte
  rw [getElem?_position inText, head]
  exact reaches_pure b

theorem reaches_runWhile (inText : c.source = text.toList) (bytewise : Text.Bytewise p) :
    Reaches text (runWhile text c.position p) (.ok (c.skip p).position) := by
  refine (reaches_tail inText).bind ?_
  rw [bytewise.takeWhile, Cursor.skip_eq_passed, Cursor.position_passed]
  exact reaches_pure _

/-- Between two places the text is what was read from one to the other. -/
theorem reaches_slice (inText : c.source = text.toList) (ahead : c.ahead = chars ++ rest) :
    Reaches text (slice text c.position (c.passed chars rest).position)
      (.ok (String.ofList chars)) := by
  have inText' := (Cursor.source_passed ahead).trans inText
  have ordered : c.position ≤ (c.passed chars rest).position := by
    rw [Cursor.position_passed]
    exact Nat.le_add_right _ _
  refine ⟨fun n member => ?_, ?_⟩
  · rcases List.mem_cons.mp member with rfl | member
    · exact boundary_position inText
    · rw [List.mem_singleton.mp member]
      exact boundary_position inText'
  · have whole : text = String.ofList c.behind.reverse ++
        (String.ofList chars ++ String.ofList rest) := by
      rw [← String.ofList_append, ← String.ofList_append, ← ahead, ← Cursor.source, inText,
        String.ofList_toList]
    have size (l : List Char) : (String.ofList l).toByteArray.size = (encoded l).length := by
      rw [String.toByteArray_ofList]
      exact List.size_toByteArray
    unfold slice
    rw [dif_pos ⟨c.isValid_position inText, Cursor.isValid_position inText', ordered⟩]
    refine congrArg Except.ok (String.toByteArray_inj.mp ?_)
    rw [String.toByteArray_extract]
    show text.toByteArray.extract c.position (c.passed chars rest).position = _
    rw [Cursor.position_passed, Cursor.position_eq, ← size, ← size, whole,
      String.toByteArray_append, String.toByteArray_append]
    exact (ByteArray.extract_append_size_add (i := 0)).trans (ByteArray.extract_append_eq_left rfl)

end Boundaries

end Buffer

/-! ## Operators of one character and of two -/

namespace Operator

theorem length_take_all : ∀ op ∈ all.take 6, op.symbol.toList.length = 2 := by decide

theorem length_drop_all : ∀ op ∈ all.drop 6, op.symbol.toList.length = 1 := by decide

theorem symbol_ascii {op : Operator} (listed : op ∈ all) : ∀ c ∈ op.symbol.toList, c.toNat < 0x80 := by
  have ascii : (all.all fun op => op.symbol.toList.all fun c => decide (c.toNat < 0x80)) = true := by
    decide
  exact forall_of_all (List.all_eq_true.mp ascii op listed)

theorem find?_all (p : Operator → Bool) :
    all.find? p = ((all.take 6).find? p).or ((all.drop 6).find? p) := by
  rw [← List.find?_append, List.take_append_drop]

variable {ops : List Operator} {n : Nat}

/-- Where all symbols have as many characters, one of them is found or is not by these alone. -/
theorem find?_isPrefixOf (chars rest : List Char)
    (same : ∀ op ∈ ops, op.symbol.toList.length = chars.length) :
    (ops.find? fun op => op.symbol.toList.isPrefixOf (chars ++ rest)) =
      ops.find? fun op => op.symbol == String.ofList chars := by
  refine List.find?_congr fun op listed => ?_
  rw [Bool.eq_iff_iff, List.isPrefixOf_iff_prefix, List.prefix_iff_eq_take, same op listed,
    List.take_left, beq_iff_eq, String.ext_iff, String.toList_ofList]

theorem find?_symbol_eq_none {chars : List Char} (length : ∀ op ∈ ops, op.symbol.toList.length = n)
    (differs : chars.length ≠ n) :
    (ops.find? fun op => op.symbol == String.ofList chars) = none := by
  refine List.find?_eq_none.mpr fun op listed same => differs ?_
  rw [← length op listed, beq_iff_eq.mp same, String.toList_ofList]

theorem atStart?_cons (first : Char) (tail : List Char) :
    atStart? (first :: tail) =
      (tail.head?.bind fun second => ofSymbol? (String.ofList [first, second])).or
        (ofSymbol? (String.ofList [first])) := by
  have single : ofSymbol? (String.ofList [first]) =
      (all.drop 6).find? fun op => op.symbol.toList.isPrefixOf (first :: tail) := by
    rw [ofSymbol?, find?_all, find?_symbol_eq_none length_take_all (by simp), Option.none_or]
    exact (find?_isPrefixOf [first] tail length_drop_all).symm
  rw [atStart?, find?_all, single]
  cases tail with
  | nil =>
    have short : ((all.take 6).find? fun op => op.symbol.toList.isPrefixOf [first]) = none := by
      refine List.find?_eq_none.mpr fun op listed found => ?_
      have := (List.isPrefixOf_iff_prefix.mp found).length_le
      rw [length_take_all op listed] at this
      exact absurd this (by simp)
    rw [short]
    rfl
  | cons second more =>
    have double : ofSymbol? (String.ofList [first, second]) =
        (all.take 6).find? fun op => op.symbol.toList.isPrefixOf (first :: second :: more) := by
      have none : ((all.drop 6).find? fun op => op.symbol == String.ofList [first, second]) =
          none := find?_symbol_eq_none length_drop_all (by simp)
      rw [ofSymbol?, find?_all, none, Option.or_none]
      exact (find?_isPrefixOf [first, second] more length_take_all).symm
    rw [List.head?_cons, Option.bind_some, double]

/-- No symbol has a character that is not ASCII. -/
theorem ofSymbol?_of_le (first : Char) {second : Char} (above : 0x80 ≤ second.toNat) :
    ofSymbol? (String.ofList [first, second]) = none := by
  refine List.find?_eq_none.mpr fun op listed same => Nat.not_lt.mpr above ?_
  refine symbol_ascii listed second ?_
  rw [beq_iff_eq.mp same, String.toList_ofList]
  exact List.mem_cons_of_mem _ List.mem_cons_self

end Operator

/-! ## Calls for a token -/

namespace Cursor

variable {c : Cursor} {first : Char} {tail : List Char} {p : Char → Bool}

theorem quotedLength?_eq_none (ahead : c.ahead = first :: tail) :
    c.quotedLength? = none ↔ first ∉ tail := by
  constructor
  · intro none member
    obtain ⟨inside, rest, parts, bare⟩ := List.eq_append_cons_of_mem member
    have found := (quotedLength?_eq_some ahead).mpr ⟨inside, rest, parts, bare, rfl⟩
    rw [none] at found
    cases found
  · intro bare
    cases found : c.quotedLength? with
    | none => rfl
    | some n =>
      obtain ⟨inside, rest, rfl, _⟩ := (quotedLength?_eq_some ahead).mp found
      exact absurd (List.mem_append_right inside List.mem_cons_self) bare

theorem source_skip (c : Cursor) (p : Char → Bool) : (c.skip p).source = c.source :=
  c.source_advance _

theorem head_skip (ahead : (c.skip p).ahead = first :: tail) : p first = false := by
  rw [skip_eq_passed] at ahead
  have ends := Text.ends_dropWhile p c.ahead
  rw [show c.ahead.dropWhile p = first :: tail from ahead] at ends
  exact Text.ends_cons.mp ends

/-- What a call for the next token comes to, with the place behind it, also where it fails. -/
def tokenCall (c : Cursor) : Except CompileError (Option Token) × Cursor :=
  match c.next with
  | .ok (token, d) => (.ok token, d)
  | .error fault => (.error fault.error, fault.place)

theorem source_tokenCall (c : Cursor) : c.tokenCall.2.source = c.source := by
  unfold tokenCall
  cases read : c.next with
  | ok found =>
    obtain ⟨token, d⟩ := found
    show d.source = c.source
    cases token with
    | none => rw [(next_eq_none read).1, source_skip]
    | some t =>
      obtain ⟨blanks, chars, rest, ahead, _, _, _, rfl⟩ :=
        next_iff.mp (next_iff_next.mpr read)
      exact source_passed (by rw [ahead, List.append_assoc])
  | error fault =>
    show fault.place.source = c.source
    rw [next_eq_error read, source_skip]

end Cursor

namespace Buffer

open Trace

section Tokens

variable {text : String} {c : Cursor} {first : Char} {tail chars rest : List Char} {p : Char → Bool}

theorem position_single (ascii : first.toNat < 0x80) (tail : List Char) :
    (c.passed [first] tail).position = c.position + 1 := by
  obtain ⟨b, spelled, _⟩ := Text.utf8EncodeChar_of_lt ascii
  rw [Cursor.position_passed, Text.encoded_cons, spelled]
  rfl

theorem reaches_operator? (inText : c.source = text.toList) (ahead : c.ahead = first :: tail)
    (ascii : first.toNat < 0x80) :
    Reaches text (operator? text c.position first) (.ok (Operator.atStart? c.ahead)) := by
  have inText' : (c.passed [first] tail).source = text.toList :=
    (Cursor.source_passed ahead).trans inText
  have double : ((Key.bytes text)[c.position + 1]?.bind fun b =>
      Operator.ofSymbol? (String.ofList [first, Char.ofUInt8 b])) =
        tail.head?.bind fun second => Operator.ofSymbol? (String.ofList [first, second]) := by
    rw [← position_single ascii tail, getElem?_position inText']
    show (encoded tail).head?.bind _ = _
    cases tail with
    | nil => rfl
    | cons second more =>
      rw [Text.encoded_cons]
      by_cases ascii' : second.toNat < 0x80
      · obtain ⟨b, spelled, same⟩ := Text.utf8EncodeChar_of_lt ascii'
        rw [spelled]
        exact congrArg (fun c => Operator.ofSymbol? (String.ofList [first, c])) same
      · have above : 0x80 ≤ second.toNat := Nat.le_of_not_lt ascii'
        obtain ⟨b, bytes, spelled⟩ :=
          List.exists_cons_of_ne_nil (String.utf8EncodeChar_ne_nil (c := second))
        have above' : 0x80 ≤ (Char.ofUInt8 b).toNat := by
          rw [Text.toNat_ofUInt8]
          exact Text.le_toNat_of_mem above (spelled ▸ List.mem_cons_self)
        rw [spelled]
        exact (Operator.ofSymbol?_of_le first above').trans
          (Operator.ofSymbol?_of_le first above).symm
  rw [ahead, Operator.atStart?_cons]
  simp only [operator?, double]
  cases tail.head?.bind fun second => Operator.ofSymbol? (String.ofList [first, second]) with
  | some op => exact reaches_pure (some op)
  | none =>
    rw [Option.none_or]
    by_cases half : first = '&' ∨ first = '|'
    · have alone : Operator.ofSymbol? (String.ofList [first]) = none := by
        rcases half with rfl | rfl <;> decide
      simp only [if_pos half, alone]
      exact reaches_pure none
    · have sliced : Reaches text (slice text c.position (c.passed [first] tail).position)
          (.ok (String.ofList [first])) := reaches_slice inText ahead
      rw [position_single ascii] at sliced
      simp only [if_neg half]
      exact sliced.bind (reaches_pure _)

/-- A quote byte stands where the quote does. -/
theorem bne_quote {quote : Char} {b : UInt8} (same : Char.ofUInt8 b = quote) :
    (fun x : UInt8 => x != b) = fun x => Char.ofUInt8 x != quote := by
  funext x
  rw [Bool.eq_iff_iff, bne_iff_ne, bne_iff_ne, ← same]
  refine not_congr ⟨congrArg Char.ofUInt8, fun equal => UInt8.toNat_inj.mp ?_⟩
  rw [← Text.toNat_ofUInt8, equal, Text.toNat_ofUInt8]

theorem reaches_insideLength? (inText : c.source = text.toList) (ahead : c.ahead = first :: tail)
    (isQuote : Text.isQuote first = true) :
    Reaches text (insideLength? text c.position)
      (.ok (if (encoded (tail.takeWhile (· != first))).length < (encoded tail).length then
        some (encoded (tail.takeWhile (· != first))).length else none)) := by
  have ascii := Text.lt_of_isQuote isQuote
  have inText' : (c.passed [first] tail).source = text.toList :=
    (Cursor.source_passed ahead).trans inText
  obtain ⟨b, spelled, same⟩ := Text.utf8EncodeChar_of_lt ascii
  have head : (encoded c.ahead).head? = some b := by
    rw [ahead, Text.encoded_cons, spelled]
    rfl
  have behind := reaches_tail inText'
  rw [position_single ascii] at behind
  refine (reaches_byte inText head).bind (behind.bind ?_)
  show Reaches text
    (pure (if ((encoded tail).takeWhile (· != b)).length < (encoded tail).length then
      some ((encoded tail).takeWhile (· != b)).length else none)) _
  rw [bne_quote same, (Text.bytewise_ne ascii).takeWhile]
  exact reaches_pure _

/-- The string is closed by the first quote behind the one that opens it. -/
theorem reaches_insideLength?_some (inText : c.source = text.toList)
    (ahead : c.ahead = first :: (chars ++ first :: rest)) (isQuote : Text.isQuote first = true)
    (bare : first ∉ chars) :
    Reaches text (insideLength? text c.position) (.ok (some (encoded chars).length)) := by
  have inside : (chars ++ first :: rest).takeWhile (· != first) = chars := by
    refine Text.Ends.takeWhile (Text.ends_cons.mpr (by simp)) fun x member => ?_
    simpa using ne_of_mem_of_not_mem member bare
  have found := reaches_insideLength? inText ahead isQuote
  rw [inside, if_pos] at found
  · exact found
  · rw [encoded_append, List.length_append, Text.encoded_cons, List.length_append,
      String.length_utf8EncodeChar]
    have := first.utf8Size_pos
    omega

theorem reaches_insideLength?_none (inText : c.source = text.toList)
    (ahead : c.ahead = first :: tail) (isQuote : Text.isQuote first = true) (bare : first ∉ tail) :
    Reaches text (insideLength? text c.position) (.ok none) := by
  have inside : tail.takeWhile (· != first) = tail := by
    refine List.takeWhile_eq_self_iff.mpr fun x member => ?_
    simpa using ne_of_mem_of_not_mem member bare
  have found := reaches_insideLength? inText ahead isQuote
  rw [inside, if_neg (Nat.lt_irrefl _)] at found
  exact found

/-- The text between the quotes of a string. -/
theorem reaches_inside (inText : c.source = text.toList)
    (ahead : c.ahead = first :: (chars ++ first :: rest)) (isQuote : Text.isQuote first = true) :
    Reaches text (slice text (c.position + 1) (c.position + 1 + (encoded chars).length))
      (.ok (String.ofList chars)) := by
  have inText' : (c.passed [first] (chars ++ first :: rest)).source = text.toList :=
    (Cursor.source_passed ahead).trans inText
  have sliced : Reaches text
    (slice text _ ((c.passed [first] _).passed chars (first :: rest)).position)
    (.ok (String.ofList chars)) := reaches_slice inText' rfl
  rw [(c.passed [first] _).position_passed, position_single (Text.lt_of_isQuote isQuote)] at sliced
  exact sliced

/-- The offset behind a string. -/
theorem position_string (isQuote : Text.isQuote first = true) :
    (c.passed (first :: (chars ++ [first])) rest).position =
      c.position + 1 + (encoded chars).length + 1 := by
  obtain ⟨b, spelled, _⟩ := Text.encoded_quote isQuote
  rw [Cursor.position_passed, Text.encoded_cons, encoded_append, Text.encoded_cons, spelled]
  simp [encoded]
  omega

/-- What a lexeme comes to, with offsets in the place of places. -/
def located (c : Cursor) (read : Except Fault (Token × Nat)) : Except LexCause (Token × Nat) :=
  (read.map fun found => (found.1, (c.advance found.2).position)).mapError Fault.cause

theorem reaches_lexeme (inText : c.source = text.toList) (ahead : c.ahead = first :: tail)
    (kept : Text.isIgnored first = false) :
    Reaches text (lexeme text c.position first) (.ok (located c (c.lexeme first))) := by
  unfold lexeme Cursor.lexeme
  by_cases isName : Text.isNameStart first = true
  · rw [if_pos isName, if_pos isName]
    have run := reaches_runWhile inText Text.bytewise_isWord
    rw [Cursor.skip_eq_passed] at run
    refine run.bind ((reaches_slice inText List.takeWhile_append_dropWhile.symm).bind ?_)
    rw [String.toList_ofList, ← Cursor.advance_eq_passed List.takeWhile_append_dropWhile.symm]
    exact reaches_pure _
  · rw [if_neg isName, if_neg isName]
    by_cases isDigit : first.isDigit = true
    · rw [if_pos isDigit, if_pos isDigit]
      have run := reaches_runWhile inText Text.bytewise_isNumeric
      rw [Cursor.skip_eq_passed] at run
      refine run.bind ((reaches_slice inText List.takeWhile_append_dropWhile.symm).bind ?_)
      rw [String.toList_ofList, ← Cursor.advance_eq_passed List.takeWhile_append_dropWhile.symm]
      show Reaches text (if Literal.isNumeral (c.ahead.takeWhile Text.isNumeric) then _ else _)
        (.ok (located c (if Literal.isNumeral (c.ahead.takeWhile Text.isNumeric) then _ else _)))
      split
      · exact reaches_pure _
      · exact reaches_pure _
    · rw [if_neg isDigit, if_neg isDigit]
      by_cases isQuote : Text.isQuote first = true
      · rw [if_pos isQuote, if_pos isQuote]
        by_cases member : first ∈ tail
        · obtain ⟨inside, rest, rfl, bare⟩ := List.eq_append_cons_of_mem member
          have found := (Cursor.quotedLength?_eq_some ahead).mpr ⟨inside, rest, rfl, bare, rfl⟩
          have parts : c.ahead = (first :: (inside ++ [first])) ++ rest := by simp [ahead]
          have length : inside.length + 2 = (first :: (inside ++ [first])).length := by simp
          have spelled : (c.ahead.take (inside.length + 2 - 1)).drop 1 = inside := by simp [ahead]
          refine (reaches_insideLength?_some inText ahead isQuote bare).bind
            ((reaches_inside inText ahead isQuote).bind ?_)
          rw [found, ← position_string isQuote, ← Cursor.advance_eq_passed parts, ← length]
          simp only [spelled]
          exact reaches_pure _
        · rw [(Cursor.quotedLength?_eq_none ahead).mpr member]
          exact (reaches_insideLength?_none inText ahead isQuote member).bind (reaches_pure _)
      · rw [if_neg isQuote, if_neg isQuote]
        -- All other classes are ruled out, so one byte is one character here.
        have isOperator : Text.isOperator first = true := by
          simpa [Text.isIgnored, Text.isWord, isName, isDigit, isQuote] using kept
        refine (reaches_operator? inText ahead (Text.lt_of_isOperator isOperator)).bind ?_
        cases found : Operator.atStart? c.ahead with
        | none => exact reaches_pure _
        | some op =>
          obtain ⟨rest, spelled⟩ := Operator.atStart?_eq_some found
          have moved : (c.advance op.symbol.length).position =
              c.position + (Key.bytes op.symbol).length := by
            rw [← String.length_toList, Cursor.advance_eq_passed spelled, Cursor.position_passed]
            rfl
          show Reaches text (pure (Except.ok (_, c.position + (Key.bytes op.symbol).length))) _
          rw [← moved]
          exact reaches_pure _

theorem reaches_next (inText : c.source = text.toList) :
    Reaches text (next text c.position) (.ok (c.tokenCall.1, c.tokenCall.2.position)) := by
  have inText' := (Cursor.source_skip c Text.isIgnored).trans inText
  refine (reaches_runWhile inText Text.bytewise_isIgnored).bind ?_
  rw [getElem?_position inText']
  cases ahead : (c.skip Text.isIgnored).ahead with
  | nil =>
    have ended : c.next = .ok (none, c.skip Text.isIgnored) := by
      simp only [Cursor.next, ahead]
    rw [Cursor.tokenCall, ended]
    exact reaches_pure _
  | cons first tail =>
    have kept : Text.isIgnored first = false := Cursor.head_skip ahead
    obtain ⟨b, spelled, same⟩ := Text.utf8EncodeChar_of_lt (Text.lt_of_not_isIgnored kept)
    rw [Text.encoded_cons, spelled]
    show Reaches text (lexeme text _ (Char.ofUInt8 b) >>= _) _
    rw [same]
    refine (reaches_lexeme inText' ahead kept).bind ?_
    cases read : (c.skip Text.isIgnored).lexeme first with
    | ok found =>
      have next : c.next = .ok (some found.1, (c.skip Text.isIgnored).advance found.2) := by
        simp only [Cursor.next, ahead, read]
      rw [Cursor.tokenCall, next]
      exact reaches_pure _
    | error fault =>
      have next : c.next = .error fault := by
        simp only [Cursor.next, ahead, read]
      have place := Cursor.lexeme_eq_error read
      rw [Cursor.tokenCall, next]
      show Reaches text
        (pure (Except.error (CompileError.lex (c.skip Text.isIgnored).position fault.cause),
          (c.skip Text.isIgnored).position))
        (.ok (Except.error (CompileError.lex fault.place.position fault.cause),
          fault.place.position))
      rw [place]
      exact reaches_pure _

/-- From a place to the end, the text is what lies ahead. -/
theorem reaches_rest (inText : c.source = text.toList) :
    Reaches text (slice text c.position (Key.bytes text).length) (.ok c.remaining) := by
  have last : (c.passed c.ahead []).position = (Key.bytes text).length := by
    rw [Cursor.position_passed, c.length_bytes inText]
  rw [← last]
  exact reaches_slice inText (List.append_nil _).symm

theorem reaches_remaining (inText : c.source = text.toList) :
    Reaches text (remaining text c.position) (.ok c.remaining) := by
  unfold remaining
  rw [if_pos (c.isValid_position inText)]
  exact reaches_rest inText

end Tokens

end Buffer

end StyleFlags
