import StyleFlags.Proofs.Keys
import StyleFlags.Proofs.Lexemes

/-!
# The bytes of a text

In UTF-8 every byte of a character that is not ASCII is above all ASCII bytes, and no byte inside
of a character begins one. So a class of characters that does not tell such characters apart can be
tested byte by byte, and what begins with a whole character is found at the boundaries of characters
only.

Results:
1. `Text.Bytewise.takeWhile`: runs of a class are the same in bytes.
2. `Text.encoded_prefix_iff`, `Text.not_prefix_inside`: a text is found at a boundary exactly if its
   characters stand there, and inside of a character not at all.
3. `Cursor.bytes_eq`, `Cursor.isValid_position`: the position of a cursor is a boundary, and it cuts
   the bytes into those behind and those ahead.
-/

namespace StyleFlags

open Key (encoded encoded_append)

namespace Text

/-! ## The bytes of a character -/

/-- Whether all characters that are not ASCII are alike. -/
def Bytewise (p : Char → Bool) : Prop :=
  ∀ c d : Char, 0x80 ≤ c.toNat → 0x80 ≤ d.toNat → p c = p d

theorem encoded_cons (c : Char) (rest : List Char) :
    encoded (c :: rest) = String.utf8EncodeChar c ++ encoded rest := List.flatMap_cons

theorem toNat_ofUInt8 (b : UInt8) : (Char.ofUInt8 b).toNat = b.toNat := by
  show b.toUInt32.toNat = b.toNat
  simp

/-- An ASCII character is a single byte, with the code of the character. -/
theorem utf8EncodeChar_of_lt {c : Char} (ascii : c.toNat < 0x80) :
    ∃ b, String.utf8EncodeChar c = [b] ∧ Char.ofUInt8 b = c := by
  have small : c.val.toNat < 0x80 := ascii
  have one : c.utf8Size = 1 := by
    rw [Char.utf8Size_eq_one_iff, UInt32.le_iff_toNat_le]
    show c.val.toNat ≤ 127
    omega
  refine ⟨_, String.utf8EncodeChar_eq_singleton one, ?_⟩
  apply Char.ext
  apply UInt32.toNat_inj.mp
  show c.val.toUInt8.toUInt32.toNat = c.val.toNat
  rw [UInt8.toNat_toUInt32, UInt32.toNat_toUInt8]
  exact Nat.mod_eq_of_lt (Nat.lt_of_lt_of_le small (by decide))

/-- All bytes of other characters are above the ASCII bytes. -/
theorem le_toNat_of_mem {c : Char} (above : 0x80 ≤ c.toNat) {b : UInt8}
    (member : b ∈ String.utf8EncodeChar c) : 0x80 ≤ b.toNat := by
  have marked (x y : UInt8) (high : 0x80 ≤ y.toNat) : 0x80 ≤ (x ||| y).toNat := by
    rw [UInt8.toNat_or]
    exact Nat.le_trans high Nat.right_le_or
  have notOne : c.utf8Size ≠ 1 := by
    rw [ne_eq, Char.utf8Size_eq_one_iff, UInt32.le_iff_toNat_le]
    show ¬c.val.toNat ≤ 127
    have : 0x80 ≤ c.val.toNat := above
    omega
  rcases Char.utf8Size_eq c with one | two | three | four
  · exact absurd one notOne
  · rw [String.utf8EncodeChar_eq_cons_cons two] at member
    simp only [List.mem_cons, List.not_mem_nil, or_false] at member
    rcases member with rfl | rfl <;> exact marked _ _ (by decide)
  · rw [String.utf8EncodeChar_eq_cons_cons_cons three] at member
    simp only [List.mem_cons, List.not_mem_nil, or_false] at member
    rcases member with rfl | rfl | rfl <;> exact marked _ _ (by decide)
  · rw [String.utf8EncodeChar_eq_cons_cons_cons_cons four] at member
    simp only [List.mem_cons, List.not_mem_nil, or_false] at member
    rcases member with rfl | rfl | rfl | rfl <;> exact marked _ _ (by decide)

/-- Every byte of a character has the class of the character. -/
theorem Bytewise.of_mem {p : Char → Bool} (bytewise : Bytewise p) {c : Char} {b : UInt8}
    (member : b ∈ String.utf8EncodeChar c) : p (Char.ofUInt8 b) = p c := by
  by_cases ascii : c.toNat < 0x80
  · obtain ⟨only, spelled, same⟩ := utf8EncodeChar_of_lt ascii
    rw [spelled, List.mem_singleton] at member
    rw [member, same]
  · have above : 0x80 ≤ c.toNat := Nat.le_of_not_lt ascii
    refine bytewise _ _ ?_ above
    rw [toNat_ofUInt8]
    exact le_toNat_of_mem above member

/-! ## Classes -/

theorem bytewise_of_lt {p : Char → Bool} (ascii : ∀ c, p c = true → c.toNat < 0x80) :
    Bytewise p := by
  have other (c : Char) (above : 0x80 ≤ c.toNat) : p c = false := by
    cases holds : p c with
    | false => rfl
    | true => exact absurd (ascii c holds) (Nat.not_lt.mpr above)
  intro c d hc hd
  rw [other c hc, other d hd]

theorem Bytewise.not {p : Char → Bool} (bytewise : Bytewise p) : Bytewise fun c => !p c :=
  fun c d hc hd => congrArg Bool.not (bytewise c d hc hd)

theorem Bytewise.and {p q : Char → Bool} (hp : Bytewise p) (hq : Bytewise q) :
    Bytewise fun c => p c && q c := by
  intro c d hc hd
  show (p c && q c) = (p d && q d)
  rw [hp c d hc hd, hq c d hc hd]

theorem lt_of_isDigit {c : Char} (isDigit : c.isDigit = true) : c.toNat < 0x80 := by
  have := Name.toNat_of_isDigit isDigit
  omega

theorem lt_of_isNameStart {c : Char} (isName : isNameStart c = true) : c.toNat < 0x80 := by
  simp only [isNameStart, Bool.or_eq_true, beq_iff_eq] at isName
  rcases isName with (alpha | rfl) | rfl
  · have := Name.toNat_of_isAlpha alpha
    omega
  · decide
  · decide

theorem lt_of_isWord {c : Char} (word : isWord c = true) : c.toNat < 0x80 := by
  rcases (Bool.or_eq_true _ _).mp word with isName | isDigit
  · exact lt_of_isNameStart isName
  · exact lt_of_isDigit isDigit

theorem lt_of_isQuote {c : Char} (quote : isQuote c = true) : c.toNat < 0x80 := by
  simp only [isQuote, Bool.or_eq_true, beq_iff_eq] at quote
  rcases quote with rfl | rfl <;> decide

theorem lt_of_isOperator {c : Char} (operator : isOperator c = true) : c.toNat < 0x80 := by
  have all : ∀ d ∈ "|&=!<>-()\x7b\x7d[]:,;.".toList, d.toNat < 0x80 := forall_of_all (by decide)
  exact all c (List.contains_iff_mem.mp operator)

theorem lt_of_not_isIgnored {c : Char} (kept : isIgnored c = false) : c.toNat < 0x80 := by
  simp only [isIgnored, Bool.and_eq_false_iff, Bool.not_eq_eq_eq_not, Bool.not_false] at kept
  rcases kept with (word | quote) | operator
  · exact lt_of_isWord word
  · exact lt_of_isQuote quote
  · exact lt_of_isOperator operator

theorem lt_of_isGap {c : Char} (gap : isGap c = true) : c.toNat < 0x80 := by
  simp only [isGap, Bool.or_eq_true, beq_iff_eq] at gap
  rcases gap with (((rfl | rfl) | rfl) | rfl) | rfl <;> decide

theorem bytewise_isNameStart : Bytewise isNameStart := bytewise_of_lt fun _ => lt_of_isNameStart

theorem bytewise_isWord : Bytewise isWord := bytewise_of_lt fun _ => lt_of_isWord

theorem bytewise_isQuote : Bytewise isQuote := bytewise_of_lt fun _ => lt_of_isQuote

theorem bytewise_isGap : Bytewise isGap := bytewise_of_lt fun _ => lt_of_isGap

theorem bytewise_isNumeric : Bytewise isNumeric := by
  refine bytewise_of_lt fun c numeric => ?_
  rcases (Bool.or_eq_true _ _).mp numeric with isDigit | point
  · exact lt_of_isDigit isDigit
  · rw [beq_iff_eq.mp point]
    decide

theorem bytewise_isIgnored : Bytewise isIgnored :=
  (bytewise_isWord.not.and bytewise_isQuote.not).and
    (bytewise_of_lt fun _ => lt_of_isOperator).not

theorem bytewise_beq {q : Char} (ascii : q.toNat < 0x80) : Bytewise (· == q) := by
  refine bytewise_of_lt fun c same => ?_
  rwa [beq_iff_eq.mp same]

theorem bytewise_ne {q : Char} (ascii : q.toNat < 0x80) : Bytewise (· != q) := (bytewise_beq ascii).not

/-! ## Runs -/

section Runs

variable {p : Char → Bool}

theorem Bytewise.takeWhile (bytewise : Bytewise p) (l : List Char) :
    (encoded l).takeWhile (fun b => p (Char.ofUInt8 b)) = encoded (l.takeWhile p) := by
  induction l with
  | nil => rfl
  | cons c rest ih =>
    rw [encoded_cons]
    cases holds : p c with
    | true =>
      have all : ∀ b ∈ String.utf8EncodeChar c, p (Char.ofUInt8 b) = true := fun b member => by
        rw [bytewise.of_mem member, holds]
      rw [List.takeWhile_append_of_pos all, ih, List.takeWhile_cons_of_pos holds, encoded_cons]
    | false =>
      obtain ⟨first, tail, spelled⟩ := List.exists_cons_of_ne_nil (String.utf8EncodeChar_ne_nil (c := c))
      have fails : ¬p (Char.ofUInt8 first) = true := by
        rw [bytewise.of_mem (spelled ▸ List.mem_cons_self), holds]
        exact Bool.false_ne_true
      have none : ¬p c = true := by
        rw [holds]
        exact Bool.false_ne_true
      rw [spelled, List.cons_append, List.takeWhile_cons, if_neg fails,
        List.takeWhile_cons_of_neg none]
      rfl

theorem Bytewise.any_head? (bytewise : Bytewise p) (l : List Char) :
    ((encoded l).head?.any fun b => p (Char.ofUInt8 b)) = l.head?.any p := by
  cases l with
  | nil => rfl
  | cons c rest =>
    obtain ⟨first, tail, spelled⟩ := List.exists_cons_of_ne_nil (String.utf8EncodeChar_ne_nil (c := c))
    rw [encoded_cons, spelled]
    exact bytewise.of_mem (spelled ▸ List.mem_cons_self)

theorem Bytewise.any_getLast? (bytewise : Bytewise p) (l : List Char) :
    ((encoded l).getLast?.any fun b => p (Char.ofUInt8 b)) = l.getLast?.any p := by
  rcases List.eq_nil_or_concat l with rfl | ⟨init, c, rfl⟩
  · rfl
  · obtain ⟨front, last, spelled⟩ := (List.eq_nil_or_concat (String.utf8EncodeChar c)).resolve_left
      String.utf8EncodeChar_ne_nil
    have whole : encoded (init.concat c) = (encoded init ++ front).concat last := by
      rw [List.concat_eq_append, encoded_append, encoded_cons, spelled]
      simp [encoded]
    rw [whole, List.concat_eq_append, List.concat_eq_append, List.getLast?_concat,
      List.getLast?_concat]
    exact bytewise.of_mem (by simp [spelled])

end Runs

/-! ## Where a text is found -/

theorem encoded_prefix_iff {a b : List Char} : encoded a <+: encoded b ↔ a <+: b := by
  constructor
  · intro found
    obtain ⟨rest, parts⟩ := found
    refine List.isPrefix_of_utf8Encode_append_eq_utf8Encode (l := a) (m := b) rest.toByteArray ?_
    show (encoded a).toByteArray ++ rest.toByteArray = (encoded b).toByteArray
    rw [← parts, List.toByteArray_append]
  · intro found
    obtain ⟨rest, rfl⟩ := found
    exact ⟨encoded rest, (encoded_append a rest).symm⟩

/-- Inside of a character no text is found but the empty one. -/
theorem not_prefix_inside {c : Char} {front back rest : List UInt8} {wanted : List Char}
    (parts : String.utf8EncodeChar c = front ++ back) (inside : front ≠ []) (more : back ≠ [])
    (nonempty : wanted ≠ []) : ¬encoded wanted <+: back ++ rest := by
  intro found
  obtain ⟨first, others, rfl⟩ := List.exists_cons_of_ne_nil nonempty
  obtain ⟨byte, bytes, rfl⟩ := List.exists_cons_of_ne_nil more
  obtain ⟨begin, tail, spelled⟩ :=
    List.exists_cons_of_ne_nil (String.utf8EncodeChar_ne_nil (c := first))
  have same : begin = byte := by
    obtain ⟨_, parts⟩ := found
    rw [encoded_cons, spelled] at parts
    exact (List.cons.inj parts).1
  -- The first byte of `wanted` begins a character, and the one behind `front` does not.
  have begins : begin.IsUTF8FirstByte := by
    have there : (String.utf8EncodeChar first)[0]? = some begin := by rw [spelled]; rfl
    obtain ⟨bound, found⟩ := List.getElem?_eq_some_iff.mp there
    rw [← found]
    exact UInt8.isUTF8FirstByte_getElem_utf8EncodeChar.mpr rfl
  have there : (String.utf8EncodeChar c)[front.length]? = some begin := by
    rw [parts, same]
    simp
  obtain ⟨bound, found⟩ := List.getElem?_eq_some_iff.mp there
  rw [← found, UInt8.isUTF8FirstByte_getElem_utf8EncodeChar] at begins
  exact inside (List.length_eq_zero_iff.mp begins)

end Text

/-! ## Positions -/

namespace Cursor

variable {c : Cursor} {text : String}

theorem position_eq (c : Cursor) : c.position = (encoded c.behind.reverse).length := by
  have sum (l : List Char) (n : Nat) :
      l.foldl (fun n char => n + char.utf8Size) n = n + (encoded l.reverse).length := by
    induction l generalizing n with
    | nil => rfl
    | cons first rest ih =>
      rw [List.foldl_cons, ih, List.reverse_cons, encoded_append, List.length_append]
      simp only [Text.encoded_cons, List.length_append, String.length_utf8EncodeChar]
      simp [encoded]
      omega
  rw [position, sum, Nat.zero_add]

theorem position_passed (chars rest : List Char) :
    (c.passed chars rest).position = c.position + (encoded chars).length := by
  rw [position_eq, position_eq, passed, List.reverse_append, List.reverse_reverse, encoded_append,
    List.length_append]

/-- The bytes of a text are those behind a place in it and those ahead. -/
theorem bytes_eq (within : c.source = text.toList) :
    Key.bytes text = encoded c.behind.reverse ++ encoded c.ahead := by
  rw [← encoded_append]
  show encoded text.toList = _
  rw [← within, source]

theorem length_bytes (within : c.source = text.toList) :
    (Key.bytes text).length = c.position + (encoded c.ahead).length := by
  rw [bytes_eq within, List.length_append, position_eq]

theorem drop_position (within : c.source = text.toList) :
    (Key.bytes text).drop c.position = encoded c.ahead := by
  rw [bytes_eq within, position_eq, List.drop_left]

theorem position_le (within : c.source = text.toList) : c.position ≤ (Key.bytes text).length := by
  rw [length_bytes within]
  exact Nat.le_add_right _ _

/-- The position of a place in a text is on the boundary of a character. -/
theorem isValid_position (within : c.source = text.toList) :
    (⟨c.position⟩ : String.Pos.Raw).IsValid text := by
  have whole : text = String.ofList c.behind.reverse ++ String.ofList c.ahead := by
    rw [← String.ofList_append, ← source, within, String.ofList_toList]
  have ends : (⟨c.position⟩ : String.Pos.Raw) = (String.ofList c.behind.reverse).rawEndPos := by
    rw [position_eq]
    apply String.Pos.Raw.ext
    rw [String.byteIdx_rawEndPos, ← String.size_toByteArray, String.toByteArray_ofList]
    show _ = (encoded c.behind.reverse).toByteArray.size
    rw [List.size_toByteArray]
  rw [whole, ends]
  exact String.Pos.Raw.isValid_rawEndPos.append_right _

end Cursor

end StyleFlags
