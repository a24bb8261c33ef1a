import StyleFlags.Proofs.Buffer
import StyleFlags.Proofs.Spans
import StyleFlags.Proofs.Untouched

/-!
# Crossing characters byte by byte

Scanning for a stop goes on by one byte at a time, so between two characters it tests every offset
inside of the first. No stop is met there: a text other than the empty one begins with the first
byte of a character, and the empty one was met before, at the boundary. What is not ASCII does not
change the depth and opens no string either. So only boundaries count.

Results:
1. `Buffer.reaches_meets`, `Buffer.reaches_meets_inside`: what is met at a boundary, and inside of a
   character.
2. `Buffer.reaches_across`: from one character to the next.
3. `Buffer.reaches_upTo`, `Buffer.reaches_pieceFrom`: text up to a stop, and pieces of balanced
   spans.
-/

namespace StyleFlags

open Key (encoded encoded_append)

namespace Buffer

open Trace

/-! ## Stops -/

section Stops

variable {text : String} {c : Cursor} {first : Char} {tail : List Char} {stop : String}
  {stops : List String} {k : Nat}

theorem position_add_le (inText : c.source = text.toList) (ahead : c.ahead = first :: tail) :
    c.position + first.utf8Size ≤ (Key.bytes text).length := by
  rw [c.length_bytes inText, ahead, Text.encoded_cons, List.length_append,
    String.length_utf8EncodeChar, ← Nat.add_assoc]
  exact Nat.le_add_right _ _

theorem position_lt_length (inText : c.source = text.toList) (ahead : c.ahead = first :: tail) :
    c.position < (Key.bytes text).length :=
  Nat.lt_of_lt_of_le (Nat.lt_add_of_pos_right first.utf8Size_pos) (position_add_le inText ahead)

theorem not_position_lt (inText : c.source = text.toList) (ahead : c.ahead = []) :
    ¬c.position < (Key.bytes text).length := by
  rw [c.length_bytes inText, ahead]
  exact Nat.lt_irrefl _

theorem reaches_followsWord (inText : c.source = text.toList) :
    Reaches text (followsWord text c.position) (.ok (c.behind.head?.any Text.isWord)) := by
  unfold followsWord
  by_cases none : c.behind = []
  · have zero : c.position = 0 := by
      rw [Cursor.position, none]
      rfl
    rw [if_pos zero, none]
    exact reaches_pure false
  · have nonempty : encoded c.behind.reverse ≠ [] := by
      obtain ⟨last, others, behind⟩ := List.exists_cons_of_ne_nil none
      rw [behind, List.reverse_cons, encoded_append, Text.encoded_cons]
      simp [String.utf8EncodeChar_ne_nil]
    have before : 0 < c.position := by
      rw [Cursor.position_eq]
      exact List.length_pos_iff.mpr nonempty
    obtain ⟨b, last⟩ := Option.ne_none_iff_exists'.mp (mt List.getLast?_eq_none_iff.mp nonempty)
    have found : (Key.bytes text)[c.position - 1]? = some b := by
      rw [c.bytes_eq inText, ← last, List.getLast?_eq_getElem?, ← Cursor.position_eq,
        List.getElem?_append_left]
      rw [← Cursor.position_eq]
      exact Nat.sub_one_lt (Nat.ne_of_gt before)
    have isWord := Text.bytewise_isWord.any_getLast? c.behind.reverse
    rw [last, List.getLast?_reverse] at isWord
    unfold byte
    rw [if_neg (Nat.ne_of_gt before), found, ← isWord]
    exact (reaches_pure b).bind (reaches_pure _)

theorem reaches_opensCall (inText : c.source = text.toList) :
    Reaches text (opensCall text c.position) (.ok (!c.ahead.head?.any Text.isWord &&
      (c.ahead.dropWhile Text.isGap).head? == some '(')) := by
  have inText' := (Cursor.source_skip c Text.isGap).trans inText
  have left : (c.skip Text.isGap).ahead = c.ahead.dropWhile Text.isGap := by
    rw [Cursor.skip_eq_passed]
    rfl
  refine (reaches_runWhile inText Text.bytewise_isGap).bind ?_
  cases ahead : c.ahead with
  | nil =>
    rw [if_neg (not_position_lt inText ahead)]
    exact reaches_pure false
  | cons first tail =>
    obtain ⟨b, bytes, spelled⟩ :=
      List.exists_cons_of_ne_nil (String.utf8EncodeChar_ne_nil (c := first))
    have head : (encoded c.ahead).head? = some b := by
      rw [ahead, Text.encoded_cons, spelled]
      rfl
    have paren : ((first :: tail).dropWhile Text.isGap).head?.any (· == '(') =
        (((first :: tail).dropWhile Text.isGap).head? == some '(') := by
      cases ((first :: tail).dropWhile Text.isGap).head? with
      | none => rfl
      | some x => rfl
    rw [if_pos (position_lt_length inText ahead), getElem?_position inText', left, ahead,
      (Text.bytewise_beq (by decide)).any_head?]
    refine (reaches_byte inText head).bind ?_
    rw [Text.bytewise_isWord.of_mem (spelled ▸ List.mem_cons_self), paren]
    exact reaches_pure _

theorem reaches_meets (inText : c.source = text.toList) (stop : String) :
    Reaches text (meets text c.position stop) (.ok (c.meets stop)) := by
  have same : (Key.bytes stop).isPrefixOf (encoded c.ahead) = stop.toList.isPrefixOf c.ahead := by
    rw [Bool.eq_iff_iff, List.isPrefixOf_iff_prefix, List.isPrefixOf_iff_prefix]
    exact Text.encoded_prefix_iff
  have word := Text.bytewise_isNameStart.any_head? stop.toList
  refine (reaches_tail inText).bind ?_
  simp only [Cursor.meets]
  rw [same]
  cases found : stop.toList.isPrefixOf c.ahead with
  | false => exact reaches_pure false
  | true =>
    obtain ⟨rest, ahead⟩ := List.isPrefixOf_iff_prefix.mp found
    have inText' := (Cursor.source_passed ahead.symm).trans inText
    have called := reaches_opensCall inText'
    rw [Cursor.position_passed] at called
    rw [if_pos rfl, Bool.true_and, ← ahead, List.drop_left]
    rw [show (Key.bytes stop).head?.any (fun b => Text.isNameStart (Char.ofUInt8 b)) =
      stop.toList.head?.any Text.isNameStart from word]
    cases stop.toList.head?.any Text.isNameStart with
    | false => exact reaches_pure true
    | true =>
      rw [if_pos rfl, if_pos rfl, Bool.and_assoc]
      refine (reaches_followsWord inText).bind ?_
      cases c.behind.head?.any Text.isWord with
      | true => exact reaches_pure false
      | false => exact called

/-- Inside of a character no stop is met but the empty one. -/
theorem reaches_meets_inside (inText : c.source = text.toList) (ahead : c.ahead = first :: tail)
    (inside : 0 < k) (within : k < first.utf8Size) (nonempty : stop ≠ "") :
    Reaches text (meets text (c.position + k) stop) (.ok false) := by
  have cut : (Key.bytes text).drop (c.position + k) =
      (String.utf8EncodeChar first).drop k ++ encoded tail := by
    rw [← List.drop_drop, c.drop_position inText, ahead, Text.encoded_cons,
      List.drop_append_of_le_length]
    rw [String.length_utf8EncodeChar]
    exact Nat.le_of_lt within
  have fits : c.position + k ≤ (Key.bytes text).length := by
    have := position_add_le inText ahead
    omega
  have absent : (Key.bytes stop).isPrefixOf
      ((String.utf8EncodeChar first).drop k ++ encoded tail) = false := by
    rw [Bool.eq_false_iff]
    intro found
    refine Text.not_prefix_inside (List.take_append_drop k _).symm ?_ ?_ ?_
      (List.isPrefixOf_iff_prefix.mp found)
    · rw [ne_eq, List.take_eq_nil_iff, not_or]
      exact ⟨Nat.ne_of_gt inside, String.utf8EncodeChar_ne_nil⟩
    · rw [ne_eq, List.drop_eq_nil_iff, String.length_utf8EncodeChar]
      exact Nat.not_le.mpr within
    · exact fun empty => nonempty (String.toList_eq_nil_iff.mp empty)
  unfold meets Buffer.tail
  rw [if_pos fits, cut]
  refine (reaches_pure _).bind ?_
  rw [absent]
  exact reaches_pure false

theorem reaches_meetsAny? (inText : c.source = text.toList) (stops : List String) :
    Reaches text (meetsAny? text c.position stops) (.ok (c.meetsAny? stops)) := by
  induction stops with
  | nil => exact reaches_pure none
  | cons stop stops ih =>
    unfold Cursor.meetsAny?
    rw [List.find?_cons]
    refine (reaches_meets inText stop).bind ?_
    cases c.meets stop with
    | true => exact reaches_pure (some stop)
    | false => exact ih

theorem ne_empty_of_meetsAny? (unmet : c.meetsAny? stops = none) : ∀ stop ∈ stops, stop ≠ "" := by
  rintro stop listed rfl
  exact List.find?_eq_none.mp unmet "" listed rfl

theorem reaches_meetsAny?_inside (inText : c.source = text.toList) (ahead : c.ahead = first :: tail)
    (inside : 0 < k) (within : k < first.utf8Size) (unmet : c.meetsAny? stops = none) :
    Reaches text (meetsAny? text (c.position + k) stops) (.ok none) := by
  have nonempty := ne_empty_of_meetsAny? unmet
  clear unmet
  induction stops with
  | nil => exact reaches_pure none
  | cons stop stops ih =>
    obtain ⟨here, others⟩ := List.forall_mem_cons.mp nonempty
    exact (reaches_meets_inside inText ahead inside within here).bind (ih others)

/-- What goes on from each offset inside of a character to the next one goes on to the next
character. -/
theorem reaches_across {α : Type} (x : Nat → Trace α) {outcome : Except Break α}
    (step : ∀ k, 0 < k → k < first.utf8Size → Reaches text (x (c.position + k + 1)) outcome →
      Reaches text (x (c.position + k)) outcome)
    (last : Reaches text (x (c.passed [first] tail).position) outcome) :
    Reaches text (x (c.position + 1)) outcome := by
  have moved : (c.passed [first] tail).position = c.position + first.utf8Size := by
    rw [Cursor.position_passed, Text.encoded_cons, List.length_append, String.length_utf8EncodeChar]
    rfl
  rw [moved] at last
  have all (n k : Nat) (positive : 0 < k) (left : k + n = first.utf8Size) :
      Reaches text (x (c.position + k)) outcome := by
    induction n generalizing k with
    | zero => rwa [← left, Nat.add_zero] at last
    | succ n ih =>
      refine step k positive (by omega) (ih (k + 1) (Nat.succ_pos k) (by omega))
  have one := first.utf8Size_pos
  exact all (first.utf8Size - 1) 1 Nat.one_pos (by omega)

theorem reaches_upToFrom_of_none {pos : Nat} {outcome : Except Break (Option String × Nat)}
    (inside : pos < (Key.bytes text).length)
    (unmet : Reaches text (meetsAny? text pos stops) (.ok none))
    (next : Reaches text (upToFrom text stops (pos + 1)) outcome) :
    Reaches text (upToFrom text stops pos) outcome := by
  rw [upToFrom, dif_pos inside]
  exact unmet.bind next

theorem upTo_of_some (ahead : c.ahead = first :: tail) (met : c.meetsAny? stops = some stop) :
    c.upTo stops = ([], some stop, c) := by
  cases c
  cases ahead
  simp only [Cursor.upTo, Cursor.upToFrom, met]

theorem upTo_of_none (ahead : c.ahead = first :: tail) (unmet : c.meetsAny? stops = none) :
    (c.upTo stops).2 = ((c.passed [first] tail).upTo stops).2 := by
  cases c
  cases ahead
  unfold Cursor.upTo
  rw [Cursor.upToFrom_cons_of_none unmet]
  rfl

theorem reaches_upToFrom (inText : c.source = text.toList) (stops : List String) :
    Reaches text (upToFrom text stops c.position)
      (.ok ((c.upTo stops).2.1, (c.upTo stops).2.2.position)) := by
  induction ahead : c.ahead generalizing c with
  | nil =>
    have stays : c.upTo stops = ([], none, c) := by
      unfold Cursor.upTo
      rw [ahead, Cursor.upToFrom, ← ahead]
    rw [upToFrom, dif_neg (not_position_lt inText ahead), stays]
    exact reaches_pure _
  | cons first tail ih =>
    have inside := position_lt_length inText ahead
    have tested := reaches_meetsAny? inText stops
    cases met : c.meetsAny? stops with
    | some stop =>
      rw [met] at tested
      rw [upToFrom, dif_pos inside, upTo_of_some ahead met]
      exact tested.bind (reaches_pure _)
    | none =>
      have inText' : (c.passed [first] tail).source = text.toList :=
        (Cursor.source_passed ahead).trans inText
      rw [met] at tested
      rw [upTo_of_none ahead met]
      -- The offsets inside of `first` are tested as well.
      refine reaches_upToFrom_of_none inside tested
        (reaches_across (upToFrom text stops) (fun k positive within next => ?_) (ih inText' rfl))
      refine reaches_upToFrom_of_none ?_ ?_ next
      · have := position_add_le inText ahead
        omega
      · exact reaches_meetsAny?_inside inText ahead positive within met

theorem reaches_upTo (inText : c.source = text.toList) (stops : List String) :
    Reaches text (upTo text stops c.position)
      (.ok (String.ofList (c.upTo stops).1, (c.upTo stops).2.1, (c.upTo stops).2.2.position)) := by
  have found : c.upTo stops = ((c.upTo stops).1, (c.upTo stops).2.1, (c.upTo stops).2.2) := rfl
  obtain ⟨parts, passed, ended, _⟩ := Cursor.upTo_parts found
  have sliced := reaches_slice inText parts
  rw [← passed] at sliced
  refine (reaches_upToFrom inText stops).bind ?_
  cases met : (c.upTo stops).2.1 with
  | some stop => exact sliced.bind (reaches_pure _)
  | none =>
    have all : (c.upTo stops).1 = c.ahead := by
      rw [parts, ended met, List.append_nil]
    rw [all]
    exact (reaches_rest inText).bind (reaches_pure _)

end Stops

/-! ## Pieces -/

section Pieces

variable {text : String} {stops keywords : List String} {c : Cursor} {first : Char}
  {tail : List Char} {depth k : Nat}

theorem reaches_ending? (inText : c.source = text.toList) :
    Reaches text (ending? text stops keywords c.position) (.ok (c.ending? stops keywords)) := by
  refine (reaches_meetsAny? inText stops).bind ?_
  unfold Cursor.ending?
  cases c.meetsAny? stops with
  | some stop => exact reaches_pure _
  | none => exact (reaches_meetsAny? inText keywords).bind (reaches_pure _)

theorem reaches_ending?_inside (inText : c.source = text.toList) (ahead : c.ahead = first :: tail)
    (inside : 0 < k) (within : k < first.utf8Size) (unmet : c.ending? stops keywords = none) :
    Reaches text (ending? text stops keywords (c.position + k)) (.ok none) := by
  obtain ⟨noStop, noKeyword⟩ := Option.or_eq_none_iff.mp unmet
  have noStop := Option.map_eq_none_iff.mp noStop
  have noKeyword := Option.map_eq_none_iff.mp noKeyword
  refine (reaches_meetsAny?_inside inText ahead inside within noStop).bind ?_
  exact (reaches_meetsAny?_inside inText ahead inside within noKeyword).bind (reaches_pure _)

/-- How a piece ends and at which offset, or the offset where it fails. -/
def whereEnds : Except Fault Cursor.Piece → Except Nat (Cursor.Ending × Nat)
  | .ok (_, ending, d) => .ok (ending, d.position)
  | .error fault => .error fault.place.position

theorem whereEnds_prepend (first : Char) (result : Except Fault Cursor.Piece) :
    whereEnds (Cursor.prepend first result) = whereEnds result := by
  cases result with
  | ok piece => rfl
  | error fault => rfl

theorem whereEnds_foldr (chars : List Char) (result : Except Fault Cursor.Piece) :
    whereEnds (chars.foldr Cursor.prepend result) = whereEnds result := by
  induction chars with
  | nil => rfl
  | cons first rest ih => rw [List.foldr_cons, whereEnds_prepend, ih]

/-- A string that is not closed is passed over to the end, and then reported where it was opened. -/
theorem whereEnds_unclosed {quote : Char} {opened : Cursor} {behind rest : List Char}
    (bare : quote ∉ rest) :
    whereEnds (Cursor.pieceFrom stops keywords (.inside quote opened depth) behind rest) =
      .error opened.position := by
  induction rest generalizing behind with
  | nil => rfl
  | cons first tail ih =>
    obtain ⟨other, bare⟩ := not_or.mp (mt List.mem_cons.mpr bare)
    rw [Cursor.pieceFrom_cons_of_none (by intro isOpen; cases isOpen), whereEnds_prepend,
      Cursor.Nesting.after, if_neg (Ne.symm other), ih bare]

theorem reaches_byte_inside (inText : c.source = text.toList) (ahead : c.ahead = first :: tail)
    (within : k < first.utf8Size) :
    ∃ b ∈ String.utf8EncodeChar first, Reaches text (byte text (c.position + k)) (.ok b) := by
  rw [← String.length_utf8EncodeChar] at within
  refine ⟨(String.utf8EncodeChar first)[k], List.getElem_mem within, ?_⟩
  have found : (Key.bytes text)[c.position + k]? = some (String.utf8EncodeChar first)[k] := by
    rw [← List.getElem?_drop, c.drop_position inText, ahead, Text.encoded_cons,
      List.getElem?_append_left within, List.getElem?_eq_getElem within]
  unfold byte
  rw [found]
  exact reaches_pure _

theorem depthAfter_of_le (above : 0x80 ≤ first.toNat) : Cursor.depthAfter depth first = depth := by
  have other (paren : Char) (ascii : paren.toNat < 0x80) : first ≠ paren := by
    rintro rfl
    exact absurd ascii (Nat.not_lt.mpr above)
  rw [Cursor.depthAfter, if_neg (other '(' (by decide)), if_neg (other ')' (by decide))]

theorem depthAfter_of_mem {b : UInt8} (member : b ∈ String.utf8EncodeChar first) :
    Cursor.depthAfter depth (Char.ofUInt8 b) = Cursor.depthAfter depth first := by
  by_cases ascii : first.toNat < 0x80
  · obtain ⟨only, spelled, same⟩ := Text.utf8EncodeChar_of_lt ascii
    rw [spelled, List.mem_singleton] at member
    rw [member, same]
  · have above : 0x80 ≤ first.toNat := Nat.le_of_not_lt ascii
    rw [depthAfter_of_le above, depthAfter_of_le]
    rw [Text.toNat_ofUInt8]
    exact Text.le_toNat_of_mem above member

theorem le_toNat_of_inside (inside : 0 < k) (within : k < first.utf8Size) : 0x80 ≤ first.toNat := by
  refine Nat.le_of_not_lt fun ascii => ?_
  obtain ⟨b, spelled, _⟩ := Text.utf8EncodeChar_of_lt ascii
  have one := String.length_utf8EncodeChar first
  rw [spelled, List.length_singleton] at one
  omega

theorem reaches_endingAt? (inText : c.source = text.toList) :
    Reaches text (endingAt? text stops keywords depth c.position)
      (.ok (if (Cursor.Nesting.outside depth).isOpen then c.ending? stops keywords else none)) := by
  unfold endingAt?
  by_cases top : depth = 0
  · subst top
    exact reaches_ending? inText
  · have deep : (Cursor.Nesting.outside depth).isOpen = false := by
      simpa [Cursor.Nesting.isOpen] using top
    rw [if_neg top, deep]
    exact reaches_pure none

theorem reaches_endingAt?_inside (inText : c.source = text.toList) (ahead : c.ahead = first :: tail)
    (inside : 0 < k) (within : k < first.utf8Size)
    (unmet : (Cursor.Nesting.outside depth).isOpen = true → c.ending? stops keywords = none) :
    Reaches text (endingAt? text stops keywords depth (c.position + k)) (.ok none) := by
  unfold endingAt?
  by_cases top : depth = 0
  · subst top
    exact reaches_ending?_inside inText ahead inside within (unmet rfl)
  · rw [if_neg top]
    exact reaches_pure none

theorem reaches_pieceFrom_of_none {pos : Nat} {b : UInt8}
    {outcome : Except Break (Except Nat (Cursor.Ending × Nat))}
    (inside : pos < (Key.bytes text).length)
    (unmet : Reaches text (endingAt? text stops keywords depth pos) (.ok none))
    (here : Reaches text (byte text pos) (.ok b)) (plain : Text.isQuote (Char.ofUInt8 b) = false)
    (next : Reaches text (pieceFrom text stops keywords
      (Cursor.depthAfter depth (Char.ofUInt8 b)) (pos + 1)) outcome) :
    Reaches text (pieceFrom text stops keywords depth pos) outcome := by
  rw [pieceFrom, dif_pos inside]
  refine unmet.bind ?_
  refine here.bind ?_
  rw [plain]
  exact next

/-- A character that is no quote is passed over, byte by byte. -/
theorem reaches_pieceFrom_plain {outcome : Except Break (Except Nat (Cursor.Ending × Nat))}
    (inText : c.source = text.toList) (ahead : c.ahead = first :: tail)
    (unmet : (Cursor.Nesting.outside depth).isOpen = true → c.ending? stops keywords = none)
    (tested : Reaches text (endingAt? text stops keywords depth c.position) (.ok none))
    (plain : Text.isQuote first = false)
    (next : Reaches text (pieceFrom text stops keywords (Cursor.depthAfter depth first)
      (c.passed [first] tail).position) outcome) :
    Reaches text (pieceFrom text stops keywords depth c.position) outcome := by
  have room := position_add_le inText ahead
  have one := first.utf8Size_pos
  have isPlain {b : UInt8} (member : b ∈ String.utf8EncodeChar first) :
      Text.isQuote (Char.ofUInt8 b) = false := by rw [Text.bytewise_isQuote.of_mem member, plain]
  obtain ⟨b, member, here⟩ := reaches_byte_inside inText ahead one
  refine reaches_pieceFrom_of_none (by omega) tested here (isPlain member) ?_
  rw [depthAfter_of_mem member]
  refine reaches_across (pieceFrom text stops keywords (Cursor.depthAfter depth first))
    (fun k positive within next => ?_) next
  obtain ⟨b, member, here⟩ := reaches_byte_inside inText ahead within
  have same : Cursor.depthAfter depth first = depth :=
    depthAfter_of_le (le_toNat_of_inside positive within)
  rw [same] at next ⊢
  refine reaches_pieceFrom_of_none (by omega)
    (reaches_endingAt?_inside inText ahead positive within unmet) here (isPlain member) ?_
  rwa [depthAfter_of_mem member, same]

/-- A string is passed over as a whole. -/
theorem reaches_pieceFrom_string {outcome : Except Break (Except Nat (Cursor.Ending × Nat))}
    {chars rest : List Char} (inText : c.source = text.toList)
    (ahead : c.ahead = first :: (chars ++ first :: rest))
    (tested : Reaches text (endingAt? text stops keywords depth c.position) (.ok none))
    (isQuote : Text.isQuote first = true) (bare : first ∉ chars)
    (next : Reaches text (pieceFrom text stops keywords depth
      (c.passed (first :: (chars ++ [first])) rest).position) outcome) :
    Reaches text (pieceFrom text stops keywords depth c.position) outcome := by
  obtain ⟨b, member, byte⟩ := reaches_byte_inside inText ahead first.utf8Size_pos
  rw [position_string isQuote] at next
  rw [pieceFrom, dif_pos (position_lt_length inText ahead)]
  refine tested.bind ?_
  refine byte.bind ?_
  rw [Text.bytewise_isQuote.of_mem member, isQuote]
  exact (reaches_insideLength?_some inText ahead isQuote bare).bind next

theorem reaches_pieceFrom_unclosed (inText : c.source = text.toList)
    (ahead : c.ahead = first :: tail)
    (tested : Reaches text (endingAt? text stops keywords depth c.position) (.ok none))
    (isQuote : Text.isQuote first = true) (bare : first ∉ tail) :
    Reaches text (pieceFrom text stops keywords depth c.position) (.ok (.error c.position)) := by
  obtain ⟨b, member, byte⟩ := reaches_byte_inside inText ahead first.utf8Size_pos
  rw [pieceFrom, dif_pos (position_lt_length inText ahead)]
  refine tested.bind ?_
  refine byte.bind ?_
  rw [Text.bytewise_isQuote.of_mem member, isQuote]
  exact (reaches_insideLength?_none inText ahead isQuote bare).bind (reaches_pure _)

/-- A piece ends in the same way when it is read by bytes. -/
theorem reaches_pieceFrom (inText : c.source = text.toList) (stops keywords : List String)
    (depth : Nat) :
    Reaches text (pieceFrom text stops keywords depth c.position)
      (.ok (whereEnds (Cursor.pieceFrom stops keywords (.outside depth) c.behind c.ahead))) := by
  -- By the size and not by the characters, as a string is passed over at once.
  induction size : c.size using Nat.strongRecOn generalizing c depth with
  | ind n ih =>
    subst size
    cases ahead : c.ahead with
    | nil =>
      have stays : Cursor.pieceFrom stops keywords (.outside depth) c.behind [] =
          .ok ([], .finish, c) := by
        rw [Cursor.pieceFrom, ← ahead]
      rw [pieceFrom, dif_neg (not_position_lt inText ahead), stays]
      exact reaches_pure _
    | cons first tail =>
      have here : c = ⟨c.behind, first :: tail⟩ := by rw [← ahead]
      have tested : Reaches text (endingAt? text stops keywords depth c.position) _ :=
        reaches_endingAt? inText
      cases met : if (Cursor.Nesting.outside depth).isOpen then c.ending? stops keywords
        else none with
      | some ending =>
        have stays : Cursor.pieceFrom stops keywords (.outside depth) c.behind (first :: tail) =
            .ok ([], ending, c) := by
          rw [here] at met
          simp only [Cursor.pieceFrom, met]
          rw [← here]
        rw [met] at tested
        rw [pieceFrom, dif_pos (position_lt_length inText ahead), stays]
        exact tested.bind (reaches_pure _)
      | none =>
        have unmet := ite_eq_right_iff.mp met
        have goesOn : Cursor.pieceFrom stops keywords (.outside depth) c.behind (first :: tail) =
            Cursor.prepend first (Cursor.pieceFrom stops keywords
              ((Cursor.Nesting.outside depth).after c first) (first :: c.behind) tail) := by
          rw [here] at unmet
          rw [Cursor.pieceFrom_cons_of_none unmet, ← here]
        rw [met] at tested
        rw [goesOn, whereEnds_prepend, Cursor.Nesting.after]
        cases isQuote : Text.isQuote first with
        | false =>
          have shorter : (c.passed [first] tail).size < c.size := by
            rw [Cursor.size, Cursor.size, ahead]
            exact Nat.lt_succ_self _
          exact reaches_pieceFrom_plain inText ahead unmet tested isQuote
            (ih _ shorter ((Cursor.source_passed ahead).trans inText) _ rfl)
        | true =>
          rw [if_pos rfl]
          by_cases closed : first ∈ tail
          · obtain ⟨string, rest, rfl, bare⟩ := List.eq_append_cons_of_mem closed
            have parts : c.ahead = (first :: (string ++ [first])) ++ rest := by simp [ahead]
            have shorter : (c.passed (first :: (string ++ [first])) rest).size < c.size := by
              rw [Cursor.size, Cursor.size, parts, List.length_append, List.length_cons]
              exact Nat.lt_add_of_pos_left (Nat.succ_pos _)
            have behind : first :: (string.reverse ++ first :: c.behind) =
                (c.passed (first :: (string ++ [first])) rest).behind := by simp [Cursor.passed]
            rw [Cursor.pieceFrom_inside bare, whereEnds_foldr, behind]
            exact reaches_pieceFrom_string inText ahead tested isQuote bare
              (ih _ shorter ((Cursor.source_passed parts).trans inText) depth rfl)
          · rw [whereEnds_unclosed closed]
            exact reaches_pieceFrom_unclosed inText ahead tested isQuote closed

end Pieces

end Buffer

end StyleFlags
