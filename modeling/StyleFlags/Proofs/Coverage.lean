import StyleFlags.Proofs.Boundaries

/-!
# Every byte is accounted for

Tokens are read one after another until the text ends or no token can be read. Their lexemes are
ranges of bytes that do not touch each other's bytes, and whatever lies between them is ignored; a
word and a numeral go on as far as they can.

Results:
1. `Lexeme.standsIn`, `Lexeme.maximal`: a lexeme stands in the bytes at the offset of its token.
2. `Cursor.Accounted.cons`: what one more token before some others accounts for.
3. `Cursor.accounted_reading`: what reading accounts for from any place on.
4. `Cursor.reading_accounts_for_bytes`: reading a whole text accounts for all of its bytes, or for
   those before the place where no token can be read.
-/

namespace StyleFlags

open Key (encoded encoded_append)

/-! ## Lexemes as ranges of bytes -/

namespace Token

/-- The number of bytes of a token: those of its text, and two quotes if it is quoted. -/
def width (t : Token) : Nat := (Key.bytes t.text).length + if t.quoted then 2 else 0

/-- The offset behind a token. -/
def finish (t : Token) : Nat := t.offset + t.width

/-- Whether the byte at `i` belongs to a token. -/
def Covers (t : Token) (i : Nat) : Prop := t.offset ≤ i ∧ i < t.finish

/-- Whether a token stands at its offset, a quoted one between two equal quotes. -/
def StandsIn (t : Token) (bytes : List UInt8) : Prop :=
  if t.quoted then
    ∃ quote, Text.isQuote (Char.ofUInt8 quote) = true ∧ quote ∉ Key.bytes t.text ∧
      quote :: (Key.bytes t.text ++ [quote]) <+: bytes.drop t.offset
  else Key.bytes t.text <+: bytes.drop t.offset

/-- The class that a word or a numeral is a run of. -/
def run? (t : Token) : Option (Char → Bool) :=
  match t.kind with
  | .identifier => some Text.isWord
  | .literal =>
    if t.quoted then none
    else if Literal.isNumeral t.text.toList then some Text.isNumeric
    else some Text.isWord
  | .operator _ => none

/-- Whether a word or a numeral goes on as far as its class does. -/
def Maximal (t : Token) (bytes : List UInt8) : Prop :=
  ∀ p ∈ t.run?, (∀ b ∈ Key.bytes t.text, p (Char.ofUInt8 b) = true) ∧
    ∀ b ∈ bytes[t.finish]?, p (Char.ofUInt8 b) = false

end Token

namespace Text

theorem Bytewise.forall_encoded {p : Char → Bool} (bytewise : Bytewise p) {chars : List Char}
    (all : ∀ c ∈ chars, p c = true) : ∀ b ∈ encoded chars, p (Char.ofUInt8 b) = true := by
  intro b member
  obtain ⟨c, inside, byte⟩ := List.mem_flatMap.mp member
  rw [bytewise.of_mem byte]
  exact all c inside

theorem Bytewise.head_encoded {p : Char → Bool} (bytewise : Bytewise p) {rest : List Char}
    (ends : Ends p rest) : ∀ b ∈ (encoded rest).head?, p (Char.ofUInt8 b) = false := by
  intro b isHead
  have same := bytewise.any_head? rest
  rw [Option.mem_def.mp isHead, Option.any_some] at same
  rw [same]
  cases first : rest.head? with
  | none => rfl
  | some c => exact ends c first

/-- A quote is a single byte. -/
theorem encoded_quote {quote : Char} (isQuote : Text.isQuote quote = true) :
    ∃ b, String.utf8EncodeChar quote = [b] ∧ Char.ofUInt8 b = quote :=
  utf8EncodeChar_of_lt (lt_of_isQuote isQuote)

/-- A quote that is not among some characters is not among their bytes. -/
theorem quote_notMem {quote : Char} (isQuote : Text.isQuote quote = true) {b : UInt8}
    (same : Char.ofUInt8 b = quote) {inside : List Char} (bare : quote ∉ inside) :
    b ∉ encoded inside := by
  have others : ∀ c ∈ inside, (c != quote) = true := fun c member => by
    simpa using ne_of_mem_of_not_mem member bare
  intro member
  have differs := (bytewise_ne (lt_of_isQuote isQuote)).forall_encoded others b member
  rw [same] at differs
  simp at differs

end Text

namespace Lexeme

variable {chars rest : List Char} {t : Token} {bytes : List UInt8}

theorem bytes_ofList (chars : List Char) : Key.bytes (String.ofList chars) = encoded chars := by
  rw [Key.bytes, String.toList_ofList]
  rfl

/-- The bytes of a lexeme are those of the text of its token, between two quotes if it is quoted. -/
theorem encoded_eq (lexeme : Lexeme chars t rest) :
    if t.quoted then
      ∃ quote, Text.isQuote (Char.ofUInt8 quote) = true ∧ quote ∉ Key.bytes t.text ∧
        encoded chars = quote :: (Key.bytes t.text ++ [quote])
    else encoded chars = Key.bytes t.text := by
  cases lexeme with
  | @word first tail => exact (bytes_ofList (first :: tail)).symm
  | @numeral first tail => exact (bytes_ofList (first :: tail)).symm
  | @quoted quote inside _ _ isQuote bare =>
    obtain ⟨b, spelled, same⟩ := Text.encoded_quote isQuote
    refine ⟨b, by rwa [same], ?_, ?_⟩
    · rw [bytes_ofList]
      exact Text.quote_notMem isQuote same bare
    · rw [bytes_ofList, Text.encoded_cons, encoded_append, Text.encoded_cons, spelled]
      simp [encoded]
  | symbol op => rfl

theorem length_encoded (lexeme : Lexeme chars t rest) : (encoded chars).length = t.width := by
  have spelled := lexeme.encoded_eq
  unfold Token.width
  split at spelled
  · next quoted =>
    obtain ⟨quote, _, _, spelled⟩ := spelled
    rw [if_pos quoted, spelled, List.length_cons, List.length_append]
    rfl
  · next bare => rw [if_neg bare, spelled, Nat.add_zero]

theorem standsIn (lexeme : Lexeme chars t rest) (ahead : bytes.drop t.offset = encoded (chars ++ rest)) :
    t.StandsIn bytes := by
  have spelled := lexeme.encoded_eq
  have found : encoded chars <+: bytes.drop t.offset := by
    rw [ahead, encoded_append]
    exact List.prefix_append _ _
  unfold Token.StandsIn
  split at spelled
  · next quoted =>
    obtain ⟨quote, isQuote, bare, spelled⟩ := spelled
    rw [if_pos quoted]
    exact ⟨quote, isQuote, bare, spelled ▸ found⟩
  · next bare =>
    rw [if_neg bare]
    exact spelled ▸ found

theorem run?_wordToken (word : List Char) (offset : Nat) :
    (Cursor.wordToken word offset).run? = some Text.isWord := by
  unfold Cursor.wordToken
  generalize String.ofList word = text
  cases reserved : LiteralKind.ofWord? text with
  | none => simp [Token.run?, reserved]
  | some kind => simp [Token.run?, reserved, LiteralKind.isNumeral_of_ofWord? reserved]

/-- A word or a numeral is a run of its class, and the class does not go on behind it. -/
theorem run (lexeme : Lexeme chars t rest) : ∀ p ∈ t.run?,
    t.quoted = false ∧ Text.Bytewise p ∧ (∀ c ∈ chars, p c = true) ∧ Text.Ends p rest := by
  intro p isRun
  cases lexeme with
  | @word first tail _ _ isName words ends =>
    have all : ∀ c ∈ first :: tail, Text.isWord c = true :=
      List.forall_mem_cons.mpr ⟨by simp [Text.isWord, isName], words⟩
    rw [run?_wordToken] at isRun
    obtain rfl : Text.isWord = p := Option.some.inj isRun
    exact ⟨rfl, Text.bytewise_isWord, all, ends⟩
  | @numeral first tail _ _ isDigit digits ends numeral =>
    have all : ∀ c ∈ first :: tail, Text.isNumeric c = true :=
      List.forall_mem_cons.mpr ⟨by simp [Text.isNumeric, isDigit], digits⟩
    have same : p = Text.isNumeric := by
      simpa [Token.run?, numeral] using isRun.symm
    subst same
    exact ⟨rfl, Text.bytewise_isNumeric, all, ends⟩
  | quoted isQuote bare => simp [Token.run?] at isRun
  | symbol op found => simp [Token.run?] at isRun

theorem maximal (lexeme : Lexeme chars t rest) (ahead : bytes.drop t.offset = encoded (chars ++ rest)) :
    t.Maximal bytes := by
  intro p isRun
  obtain ⟨bare, bytewise, all, ends⟩ := lexeme.run p isRun
  have spelled := lexeme.encoded_eq
  rw [if_neg (by simp [bare])] at spelled
  have next : bytes[t.finish]? = (encoded rest).head? := by
    rw [Token.finish, ← List.getElem?_drop, ahead, encoded_append, ← lexeme.length_encoded,
      List.getElem?_append_right (Nat.le_refl _), Nat.sub_self, List.head?_eq_getElem?]
  rw [next]
  exact ⟨spelled ▸ bytewise.forall_encoded all, bytewise.head_encoded ends⟩

end Lexeme

/-! ## Reading to the end -/

namespace Cursor

/-- Reads token after token: every token with the place behind it, and where reading ends. -/
def reading (c : Cursor) : List (Token × Cursor) × Except Fault Cursor :=
  match read : c.next with
  | .ok (some token, d) =>
    have := next_shorter read
    let rest := d.reading
    ((token, d) :: rest.1, rest.2)
  | .ok (none, d) => ([], .ok d)
  | .error fault => ([], .error fault)
termination_by c.size

/-- Whether the bytes from `first` to `last` belong to some tokens, one behind the other, or are
ignored. -/
structure Accounted (bytes : List UInt8) (first : Nat) (tokens : List Token) (last : Nat) : Prop where
  le : first ≤ last
  within : ∀ t ∈ tokens, first ≤ t.offset ∧ t.offset < t.finish ∧ t.finish ≤ last
  ordered : tokens.Pairwise fun t u => t.finish ≤ u.offset
  stands : ∀ t ∈ tokens, t.StandsIn bytes
  maximal : ∀ t ∈ tokens, t.Maximal bytes
  ignored : ∀ i, first ≤ i → i < last → (∀ t ∈ tokens, ¬t.Covers i) →
    ∃ b, bytes[i]? = some b ∧ Text.isIgnored (Char.ofUInt8 b) = true

variable {c d : Cursor} {t : Token} {text : String}

/-- The bytes of ignored characters are ignored. -/
theorem ignored_between (inText : c.source = text.toList) {blanks rest : List Char}
    (ahead : c.ahead = blanks ++ rest) (ignored : ∀ x ∈ blanks, Text.isIgnored x = true) {i : Nat}
    (behind : c.position ≤ i) (before : i < (c.passed blanks rest).position) :
    ∃ b, (Key.bytes text)[i]? = some b ∧ Text.isIgnored (Char.ofUInt8 b) = true := by
  rw [position_passed] at before
  obtain ⟨n, rfl⟩ := Nat.le.dest behind
  have inside : n < (encoded blanks).length := by omega
  have there : (Key.bytes text)[c.position + n]? = (encoded blanks)[n]? := by
    rw [← List.getElem?_drop, drop_position inText, ahead, encoded_append,
      List.getElem?_append_left inside]
  refine ⟨(encoded blanks)[n], ?_, ?_⟩
  · rw [there, List.getElem?_eq_getElem inside]
  · exact Text.bytewise_isIgnored.forall_encoded ignored _ (List.getElem_mem inside)

theorem skip_eq_passed (p : Char → Bool) (c : Cursor) :
    c.skip p = c.passed (c.ahead.takeWhile p) (c.ahead.dropWhile p) :=
  advance_eq_passed List.takeWhile_append_dropWhile.symm

/-- Where no token is read, only ignored characters are passed. -/
theorem next_eq_none (read : c.next = .ok (none, d)) :
    d = c.skip Text.isIgnored ∧ d.ahead = [] := by
  unfold next at read
  simp only at read
  split at read
  · next ended =>
    cases read
    exact ⟨rfl, ended⟩
  · split at read
    · cases read
    · cases read

theorem lexeme_eq_error {first : Char} {fault : Fault} (failed : c.lexeme first = .error fault) :
    fault.place = c := by
  unfold lexeme at failed
  split at failed
  · cases failed
  · split at failed
    · simp only at failed
      split at failed
      · cases failed
      · cases failed
        rfl
    · split at failed
      · split at failed
        · cases failed
        · cases failed
          rfl
      · split at failed
        · cases failed
        · cases failed
          rfl

/-- Where no token can be read, only ignored characters are passed. -/
theorem next_eq_error {fault : Fault} (read : c.next = .error fault) :
    fault.place = c.skip Text.isIgnored := by
  unfold next at read
  simp only at read
  split at read
  · cases read
  · split at read
    · cases read
    · next failed =>
      cases read
      exact lexeme_eq_error failed

/-- Ignored characters alone are accounted for. -/
theorem accounted_nil (inText : c.source = text.toList) :
    Accounted (Key.bytes text) c.position [] (c.skip Text.isIgnored).position where
  le := by
    rw [skip_eq_passed, position_passed]
    exact Nat.le_add_right _ _
  within := by simp
  ordered := .nil
  stands := by simp
  maximal := by simp
  ignored i behind before _ := by
    rw [skip_eq_passed] at before
    exact ignored_between inText List.takeWhile_append_dropWhile.symm
      (fun _ => Text.mem_takeWhile) behind before

/-- A token that is read, as a range of bytes. -/
structure Occupies (bytes : List UInt8) (first : Nat) (t : Token) (last : Nat) : Prop where
  behind : first ≤ t.offset
  nonempty : t.offset < t.finish
  last : t.finish = last
  stands : t.StandsIn bytes
  maximal : t.Maximal bytes
  ignored : ∀ i, first ≤ i → i < t.offset →
    ∃ b, bytes[i]? = some b ∧ Text.isIgnored (Char.ofUInt8 b) = true

theorem occupies_of_next (inText : c.source = text.toList) (next : c.Next t d) :
    Occupies (Key.bytes text) c.position t d.position ∧ d.source = text.toList := by
  obtain ⟨blanks, chars, rest, ahead, ignored, lexeme, offset, rfl⟩ := next_iff.mp next
  have inText' : (c.passed blanks (chars ++ rest)).source = text.toList := by
    rw [source_passed ahead, inText]
  have there : (Key.bytes text).drop t.offset = encoded (chars ++ rest) := by
    rw [offset, drop_position inText']
    rfl
  obtain ⟨first, tail, spelled, _⟩ := lexeme_of_lexeme lexeme rfl offset
  have some : 0 < t.width := by
    rw [← lexeme.length_encoded, spelled, Text.encoded_cons, List.length_append,
      String.length_utf8EncodeChar]
    exact Nat.lt_of_lt_of_le first.utf8Size_pos (Nat.le_add_right _ _)
  have ahead' : c.ahead = (blanks ++ chars) ++ rest := by rw [ahead, List.append_assoc]
  refine ⟨⟨?_, Nat.lt_add_of_pos_right some, ?_, lexeme.standsIn there, lexeme.maximal there, ?_⟩, ?_⟩
  · rw [offset, position_passed]
    exact Nat.le_add_right _ _
  · rw [Token.finish, offset, position_passed, position_passed, encoded_append, List.length_append,
      lexeme.length_encoded, Nat.add_assoc]
  · intro i behind before
    rw [offset] at before
    exact ignored_between inText ahead ignored behind before
  · rw [source_passed ahead', inText]

/-- One more token before the others accounts for the bytes up to its end. -/
theorem Accounted.cons {bytes : List UInt8} {first middle last : Nat} {ts : List Token}
    (step : Occupies bytes first t middle) (rest : Accounted bytes middle ts last) :
    Accounted bytes first (t :: ts) last where
  le := by
    have := step.behind
    have := step.nonempty
    have := step.last
    have := rest.le
    omega
  within := by
    refine List.forall_mem_cons.mpr ⟨⟨step.behind, step.nonempty, step.last ▸ rest.le⟩, ?_⟩
    intro u member
    obtain ⟨behind, others⟩ := rest.within u member
    have := step.behind
    have := step.nonempty
    have := step.last
    exact ⟨by omega, others⟩
  ordered := by
    refine List.pairwise_cons.mpr ⟨fun u member => ?_, rest.ordered⟩
    rw [step.last]
    exact (rest.within u member).1
  stands := List.forall_mem_cons.mpr ⟨step.stands, rest.stands⟩
  maximal := List.forall_mem_cons.mpr ⟨step.maximal, rest.maximal⟩
  ignored i behind before free := by
    obtain ⟨outside, free⟩ := List.forall_mem_cons.mp free
    by_cases earlier : i < t.offset
    · exact step.ignored i behind earlier
    · have later : middle ≤ i := by
        rw [← step.last]
        exact Nat.le_of_not_lt fun inside => outside ⟨Nat.le_of_not_lt earlier, inside⟩
      exact rest.ignored i later before free

/-- The ends of the tokens come one after another. -/
theorem Accounted.increasing {bytes : List UInt8} {first last : Nat} {ts : List Token}
    (accounted : Accounted bytes first ts last) : (first :: ts.map Token.finish).Pairwise (· < ·) := by
  refine List.pairwise_cons.mpr ⟨fun n member => ?_, List.pairwise_map.mpr ?_⟩
  · obtain ⟨t, listed, rfl⟩ := List.mem_map.mp member
    obtain ⟨behind, nonempty, _⟩ := accounted.within t listed
    exact Nat.lt_of_le_of_lt behind nonempty
  · refine accounted.ordered.imp_of_mem fun _ listed before => ?_
    exact Nat.lt_of_le_of_lt before (accounted.within _ listed).2.1

/-- The place where reading ends. -/
def endOf : Except Fault Cursor → Cursor
  | .ok d => d
  | .error fault => fault.place

/-- Reading accounts for all bytes up to the place where it ends. -/
theorem accounted_reading (inText : c.source = text.toList) :
    Accounted (Key.bytes text) c.position (c.reading.1.map Prod.fst) (endOf c.reading.2).position ∧
      (endOf c.reading.2).source = text.toList ∧
      (∀ r ∈ c.reading.1, r.2.position = r.1.finish) ∧ ∀ d, c.reading.2 = .ok d → d.ahead = [] := by
  fun_induction reading c with
  | case1 c token d read shorter rest ih =>
    obtain ⟨step, inText⟩ := occupies_of_next inText (next_iff_next.mpr read)
    obtain ⟨accounted, inText, places, ended⟩ := ih inText
    exact ⟨accounted.cons step, inText, List.forall_mem_cons.mpr ⟨step.last.symm, places⟩, ended⟩
  | case2 c d read =>
    obtain ⟨rfl, ended⟩ := next_eq_none read
    refine ⟨accounted_nil inText, ?_, by simp, ?_⟩
    · show (c.skip Text.isIgnored).source = text.toList
      rw [skip, source_advance, inText]
    · intro d same
      cases same
      exact ended
  | case3 c fault read =>
    have place := next_eq_error read
    refine ⟨?_, ?_, by simp, fun d same => by cases same⟩
    · show Accounted _ _ [] fault.place.position
      rw [place]
      exact accounted_nil inText
    · show fault.place.source = text.toList
      rw [place, skip, source_advance, inText]

/-- Reading a text to its end accounts for all of its bytes, and each token that is read moves the
cursor to its end. Where no token can be read, the cursor stays at the position that is reported, and
the bytes before it are accounted for. -/
theorem reading_accounts_for_bytes (text : String) :
    (∀ d, (start text).reading.2 = .ok d →
      d.position = (Key.bytes text).length ∧
      Accounted (Key.bytes text) 0 ((start text).reading.1.map Prod.fst) (Key.bytes text).length) ∧
    (∀ fault, (start text).reading.2 = .error fault →
      fault.error = .lex fault.place.position fault.cause ∧
      fault.place.position ≤ (Key.bytes text).length ∧
      Accounted (Key.bytes text) 0 ((start text).reading.1.map Prod.fst) fault.place.position) ∧
    ((start text).reading.1.map fun r => r.2.position) =
      (start text).reading.1.map (fun r => r.1.finish) ∧
    (0 :: (start text).reading.1.map fun r => r.2.position).Pairwise (· < ·) := by
  obtain ⟨accounted, inText, places, ended⟩ := accounted_reading (source_start text)
  have same : ((start text).reading.1.map fun r => r.2.position) =
      (start text).reading.1.map (fun r => r.1.finish) := List.map_congr_left places
  refine ⟨fun d isEnd => ?_, fun fault failed => ?_, same, ?_⟩
  · rw [isEnd] at accounted inText
    have last : d.position = (Key.bytes text).length := by
      have behind := length_bytes inText
      rw [show (endOf (.ok d)).ahead = [] from ended d isEnd] at behind
      exact behind.symm
    exact ⟨last, last ▸ accounted⟩
  · rw [failed] at accounted inText
    exact ⟨rfl, position_le inText, accounted⟩
  · have increasing := accounted.increasing
    rw [List.map_map] at increasing
    rw [same]
    exact increasing

/-- Two characters that are not ASCII are ignored, and one more is in a string. -/
def exLexed : String := "é≡a1=='é'"

/-- The same, with a numeral that has a misplaced point. -/
def exCut : String := "é≡a1=='é' 2."

theorem reading_accounts_for_bytes_exLexed :
    (∃ d, (start exLexed).reading.2 = .ok d ∧ d.position = 13 ∧
      Accounted (Key.bytes exLexed) 0 ((start exLexed).reading.1.map Prod.fst) 13) ∧
    (∃ fault, (start exCut).reading.2 = .error fault ∧ fault.error = .lex 14 fault.cause ∧
      Accounted (Key.bytes exCut) 0 ((start exCut).reading.1.map Prod.fst) 14) ∧
    ((start exCut).reading.1.map fun r => (r.1.offset, r.1.finish)) = [(5, 7), (7, 9), (9, 13)] := by
  refine ⟨?_, ?_, by decide +kernel⟩
  · have ended : (start exLexed).reading.2.toOption.isSome = true := by decide +kernel
    have length : (Key.bytes exLexed).length = 13 := by decide +kernel
    cases read : (start exLexed).reading.2 with
    | error fault =>
      rw [read] at ended
      cases ended
    | ok d =>
      obtain ⟨last, accounted⟩ := (reading_accounts_for_bytes exLexed).1 d read
      rw [length] at last accounted
      exact ⟨d, rfl, last, accounted⟩
  · have failed : (start exCut).reading.2.toOption.isSome = false := by decide +kernel
    have place : (endOf (start exCut).reading.2).position = 14 := by decide +kernel
    cases read : (start exCut).reading.2 with
    | ok d =>
      rw [read] at failed
      cases failed
    | error fault =>
      obtain ⟨error, _, accounted⟩ := (reading_accounts_for_bytes exCut).2.1 fault read
      rw [read] at place
      change fault.place.position = 14 at place
      rw [place] at error accounted
      exact ⟨fault, rfl, error, accounted⟩

end Cursor

end StyleFlags
