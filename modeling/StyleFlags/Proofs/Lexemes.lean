import StyleFlags.Proofs.Names
import StyleFlags.Proofs.Parsing

/-!
# Lexemes

What stands for a token in a text, and how far a token looks beyond its own
characters: a word and a numeral look at one character more, an operator at as
many as the longest symbol has, and a string at none. So a token that is read
with something behind it is read in the same way whatever comes after that.

Results:
1. `Cursor.exists_lexeme`, `Cursor.next_iff`: the next token is a lexeme, with ignored
   characters before it.
2. `Lexeme.extend`, `Lexeme.extend_comma`: a lexeme stays one when more text follows, if
   some text followed before or a comma comes first.
-/

namespace StyleFlags

/-! ## Runs of characters -/

namespace Text

variable {p : Char → Bool} {chars rest : List Char}

/-- Whether a text does not begin with a character of a class. -/
def Ends (p : Char → Bool) (rest : List Char) : Prop := ∀ c ∈ rest.head?, p c = false

theorem ends_cons {c : Char} : Ends p (c :: rest) ↔ p c = false := by simp [Ends]

theorem ends_dropWhile (p : Char → Bool) (l : List Char) : Ends p (l.dropWhile p) := by
  intro c isHead
  have holds := List.head?_dropWhile_not p l
  rw [Option.mem_def.mp isHead] at holds
  exact holds

theorem Ends.append (ends : Ends p rest) (nonempty : rest ≠ []) (more : List Char) :
    Ends p (rest ++ more) := by
  cases rest with
  | nil => exact absurd rfl nonempty
  | cons c tail => exact ends_cons.mpr (ends_cons.mp ends)

theorem Ends.takeWhile (ends : Ends p rest) (all : ∀ c ∈ chars, p c = true) :
    (chars ++ rest).takeWhile p = chars := by
  rw [List.takeWhile_append_of_pos all]
  cases rest with
  | nil => exact List.append_nil chars
  | cons c tail => rw [List.takeWhile_cons, ends_cons.mp ends]; exact List.append_nil chars

theorem mem_takeWhile {c : Char} {l : List Char} (member : c ∈ l.takeWhile p) : p c = true :=
  List.all_eq_true.mp List.all_takeWhile c member

/-- Whether a character can stand in a numeral. -/
def isNumeric (c : Char) : Bool := c.isDigit || c == '.'

end Text

/-! ## Tokens as they are written -/

/-- Which characters, with `rest` behind them, are written for a token. The offset of the token is
free. -/
inductive Lexeme : List Char → Token → List Char → Prop
  | word {first : Char} {tail rest : List Char} {offset : Nat} :
      Text.isNameStart first = true → (∀ c ∈ tail, Text.isWord c = true) →
      Text.Ends Text.isWord rest →
      Lexeme (first :: tail) (Cursor.wordToken (first :: tail) offset) rest
  | numeral {first : Char} {tail rest : List Char} {offset : Nat} :
      first.isDigit = true → (∀ c ∈ tail, Text.isNumeric c = true) →
      Text.Ends Text.isNumeric rest →
      Literal.isNumeral (first :: tail) = true →
      Lexeme (first :: tail) ⟨.literal, String.ofList (first :: tail), false, offset⟩ rest
  | quoted {quote : Char} {inside rest : List Char} {offset : Nat} :
      Text.isQuote quote = true → quote ∉ inside →
      Lexeme (quote :: (inside ++ [quote])) ⟨.literal, String.ofList inside, true, offset⟩ rest
  | symbol (op : Operator) {rest : List Char} {offset : Nat} :
      Operator.atStart? (op.symbol.toList ++ rest) = some op →
      Lexeme op.symbol.toList ⟨.operator op, op.symbol, false, offset⟩ rest

/-! ## Operators -/

namespace Operator

/-- Whether a character can begin a symbol only. -/
def opens (c : Char) : Bool :=
  !Text.isIgnored c && !Text.isNameStart c && !c.isDigit && !Text.isQuote c

theorem opens_symbol (op : Operator) : ∃ first tail, op.symbol.toList = first :: tail ∧
    opens first = true ∧ tail.length ≤ 1 := by
  cases op with
  | binary op =>
    cases op with
    | junction op => cases op <;> exact ⟨_, _, rfl, by decide, by decide⟩
    | compare op => cases op <;> exact ⟨_, _, rfl, by decide, by decide⟩
  | _ => exact ⟨_, _, rfl, by decide, by decide⟩

theorem atStart?_eq_some {text : List Char} {op : Operator} (found : atStart? text = some op) :
    ∃ rest, text = op.symbol.toList ++ rest := by
  have holds := List.find?_some found
  exact (List.isPrefixOf_iff_prefix.mp holds).imp fun rest same => same.symm

/-- Two characters say which operator stands there. -/
theorem atStart?_append {text : List Char} (long : 2 ≤ text.length) (more : List Char) :
    atStart? (text ++ more) = atStart? text := by
  unfold atStart?
  congr 1
  funext op
  obtain ⟨first, tail, spelled, _, short⟩ := opens_symbol op
  have fits : op.symbol.toList.length ≤ text.length := by
    rw [spelled, List.length_cons]
    omega
  rw [Bool.eq_iff_iff, List.isPrefixOf_iff_prefix, List.isPrefixOf_iff_prefix]
  exact ⟨fun found => List.prefix_of_prefix_length_le found (List.prefix_append text more) fits,
    fun found => found.trans (List.prefix_append text more)⟩

end Operator

/-! ## The next token -/

namespace Cursor

variable {c d : Cursor} {t : Token} {first : Char} {tail chars rest : List Char} {n : Nat}

theorem quotedLength?_eq_some (ahead : c.ahead = first :: tail) :
    c.quotedLength? = some n ↔ ∃ inside rest, tail = inside ++ first :: rest ∧ first ∉ inside ∧
      n = inside.length + 2 := by
  have found : c.quotedLength? = if (tail.takeWhile (· != first)).length < tail.length then
      some ((tail.takeWhile (· != first)).length + 2) else none := by
    rw [quotedLength?, ahead]
  rw [found]
  constructor
  · intro isLength
    split at isLength
    · next short =>
      cases isLength
      have parts := List.takeWhile_append_dropWhile (p := (· != first)) (l := tail)
      have ends := Text.ends_dropWhile (· != first) tail
      cases closing : tail.dropWhile (· != first) with
      | nil =>
        rw [closing, List.append_nil] at parts
        rw [parts] at short
        exact absurd short (Nat.lt_irrefl _)
      | cons last rest =>
        rw [closing] at parts ends
        have same : last = first := by simpa using Text.ends_cons.mp ends
        subst same
        refine ⟨_, rest, parts.symm, fun member => ?_, rfl⟩
        simpa using Text.mem_takeWhile member
    · cases isLength
  · rintro ⟨inside, rest, rfl, bare, rfl⟩
    have taken : (inside ++ first :: rest).takeWhile (· != first) = inside := by
      refine Text.Ends.takeWhile (Text.ends_cons.mpr (by simp)) fun c member => ?_
      simpa using ne_of_mem_of_not_mem member bare
    rw [taken, if_pos (by simp)]

/-- What is read at a token is a lexeme. -/
theorem exists_lexeme (ahead : c.ahead = first :: tail) (read : c.lexeme first = .ok (t, n)) :
    t.offset = c.position ∧
      ∃ chars rest, c.ahead = chars ++ rest ∧ n = chars.length ∧ Lexeme chars t rest := by
  unfold lexeme at read
  split at read
  · next isName =>
    cases read
    refine ⟨rfl, c.ahead.takeWhile Text.isWord, c.ahead.dropWhile Text.isWord,
      List.takeWhile_append_dropWhile.symm, rfl, ?_⟩
    have isWord : Text.isWord first = true := by simp [Text.isWord, isName]
    rw [ahead, List.takeWhile_cons_of_pos isWord]
    exact .word isName (fun _ => Text.mem_takeWhile) (Text.ends_dropWhile _ _)
  · next notName =>
    split at read
    · next isDigit =>
      simp only at read
      split at read
      · next isNumeral =>
        cases read
        refine ⟨rfl, c.ahead.takeWhile Text.isNumeric, c.ahead.dropWhile Text.isNumeric,
          List.takeWhile_append_dropWhile.symm, rfl, ?_⟩
        have isNumeric : Text.isNumeric first = true := by simp [Text.isNumeric, isDigit]
        have starts := List.takeWhile_cons_of_pos (l := tail) isNumeric
        have numeral : Literal.isNumeral (c.ahead.takeWhile Text.isNumeric) = true := isNumeral
        change Lexeme _ ⟨_, String.ofList (c.ahead.takeWhile Text.isNumeric), _, _⟩ _
        rw [ahead, starts] at numeral ⊢
        exact .numeral isDigit (fun _ => Text.mem_takeWhile) (Text.ends_dropWhile _ _) numeral
      · cases read
    · next notDigit =>
      split at read
      · next isQuote =>
        split at read
        · next found =>
          cases read
          obtain ⟨inside, rest, rfl, bare, rfl⟩ := (quotedLength?_eq_some ahead).mp found
          refine ⟨rfl, first :: (inside ++ [first]), rest, by simp [ahead], by simp, ?_⟩
          have text : (c.ahead.take (inside.length + 2 - 1)).drop 1 = inside := by simp [ahead]
          rw [text]
          exact .quoted isQuote bare
        · cases read
      · split at read
        · next op found =>
          cases read
          obtain ⟨rest, spelled⟩ := Operator.atStart?_eq_some found
          exact ⟨rfl, _, rest, spelled, String.length_toList.symm, .symbol op (spelled ▸ found)⟩
        · cases read

/-- A lexeme is read as its token. -/
theorem lexeme_of_lexeme (lexeme : Lexeme chars t rest) (ahead : c.ahead = chars ++ rest)
    (offset : t.offset = c.position) :
    ∃ first tail, chars = first :: tail ∧ Text.isIgnored first = false ∧
      c.lexeme first = .ok (t, chars.length) := by
  cases lexeme with
  | @word first tail _ place isName words ends =>
    obtain rfl : place = c.position := offset
    have isWord : Text.isWord first = true := by simp [Text.isWord, isName]
    refine ⟨first, tail, rfl, by simp [Text.isIgnored, isWord], ?_⟩
    rw [Cursor.lexeme, if_pos isName, ahead,
      ends.takeWhile (List.forall_mem_cons.mpr ⟨isWord, words⟩)]
  | @numeral first tail _ place isDigit digits ends numeral =>
    obtain rfl : place = c.position := offset
    have notName : Text.isNameStart first = false := by
      cases isName : Text.isNameStart first with
      | false => rfl
      | true => rw [isDigit_of_isNameStart isName] at isDigit; cases isDigit
    have isNumeric : Text.isNumeric first = true := by simp [Text.isNumeric, isDigit]
    have taken := ends.takeWhile (List.forall_mem_cons.mpr ⟨isNumeric, digits⟩)
    refine ⟨first, tail, rfl, by simp [Text.isIgnored, Text.isWord, isDigit], ?_⟩
    unfold Text.isNumeric at taken
    rw [Cursor.lexeme, notName, if_neg Bool.false_ne_true, if_pos isDigit, ahead, taken,
      if_pos numeral]
  | @quoted quote inside _ place isQuote bare =>
    obtain rfl : place = c.position := offset
    refine ⟨quote, _, rfl, by simp [Text.isIgnored, isQuote], ?_⟩
    have starts : c.ahead = quote :: (inside ++ quote :: rest) := by simp [ahead]
    have found : c.quotedLength? = some (inside.length + 2) :=
      (quotedLength?_eq_some starts).mpr ⟨inside, rest, rfl, bare, rfl⟩
    have others : Text.isNameStart quote = false ∧ quote.isDigit = false := by
      simp only [Text.isQuote, Bool.or_eq_true, beq_iff_eq] at isQuote
      rcases isQuote with rfl | rfl <;> decide
    rw [Cursor.lexeme, others.1, if_neg Bool.false_ne_true, others.2, if_neg Bool.false_ne_true,
      if_pos isQuote, found]
    simp [starts]
  | @symbol op _ place found =>
    obtain rfl : place = c.position := offset
    obtain ⟨first, tail, spelled, opens, _⟩ := Operator.opens_symbol op
    simp only [Operator.opens, Bool.and_eq_true, Bool.not_eq_true'] at opens
    obtain ⟨⟨⟨kept, notName⟩, notDigit⟩, notQuote⟩ := opens
    refine ⟨first, tail, spelled, kept, ?_⟩
    rw [Cursor.lexeme, notName, if_neg Bool.false_ne_true, notDigit, if_neg Bool.false_ne_true,
      notQuote, if_neg Bool.false_ne_true, ahead, found, String.length_toList]

theorem next_iff_next : c.Next t d ↔ c.next = .ok (some t, d) := by
  unfold Next peek
  constructor
  · rintro ⟨_, found⟩
    split at found
    · next read =>
      cases found
      exact read
    · cases found
    · cases found
  · intro read
    refine ⟨next_shorter read, ?_⟩
    split
    · next found =>
      rw [read] at found
      cases found
      rfl
    · next found =>
      rw [read] at found
      cases found
    · next found =>
      rw [read] at found
      cases found

/-- The place behind some of the characters ahead. -/
def passed (c : Cursor) (chars rest : List Char) : Cursor := ⟨chars.reverse ++ c.behind, rest⟩

theorem advance_eq_passed (ahead : c.ahead = chars ++ rest) :
    c.advance chars.length = c.passed chars rest := by
  simp [advance, passed, ahead]

theorem source_passed (ahead : c.ahead = chars ++ rest) : (c.passed chars rest).source = c.source := by
  simp [source, passed, ahead]

/-- The next token is the lexeme behind what is ignored. -/
theorem next_iff :
    c.Next t d ↔ ∃ blanks chars rest, c.ahead = blanks ++ (chars ++ rest) ∧
      (∀ x ∈ blanks, Text.isIgnored x = true) ∧ Lexeme chars t rest ∧
      t.offset = (c.passed blanks (chars ++ rest)).position ∧ d = c.passed (blanks ++ chars) rest := by
  rw [next_iff_next]
  constructor
  · intro read
    have parts := List.takeWhile_append_dropWhile (p := Text.isIgnored) (l := c.ahead)
    have here : c.skip Text.isIgnored = c.passed _ (c.ahead.dropWhile Text.isIgnored) :=
      advance_eq_passed parts.symm
    unfold next at read
    simp only [here] at read
    split at read
    · cases read
    · next first tail ahead =>
      split at read
      · next found =>
        cases read
        obtain ⟨offset, chars, rest, spelled, rfl, lexeme⟩ := exists_lexeme ahead found
        have spelled' : c.ahead.dropWhile Text.isIgnored = chars ++ rest := spelled
        rw [spelled'] at parts offset
        refine ⟨_, chars, rest, parts.symm, fun _ => Text.mem_takeWhile, lexeme, offset, ?_⟩
        rw [advance_eq_passed spelled]
        simp [passed]
      · cases read
  · rintro ⟨blanks, chars, rest, ahead, ignored, lexeme, offset, rfl⟩
    obtain ⟨first, tail, spelled, kept, read⟩ := lexeme_of_lexeme lexeme rfl offset
    have ends : Text.Ends Text.isIgnored (chars ++ rest) := by
      rw [spelled, List.cons_append]
      exact Text.ends_cons.mpr kept
    have here : c.skip Text.isIgnored = c.passed blanks (chars ++ rest) := by
      rw [skip, ahead, ends.takeWhile ignored, advance_eq_passed ahead]
    unfold next
    simp only [here]
    split
    · next none =>
      rw [spelled] at none
      cases none
    · next other _ ahead' =>
      have same : other = first := by
        rw [spelled] at ahead'
        exact (List.cons.inj ahead').1.symm
      have moved : (c.passed blanks (chars ++ rest)).advance chars.length =
          c.passed (blanks ++ chars) rest := by
        rw [advance_eq_passed rfl]
        simp [passed]
      rw [same, read]
      simp only [moved]

/-- Where no token is left, all that is ahead is ignored. -/
theorem ignored_of_ended (ended : c.tokens = .ok []) : ∀ x ∈ c.ahead, Text.isIgnored x = true := by
  have none := tokens_eq_nil.mp ended
  have left : (c.skip Text.isIgnored).ahead = c.ahead.dropWhile Text.isIgnored := by
    rw [skip, advance_eq_passed List.takeWhile_append_dropWhile.symm]
    rfl
  cases ahead : c.ahead.dropWhile Text.isIgnored with
  | nil =>
    have parts := List.takeWhile_append_dropWhile (p := Text.isIgnored) (l := c.ahead)
    rw [ahead, List.append_nil] at parts
    intro x member
    rw [← parts] at member
    exact Text.mem_takeWhile member
  | cons first tail =>
    unfold peek at none
    split at none
    · cases none
    · next read =>
      simp only [next, left.trans ahead] at read
      split at read
      · cases read
      · cases read
    · cases none

end Cursor

/-! ## More text -/

/-- A lexeme with something behind it does not depend on what comes after that. -/
theorem Lexeme.extend {chars rest : List Char} {t : Token} (lexeme : Lexeme chars t rest)
    (followed : rest ≠ []) (more : List Char) : Lexeme chars t (rest ++ more) := by
  cases lexeme with
  | word isName words ends => exact .word isName words (ends.append followed more)
  | numeral isDigit digits ends numeral =>
    exact .numeral isDigit digits (ends.append followed more) numeral
  | quoted isQuote bare => exact .quoted isQuote bare
  | @symbol op _ _ found =>
    refine .symbol op ?_
    have long : 2 ≤ (op.symbol.toList ++ rest).length := by
      have one := Cursor.one_le_symbol_length op
      have some := List.length_pos_iff.mpr followed
      rw [List.length_append, String.length_toList]
      omega
    rw [← List.append_assoc, Operator.atStart?_append long, found]

/-- No symbol goes on with a comma. -/
theorem Operator.atStart?_comma (op : Operator) (rest : List Char) :
    atStart? (op.symbol.toList ++ ',' :: rest) = some op := by
  cases op with
  | binary op =>
    cases op with
    | junction op => cases op <;> rfl
    | compare op => cases op <;> rfl
  | _ => rfl

/-- A lexeme does not go on with a comma either. -/
theorem Lexeme.extend_comma {chars rest more : List Char} {t : Token} (lexeme : Lexeme chars t rest)
    (comma : more.head? = some ',') : Lexeme chars t (rest ++ more) := by
  by_cases ended : rest = []
  · subst ended
    obtain ⟨others, rfl⟩ := List.head?_eq_some_iff.mp comma
    cases lexeme with
    | word isName words _ => exact .word isName words (Text.ends_cons.mpr (by decide))
    | numeral isDigit digits _ numeral =>
      exact .numeral isDigit digits (Text.ends_cons.mpr (by decide)) numeral
    | quoted isQuote bare => exact .quoted isQuote bare
    | symbol op _ => exact .symbol op (op.atStart?_comma others)
  · exact lexeme.extend ended more

end StyleFlags
