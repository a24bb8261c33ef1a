import StyleFlags.Proofs.ConditionNames
import StyleFlags.Proofs.Lexemes

/-!
# Conditions read back from their text

The text of a condition has no brackets around a part of a chain, and reading
groups every chain to the left. So a condition comes back from its text with its
chains leaning to the left, and nothing else is changed: not a negation, not the
sign of a number, not the grouping of other operators. Only a string with a
single quote in it cannot be written, since strings are written between single
quotes.

Results:
1. `Writes.group`, `Writes.negated`, `Writes.infixed`: what is written for a part
   of a condition can be put into what is written for the whole.
2. `Continues.chain`: two pieces of a chain are written next to each other, and
   come back as one chain.
3. `Condition.read_text`: a condition that was read is read again from its text,
   with its chains grouped to the left; it has the same text, the same name and the
   same values.
-/

namespace StyleFlags

/-! ## Lists of tokens -/

namespace Cursor

/-- Whether `ts` are the next tokens, and `d` the place after them. -/
inductive Lexes : Cursor → List Token → Cursor → Prop
  | nil {c : Cursor} : Lexes c [] c
  | cons {c d e : Cursor} {t : Token} {ts : List Token} :
      c.Next t d → Lexes d ts e → Lexes c (t :: ts) e

variable {c d e : Cursor} {ts us : List Token}

theorem Lexes.append (first : Lexes c ts d) (second : Lexes d us e) : Lexes c (ts ++ us) e := by
  induction first with
  | nil => exact second
  | cons next _ ih => exact .cons next (ih second)

theorem Lexes.tokens (lexes : Lexes c ts d) (rest : d.tokens = .ok us) :
    c.tokens = .ok (ts ++ us) := by
  induction lexes with
  | nil => exact rest
  | cons next _ ih => exact tokens_eq_cons.mpr ⟨_, next, ih rest⟩

theorem tokens_of_atEnd (atEnd : c.ahead = []) : c.tokens = .ok [] := by
  have ended : c.next = .ok (none, c) := by
    obtain ⟨behind, ahead⟩ := c
    cases atEnd
    rfl
  rw [tokens_eq_nil, peek]
  split
  · next found =>
    rw [ended] at found
    cases found
  · rfl
  · next found =>
    rw [ended] at found
    cases found

theorem exists_next (blanks : List Char) {kind : TokenKind} {text : String} {quoted : Bool}
    {chars rest : List Char}
    (lexeme : ∀ offset, Lexeme chars ⟨kind, text, quoted, offset⟩ rest)
    (ahead : c.ahead = blanks ++ (chars ++ rest)) (ignored : ∀ x ∈ blanks, Text.isIgnored x = true) :
    ∃ t d, c.Next t d ∧ d.ahead = rest ∧ t.kind = kind ∧ t.text = text ∧ t.quoted = quoted :=
  ⟨_, _, next_iff.mpr ⟨blanks, chars, rest, ahead, ignored, lexeme _, rfl, rfl⟩, rfl, rfl, rfl, rfl⟩

end Cursor

/-! ## Symbols -/

namespace Operator

theorem atStart?_bang {rest : List Char} (bare : Text.Ends (· == '=') rest) :
    atStart? ('!' :: rest) = some bang := by
  cases rest with
  | nil => rfl
  | cons c tail =>
    have different : c ≠ '=' := by simpa using Text.ends_cons.mp bare
    simp [atStart?, all, symbol, BinaryOperator.symbol, Comparison.symbol, different.symm]

theorem atStart?_binary (op : BinaryOperator) (rest : List Char) :
    atStart? (op.symbol.toList ++ ' ' :: rest) = some (binary op) := by
  cases op with
  | junction op => cases op <;> rfl
  | compare op => cases op <;> rfl

end Operator

/-! ## What is written for a condition -/

namespace Grammar

open Condition

/-- Whether a text cannot go on with what stands before it: it is empty, or it begins with a blank or
a closing parenthesis. -/
def Apart (rest : List Char) : Prop := ∀ c ∈ rest.head?, c = ' ' ∨ c = ')'

theorem Apart.ends {rest : List Char} (apart : Apart rest) {p : Char → Bool}
    (blank : p ' ' = false) (closing : p ')' = false) : Text.Ends p rest := by
  intro c isHead
  rcases apart c isHead with rfl | rfl
  · exact blank
  · exact closing

theorem apart_blank (rest : List Char) : Apart (' ' :: rest) := by
  rintro c ⟨⟩
  exact .inl rfl

theorem apart_closing (rest : List Char) : Apart (')' :: rest) := by
  rintro c ⟨⟩
  exact .inr rfl

/-- Whether the characters, wherever they stand apart from what follows, are tokens that derive at a
layer and build the condition. -/
def Writes (layer : Layer) (chars : List Char) (x : Condition) : Prop :=
  ∀ (c : Cursor) (blanks rest : List Char), c.ahead = blanks ++ (chars ++ rest) →
    (∀ b ∈ blanks, Text.isIgnored b = true) → Apart rest →
    ∃ ts y d, c.Lexes ts d ∧ d.ahead = rest ∧ Derives layer ts y ∧ y.build = .ok x

section Writes

variable {layer : Layer} {chars : List Char} {x : Condition}

theorem ignored_nil : ∀ b ∈ ([] : List Char), Text.isIgnored b = true := by simp

theorem ignored_blank : ∀ b ∈ [' '], Text.isIgnored b = true := forall_of_all (by decide)

theorem Writes.item (writes : Writes layer.tighter chars x) : Writes layer chars x := by
  intro c blanks rest ahead ignored apart
  obtain ⟨ts, y, d, lexes, behind, derives, built⟩ := writes c blanks rest ahead ignored apart
  exact ⟨ts, y, d, lexes, behind, .item derives, built⟩

theorem Writes.below (writes : Writes .unary chars x) (op : Connective) :
    Writes (layerOf (.junction op)).tighter chars x := by
  cases op with
  | or => exact .item (.item writes)
  | and => exact .item writes

theorem Writes.whole {op : BinaryOperator} (writes : Writes (layerOf op) chars x) :
    Writes .or chars x := by
  cases op with
  | junction op =>
    cases op with
    | or => exact writes
    | and => exact .item writes
  | compare op => exact .item (.item writes)

/-- A single token. -/
theorem writes_token (kind : TokenKind) (text : String) (quoted : Bool) (y : Token → Derivation)
    (lexeme : ∀ rest, Apart rest → ∀ offset, Lexeme chars ⟨kind, text, quoted, offset⟩ rest)
    (derives : ∀ t : Token, t.kind = kind → Derives .primary [t] (y t))
    (builds : ∀ t : Token, t.text = text → t.quoted = quoted → (y t).build = .ok x) :
    Writes .primary chars x := by
  intro c blanks rest ahead ignored apart
  obtain ⟨t, d, next, behind, isKind, isText, isQuoted⟩ :=
    Cursor.exists_next blanks (lexeme rest apart) ahead ignored
  exact ⟨[t], y t, d, .cons next .nil, behind, derives t isKind, builds t isText isQuoted⟩

theorem Writes.group (writes : Writes .or chars x) : Writes .primary ('(' :: (chars ++ [')'])) x := by
  intro c blanks rest ahead ignored apart
  have opening (offset : Nat) : Lexeme ['('] ⟨.operator .openParen, "(", false, offset⟩
      (chars ++ ')' :: rest) := .symbol .openParen rfl
  have closing (offset : Nat) : Lexeme [')'] ⟨.operator .closeParen, ")", false, offset⟩ rest :=
    .symbol .closeParen rfl
  obtain ⟨t, d, next, inside, opens, _⟩ :=
    Cursor.exists_next blanks opening (ahead.trans (by simp)) ignored
  obtain ⟨ts, y, e, lexes, behind, derives, built⟩ :=
    writes d [] (')' :: rest) inside ignored_nil (apart_closing rest)
  obtain ⟨u, f, nextAgain, after, closes, _⟩ :=
    Cursor.exists_next [] closing behind ignored_nil
  exact ⟨t :: (ts ++ [u]), .group y, f, .cons next (lexes.append (.cons nextAgain .nil)), after,
    .group opens derives closes, built⟩

/-- An operator before an operand. -/
theorem Writes.prefixed {z : Condition} (writes : Writes .unary chars x) (op : Operator)
    (signs : op = .bang ∨ op = .minus)
    (stands : ∀ rest, Operator.atStart? (op.symbol.toList ++ (chars ++ rest)) = some op)
    (made : Condition.prefixed op x = .ok z) : Writes .unary (op.symbol.toList ++ chars) z := by
  intro c blanks rest ahead ignored apart
  obtain ⟨t, d, next, inside, isOp, _⟩ :=
    Cursor.exists_next blanks (fun _ => .symbol op (stands rest))
      (ahead.trans (by rw [List.append_assoc])) ignored
  obtain ⟨ts, y, e, lexes, behind, derives, built⟩ := writes d [] rest inside ignored_nil apart
  exact ⟨t :: ts, .prefixed op y, e, .cons next lexes, behind, .prefixed isOp signs derives,
    bind_eq_ok_iff.mpr ⟨x, built, made⟩⟩

theorem Writes.negated (writes : Writes .unary chars x) (bare : chars.head?.any (· != '=') = true) :
    Writes .unary ('!' :: chars) x.negate := by
  refine writes.prefixed .bang (.inl rfl) (fun rest => ?_) rfl
  cases chars with
  | nil => cases bare
  | cons c tail => exact Operator.atStart?_bang (Text.ends_cons.mpr (by simpa using bare))

/-- Two parts with an operator between them. -/
def spaced (op : BinaryOperator) (left right : List Char) : List Char :=
  left ++ ' ' :: (op.symbol.toList ++ ' ' :: right)

theorem Writes.infixed (op : BinaryOperator) {left right : List Char} {y z : Condition}
    (onLeft : Writes (layerOf op) left x) (onRight : Writes (layerOf op).tighter right y)
    (made : Condition.join op x y = .ok z) : Writes (layerOf op) (spaced op left right) z := by
  intro c blanks rest ahead ignored apart
  have start : c.ahead = blanks ++ (left ++ ' ' :: (op.symbol.toList ++ ' ' :: (right ++ rest))) :=
    ahead.trans (by simp [spaced])
  obtain ⟨ts, v, d, lexesLeft, behind, derivesLeft, builtLeft⟩ :=
    onLeft c blanks _ start ignored (apart_blank _)
  have symbol (offset : Nat) : Lexeme op.symbol.toList
      ⟨.operator (.binary op), op.symbol, false, offset⟩ (' ' :: (right ++ rest)) :=
    .symbol (.binary op) (Operator.atStart?_binary op _)
  obtain ⟨t, e, next, after, isOp, _⟩ :=
    Cursor.exists_next [' '] symbol behind ignored_blank
  obtain ⟨us, w, f, lexesRight, ended, derivesRight, builtRight⟩ :=
    onRight e [' '] rest after ignored_blank apart
  exact ⟨ts ++ t :: us, .infixed op v w, f, lexesLeft.append (.cons next lexesRight), ended,
    .infixed rfl derivesLeft isOp derivesRight,
    bind_eq_ok_iff.mpr ⟨x, builtLeft, bind_eq_ok_iff.mpr ⟨y, builtRight, made⟩⟩⟩

theorem Writes.read {text : String} (writes : Writes .or text.toList x) : read text = .ok x := by
  have start : (Cursor.start text).ahead = [] ++ (text.toList ++ []) := by simp [Cursor.start]
  obtain ⟨ts, y, d, lexes, ended, derives, built⟩ :=
    writes (Cursor.start text) [] [] start ignored_nil (by rintro c ⟨⟩)
  have listed := lexes.tokens (Cursor.tokens_of_atEnd ended)
  rw [List.append_nil] at listed
  obtain ⟨first, mid, operand, infixes⟩ := derives_iff_climbs.mp derives
  exact read_eq_ok_iff.mpr (operand.runs.climb infixes.runs built listed)

end Writes

/-! ## Leaves -/

theorem lexeme_word {text : String} (starts : text.toList.head?.any Text.isNameStart = true)
    (words : text.toList.all Text.isWord = true) {rest : List Char}
    (ends : Text.Ends Text.isWord rest) (offset : Nat) :
    Lexeme text.toList ⟨if (LiteralKind.ofWord? text).isSome then .literal else .identifier, text,
      false, offset⟩ rest := by
  cases spelled : text.toList with
  | nil => simp [spelled] at starts
  | cons first tail =>
    rw [spelled, List.head?_cons, Option.any_some] at starts
    rw [spelled] at words
    have word : Lexeme _ (Cursor.wordToken (first :: tail) offset) rest :=
      .word starts (List.forall_mem_cons.mp (List.all_eq_true.mp words)).2 ends
    rwa [Cursor.wordToken, ← spelled, String.ofList_toList, spelled] at word

theorem lexeme_identifier {name : String} (identifier : isIdentifier name = true)
    {rest : List Char} (ends : Text.Ends Text.isWord rest) (offset : Nat) :
    Lexeme name.toList ⟨.identifier, name, false, offset⟩ rest := by
  simp only [isIdentifier, Bool.and_eq_true, Option.isNone_iff_eq_none] at identifier
  obtain ⟨⟨starts, words⟩, unreserved⟩ := identifier
  have lexeme := lexeme_word starts words ends offset
  rwa [unreserved] at lexeme

theorem writes_identifier {name : String} (identifier : isIdentifier name = true) :
    Writes .primary name.toList (.property false name) := by
  refine writes_token .identifier name false .identifier
    (fun rest apart => lexeme_identifier identifier (apart.ends (by decide) (by decide)))
    (fun t isName => .identifier isName) ?_
  rintro t rfl _
  rfl

theorem writes_literal (text : String) (quoted : Bool) {l : Literal} {chars : List Char}
    (lexeme : ∀ rest, Apart rest → ∀ offset, Lexeme chars ⟨.literal, text, quoted, offset⟩ rest)
    (reads : ∀ offset, Literal.read text quoted offset = .ok l) :
    Writes .primary chars (.literal false l) := by
  refine writes_token .literal text quoted .literal lexeme (fun t isLiteral => .literal isLiteral) ?_
  rintro t rfl rfl
  exact bind_eq_ok_iff.mpr ⟨l, reads t.offset, rfl⟩

theorem lexeme_reserved {text : String} {kind : LiteralKind}
    (word : LiteralKind.ofWord? text = some kind) {rest : List Char}
    (ends : Text.Ends Text.isWord rest) (offset : Nat) :
    Lexeme text.toList ⟨.literal, text, false, offset⟩ rest := by
  have all : ∀ text ∈ reservedWords,
      text.toList.head?.any Text.isNameStart = true ∧ text.toList.all Text.isWord = true := by decide
  obtain ⟨starts, words⟩ := all text (LiteralKind.ofWord?_eq_some word).1
  have lexeme := lexeme_word starts words ends offset
  rwa [word] at lexeme

theorem read_reserved {text : String} {kind : LiteralKind}
    (word : LiteralKind.ofWord? text = some kind) (offset : Nat) :
    Literal.read text false offset = .ok ⟨kind, text⟩ := by
  simp [Literal.read, LiteralKind.isNumeral_of_ofWord? word, word]

theorem writes_reserved {text : String} {kind : LiteralKind}
    (word : LiteralKind.ofWord? text = some kind) :
    Writes .primary text.toList (.literal false ⟨kind, text⟩) :=
  writes_literal text false
    (fun _ apart => lexeme_reserved word (apart.ends (by decide) (by decide))) (read_reserved word)

theorem exists_of_isUnsigned {l : List Char} (unsigned : Literal.isUnsigned l = true) :
    ∃ first tail, l = first :: tail ∧ first.isDigit = true ∧
      ∀ c ∈ tail, Text.isNumeric c = true := by
  have numeric : ∀ c ∈ l, Text.isNumeric c = true := by
    simp only [Literal.isUnsigned, Bool.and_eq_true] at unsigned
    obtain ⟨_, tail⟩ := unsigned
    have digit {c : Char} (isDigit : c.isDigit = true) : Text.isNumeric c = true := by
      simp [Text.isNumeric, isDigit]
    intro c member
    rw [← List.takeWhile_append_dropWhile (p := Char.isDigit) (l := l)] at member
    rcases List.mem_append.mp member with whole | rest
    · exact digit (Text.mem_takeWhile whole)
    · split at tail
      · next ended =>
        rw [ended] at rest
        cases rest
      · next fraction found =>
        rw [found] at rest
        simp only [Bool.and_eq_true] at tail
        rcases List.mem_cons.mp rest with rfl | inFraction
        · decide
        · exact digit (List.all_eq_true.mp tail.2 c inFraction)
      · cases tail
  cases l with
  | nil => cases unsigned
  | cons first tail =>
    refine ⟨first, tail, rfl, ?_, (List.forall_mem_cons.mp numeric).2⟩
    cases isDigit : first.isDigit with
    | true => rfl
    | false => simp [Literal.isUnsigned, isDigit] at unsigned

theorem isNumeral_of_isUnsigned {l : List Char} (unsigned : Literal.isUnsigned l = true) :
    Literal.isNumeral l = true := by
  unfold Literal.isNumeral
  split
  · simp [Literal.isUnsigned] at unsigned
  · exact unsigned

theorem lexeme_unsigned {text : String} (unsigned : Literal.isUnsigned text.toList = true)
    {rest : List Char} (ends : Text.Ends Text.isNumeric rest) (offset : Nat) :
    Lexeme text.toList ⟨.literal, text, false, offset⟩ rest := by
  have numeral := isNumeral_of_isUnsigned unsigned
  obtain ⟨first, tail, spelled, isDigit, digits⟩ := exists_of_isUnsigned unsigned
  have same : String.ofList (first :: tail) = text := by rw [← spelled, String.ofList_toList]
  have lexeme : Lexeme _ ⟨.literal, String.ofList (first :: tail), false, offset⟩ rest :=
    .numeral isDigit digits ends (spelled ▸ numeral)
  rwa [same, ← spelled] at lexeme

theorem read_unsigned {text : String} (unsigned : Literal.isUnsigned text.toList = true)
    (offset : Nat) : Literal.read text false offset = .ok ⟨.number, text⟩ := by
  simp [Literal.read, isNumeral_of_isUnsigned unsigned]

theorem writes_unsigned {text : String} (unsigned : Literal.isUnsigned text.toList = true) :
    Writes .primary text.toList (.literal false ⟨.number, text⟩) :=
  writes_literal text false
    (fun _ apart => lexeme_unsigned unsigned (apart.ends (by decide) (by decide)))
    (read_unsigned unsigned)

/-- A number is written with its sign, which is read as an operator. -/
theorem writes_number {text : String} (numeral : Literal.isNumeral text.toList = true) :
    Writes .unary text.toList (.literal false ⟨.number, text⟩) := by
  unfold Literal.isNumeral at numeral
  split at numeral
  · next rest minus =>
    have unsigned : Literal.isUnsigned (String.ofList rest).toList = true := by
      rw [String.toList_ofList]
      exact numeral
    have writes : Writes .unary _ _ := .item (writes_unsigned unsigned)
    obtain ⟨first, tail, rfl, isDigit, _⟩ := exists_of_isUnsigned numeral
    have signed : Literal.negateSign? ⟨.number, String.ofList (first :: tail)⟩ =
        some ⟨.number, text⟩ := by
      have notMinus : first ≠ '-' := by
        rintro rfl
        cases isDigit
      have whole : "-" ++ String.ofList (first :: tail) = text := by
        rw [← String.ofList_toList (s := text), minus]
        exact String.ext (by simp)
      unfold Literal.negateSign?
      rw [if_pos rfl, String.toList_ofList]
      split
      · next same => exact absurd (List.cons.inj same).1 notMinus
      · rw [whole]
    rw [String.toList_ofList] at writes
    rw [minus]
    refine writes.prefixed .minus (.inr rfl) (fun _ => rfl) ?_
    simp only [Condition.prefixed, literal?, Option.bind_some, signed]
  · exact .item (writes_unsigned numeral)

theorem lexeme_string {text : String} (bare : '\'' ∉ text.toList) (rest : List Char)
    (offset : Nat) :
    Lexeme ('\'' :: (text.toList ++ ['\''])) ⟨.literal, text, true, offset⟩ rest := by
  have lexeme : Lexeme _ ⟨.literal, String.ofList text.toList, true, offset⟩ rest :=
    .quoted (by decide) bare
  rwa [String.ofList_toList] at lexeme

theorem writes_string {text : String} (bare : '\'' ∉ text.toList) :
    Writes .primary ('\'' :: (text.toList ++ ['\''])) (.literal false (.string text)) :=
  writes_literal text true (fun rest _ => lexeme_string bare rest) fun _ => rfl

end Grammar

namespace Condition

open Grammar

/-- The literals that occur, from left to right. -/
def literals : Condition → List Literal
  | property _ _ => []
  | literal _ l => [l]
  | binary _ _ left right => left.literals ++ right.literals

/-- Whether no string of a condition holds a single quote. -/
def Unquoted (x : Condition) : Prop :=
  ∀ l ∈ x.literals, l.kind = .string → '\'' ∉ l.text.toList

theorem unquoted_binary {negated : Bool} {op : BinaryOperator} {left right : Condition} :
    (binary negated op left right).Unquoted ↔ left.Unquoted ∧ right.Unquoted :=
  List.forall_mem_append

theorem toList_spelling_string (text : String) :
    (Literal.spelling ⟨.string, text⟩).toList = '\'' :: (text.toList ++ ['\'']) := by
  simp [Literal.spelling]

theorem writes_spelling {l : Literal} (readable : l.Readable)
    (unquoted : l.kind = .string → '\'' ∉ l.text.toList) :
    Writes .unary l.spelling.toList (literal false l) := by
  obtain ⟨kind, text⟩ := l
  rcases Literal.readable_iff.mp readable with isString | ⟨isNumber, numeral⟩ | word
  · obtain rfl : kind = .string := isString
    rw [toList_spelling_string]
    exact .item (writes_string (unquoted rfl))
  · obtain rfl : kind = .number := isNumber
    exact writes_number numeral
  · have bare : kind ≠ .string := (LiteralKind.ofWord?_eq_some word).2.2
    rw [Literal.spelling, if_neg bare]
    exact .item (writes_reserved word)

theorem writes_leaf {x : Condition} (isLeaf : x.op? = none) (shaped : x.Shaped .source)
    (unquoted : x.Unquoted) (parent : Option BinaryOperator) :
    Writes .unary (x.render .source parent).toList x := by
  cases x with
  | property negated name =>
    have plain : Writes .unary name.toList (property false name) := .item (writes_identifier shaped)
    cases negated with
    | false => exact plain
    | true =>
      have spelled : (render .source parent (property true name)).toList = '!' :: name.toList := by
        simp [render, Spelling.source]
      rw [spelled]
      refine plain.negated ?_
      have starts : name.toList.head?.any Text.isNameStart = true := by
        have identifier : isIdentifier name = true := shaped
        simp only [isIdentifier, Bool.and_eq_true] at identifier
        exact identifier.1.1
      cases chars : name.toList with
      | nil => simp [chars] at starts
      | cons first tail =>
        rw [chars, List.head?_cons, Option.any_some] at starts
        have different : first ≠ '=' := by
          rintro rfl
          cases starts
        simpa using different
  | literal negated l =>
    obtain ⟨rfl, readable⟩ := shaped
    exact writes_spelling readable (unquoted l List.mem_cons_self)
  | binary negated op left right => cases isLeaf

/-! ## Chains -/

/-- Whether the characters are written for a condition below a connective, also behind a part of a
chain. -/
structure Continues (op : Connective) (chars : List Char) (x : Condition) : Prop where
  isOpen : x.literal? = none
  alone : Writes (layerOf (.junction op)) chars x
  behind : ∀ {before : List Char} {left : Condition}, left.literal? = none →
    Writes (layerOf (.junction op)) before left →
    Writes (layerOf (.junction op)) (spaced (.junction op) before chars) (attach op left x)

section Continues

variable {op : Connective} {chars more : List Char} {x y : Condition}

theorem join_of_open {op : Connective} (leftOpen : x.literal? = none) (rightOpen : y.literal? = none) :
    join (.junction op) x y = .ok (binary false (.junction op) x y) :=
  congrArg Except.ok (junction_of_open leftOpen rightOpen)

/-- A condition that is no chain itself is one more item of the chain. -/
theorem Continues.item (writes : Writes .unary chars x) (isOpen : x.literal? = none)
    (apart : ∀ first last, x ≠ binary false (.junction op) first last) : Continues op chars x where
  isOpen := isOpen
  alone := .item (writes.below op)
  behind leftOpen onLeft := by
    rw [attach_of_not_chain apart]
    exact onLeft.infixed (.junction op) (writes.below op) (join_of_open leftOpen isOpen)

theorem literal?_attach (op : Connective) (x y : Condition) : (attach op x y).literal? = none := by
  obtain ⟨first, last, attached⟩ := attach_eq_binary op x y
  rw [attached]
  rfl

/-- Two pieces of a chain. -/
theorem Continues.chain (onLeft : Continues op chars x) (onRight : Continues op more y) :
    Continues op (spaced (.junction op) chars more) (attach op x y) where
  isOpen := literal?_attach op x y
  alone := onRight.behind onLeft.isOpen onLeft.alone
  behind {before left} leftOpen writes := by
    have joined := onRight.behind (literal?_attach op left x) (onLeft.behind leftOpen writes)
    rw [attach_assoc] at joined
    have regrouped : spaced (.junction op) (spaced (.junction op) before chars) more =
        spaced (.junction op) before (spaced (.junction op) chars more) := by simp [spaced]
    rwa [regrouped] at joined

end Continues

/-! ## Conditions -/

/-- What is written for the two sides of an operator, without brackets. -/
def joinedText (op : BinaryOperator) (left right : Condition) : List Char :=
  spaced op (left.render .source (some op)).toList (right.render .source (some op)).toList

theorem toList_render_source (negated : Bool) (op : BinaryOperator) (left right : Condition)
    (parent : Option BinaryOperator) :
    (render .source parent (binary negated op left right)).toList =
      if negated = false ∧ some op = parent then joinedText op left right
      else (if negated then ['!'] else []) ++ '(' :: (joinedText op left right ++ [')']) := by
  cases negated with
  | true => simp [render, joinedText, spaced, Spelling.source]
  | false =>
    by_cases same : some op = parent
    · simp [render, joinedText, spaced, Spelling.source, same]
    · simp [render, joinedText, spaced, Spelling.source, same]

theorem writes_bracketed {op : BinaryOperator} {chars : List Char} {x : Condition}
    (writes : Writes (layerOf op) chars x) (negated : Bool) :
    Writes .unary ((if negated then ['!'] else []) ++ '(' :: (chars ++ [')']))
      (if negated then x.negate else x) := by
  have grouped : Writes .unary _ x := .item writes.whole.group
  cases negated with
  | false => exact grouped
  | true => exact grouped.negated rfl

/-- A comparison with an operand that fits it is neither refused nor folded. -/
theorem comparison_of_operand {v : Vocabulary} {op : Comparison} {right : Condition}
    (operand : right.ShapedOperand v op) (name : String) :
    comparison op (property false name) right =
      .ok (binary false (.compare op) (property false name) right) := by
  cases right with
  | property negated other => rfl
  | literal negated l =>
    obtain ⟨_, _, fitting⟩ := operand
    unfold fits at fitting
    split at fitting
    · next isEquality => simp [comparison, misuse?, literal?, isEquality, fitting]
    · next isOrder => simp [comparison, misuse?, literal?, isOrder, fitting]
  | binary negated found first last => exact operand.elim

/-- The sides of a comparison are leaves. -/
theorem writes_comparison {negated : Bool} {op : Comparison} {left right : Condition}
    (shaped : (binary negated (.compare op) left right).Shaped .source)
    (unquoted : (binary negated (.compare op) left right).Unquoted) :
    Writes (layerOf (.compare op)) (joinedText (.compare op) left right)
      (binary false (.compare op) left right) := by
  obtain ⟨leftUnquoted, rightUnquoted⟩ := unquoted_binary.mp unquoted
  obtain ⟨⟨name, rfl, known⟩, operand⟩ := shaped
  obtain ⟨isLeaf, shapedRight⟩ := operand.shaped
  have onLeft := writes_leaf (x := property false name) rfl known leftUnquoted (some (.compare op))
  have onRight := writes_leaf isLeaf shapedRight rightUnquoted (some (.compare op))
  exact Writes.infixed (.compare op) (.item onLeft) onRight (comparison_of_operand operand name)

/-- What is written for a condition below a connective. The induction goes over the condition; a side
of a chain is written as a part of the chain. -/
theorem continues_render {x : Condition} (shaped : x.Shaped .source) (unquoted : x.Unquoted)
    (isOpen : x.literal? = none) (op : Connective) :
    Continues op (x.render .source (some (.junction op))).toList x.leftward := by
  induction x generalizing op with
  | property negated name =>
    refine .item (writes_leaf rfl shaped unquoted _) rfl ?_
    intro first last same
    cases same
  | literal negated l => cases isOpen
  | binary negated found left right ihl ihr =>
    rw [toList_render_source]
    cases found with
    | junction found =>
      obtain ⟨leftUnquoted, rightUnquoted⟩ := unquoted_binary.mp unquoted
      obtain ⟨leftOpen, rightOpen, hl, hr⟩ := shaped
      have sides : Continues found (joinedText (.junction found) left right)
          (attach found left.leftward right.leftward) :=
        (ihl hl leftUnquoted leftOpen found).chain (ihr hr rightUnquoted rightOpen found)
      by_cases flat : negated = false ∧ found = op
      · obtain ⟨rfl, rfl⟩ := flat
        rw [if_pos ⟨rfl, rfl⟩]
        exact sides
      · rw [if_neg (by simpa using flat)]
        refine .item (writes_bracketed sides.alone negated) ?_ (Decoder.leftward_ne_chain flat)
        rw [← (reassociated_leftward _).literal?_eq]
        rfl
    | compare found =>
      have content : (binary negated (.compare found) left right).leftward =
          if negated then (binary false (.compare found) left right).negate
          else binary false (.compare found) left right := by
        rw [leftward_comparison shaped]
        cases negated <;> rfl
      rw [if_neg (by simp), content]
      refine .item (writes_bracketed (writes_comparison shaped unquoted) negated) ?_ ?_
      · cases negated <;> rfl
      · rw [← content, leftward_comparison shaped]
        intro first last same
        cases same

theorem writes_text {x : Condition} (shaped : x.Shaped .source) (unquoted : x.Unquoted) :
    Writes .or x.text.toList x.leftward := by
  have leaf (isLeaf : x.op? = none) : Writes .or x.text.toList x.leftward := by
    rw [leftward_of_leaf isLeaf]
    exact .item ((writes_leaf isLeaf shaped unquoted _).below .or)
  cases x with
  | property negated name => exact leaf rfl
  | literal negated l => exact leaf rfl
  | binary negated op left right =>
    cases op with
    | junction op => exact (continues_render shaped unquoted rfl op).alone.whole
    | compare op =>
      have sides := writes_comparison shaped unquoted
      rw [leftward_comparison shaped, text, toList_render_source]
      cases negated with
      | false =>
        rw [if_pos ⟨rfl, rfl⟩]
        exact sides.whole
      | true => exact .item ((writes_bracketed sides true).below .or)

/-! ## Chains that lean to the left -/

/-- Whether no side on the right goes on with the chain. -/
def LeansLeft : Condition → Prop
  | binary _ (.junction op) left right =>
    left.LeansLeft ∧ right.LeansLeft ∧ ∀ first last, right ≠ binary false (.junction op) first last
  | binary _ (.compare _) left right => left.LeansLeft ∧ right.LeansLeft
  | _ => True

theorem LeansLeft.negate {x : Condition} (leans : x.LeansLeft) : x.negate.LeansLeft := by
  cases x with
  | property negated name => exact trivial
  | literal negated l => exact trivial
  | binary negated op left right => cases op <;> exact leans

theorem LeansLeft.attach {x y : Condition} (hx : x.LeansLeft) (hy : y.LeansLeft) (op : Connective) :
    (attach op x y).LeansLeft := by
  induction y with
  | property negated name => exact ⟨hx, hy, fun _ _ same => by cases same⟩
  | literal negated l => exact ⟨hx, hy, fun _ _ same => by cases same⟩
  | binary negated found first last ih _ =>
    by_cases chain : negated = false ∧ found = .junction op
    · obtain ⟨rfl, rfl⟩ := chain
      obtain ⟨onFirst, onLast, apart⟩ := hy
      rw [attach_chain]
      exact ⟨ih onFirst, onLast, apart⟩
    · rw [Condition.attach, if_neg chain]
      refine ⟨hx, hy, fun _ _ same => ?_⟩
      cases same
      exact chain ⟨rfl, rfl⟩

theorem leansLeft_leftward (x : Condition) : x.leftward.LeansLeft := by
  induction x with
  | property negated name => exact trivial
  | literal negated l => exact trivial
  | binary negated op left right ihl ihr =>
    cases op with
    | junction op =>
      cases negated with
      | false => exact ihl.attach ihr op
      | true => exact (ihl.attach ihr op).negate
    | compare op => exact ⟨ihl, ihr⟩

/-- A condition that was read, without a single quote in a string, is read from its own text as the
same condition with its chains grouped to the left. That condition has the same text and the same
name, and the same value on every bag. -/
theorem read_text {source : String} {x : Condition} (accepted : read source = .ok x)
    (unquoted : x.Unquoted) :
    read x.text = .ok x.leftward ∧ Reassociated x x.leftward ∧ x.leftward.LeansLeft ∧
      x.leftward.text = x.text ∧ x.leftward.name = x.name ∧
      ∀ bag, x.leftward.evaluate bag = x.evaluate bag := by
  obtain ⟨d, ⟨_, condition⟩, _⟩ := read_eq_ok_iff.mp accepted
  have shaped := readAt_shaped condition
  have regrouped := reassociated_leftward x
  exact ⟨(writes_text shaped unquoted).read, regrouped, leansLeft_leftward x, regrouped.text_eq.symm,
    regrouped.name_eq.symm, fun bag => (regrouped.evaluate_eq bag).symm⟩

/-- `!(n < -1.5 && label == 'x y')`. -/
def exDenied : Condition :=
  binary true (.junction .and)
    (binary false (.compare .lt) (property false "n") (literal false ⟨.number, "-1.5"⟩))
    (binary false (.compare .eq) (property false "label") (literal false (.string "x y")))

/-- `a || (b || ..)`, as it is grouped here. -/
def exGrouped : Condition :=
  binary false (.junction .or) (property false "a")
    (binary false (.junction .or) (property false "b") exDenied)

theorem read_text_exGrouped :
    read "a || (b || !(n < -1.5 && label == 'x y'))" = .ok exGrouped ∧
      exGrouped.text = "a || b || !((n < -1.5) && (label == 'x y'))" ∧
      read exGrouped.text = .ok (binary false (.junction .or)
        (binary false (.junction .or) (property false "a") (property false "b")) exDenied) := by
  have accepted : read "a || (b || !(n < -1.5 && label == 'x y'))" = .ok exGrouped :=
    eq_ok_of_toOption (by decide +kernel)
  have unquoted : exGrouped.Unquoted := by
    rintro l member isString
    have all : ∀ l ∈ exGrouped.literals, l.text.toList.contains '\'' = false := by decide +kernel
    simpa using all l member
  exact ⟨accepted, by decide +kernel, (read_text accepted unquoted).1⟩

end Condition

end StyleFlags
