import StyleFlags.Proofs.Closed
import StyleFlags.Proofs.Expressions
import StyleFlags.Proofs.RoundTrip

/-!
# Structured values read back from their text

Where a value is read, the commas between items may be left out, a group loses its parentheses, and
the raw text of a `token(...)` is kept. The text of a value has a comma and a blank between all
items, no parentheses but those of calls, and the raw text as it was. What is read from that text is
the value itself. Two things cannot be written: a string with a single quote in it, and a number
with a dot behind it, since that dot is read as a part of the number.

Results:
1. `Expression.Reads.formed`: what a value that was read is made of.
2. `Expression.spells_list`: items written with commas between them are read one after the other,
   up to the symbol that closes their list.
3. `Expression.spells_of_formed`: the text of each part of a value is read as that part, wherever
   something stands behind it that ends a value.
4. `Expression.value_read_back`: a value that was read is read again from its text.
-/

namespace StyleFlags

/-! ## Literals that are one token -/

/-- Whether a literal is one token: a string, a number without a sign, or a reserved word. -/
def Literal.IsToken (l : Literal) : Prop :=
  l.kind = .string ∨ (l.kind = .number ∧ isUnsigned l.text.toList = true) ∨
    LiteralKind.ofWord? l.text = some l.kind

theorem Literal.isToken_of_next {c d : Cursor} {t : Token} {l : Literal} (next : c.Next t d)
    (isLiteral : t.kind = .literal) (read : Literal.read t.text t.quoted t.offset = .ok l) :
    l.IsToken := by
  obtain ⟨_, _, _, _, _, lexeme, _, _⟩ := Cursor.next_iff.mp next
  cases lexeme with
  | @word first tail =>
    cases found : LiteralKind.ofWord? (String.ofList (first :: tail)) with
    | none =>
      rw [Cursor.wordToken, found] at isLiteral
      cases isLiteral
    | some kind =>
      cases (Grammar.read_reserved found _).symm.trans read
      exact .inr (.inr found)
  | @numeral first tail _ _ isDigit _ _ numeral =>
    have unsigned : isUnsigned (String.ofList (first :: tail)).toList = true := by
      rw [String.toList_ofList]
      unfold isNumeral at numeral
      split at numeral
      · next minus =>
        cases minus
        cases isDigit
      · exact numeral
    cases (Grammar.read_unsigned unsigned _).symm.trans read
    exact .inr (.inl ⟨rfl, unsigned⟩)
  | quoted =>
    cases read
    exact .inl rfl
  | symbol => cases isLiteral

namespace Expression

/-! ## What values are made of -/

mutual

/-- The parts of a value, with the value itself first. -/
def parts : Expression → List Expression
  | identifier name => [identifier name]
  | literal l => [literal l]
  | array items => array items :: partsOfItems items
  | object entries => object entries :: partsOfEntries entries
  | member base key computed => member base key computed :: (base.parts ++ key.parts)
  | call callee arguments => call callee arguments :: (callee.parts ++ partsOfItems arguments)
  | token raw => [token raw]

def partsOfItems : List Expression → List Expression
  | [] => []
  | item :: rest => item.parts ++ partsOfItems rest

def partsOfEntries : List (String × Expression) → List Expression
  | [] => []
  | (_, value) :: rest => value.parts ++ partsOfEntries rest

end

def literal? : Expression → Option Literal
  | literal l => some l
  | _ => none

/-- What stands before the dot of a member. -/
def dotted? : Expression → Option Expression
  | member base _ false => some base
  | _ => none

def isNumber (x : Expression) : Bool := x.literal?.any (·.kind == .number)

/-- Whether no string of a value holds a single quote. -/
def Unquoted (x : Expression) : Prop :=
  ∀ l ∈ x.parts.filterMap literal?, l.kind = .string → '\'' ∉ l.text.toList

/-- Whether no number of a value has a dot behind it. -/
def Undotted (x : Expression) : Prop :=
  ∀ base ∈ x.parts.filterMap dotted?, base.isNumber = false

instance (x : Expression) : Decidable x.Unquoted :=
  inferInstanceAs (Decidable (∀ l ∈ x.parts.filterMap literal?, _ → _))

instance (x : Expression) : Decidable x.Undotted :=
  inferInstanceAs (Decidable (∀ base ∈ x.parts.filterMap dotted?, _ = _))

/-- Whether members and calls can stand behind a value. -/
def isLinkable : Expression → Bool
  | array _ => false
  | object _ => false
  | _ => true

/-- The values that can be read: lists and objects stand in no chain, and what is called is never
the word that raw text comes behind. -/
inductive Formed : Expression → Prop
  | identifier {name : String} : isIdentifier name = true → Formed (identifier name)
  | literal {l : Literal} : l.IsToken → Formed (literal l)
  | array {items : List Expression} : (∀ x ∈ items, Formed x) → Formed (array items)
  | object {entries : List (String × Expression)} :
      (∀ e ∈ entries, isIdentifier e.1 = true) → (∀ e ∈ entries, Formed e.2) →
      Formed (object entries)
  | dotted {base : Expression} {key : String} :
      base.isLinkable = true → Formed base → isIdentifier key = true →
      Formed (member base (.identifier key) false)
  | indexed {base key : Expression} :
      base.isLinkable = true → Formed base → Formed key → Formed (member base key true)
  | call {callee : Expression} {arguments : List Expression} :
      callee.isLinkable = true → callee ≠ .identifier "token" → Formed callee →
      (∀ x ∈ arguments, Formed x) → Formed (call callee arguments)
  | token {raw : String} : Text.Closed raw.toList → Formed (token raw)

/-- What is known of what was read. -/
def Goal.Formed : Goal → Prop
  | .value x => Expression.Formed x
  | .items _ xs => ∀ x ∈ xs, Expression.Formed x
  | .entries es => (∀ e ∈ es, isIdentifier e.1 = true) ∧ ∀ e ∈ es, Expression.Formed e.2
  | .chain base whole => base.isLinkable = true → Expression.Formed base → Expression.Formed whole

theorem isIdentifier_of_next {c d : Cursor} {t : Token} (next : c.Next t d)
    (isName : t.kind = .identifier) : isIdentifier t.text = true :=
  Cursor.isIdentifier_peek next.choose_spec isName

theorem closed_of_piece {c d : Cursor} {text : List Char} {stop : String}
    (scanned : c.piece [")"] [] = .ok (text, .stop stop, d)) : Text.Closed text :=
  Cursor.leftBy_of_pieceFrom (fun _ _ => by rintro ⟨⟩) scanned (by rintro ⟨⟩)

theorem Reads.formed {goal : Goal} {c d : Cursor} (reads : Reads goal c d) : goal.Formed := by
  induction reads with
  | group _ _ _ _ _ inside => exact inside
  | object _ _ _ inside => exact .object inside.1 inside.2
  | array _ _ _ inside => exact .array inside
  | primary next value _ linked =>
    rcases value with ⟨isName, rfl⟩ | ⟨isLiteral, l, read, rfl⟩
    · exact linked rfl (.identifier (isIdentifier_of_next next isName))
    · exact linked rfl (.literal (Literal.isToken_of_next next isLiteral read))
  | noItem => exact List.forall_mem_nil _
  | item _ _ _ _ _ first others => exact List.forall_mem_cons.mpr ⟨first, others⟩
  | noEntry => exact ⟨List.forall_mem_nil _, List.forall_mem_nil _⟩
  | entry next isName _ _ _ _ _ first others =>
    exact ⟨List.forall_mem_cons.mpr ⟨isIdentifier_of_next next isName, others.1⟩,
      List.forall_mem_cons.mpr ⟨first, others.2⟩⟩
  | dotted _ _ next isName _ linked =>
    intro linkable base
    exact linked rfl (.dotted linkable base (isIdentifier_of_next next isName))
  | indexed _ _ _ _ _ _ inside linked =>
    intro linkable base
    exact linked rfl (.indexed linkable base inside)
  | raw _ _ scanned _ linked =>
    intro _ _
    exact linked rfl (.token (by rw [String.toList_ofList]; exact closed_of_piece scanned))
  | called _ _ other _ _ listed linked =>
    intro linkable base
    exact linked rfl (.call linkable other base listed)
  | ended => exact fun _ base => base

/-! ## What can stand behind a value -/

section Behind

variable {rest : List Char} {x : Expression} {c d : Cursor} {t : Token}

/-- Whether a value can end before a text. -/
def Stops (rest : List Char) : Prop := ∀ c ∈ rest.head?, c ∈ [',', ']', ')', '\x7d']

/-- Whether a value can end before a text or go on there with a member or a call. A dot behind a
number would be read as a part of it. -/
def Follows (x : Expression) (rest : List Char) : Prop :=
  ∀ c ∈ rest.head?, c ∈ [',', ']', ')', '\x7d', '[', '('] ∨ (c = '.' ∧ x.isNumber = false)

theorem stops_cons {first : Char} (isStop : first ∈ [',', ']', ')', '\x7d']) (rest : List Char) :
    Stops (first :: rest) := by
  rintro _ ⟨⟩
  exact isStop

theorem Stops.follows (stops : Stops rest) (x : Expression) : Follows x rest := by
  intro c isHead
  have member := List.mem_append_left ['[', '('] (stops c isHead)
  exact .inl member

theorem follows_cons {first : Char} (isLink : first ∈ [',', ']', ')', '\x7d', '[', '('])
    (x : Expression) (rest : List Char) : Follows x (first :: rest) := by
  rintro _ ⟨⟩
  exact .inl isLink

theorem Follows.ends_word (follows : Follows x rest) : Text.Ends Text.isWord rest := by
  have none : ∀ c ∈ [',', ']', ')', '\x7d', '[', '('], Text.isWord c = false :=
    forall_of_all (by decide)
  intro c isHead
  rcases follows c isHead with member | ⟨rfl, _⟩
  · exact none c member
  · rfl

theorem Follows.ends_numeric (follows : Follows x rest) (isNumber : x.isNumber = true) :
    Text.Ends Text.isNumeric rest := by
  have none : ∀ c ∈ [',', ']', ')', '\x7d', '[', '('], Text.isNumeric c = false :=
    forall_of_all (by decide)
  intro c isHead
  rcases follows c isHead with member | ⟨_, other⟩
  · exact none c member
  · rw [isNumber] at other
    cases other

theorem exists_symbol (op : Operator)
    (stands : ∀ rest, Operator.atStart? (op.symbol.toList ++ rest) = some op) (blanks : List Char)
    (ahead : c.ahead = blanks ++ (op.symbol.toList ++ rest))
    (ignored : ∀ b ∈ blanks, Text.isIgnored b = true) :
    ∃ t d, c.Next t d ∧ t.kind = .operator op ∧ d.ahead = rest := by
  obtain ⟨t, d, next, behind, isOp, _⟩ :=
    Cursor.exists_next blanks (fun _ => .symbol op (stands rest)) ahead ignored
  exact ⟨t, d, next, isOp, behind⟩

theorem without_of_next {ops : List Operator} {op : Operator} (next : c.Next t d)
    (isOp : t.kind = .operator op) (other : op ∉ ops) : Without ops c := by
  refine ⟨_, next.choose_spec, ?_⟩
  rintro _ ⟨⟩ link isLink same
  cases isOp.symm.trans same
  exact other isLink

theorem Stops.without (stops : Stops c.ahead) : Without links c := by
  cases ahead : c.ahead with
  | nil => exact ⟨none, Cursor.tokens_eq_nil.mp (Cursor.tokens_of_atEnd ahead), by simp⟩
  | cons first tail =>
    have isStop : first ∈ [',', ']', ')', '\x7d'] := stops first (by simp [ahead])
    have exists_op : ∃ op : Operator, op.symbol.toList = [first] ∧ op ∉ links ∧
        ∀ rest, Operator.atStart? (op.symbol.toList ++ rest) = some op := by
      simp only [List.mem_cons, List.not_mem_nil, or_false] at isStop
      rcases isStop with rfl | rfl | rfl | rfl
      · exact ⟨.comma, rfl, by decide, fun _ => rfl⟩
      · exact ⟨.closeBracket, rfl, by decide, fun _ => rfl⟩
      · exact ⟨.closeParen, rfl, by decide, fun _ => rfl⟩
      · exact ⟨.closeBrace, rfl, by decide, fun _ => rfl⟩
    obtain ⟨op, symbol, noLink, stands⟩ := exists_op
    have start : c.ahead = [] ++ (op.symbol.toList ++ tail) := by
      rw [ahead, symbol]
      rfl
    obtain ⟨t, d, next, isOp, _⟩ := exists_symbol op stands [] start Grammar.ignored_nil
    exact without_of_next next isOp noLink

end Behind

/-! ## What is written for a value -/

/-- Whether the characters, wherever a value can end behind them, are read by a reader. -/
def Spells (chars : List Char) (reads : Cursor → Cursor → Prop) : Prop :=
  ∀ (c : Cursor) (blanks rest : List Char), c.ahead = blanks ++ (chars ++ rest) →
    (∀ b ∈ blanks, Text.isIgnored b = true) → Stops rest → ∃ d, reads c d ∧ d.ahead = rest

/-- Whether the characters, wherever a value can end or go on behind them, are read as a value that
the members and calls behind them are added to. -/
def Heads (chars : List Char) (x : Expression) : Prop :=
  ∀ (c : Cursor) (blanks rest : List Char), c.ahead = blanks ++ (chars ++ rest) →
    (∀ b ∈ blanks, Text.isIgnored b = true) → Follows x rest →
    ∃ d, d.ahead = rest ∧ ∀ whole e, Reads (.chain x whole) d e → Reads (.value whole) c e

section Written

variable {chars : List Char} {x base key : Expression} {xs : List Expression} {name : String}

theorem Heads.spells (heads : Heads chars x) : Spells chars (Reads (.value x)) := by
  intro c blanks rest ahead ignored stops
  obtain ⟨d, behind, goesOn⟩ := heads c blanks rest ahead ignored (stops.follows x)
  exact ⟨d, goesOn x d (.ended (Stops.without (behind.symm ▸ stops))), behind⟩

/-- A single token. -/
theorem heads_primary (kind : TokenKind) (text : String) (quoted : Bool)
    (lexeme : ∀ rest, Follows x rest → ∀ offset, Lexeme chars ⟨kind, text, quoted, offset⟩ rest)
    (primary : ∀ t : Token, t.kind = kind → t.text = text → t.quoted = quoted → Primary t x) :
    Heads chars x := by
  intro c blanks rest ahead ignored follows
  obtain ⟨t, d, next, behind, isKind, isText, isQuoted⟩ :=
    Cursor.exists_next blanks (lexeme rest follows) ahead ignored
  exact ⟨d, behind, fun whole e => .primary next (primary t isKind isText isQuoted)⟩

theorem heads_identifier (isName : isIdentifier name = true) :
    Heads name.toList (identifier name) :=
  heads_primary .identifier name false
    (fun _ follows => Grammar.lexeme_identifier isName follows.ends_word)
    (fun _ isKind isText _ => .inl ⟨isKind, by rw [isText]⟩)

theorem heads_literal {l : Literal} (isToken : l.IsToken)
    (unquoted : l.kind = .string → '\'' ∉ l.text.toList) :
    Heads l.spelling.toList (literal l) := by
  have single {chars : List Char} {quoted : Bool}
      (lexeme : ∀ rest, Follows (literal l) rest → ∀ offset,
        Lexeme chars ⟨.literal, l.text, quoted, offset⟩ rest)
      (read : ∀ offset, Literal.read l.text quoted offset = .ok l) : Heads chars (literal l) := by
    refine heads_primary .literal l.text quoted lexeme fun t isKind isText isQuoted => ?_
    exact .inr ⟨isKind, l, by rw [isText, isQuoted]; exact read _, rfl⟩
  obtain ⟨kind, text⟩ := l
  rcases isToken with isString | ⟨isNumber, unsigned⟩ | word
  · obtain rfl : kind = .string := isString
    rw [Condition.toList_spelling_string]
    exact single (fun rest _ => Grammar.lexeme_string (unquoted rfl) rest) fun _ => rfl
  · obtain rfl : kind = .number := isNumber
    exact single (fun _ follows => Grammar.lexeme_unsigned unsigned (follows.ends_numeric rfl))
      (Grammar.read_unsigned unsigned)
  · have notString : kind ≠ .string := (LiteralKind.ofWord?_eq_some word).2.2
    rw [Literal.spelling, if_neg notString]
    exact single (fun _ follows => Grammar.lexeme_reserved word follows.ends_word)
      (Grammar.read_reserved word)

theorem Heads.dotted (heads : Heads chars base) (notNumber : base.isNumber = false)
    (isName : isIdentifier name = true) :
    Heads (chars ++ '.' :: name.toList) (member base (identifier name) false) := by
  intro c blanks rest ahead ignored follows
  have start : c.ahead = blanks ++ (chars ++ '.' :: (name.toList ++ rest)) :=
    ahead.trans (by simp)
  obtain ⟨d, behind, goesOn⟩ := heads c blanks _ start ignored (by
    rintro _ ⟨⟩
    exact .inr ⟨rfl, notNumber⟩)
  obtain ⟨dot, e, next, isDot, after⟩ :=
    exists_symbol .dot (fun _ => rfl) [] behind Grammar.ignored_nil
  obtain ⟨t, f, second, ended, isKey, isText, _⟩ :=
    Cursor.exists_next [] (Grammar.lexeme_identifier isName follows.ends_word) after
      Grammar.ignored_nil
  subst isText
  exact ⟨f, ended, fun whole g linked => goesOn whole g (.dotted next isDot second isKey linked)⟩

theorem Heads.indexed {inside : List Char} (heads : Heads chars base)
    (spells : Spells inside (Reads (.value key))) :
    Heads (chars ++ '[' :: (inside ++ [']'])) (member base key true) := by
  intro c blanks rest ahead ignored _
  have start : c.ahead = blanks ++ (chars ++ '[' :: (inside ++ ']' :: rest)) :=
    ahead.trans (by simp)
  obtain ⟨d, behind, goesOn⟩ := heads c blanks _ start ignored (follows_cons (by simp) _ _)
  obtain ⟨t, e, next, opens, after⟩ :=
    exists_symbol .openBracket (fun _ => rfl) [] behind Grammar.ignored_nil
  obtain ⟨f, reads, inner⟩ :=
    spells e [] _ after Grammar.ignored_nil (stops_cons (by simp) _)
  obtain ⟨u, g, last, closes, ended⟩ :=
    exists_symbol .closeBracket (fun _ => rfl) [] inner Grammar.ignored_nil
  exact ⟨g, ended, fun whole h linked =>
    goesOn whole h (.indexed next opens reads last closes linked)⟩

theorem stops_closing {closing : Operator}
    (closes : closing ∈ [.closeBracket, .closeParen, .closeBrace]) (rest : List Char) :
    Stops (closing.symbol.toList ++ rest) ∧ closing ∉ [.comma] ∧
      ∀ rest, Operator.atStart? (closing.symbol.toList ++ rest) = some closing := by
  simp only [List.mem_cons, List.not_mem_nil, or_false] at closes
  rcases closes with rfl | rfl | rfl
  · exact ⟨stops_cons (by simp : ']' ∈ _) rest, by decide, fun _ => rfl⟩
  · exact ⟨stops_cons (by simp : ')' ∈ _) rest, by decide, fun _ => rfl⟩
  · exact ⟨stops_cons (by simp : '\x7d' ∈ _) rest, by decide, fun _ => rfl⟩

/-- Items with a comma and a blank between them are read up to the symbol that closes their list. -/
theorem spells_list {α : Type} (goal : List α → Goal) {spelling : α → String}
    {first : α → Cursor → Cursor → Prop} {closing : Operator}
    (closes : closing ∈ [.closeBracket, .closeParen, .closeBrace])
    (none : ∀ {c d t}, c.Next t d → t.kind = .operator closing → Reads (goal []) c d)
    (more : ∀ {a as c d e f}, first a c d → Skips d e → Reads (goal as) e f →
      Reads (goal (a :: as)) c f)
    {items : List α} (spelled : ∀ a ∈ items, Spells (spelling a).toList (first a))
    {c : Cursor} (blanks : List Char) {rest : List Char}
    (ahead : c.ahead = blanks ++ ((", ".intercalate (items.map spelling)).toList ++
      (closing.symbol.toList ++ rest)))
    (ignored : ∀ b ∈ blanks, Text.isIgnored b = true) :
    ∃ d, Reads (goal items) c d ∧ d.ahead = rest := by
  obtain ⟨stops, notComma, stands⟩ := stops_closing closes rest
  induction items generalizing c blanks with
  | nil =>
    have start : c.ahead = blanks ++ (closing.symbol.toList ++ rest) := ahead.trans (by simp)
    obtain ⟨t, d, next, isClosing, behind⟩ := exists_symbol closing stands blanks start ignored
    exact ⟨d, none next isClosing, behind⟩
  | cons a others ih =>
    obtain ⟨spelledFirst, spelledOthers⟩ := List.forall_mem_cons.mp spelled
    cases others with
    | nil =>
      obtain ⟨d, reads, behind⟩ :=
        spelledFirst c blanks _ (ahead.trans (by simp)) ignored stops
      obtain ⟨t, e, next, isClosing, ended⟩ :=
        exists_symbol closing stands [] behind Grammar.ignored_nil
      -- No comma stands behind the last item.
      have skips : Skips d d := .inr ⟨rfl, without_of_next next isClosing notComma⟩
      exact ⟨e, more reads skips (none next isClosing), ended⟩
    | cons b others =>
      have start : c.ahead = blanks ++ ((spelling a).toList ++ (',' :: ([' '] ++
          ((", ".intercalate ((b :: others).map spelling)).toList ++
            (closing.symbol.toList ++ rest))))) := ahead.trans (by simp)
      obtain ⟨d, reads, behind⟩ :=
        spelledFirst c blanks _ start ignored (stops_cons (by simp) _)
      obtain ⟨t, e, next, isComma, after⟩ :=
        exists_symbol .comma (fun _ => rfl) [] behind Grammar.ignored_nil
      obtain ⟨f, readsOthers, ended⟩ := ih spelledOthers [' '] after Grammar.ignored_blank
      exact ⟨f, more reads (.inl ⟨t, next, isComma⟩) readsOthers, ended⟩

/-- A value does not begin with the symbol that closes a list. -/
theorem Reads.next_ne_closing {c d : Cursor} (reads : Reads (.value x) c d) {closing : Operator}
    (closes : closing ∈ [.closeBracket, .closeParen, .closeBrace]) :
    ∃ t e, c.Next t e ∧ t.kind ≠ .operator closing := by
  have other {t : Token} {op : Operator} (isOp : t.kind = .operator op)
      (notClosing : op ∉ [.closeBracket, .closeParen, .closeBrace]) :
      t.kind ≠ .operator closing := by
    intro same
    cases isOp.symm.trans same
    exact notClosing closes
  cases reads with
  | group next opens => exact ⟨_, _, next, other opens (by decide)⟩
  | object next opens => exact ⟨_, _, next, other opens (by decide)⟩
  | array next opens => exact ⟨_, _, next, other opens (by decide)⟩
  | primary next value =>
    rcases value with ⟨isName, _⟩ | ⟨isLiteral, _⟩
    · exact ⟨_, _, next, by rw [isName]; rintro ⟨⟩⟩
    · exact ⟨_, _, next, by rw [isLiteral]; rintro ⟨⟩⟩

theorem spells_items (closing : Operator)
    (closes : closing ∈ [.closeBracket, .closeParen, .closeBrace])
    (spelled : ∀ x ∈ xs, Spells x.text.toList (Reads (.value x))) {c : Cursor} {rest : List Char}
    (ahead : c.ahead = (", ".intercalate (xs.map text)).toList ++ (closing.symbol.toList ++ rest)) :
    ∃ d, Reads (.items closing xs) c d ∧ d.ahead = rest := by
  refine spells_list (.items closing) closes .noItem ?_ spelled [] ahead Grammar.ignored_nil
  intro x xs c d e f reads skips others
  obtain ⟨t, g, next, notClosing⟩ := reads.next_ne_closing closes
  exact .item next notClosing reads skips others

/-- The reading of one entry of an object, without the comma behind it. -/
def ReadsEntry (entry : String × Expression) (c f : Cursor) : Prop :=
  ∃ key colon d e, c.Next key d ∧ key.kind = .identifier ∧ key.text = entry.1 ∧
    d.Next colon e ∧ colon.kind = .operator .colon ∧ Reads (.value entry.2) e f

theorem spells_entry (isName : isIdentifier name = true)
    (spells : Spells chars (Reads (.value x))) :
    Spells (name.toList ++ ':' :: ' ' :: chars) (ReadsEntry (name, x)) := by
  intro c blanks rest ahead ignored stops
  have start : c.ahead = blanks ++ (name.toList ++ ':' :: ([' '] ++ (chars ++ rest))) :=
    ahead.trans (by simp)
  have ends : Text.Ends Text.isWord (':' :: ([' '] ++ (chars ++ rest))) := Text.ends_cons.mpr rfl
  obtain ⟨t, d, next, behind, isKey, isText, _⟩ :=
    Cursor.exists_next blanks (Grammar.lexeme_identifier isName ends) start ignored
  obtain ⟨u, e, second, isColon, after⟩ :=
    exists_symbol .colon (fun _ => rfl) [] behind Grammar.ignored_nil
  obtain ⟨f, reads, ended⟩ := spells e [' '] rest after Grammar.ignored_blank stops
  exact ⟨f, ⟨t, u, d, e, next, isKey, isText, second, isColon, reads⟩, ended⟩

theorem spells_object {entries : List (String × Expression)}
    {spelling : String × Expression → String}
    (spelled : ∀ e ∈ entries, Spells (spelling e).toList (ReadsEntry e)) :
    Spells ('\x7b' :: ((", ".intercalate (entries.map spelling)).toList ++ ['\x7d']))
      (Reads (.value (object entries))) := by
  intro c blanks rest ahead ignored _
  have start : c.ahead = blanks ++ ('\x7b' :: ((", ".intercalate (entries.map spelling)).toList ++
      '\x7d' :: rest)) := ahead.trans (by simp)
  obtain ⟨t, d, next, opens, behind⟩ :=
    exists_symbol .openBrace (fun _ => rfl) blanks start ignored
  have more {e : String × Expression} {es : List (String × Expression)} {c d f g : Cursor}
      (reads : ReadsEntry e c d) (skips : Skips d f) (others : Reads (.entries es) f g) :
      Reads (.entries (e :: es)) c g := by
    obtain ⟨name, x⟩ := e
    obtain ⟨key, colon, _, _, next, isName, rfl, second, isColon, value⟩ := reads
    exact .entry next isName second isColon value skips others
  obtain ⟨e, reads, ended⟩ :=
    spells_list .entries (by simp) .noEntry more spelled [] behind Grammar.ignored_nil
  exact ⟨e, .object next opens reads, ended⟩

theorem spells_array (spelled : ∀ x ∈ xs, Spells x.text.toList (Reads (.value x))) :
    Spells ('[' :: ((", ".intercalate (xs.map text)).toList ++ [']']))
      (Reads (.value (array xs))) := by
  intro c blanks rest ahead ignored _
  have start : c.ahead = blanks ++ ('[' :: ((", ".intercalate (xs.map text)).toList ++
      ']' :: rest)) := ahead.trans (by simp)
  obtain ⟨t, d, next, opens, behind⟩ :=
    exists_symbol .openBracket (fun _ => rfl) blanks start ignored
  obtain ⟨e, reads, ended⟩ := spells_items .closeBracket (by simp) spelled behind
  exact ⟨e, .array next opens reads, ended⟩

theorem Heads.called (heads : Heads chars base) (other : base ≠ identifier "token")
    (spelled : ∀ x ∈ xs, Spells x.text.toList (Reads (.value x))) :
    Heads (chars ++ '(' :: ((", ".intercalate (xs.map text)).toList ++ [')'])) (call base xs) := by
  intro c blanks rest ahead ignored _
  have start : c.ahead = blanks ++ (chars ++ '(' :: ((", ".intercalate (xs.map text)).toList ++
      ')' :: rest)) := ahead.trans (by simp)
  obtain ⟨d, behind, goesOn⟩ := heads c blanks _ start ignored (follows_cons (by simp) _ _)
  obtain ⟨t, e, next, opens, after⟩ :=
    exists_symbol .openParen (fun _ => rfl) [] behind Grammar.ignored_nil
  obtain ⟨f, reads, ended⟩ := spells_items .closeParen (by simp) spelled after
  exact ⟨f, ended, fun whole g linked => goesOn whole g (.called next opens other reads linked)⟩

/-- A closed text is copied up to the parenthesis behind it. -/
theorem piece_raw {raw : List Char} (closed : Text.Closed raw) {c : Cursor} {rest : List Char}
    (ahead : c.ahead = raw ++ ')' :: rest) :
    c.piece [")"] [] = .ok (raw, .stop ")", c.passed raw (')' :: rest)) := by
  have unmet : Cursor.Unmet [")"] [] c.behind raw (')' :: rest) := by
    rintro before after rfl nonempty front
    obtain ⟨first, tail, rfl⟩ := List.exists_cons_of_ne_nil nonempty
    have notClosing : first ≠ ')' := front.head_ne_closing closed
    simp [Cursor.ending?, Cursor.meetsAny?, Cursor.meets, notClosing.symm]
  obtain ⟨behind, _⟩ := c
  subst ahead
  exact Cursor.piece_closed closed unmet rfl

theorem heads_raw {raw : String} (closed : Text.Closed raw.toList) :
    Heads ("token".toList ++ '(' :: (raw.toList ++ [')'])) (token raw) := by
  intro c blanks rest ahead ignored _
  have start : c.ahead = blanks ++ ("token".toList ++ '(' :: (raw.toList ++ ')' :: rest)) :=
    ahead.trans (by simp)
  obtain ⟨d, behind, goesOn⟩ :=
    heads_identifier (by decide) c blanks _ start ignored (follows_cons (by simp) _ _)
  obtain ⟨t, e, next, opens, after⟩ :=
    exists_symbol .openParen (fun _ => rfl) [] behind Grammar.ignored_nil
  refine ⟨(e.passed raw.toList (')' :: rest)).advance 1, rfl, fun whole f linked => ?_⟩
  refine goesOn whole f (.raw next opens (piece_raw closed after) ?_)
  rwa [String.ofList_toList]

end Written

/-! ## Values read back -/

theorem textItems_eq (xs : List Expression) : textItems xs = xs.map text := by
  induction xs with
  | nil => simp [textItems]
  | cons x xs ih => simp [textItems, ih]

theorem textEntries_eq (es : List (String × Expression)) :
    textEntries es = es.map fun e => e.1 ++ ": " ++ e.2.text := by
  induction es with
  | nil => simp [textEntries]
  | cons e es ih => simp [textEntries, ih]

theorem partsOfItems_eq (xs : List Expression) : partsOfItems xs = xs.flatMap parts := by
  induction xs with
  | nil => simp [partsOfItems]
  | cons x xs ih => simp [partsOfItems, ih]

theorem partsOfEntries_eq (es : List (String × Expression)) :
    partsOfEntries es = es.flatMap fun e => e.2.parts := by
  induction es with
  | nil => simp [partsOfEntries]
  | cons e es ih => simp [partsOfEntries, ih]

/-- The text of a part of a value is read as that part. -/
theorem spells_of_formed {x whole : Expression} (formed : Formed x) (unquoted : whole.Unquoted)
    (undotted : whole.Undotted) (within : x.parts ⊆ whole.parts) :
    (x.isLinkable = true → Heads x.text.toList x) ∧ Spells x.text.toList (Reads (.value x)) := by
  have linked {y : Expression} {chars : List Char} (heads : Heads chars y)
      (same : y.text.toList = chars) :
      (y.isLinkable = true → Heads y.text.toList y) ∧ Spells y.text.toList (Reads (.value y)) :=
    same ▸ ⟨fun _ => heads, heads.spells⟩
  -- Heads are what chains are built from, so a member or call asks its base for more than its key
  -- and arguments.
  induction formed with
  | identifier isName => exact linked (heads_identifier isName) (by rw [text])
  | @literal l isToken =>
    have itself : literal l ∈ whole.parts := within (by simp [parts])
    have bare := unquoted l (List.mem_filterMap.mpr ⟨_, itself, rfl⟩)
    exact linked (heads_literal isToken bare) (by rw [text])
  | @array items _ ih =>
    rw [parts, partsOfItems_eq] at within
    have spelled (x : Expression) (member : x ∈ items) : Spells x.text.toList (Reads (.value x)) :=
      (ih x member fun _ inside =>
        within (.tail _ (List.mem_flatMap.mpr ⟨x, member, inside⟩))).2
    refine ⟨by rintro ⟨⟩, ?_⟩
    have same : (array items).text.toList =
        '[' :: ((", ".intercalate (items.map text)).toList ++ [']']) := by
      simp [text, textItems_eq]
    rw [same]
    exact spells_array spelled
  | @object entries names _ ih =>
    rw [parts, partsOfEntries_eq] at within
    have spelled (e : String × Expression) (member : e ∈ entries) :
        Spells (e.1 ++ ": " ++ e.2.text).toList (ReadsEntry e) := by
      have value := (ih e member fun _ inside =>
        within (.tail _ (List.mem_flatMap.mpr ⟨e, member, inside⟩))).2
      have same : (e.1 ++ ": " ++ e.2.text).toList =
          e.1.toList ++ ':' :: ' ' :: e.2.text.toList := by
        simp
      rw [same]
      exact spells_entry (names e member) value
    refine ⟨by rintro ⟨⟩, ?_⟩
    have same : (object entries).text.toList = '\x7b' :: ((", ".intercalate
        (entries.map fun e => e.1 ++ ": " ++ e.2.text)).toList ++ ['\x7d']) := by
      simp [text, textEntries_eq]
    rw [same]
    exact spells_object spelled
  | @dotted base key linkable _ isName ih =>
    rw [parts] at within
    have itself : member base (identifier key) false ∈ whole.parts := within List.mem_cons_self
    have notNumber := undotted base (List.mem_filterMap.mpr ⟨_, itself, rfl⟩)
    have heads := (ih fun _ inside => within (.tail _ (List.mem_append_left _ inside))).1 linkable
    exact linked (heads.dotted notNumber isName) (by simp [text])
  | indexed linkable _ _ ihBase ihKey =>
    rw [parts] at within
    have heads := (ihBase fun _ inside =>
      within (.tail _ (List.mem_append_left _ inside))).1 linkable
    have spelled := (ihKey fun _ inside => within (.tail _ (List.mem_append_right _ inside))).2
    exact linked (heads.indexed spelled) (by simp [text])
  | @call callee arguments linkable other _ _ ihCallee ih =>
    rw [parts, partsOfItems_eq] at within
    have heads := (ihCallee fun _ inside =>
      within (.tail _ (List.mem_append_left _ inside))).1 linkable
    have spelled (x : Expression) (member : x ∈ arguments) :
        Spells x.text.toList (Reads (.value x)) :=
      (ih x member fun _ inside =>
        within (.tail _ (List.mem_append_right _ (List.mem_flatMap.mpr ⟨x, member, inside⟩)))).2
    exact linked (heads.called other spelled) (by simp [text, textItems_eq])
  | token closed => exact linked (heads_raw closed) (by simp [text])

/-- A value that was read, with no single quote in a string and no dot behind a number, is read
again from its text. -/
theorem value_read_back {source : String} {x : Expression} (accepted : read source = .ok x)
    (unquoted : x.Unquoted) (undotted : x.Undotted) : read x.text = .ok x := by
  obtain ⟨_, reads, _⟩ := read_eq_ok_iff.mp accepted
  have spells := (spells_of_formed reads.formed unquoted undotted fun _ inside => inside).2
  have start : (Cursor.start x.text).ahead = [] ++ (x.text.toList ++ []) := by simp [Cursor.start]
  obtain ⟨d, again, ended⟩ := spells _ [] [] start Grammar.ignored_nil (by rintro _ ⟨⟩)
  exact read_eq_ok_iff.mpr ⟨d, again, Cursor.tokens_of_atEnd ended⟩

/-- Items without commas, where a list behind a number is a member and a list behind a group is an
item of its own, and raw text with parentheses and a string in it. -/
def exNested : String :=
  "[f(1 [2] 'x')(a.b[\"c\"]), \x7b k: token( (,) ').' ) m: [] \x7d (x) [y]]"

theorem value_read_back_exNested :
    ∃ x, read exNested = .ok x ∧ x.Unquoted ∧ x.Undotted ∧
      x.text = "[f(1[2], 'x')(a.b['c']), \x7bk: token( (,) ').' ), m: []\x7d, x, [y]]" ∧
      read x.text = .ok x := by
  have evaluated : (read exNested).toOption.map
        (fun x => (x.text, decide x.Unquoted, decide x.Undotted)) =
      some ("[f(1[2], 'x')(a.b['c']), \x7bk: token( (,) ').' ), m: []\x7d, x, [y]]",
        true, true) := by
    decide +kernel
  obtain ⟨x, found, same⟩ := Option.map_eq_some_iff.mp evaluated
  simp only [Prod.mk.injEq, decide_eq_true_eq] at same
  obtain ⟨isText, unquoted, undotted⟩ := same
  have accepted := eq_ok_of_toOption found
  exact ⟨x, accepted, unquoted, undotted, isText, value_read_back accepted unquoted undotted⟩

end Expression

end StyleFlags
