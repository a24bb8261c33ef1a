import StyleFlags.Proofs.Expanding
import StyleFlags.Proofs.Lexemes

/-!
# Sources that are put together

Expanding a source looks behind a keyword for a word, and ahead of it for a
parenthesis; a token ends where its characters end. So where two sources meet
behind a character that belongs to no word and is no gap, the second is expanded
as if it stood alone, and the first does not notice that more text follows.

Results:
1. `Cursor.Extends.next`, `Condition.conditionAt_extends`: tokens and tests that are
   read with something behind them are read in the same way with more text.
2. `Cursor.Extends.meets`: the same stops are met.
3. `Directive.Expands.extends`: the same directives are expanded.
4. `Registry.expand_append`: two sources expand to what they expand to one after the
   other, and the registry is the same; if the second fails, so do both together.
-/

namespace StyleFlags

/-- Where two texts meet: there is no second one, or the first one ends in a character that belongs to
no word and is no gap. -/
def Seam (front more : List Char) : Prop :=
  more = [] ∨ ∀ c ∈ front.getLast?, Text.isWord c = false ∧ Text.isGap c = false

namespace Cursor

/-! ## The same place with more text -/

/-- Whether `d` is the place of `c` in a text that goes on with `more`. The whole text before that is
`front`. What lies behind is the same only as far as keywords can see. -/
structure Extends (front more : List Char) (c d : Cursor) : Prop where
  front : d.behind.reverse ++ c.ahead = front
  ahead : d.ahead = c.ahead ++ more
  behind : d.behind.head?.any Text.isWord = c.behind.head?.any Text.isWord

variable {front more : List Char} {c d : Cursor}

theorem Extends.passed {chars rest : List Char} (longer : Extends front more c d)
    (parts : c.ahead = chars ++ rest) :
    Extends front more (c.passed chars rest) (d.passed chars (rest ++ more)) where
  front := by
    rw [← longer.front, parts]
    simp [Cursor.passed]
  ahead := rfl
  behind := by
    simp only [Cursor.passed]
    cases chars.reverse with
    | nil => exact longer.behind
    | cons first tail => rfl

/-- The text before a seam ends in a character that belongs to no word and is no gap. -/
theorem Extends.last (longer : Extends front more c d) (seam : Seam front more)
    (followed : more ≠ []) (nonempty : c.ahead ≠ []) :
    ∃ init x, c.ahead = init ++ [x] ∧ Text.isWord x = false ∧ Text.isGap x = false := by
  obtain ⟨init, x, spelled⟩ : ∃ init x, c.ahead = init ++ [x] :=
    ⟨_, _, (List.dropLast_concat_getLast nonempty).symm⟩
  refine ⟨init, x, spelled, ?_⟩
  rcases seam with none | hard
  · exact absurd none followed
  · refine hard x ?_
    rw [← longer.front, spelled]
    simp

/-! ## Tokens -/

/-- Whether no text follows later, or some text follows now, or a comma follows later. -/
def Clear (more : List Char) (c : Cursor) : Prop :=
  more = [] ∨ c.ahead ≠ [] ∨ more.head? = some ','

theorem clear_of_size {n : Nat} (left : n < c.size) : Clear more c :=
  .inr (.inl (List.ne_nil_of_length_pos (Nat.zero_lt_of_lt left)))

end Cursor

theorem Lexeme.moved {chars rest : List Char} {t : Token} (lexeme : Lexeme chars t rest)
    (offset : Nat) : Lexeme chars { t with offset := offset } rest := by
  cases lexeme with
  | word isName words ends => exact .word isName words ends
  | numeral isDigit digits ends numeral => exact .numeral isDigit digits ends numeral
  | quoted isQuote bare => exact .quoted isQuote bare
  | symbol op found => exact .symbol op found

namespace Cursor

variable {front more : List Char} {c c' d : Cursor} {t : Token}

/-- A token with something behind it is read in the same way with more text. -/
theorem Extends.next (longer : Extends front more c c') (next : c.Next t d) (clear : Clear more d) :
    ∃ offset d', c'.Next { t with offset := offset } d' ∧ Extends front more d d' := by
  obtain ⟨blanks, chars, rest, ahead, ignored, lexeme, _, rfl⟩ := next_iff.mp next
  have ahead' : c'.ahead = blanks ++ (chars ++ (rest ++ more)) := by
    rw [longer.ahead, ahead]
    simp
  have lexeme' : Lexeme chars t (rest ++ more) := by
    rcases clear with rfl | followed | comma
    · rwa [List.append_nil]
    · exact lexeme.extend followed more
    · exact lexeme.extend_comma comma
  refine ⟨_, _, next_iff.mpr ⟨blanks, chars, rest ++ more, ahead', ignored, lexeme'.moved _, rfl, rfl⟩,
    longer.passed ?_⟩
  rw [ahead, List.append_assoc]

/-- Where no token is left, a comma that follows is the next one. -/
theorem Extends.next_comma {rest : List Char} (longer : Extends front (',' :: rest) c c')
    (ended : c.tokens = .ok []) :
    ∃ t d, c'.Next t d ∧ t.kind = .operator .comma ∧ d = ⟨',' :: front.reverse, rest⟩ := by
  have ahead : c'.ahead = c.ahead ++ ([','] ++ rest) := longer.ahead
  refine ⟨⟨.operator .comma, ",", false, _⟩, _, next_iff.mpr ⟨c.ahead, [','], rest, ahead,
    ignored_of_ended ended, .symbol .comma rfl, rfl, rfl⟩, rfl, ?_⟩
  rw [← longer.front]
  simp [Cursor.passed]

/-- A word ends before the seam. -/
theorem Extends.clear_of_identifier (longer : Extends front more c c') (seam : Seam front more)
    (next : c.Next t d) (isName : t.kind = .identifier) : Clear more d := by
  obtain ⟨blanks, chars, rest, ahead, _, lexeme, _, rfl⟩ := next_iff.mp next
  by_cases none : more = []
  · exact .inl none
  · refine .inr (.inl ?_)
    rintro rfl
    cases lexeme with
    | @word first tail _ _ starts words _ =>
      have nonempty : c.ahead ≠ [] := by simp [ahead]
      obtain ⟨init, x, spelled, notWord, _⟩ := longer.last seam none nonempty
      have member : x ∈ first :: tail := by
        have last : c.ahead.getLast? = some x := by simp [spelled]
        rw [ahead, List.append_nil, List.getLast?_append, List.getLast?_cons, Option.some_or,
          ← List.getLast?_cons] at last
        exact List.mem_of_getLast? last
      have isWord : ∀ y ∈ first :: tail, Text.isWord y = true :=
        List.forall_mem_cons.mpr ⟨by simp [Text.isWord, starts], words⟩
      rw [isWord x member] at notWord
      cases notWord
    | numeral => cases isName
    | quoted => cases isName
    | symbol => cases isName

end Cursor

/-! ## Tests -/

namespace Condition

open Cursor

variable {front more : List Char}

/-- Whether a token comes next that more text does not change, or none before a comma. -/
def Followed (more : List Char) (c : Cursor) : Prop :=
  (∃ t d, c.Next t d ∧ Clear more d) ∨ (c.tokens = .ok [] ∧ more.head? = some ',')

theorem Followed.clear {c : Cursor} (followed : Followed more c) : Clear more c := by
  rcases followed with ⟨t, d, next, _⟩ | ⟨_, comma⟩
  · exact clear_of_size next.size_lt
  · exact .inr (.inr comma)

/-- The infix operators behind an operand begin with a token that more text does not change. -/
theorem InfixesAt.followed {least : Nat} {left x : Condition} {c d : Cursor}
    (read : InfixesAt least left c x d) (followed : Followed more d) : Followed more c := by
  rcases infixesAt_iff.mp read with ⟨_, rfl, _⟩ |
    ⟨t, op, e, right, f, joined, next, _, _, ⟨shorter, _⟩, _, _⟩
  · exact followed
  · exact .inl ⟨t, e, next, clear_of_size shorter⟩

theorem read_moved {text : String} {quoted : Bool} {offset : Nat} {l : Literal}
    (read : Literal.read text quoted offset = .ok l) (other : Nat) :
    Literal.read text quoted other = .ok l := by
  unfold Literal.read at read ⊢
  split at read
  · next isQuoted => rwa [if_pos isQuoted]
  · next bare =>
    rw [if_neg bare]
    split at read
    · next numeral => rwa [if_pos numeral]
    · next noNumeral =>
      rw [if_neg noNumeral]
      split at read
      · exact read
      · cases read

mutual

theorem conditionAt_extends {least : Nat} {c c' d : Cursor} {x : Condition}
    (read : ConditionAt least c x d) (followed : Followed more d) (longer : Extends front more c c') :
    ∃ d', ConditionAt least c' x d' ∧ Extends front more d d' := by
  obtain ⟨left, e, operand, infixes⟩ := conditionAt_iff.mp read
  have shorter : e.size < c.size := operand.1
  obtain ⟨e', operand', longer⟩ := operandAt_extends operand (infixes.followed followed) longer
  obtain ⟨d', infixes', longer⟩ := infixesAt_extends infixes followed longer
  exact ⟨d', conditionAt_iff.mpr ⟨left, e', operand', infixes'⟩, longer⟩
termination_by 2 * c.size + 1

theorem operandAt_extends {c c' d : Cursor} {x : Condition} (read : OperandAt c x d)
    (followed : Followed more d) (longer : Extends front more c c') :
    ∃ d', OperandAt c' x d' ∧ Extends front more d d' := by
  obtain ⟨t, e, next, read⟩ := operandAt_iff.mp read
  have shorter := next.size_lt
  rcases read with ⟨isName, rfl, rfl⟩ | ⟨isLiteral, rfl, l, literal, rfl⟩ |
    ⟨opens, f, closing, grouped, nextAgain, closes⟩ | ⟨op, y, isOp, signs, below, made⟩
  · obtain ⟨offset, d', next', longer⟩ := longer.next next followed.clear
    exact ⟨d', operandAt_iff.mpr ⟨_, d', next', .inl ⟨isName, rfl, rfl⟩⟩, longer⟩
  · obtain ⟨offset, d', next', longer⟩ := longer.next next followed.clear
    exact ⟨d', operandAt_iff.mpr ⟨_, d', next', .inr (.inl ⟨isLiteral, rfl, l,
      read_moved literal offset, rfl⟩)⟩, longer⟩
  · obtain ⟨offset, e', next', longer⟩ := longer.next next (clear_of_size grouped.1)
    obtain ⟨f', grouped', longer⟩ :=
      conditionAt_extends grouped (.inl ⟨closing, d, nextAgain, followed.clear⟩) longer
    obtain ⟨_, d', nextAgain', longer⟩ := longer.next nextAgain followed.clear
    exact ⟨d', operandAt_iff.mpr ⟨_, e', next', .inr (.inr (.inl ⟨opens, f', _, grouped',
      nextAgain', closes⟩))⟩, longer⟩
  · obtain ⟨offset, e', next', longer⟩ := longer.next next (clear_of_size below.1)
    obtain ⟨d', below', longer⟩ := conditionAt_extends below followed longer
    exact ⟨d', operandAt_iff.mpr ⟨_, e', next', .inr (.inr (.inr ⟨op, y, isOp, signs, below',
      made⟩))⟩, longer⟩
termination_by 2 * c.size

theorem infixesAt_extends {least : Nat} {left : Condition} {c c' d : Cursor} {x : Condition}
    (read : InfixesAt least left c x d) (followed : Followed more d)
    (longer : Extends front more c c') :
    ∃ d', InfixesAt least left c' x d' ∧ Extends front more d d' := by
  rcases infixesAt_iff.mp read with ⟨rfl, rfl, stops⟩ |
    ⟨t, op, e, right, f, joined, next, isOp, tighter, below, made, behind⟩
  · refine ⟨c', infixesAt_iff.mpr (.inl ⟨rfl, rfl, ?_⟩), longer⟩
    rcases followed with ⟨t, e, next, clear⟩ | ⟨ended, comma⟩
    · -- The token that ends the operators is still there.
      obtain ⟨offset, e', ⟨_, found'⟩, _⟩ := longer.next next clear
      obtain ⟨_, found⟩ := next
      obtain ⟨peeked, same, loose⟩ := stops
      rw [found] at same
      cases same
      refine ⟨_, found', ?_⟩
      rintro token ⟨⟩
      exact loose _ rfl
    · -- The comma is no operator that could go on.
      obtain ⟨rest, rfl⟩ := List.head?_eq_some_iff.mp comma
      obtain ⟨t, d', ⟨_, found'⟩, isComma, _⟩ := longer.next_comma ended
      refine ⟨_, found', ?_⟩
      rintro token ⟨⟩ op isOp
      rw [isComma] at isOp
      cases isOp
      exact Nat.zero_le _
  · have shorter := next.size_lt
    have shorterStill : f.size < e.size := below.1
    obtain ⟨offset, e', next', longer⟩ := longer.next next (clear_of_size below.1)
    obtain ⟨f', below', longer⟩ := conditionAt_extends below (behind.followed followed) longer
    obtain ⟨d', behind', longer⟩ := infixesAt_extends behind followed longer
    exact ⟨d', infixesAt_iff.mpr (.inr ⟨_, op, e', right, f', joined, next', isOp, tighter, below',
      made, behind'⟩), longer⟩
termination_by 2 * c.size

end

end Condition

/-! ## Stops -/

namespace Text

/-- Whether a text can be a stop: a single character that begins no word, or a word. -/
def isStop (stop : List Char) : Bool :=
  if stop.head?.any isNameStart then stop.all isWord else stop.length == 1

end Text

namespace Cursor

variable {front more : List Char} {c c' : Cursor}

/-- A word is found before a character that belongs to none, or not at all. -/
theorem isPrefixOf_append {word l : List Char} {x : Char} (words : ∀ y ∈ word, Text.isWord y = true)
    (notWord : Text.isWord x = false) (more : List Char) :
    word.isPrefixOf (l ++ [x] ++ more) = word.isPrefixOf (l ++ [x]) := by
  rw [Bool.eq_iff_iff, List.isPrefixOf_iff_prefix, List.isPrefixOf_iff_prefix]
  refine ⟨fun found => ?_, fun found => found.trans (List.prefix_append _ _)⟩
  rcases List.prefix_or_prefix_of_prefix found (List.prefix_append (l ++ [x]) more) with
    inside | beyond
  · exact inside
  · have isWord := words x (beyond.subset (by simp))
    rw [notWord] at isWord
    cases isWord

theorem dropWhile_append_last {p : Char → Bool} {l : List Char} {x : Char} (stays : p x = false)
    (more : List Char) :
    ((l ++ [x] ++ more).dropWhile p).head? = ((l ++ [x]).dropWhile p).head? := by
  induction l with
  | nil => simp [stays]
  | cons first tail ih =>
    cases passes : p first with
    | true => simpa [passes] using ih
    | false => simp [passes]

/-- The same stops are met with more text, as long as there is text before the seam. -/
theorem Extends.meets (longer : Extends front more c c') (seam : Seam front more)
    (nonempty : c.ahead ≠ []) {stop : String} (isStop : Text.isStop stop.toList = true) :
    c'.meets stop = c.meets stop := by
  by_cases none : more = []
  · subst none
    simp only [Cursor.meets, longer.ahead, longer.behind, List.append_nil]
  obtain ⟨init, x, spelled, notWord, notGap⟩ := longer.last seam none nonempty
  simp only [Cursor.meets, longer.ahead, longer.behind, spelled]
  unfold Text.isStop at isStop
  split at isStop
  · next isName =>
    have words := List.all_eq_true.mp isStop
    rw [isPrefixOf_append words notWord more, if_pos isName, if_pos isName]
    cases found : stop.toList.isPrefixOf (init ++ [x]) with
    | false => rfl
    | true =>
      -- The keyword ends before the last character, which is neither of a word nor a gap.
      obtain ⟨after, parts⟩ := List.isPrefixOf_iff_prefix.mp found
      obtain ⟨rest, rfl⟩ : ∃ rest, after = rest ++ [x] := by
        rcases List.eq_nil_or_concat after with rfl | ⟨rest, y, rfl⟩
        · have member : x ∈ stop.toList := by
            rw [List.append_nil] at parts
            simp [parts]
          rw [words x member] at notWord
          cases notWord
        · rw [List.concat_eq_append] at parts ⊢
          rw [← List.append_assoc] at parts
          obtain ⟨_, same⟩ := List.append_inj' parts rfl
          exact ⟨rest, by rw [same]⟩
      rw [← parts, List.append_assoc, List.drop_left, List.drop_left, dropWhile_append_last notGap]
      congr 3
      cases rest <;> rfl
  · next notName =>
    rw [if_neg notName, if_neg notName]
    obtain ⟨y, single⟩ := List.length_eq_one_iff.mp (by simpa using isStop)
    rw [single]
    cases init <;> simp [List.isPrefixOf]

theorem Extends.meetsAny? (longer : Extends front more c c') (seam : Seam front more)
    (nonempty : c.ahead ≠ []) {stops : List String}
    (areStops : ∀ stop ∈ stops, Text.isStop stop.toList = true) :
    c'.meetsAny? stops = c.meetsAny? stops := by
  unfold Cursor.meetsAny?
  induction stops with
  | nil => rfl
  | cons stop rest ih =>
    obtain ⟨first, others⟩ := List.forall_mem_cons.mp areStops
    rw [List.find?_cons, List.find?_cons, longer.meets seam nonempty first, ih others]

/-- One character on. -/
theorem Extends.step {first : Char} {rest : List Char} (longer : Extends front more c c')
    (ahead : c.ahead = first :: rest) :
    Extends front more ⟨first :: c.behind, rest⟩ ⟨first :: c'.behind, rest ++ more⟩ :=
  longer.passed (show c.ahead = [first] ++ rest from ahead)

theorem Extends.advance (longer : Extends front more c c') (nonempty : c.ahead ≠ []) :
    Extends front more (c.advance 1) (c'.advance 1) := by
  obtain ⟨behind, ahead⟩ := c
  obtain ⟨behind', ahead'⟩ := c'
  obtain rfl : ahead' = ahead ++ more := longer.ahead
  cases ahead with
  | nil => exact absurd rfl nonempty
  | cons first rest => exact longer.step rfl

theorem upToFrom_cons_of_none {stops : List String} {behind rest : List Char} {first : Char}
    (unmet : meetsAny? ⟨behind, first :: rest⟩ stops = none) :
    upToFrom stops behind (first :: rest) =
      (first :: (upToFrom stops (first :: behind) rest).1,
        (upToFrom stops (first :: behind) rest).2) := by
  simp only [upToFrom, unmet]

/-- A stop is found in the same place. -/
theorem Extends.upToFrom_some {stops : List String} {behind behind' ahead text : List Char}
    {stop : String} {d : Cursor}
    (longer : Extends front more ⟨behind, ahead⟩ ⟨behind', ahead ++ more⟩) (seam : Seam front more)
    (areStops : ∀ stop ∈ stops, Text.isStop stop.toList = true)
    (found : upToFrom stops behind ahead = (text, some stop, d)) :
    ∃ d', upToFrom stops behind' (ahead ++ more) = (text, some stop, d') ∧
      Extends front more d d' := by
  induction ahead generalizing behind behind' text with
  | nil => cases found
  | cons first rest ih =>
    have same := longer.meetsAny? seam (List.cons_ne_nil _ _) areStops
    rw [List.cons_append] at same ⊢
    cases met : Cursor.meetsAny? ⟨behind, first :: rest⟩ stops with
    | some other =>
      rw [met] at same
      simp only [upToFrom, met] at found
      cases found
      refine ⟨⟨behind', first :: (rest ++ more)⟩, ?_, longer⟩
      simp only [upToFrom, same]
    | none =>
      rw [met] at same
      rw [upToFrom_cons_of_none met] at found
      obtain ⟨rfl, below⟩ := Prod.mk.inj found
      obtain ⟨d', found', longer⟩ := ih (longer.step rfl) (Prod.ext rfl below)
      exact ⟨d', by rw [upToFrom_cons_of_none same, found'], longer⟩

/-- Without a stop, all the text before the seam is copied. -/
theorem Extends.upToFrom_none {stops : List String} {behind behind' ahead text : List Char}
    {d : Cursor} (longer : Extends front more ⟨behind, ahead⟩ ⟨behind', ahead ++ more⟩)
    (seam : Seam front more) (areStops : ∀ stop ∈ stops, Text.isStop stop.toList = true)
    (found : upToFrom stops behind ahead = (text, none, d)) :
    upToFrom stops behind' (ahead ++ more) =
      (text ++ (upToFrom stops front.reverse more).1, (upToFrom stops front.reverse more).2) := by
  induction ahead generalizing behind behind' text with
  | nil =>
    cases found
    have whole : behind'.reverse ++ [] = front := longer.front
    rw [← whole]
    simp
  | cons first rest ih =>
    have same := longer.meetsAny? seam (List.cons_ne_nil _ _) areStops
    rw [List.cons_append] at same ⊢
    cases met : Cursor.meetsAny? ⟨behind, first :: rest⟩ stops with
    | some other =>
      simp only [upToFrom, met] at found
      cases found
    | none =>
      rw [met] at same
      rw [upToFrom_cons_of_none met] at found
      obtain ⟨rfl, below⟩ := Prod.mk.inj found
      rw [upToFrom_cons_of_none same, ih (longer.step rfl) (Prod.ext rfl below)]
      rfl

theorem Extends.upTo_some {stops : List String} (longer : Extends front more c c')
    (seam : Seam front more) (areStops : ∀ stop ∈ stops, Text.isStop stop.toList = true)
    {text : List Char} {stop : String} {d : Cursor} (found : c.upTo stops = (text, some stop, d)) :
    ∃ d', c'.upTo stops = (text, some stop, d') ∧ Extends front more d d' := by
  obtain ⟨behind, ahead⟩ := c
  obtain ⟨behind', ahead'⟩ := c'
  obtain rfl : ahead' = ahead ++ more := longer.ahead
  exact longer.upToFrom_some seam areStops found

theorem Extends.upTo_none {stops : List String} (longer : Extends front more c c')
    (seam : Seam front more) (areStops : ∀ stop ∈ stops, Text.isStop stop.toList = true)
    {text : List Char} {d : Cursor} (found : c.upTo stops = (text, none, d)) :
    c'.upTo stops = (text ++ (upTo stops ⟨front.reverse, more⟩).1,
      (upTo stops ⟨front.reverse, more⟩).2) := by
  obtain ⟨behind, ahead⟩ := c
  obtain ⟨behind', ahead'⟩ := c'
  obtain rfl : ahead' = ahead ++ more := longer.ahead
  exact longer.upToFrom_none seam areStops found

/-! ## Branches -/

/-- Nestings that differ at most in where their strings were opened. -/
inductive Nesting.Alike : Nesting → Nesting → Prop
  | outside (depth : Nat) : Alike (.outside depth) (.outside depth)
  | inside (quote : Char) (opened opened' : Cursor) (depth : Nat) :
      Alike (.inside quote opened depth) (.inside quote opened' depth)

theorem Nesting.Alike.isOpen {n m : Nesting} (alike : Alike n m) : m.isOpen = n.isOpen := by
  cases alike <;> rfl

theorem Nesting.Alike.after {n m : Nesting} (alike : Alike n m) (here here' : Cursor) (first : Char) :
    Alike (n.after here first) (m.after here' first) := by
  cases alike with
  | outside depth =>
    simp only [Nesting.after]
    split
    · exact .inside first here here' depth
    · exact .outside _
  | inside quote opened opened' depth =>
    simp only [Nesting.after]
    split
    · exact .outside depth
    · exact .inside quote opened opened' depth

/-- A piece that ends before a stop or a keyword ends there with more text. -/
theorem Extends.pieceFrom {stops words : List String} {behind behind' ahead text : List Char}
    {nesting nesting' : Nesting} {ending : Ending} {d : Cursor}
    (longer : Extends front more ⟨behind, ahead⟩ ⟨behind', ahead ++ more⟩) (seam : Seam front more)
    (areStops : ∀ stop ∈ stops ++ words, Text.isStop stop.toList = true)
    (alike : nesting.Alike nesting')
    (found : Cursor.pieceFrom stops words nesting behind ahead = .ok (text, ending, d))
    (ends : ending ≠ .finish) :
    ∃ d', Cursor.pieceFrom stops words nesting' behind' (ahead ++ more) = .ok (text, ending, d') ∧
      Extends front more d d' := by
  induction ahead generalizing behind behind' text nesting nesting' with
  | nil =>
    simp only [Cursor.pieceFrom] at found
    split at found
    · cases found
      exact absurd rfl ends
    · cases found
  | cons first rest ih =>
    obtain ⟨areStops', areWords⟩ := List.forall_mem_append.mp areStops
    have nonempty : (⟨behind, first :: rest⟩ : Cursor).ahead ≠ [] := List.cons_ne_nil _ _
    have same : Cursor.ending? stops words ⟨behind', first :: (rest ++ more)⟩ =
        Cursor.ending? stops words ⟨behind, first :: rest⟩ := by
      have onStops := longer.meetsAny? seam nonempty areStops'
      have onWords := longer.meetsAny? seam nonempty areWords
      simp only [List.cons_append] at onStops onWords
      rw [Cursor.ending?, Cursor.ending?, onStops, onWords]
    simp only [List.cons_append, Cursor.pieceFrom, alike.isOpen, same] at found ⊢
    split at found
    · cases found
      exact ⟨_, rfl, longer⟩
    · obtain ⟨inside, rfl, below⟩ := prepend_eq_ok found
      obtain ⟨d', below', longer⟩ := ih (longer.step rfl)
        (alike.after _ ⟨behind', first :: (rest ++ more)⟩ first) below
      refine ⟨d', ?_, longer⟩
      rw [below']
      rfl

theorem Extends.piece {stops words : List String} {text : List Char} {ending : Ending} {d : Cursor}
    (longer : Extends front more c c') (seam : Seam front more)
    (areStops : ∀ stop ∈ stops ++ words, Text.isStop stop.toList = true)
    (found : c.piece stops words = .ok (text, ending, d)) (ends : ending ≠ .finish) :
    ∃ d', c'.piece stops words = .ok (text, ending, d') ∧ Extends front more d d' := by
  obtain ⟨behind, ahead⟩ := c
  obtain ⟨behind', ahead'⟩ := c'
  obtain rfl : ahead' = ahead ++ more := longer.ahead
  exact longer.pieceFrom seam areStops (.outside 0) found ends

theorem ahead_ne_nil_of_pieceFrom {stops words : List String} {nesting : Nesting}
    {behind ahead text : List Char} {ending : Ending} {d : Cursor}
    (found : pieceFrom stops words nesting behind ahead = .ok (text, ending, d))
    (ends : ending ≠ .finish) : d.ahead ≠ [] := by
  induction ahead generalizing behind text nesting with
  | nil =>
    simp only [pieceFrom] at found
    split at found
    · cases found
      exact absurd rfl ends
    · cases found
  | cons first rest ih =>
    simp only [pieceFrom] at found
    split at found
    · cases found
      exact List.cons_ne_nil _ _
    · obtain ⟨_, _, below⟩ := prepend_eq_ok found
      exact ih below

end Cursor

/-! ## Directives -/

namespace Directive

open Cursor

variable {front more : List Char}

theorem areStops_keywords : ∀ stop ∈ keywords, Text.isStop stop.toList = true := by decide

theorem areStops_branch {stops : List String} (among : ∀ stop ∈ stops, stop ∈ [",", ")"]) :
    ∀ stop ∈ stops ++ keywords, Text.isStop stop.toList = true := by
  have marks : ∀ stop ∈ [",", ")"], Text.isStop stop.toList = true := by decide
  exact List.forall_mem_append.mpr ⟨fun stop member => marks stop (among stop member),
    areStops_keywords⟩

theorem Opens.extends {c c' d : Cursor} {test : Condition} (head : Opens c test d)
    (clear : Clear more d) (longer : Extends front more c c') (seam : Seam front more) :
    ∃ d', Opens c' test d' ∧ Extends front more d d' := by
  obtain ⟨word, e, opening, f, g, comma, first, isName, isIf, second, opens, condition, third,
    isComma⟩ := head
  obtain ⟨_, e', first', longer⟩ :=
    longer.next first (longer.clear_of_identifier seam first isName)
  obtain ⟨_, f', second', longer⟩ := longer.next second (clear_of_size condition.1)
  obtain ⟨g', condition', longer⟩ :=
    Condition.conditionAt_extends condition (.inl ⟨comma, d, third, clear⟩) longer
  obtain ⟨_, d', third', longer⟩ := longer.next third clear
  exact ⟨d', ⟨_, e', _, f', g', _, first', isName, isIf, second', opens, condition', third',
    isComma⟩, longer⟩

/-- Whether a branch ends before a comma or a parenthesis. -/
def Part.Marked : Part → Prop
  | .directive => True
  | .branch stops _ => ∀ stop ∈ stops, stop ∈ [",", ")"]

/-- The stop of a branch still lies ahead. -/
theorem Expands.ahead_ne_nil {part : Part} {c d : Cursor} {ds : List Directive} {out : List Char}
    (expands : Expands part c ds out d) {stops : List String} {stop : String}
    (isBranch : part = .branch stops stop) : d.ahead ≠ [] := by
  induction expands with
  | copied => cases isBranch
  | single => cases isBranch
  | double => cases isBranch
  | ended found => exact ahead_ne_nil_of_pieceFrom found Ending.noConfusion
  | nested _ _ _ _ outer => exact outer isBranch

theorem Expands.clear {c d : Cursor} {ds : List Directive} {stops : List String} {stop : String}
    {inside : List Char} (expands : Expands (.branch stops stop) c ds inside d) : Clear more c := by
  have left := List.length_pos_iff.mpr (expands.ahead_ne_nil rfl)
  obtain ⟨balanced, _, _, _, rfl⟩ := expands.runs c.size (Nat.le_refl _)
  exact clear_of_size (Nat.lt_of_lt_of_le left balanced.place.property)

/-- The same directives are expanded with more text. -/
theorem Expands.extends {part : Part} {c c' d : Cursor} {ds : List Directive} {out : List Char}
    (expands : Expands part c ds out d) (marked : part.Marked) (longer : Extends front more c c')
    (seam : Seam front more) : ∃ d', Expands part c' ds out d' ∧ Extends front more d d' := by
  induction expands generalizing c' with
  | copied first isName notIf =>
    obtain ⟨_, d', first', longer⟩ :=
      longer.next first (longer.clear_of_identifier seam first isName)
    have copied : Expands .directive c' [] _ d' := .copied first' isName notIf
    exact ⟨d', copied, longer⟩
  | single head branch ends written consequent =>
    obtain ⟨d', head', longer⟩ := head.extends branch.clear longer seam
    obtain ⟨e', branch', longer⟩ := consequent (fun _ member => member) longer
    exact ⟨_, .single head' branch' ends written, longer.advance (branch.ahead_ne_nil rfl)⟩
  | double head branch other written consequent alternate =>
    obtain ⟨d', head', longer⟩ := head.extends branch.clear longer seam
    obtain ⟨e', branch', longer⟩ := consequent (fun _ member => member) longer
    obtain ⟨f', other', longer⟩ := alternate (fun _ member => List.mem_cons_of_mem _ member)
      (longer.advance (branch.ahead_ne_nil rfl))
    exact ⟨_, .double head' branch' other' written, longer.advance (other.ahead_ne_nil rfl)⟩
  | ended found =>
    obtain ⟨d', found', longer⟩ :=
      longer.piece seam (areStops_branch marked) found Ending.noConfusion
    exact ⟨d', .ended found', longer⟩
  | nested found _ _ inner outer =>
    obtain ⟨d', found', longer⟩ :=
      longer.piece seam (areStops_branch marked) found Ending.noConfusion
    obtain ⟨e', inner', longer⟩ := inner trivial longer
    obtain ⟨f', outer', longer⟩ := outer marked longer
    exact ⟨f', .nested found' inner' outer', longer⟩

/-! ## Sources -/

/-- What comes of a text behind which another one is expanded. -/
def resume (ds : List Directive) (out : List Char) (rest : Expansion (List Char)) :
    Expansion (List Char) :=
  ⟨ds ++ rest.directives, rest.result.map (out ++ ·)⟩

theorem resume_resume (ds es : List Directive) (out other : List Char)
    (rest : Expansion (List Char)) :
    resume ds out (resume es other rest) = resume (ds ++ es) (out ++ other) rest := by
  obtain ⟨fs, result⟩ := rest
  cases result with
  | error e => simp [resume, Except.map]
  | ok text => simp [resume, Except.map]

theorem resume_eq_ok {ds fs : List Directive} {out text : List Char}
    {rest : Expansion (List Char)} (done : resume ds out rest = ⟨fs, .ok text⟩) :
    ∃ es other, rest = ⟨es, .ok other⟩ ∧ fs = ds ++ es ∧ text = out ++ other := by
  rcases rest.ok_or_error with ⟨es, other, rfl⟩ | ⟨es, fault, rfl⟩
  · cases done
    exact ⟨es, other, rfl, rfl, rfl⟩
  · cases done

theorem expandFrom_of_none {c d : Cursor} {text : List Char}
    (found : c.upTo keywords = (text, none, d)) : expandFrom c = ⟨[], .ok text⟩ := by
  rw [expandFrom]
  split
  · next other =>
    rw [found] at other
    cases other
    rfl
  · next other =>
    rw [found] at other
    cases other

theorem expandFrom_of_some {c d : Cursor} {text : List Char} {stop : String}
    (found : c.upTo keywords = (text, some stop, d)) :
    expandFrom c = do
      let (out, ⟨e, _⟩) ← expandAt d
      return text ++ out ++ (← expandFrom e) := by
  rw [expandFrom]
  split
  · next other =>
    rw [found] at other
    cases other
  · next other =>
    rw [found] at other
    cases other
    rfl

theorem expandFrom_of_ok {c d : Cursor} {text out : List Char} {stop : String}
    {ds : List Directive} {e : d.Shorter} (found : c.upTo keywords = (text, some stop, d))
    (expanded : expandAt d = ⟨ds, .ok (out, e)⟩) :
    expandFrom c = resume ds (text ++ out) (expandFrom e.val) := by
  rw [expandFrom_of_some found, expanded]
  show Expansion.mk (ds ++ (expandFrom e.val >>= _).directives) (expandFrom e.val >>= _).result = _
  obtain ⟨es, result⟩ := expandFrom e.val
  cases result with
  | error fault => rfl
  | ok rest => simp [resume, Except.map, Bind.bind, Pure.pure]

theorem expandFrom_of_error {c d : Cursor} {text : List Char} {stop : String}
    {ds : List Directive} {fault : CompileError} (found : c.upTo keywords = (text, some stop, d))
    (failed : expandAt d = ⟨ds, .error fault⟩) : expandFrom c = ⟨ds, .error fault⟩ := by
  rw [expandFrom_of_some found, failed]
  rfl

/-- Text that holds no keyword is copied before what follows it. -/
theorem expandFrom_of_copied {c c' : Cursor} {text : List Char}
    (same : c'.upTo keywords = (text ++ (c.upTo keywords).1, (c.upTo keywords).2)) :
    expandFrom c' = resume [] text (expandFrom c) := by
  rcases found : c.upTo keywords with ⟨behind, _ | stop, d⟩
  · rw [found] at same
    rw [expandFrom_of_none same, expandFrom_of_none found]
    rfl
  · rw [found] at same
    rcases (expandAt d).ok_or_error with ⟨ds, ⟨out, e⟩, expanded⟩ | ⟨ds, fault, failed⟩
    · rw [expandFrom_of_ok same expanded, expandFrom_of_ok found expanded, resume_resume,
        List.append_assoc, List.nil_append]
    · rw [expandFrom_of_error same failed, expandFrom_of_error found failed]
      rfl

/-- Behind a seam, expanding goes on as if it had begun there. -/
theorem expandFrom_extends {c c' : Cursor} {ds : List Directive} {out : List Char}
    (longer : Extends front more c c') (seam : Seam front more)
    (done : expandFrom c = ⟨ds, .ok out⟩) :
    expandFrom c' = resume ds out (expandFrom ⟨front.reverse, more⟩) := by
  rcases found : c.upTo keywords with ⟨text, _ | stop, d⟩
  · rw [expandFrom_of_none found] at done
    cases done
    exact expandFrom_of_copied (longer.upTo_none seam areStops_keywords found)
  · obtain ⟨d', found', longer⟩ := longer.upTo_some seam areStops_keywords found
    rcases (expandAt d).ok_or_error with ⟨es, ⟨other, e, shorter⟩, expanded⟩ | ⟨es, fault, failed⟩
    · obtain ⟨e', expands', longer⟩ := (expands_of_expandAt expanded).extends trivial longer seam
      obtain ⟨shorter', expanded'⟩ := expands'.runs
      have smaller : e.size < c.size := by
        have bound := size_upTo keywords c
        rw [found] at bound
        exact Nat.lt_of_lt_of_le shorter bound
      rw [expandFrom_of_ok found expanded] at done
      obtain ⟨fs, rest, below, rfl, rfl⟩ := resume_eq_ok done
      rw [expandFrom_of_ok found' expanded', expandFrom_extends longer seam below, resume_resume]
    · rw [expandFrom_of_error found failed] at done
      cases done
termination_by c.size

/-- What lies behind a source matters only if it is a word. -/
theorem expandFrom_behind {c c' : Cursor} {ds : List Directive} {out : List Char}
    (done : expandFrom c = ⟨ds, .ok out⟩) (ahead : c'.ahead = c.ahead)
    (behind : c'.behind.head?.any Text.isWord = c.behind.head?.any Text.isWord) :
    expandFrom c' = ⟨ds, .ok out⟩ := by
  have longer : Extends (c'.behind.reverse ++ c.ahead) [] c c' :=
    ⟨rfl, by rw [ahead, List.append_nil], behind⟩
  have ended : expandFrom ⟨(c'.behind.reverse ++ c.ahead).reverse, []⟩ = ⟨[], .ok []⟩ :=
    expandFrom_of_none rfl
  rw [expandFrom_extends longer (.inl rfl) done, ended]
  simp [resume, Except.map]

theorem expand_eq (source : String) :
    expand source = ⟨(expandFrom (.start source)).directives,
      (expandFrom (.start source)).result.map String.ofList⟩ := by
  unfold expand
  rcases (expandFrom (.start source)).ok_or_error with ⟨ds, out, found⟩ | ⟨ds, fault, found⟩
  · rw [found]
    simp [Except.map, Bind.bind, Pure.pure]
  · rw [found]
    rfl

theorem expand_eq_ok {source out : String} {ds : List Directive}
    (done : expand source = ⟨ds, .ok out⟩) :
    ∃ text, expandFrom (.start source) = ⟨ds, .ok text⟩ ∧ out = String.ofList text := by
  rw [expand_eq] at done
  rcases (expandFrom (.start source)).ok_or_error with ⟨es, text, found⟩ | ⟨es, fault, found⟩
  · rw [found] at done
    cases done
    exact ⟨text, found, rfl⟩
  · rw [found] at done
    cases done

/-- The directives of two sources, and the text in their place, are those of the one before those of the
other. If the second fails, both together fail. -/
theorem expand_together {first out : String} {ds : List Directive}
    (seam : ∀ c ∈ first.toList.getLast?, Text.isWord c = false ∧ Text.isGap c = false)
    (done : expand first = ⟨ds, .ok out⟩) (second : String) :
    (∀ es other, expand second = ⟨es, .ok other⟩ →
      expand (first ++ second) = ⟨ds ++ es, .ok (out ++ other)⟩) ∧
    (∀ fault, (expand second).result = .error fault →
      ∃ fault', (expand (first ++ second)).result = .error fault') := by
  let rest : Cursor := ⟨first.toList.reverse, second.toList⟩
  have longer : Extends first.toList second.toList (.start first) (.start (first ++ second)) :=
    ⟨rfl, String.toList_append, rfl⟩
  have behind : rest.behind.head?.any Text.isWord =
      (Cursor.start second).behind.head?.any Text.isWord := by
    show first.toList.reverse.head?.any Text.isWord = false
    rw [List.head?_reverse]
    cases last : first.toList.getLast? with
    | none => rfl
    | some c => exact (seam c last).1
  obtain ⟨text, whole, rfl⟩ := expand_eq_ok done
  have resumed : expandFrom (.start (first ++ second)) = resume ds text (expandFrom rest) :=
    expandFrom_extends longer (.inr seam) whole
  constructor
  · intro es other after
    obtain ⟨text', found, rfl⟩ := expand_eq_ok after
    have there : expandFrom rest = ⟨es, .ok text'⟩ := expandFrom_behind found rfl behind
    rw [expand_eq, resumed, there]
    simp [resume, Except.map]
  · intro fault failed
    rw [expand_eq, resumed]
    rcases (expandFrom rest).ok_or_error with ⟨es, text', found⟩ | ⟨es, fault', found⟩
    · have alone : expandFrom (.start second) = ⟨es, .ok text'⟩ :=
        expandFrom_behind found rfl behind.symm
      rw [expand_eq, alone] at failed
      cases failed
    · rw [found]
      exact ⟨fault', rfl⟩

end Directive

/-! ## Registries -/

namespace Registry

/-- Two sources put together, the first of which is empty or ends in a character that belongs to no word
and is no gap, expand to what they expand to one after the other, and leave the same registry. If
the second fails behind the first, both together fail. -/
theorem expand_append (r : Registry) {first second out : String}
    (seam : ∀ c ∈ first.toList.getLast?, Text.isWord c = false ∧ Text.isGap c = false)
    (done : (r.expand first).1 = .ok out) :
    (∀ other, ((r.expand first).2.expand second).1 = .ok other →
      r.expand (first ++ second) = (.ok (out ++ other), ((r.expand first).2.expand second).2)) ∧
    (∀ fault, ((r.expand first).2.expand second).1 = .error fault →
      ∃ fault', (r.expand (first ++ second)).1 = .error fault') := by
  have whole : Directive.expand first = ⟨(Directive.expand first).directives, .ok out⟩ := by
    rw [← done]
    rfl
  obtain ⟨together, fails⟩ := Directive.expand_together seam whole second
  refine ⟨fun other after => ?_, fails⟩
  have second' : Directive.expand second = ⟨(Directive.expand second).directives, .ok other⟩ := by
    rw [← after]
    rfl
  simp only [expand, together _ _ second', List.foldl_append]

def exEmpty : Registry := ⟨"scheme", {}, .empty, .empty, .empty⟩

/-- The second source begins with a keyword, and would be no directive behind a word. -/
theorem expand_append_exEmpty :
    exEmpty.expand ("--x: if(a, 1)" ++ "if(b == 2, p, q)") =
        (.ok ("--x: var(--a,1)" ++ "var(--b≡2,p) var(--b≠2,q)"),
          ((exEmpty.expand "--x: if(a, 1)").2.expand "if(b == 2, p, q)").2) ∧
      ∃ fault, (exEmpty.expand ("--x: if(a, 1)" ++ "if(b")).1 = .error fault := by
  have done : (exEmpty.expand "--x: if(a, 1)").1 = .ok "--x: var(--a,1)" :=
    eq_ok_of_toOption (by decide +kernel)
  have seam : ∀ c ∈ "--x: if(a, 1)".toList.getLast?,
      Text.isWord c = false ∧ Text.isGap c = false := by
    rintro c ⟨⟩
    decide
  have after : ((exEmpty.expand "--x: if(a, 1)").2.expand "if(b == 2, p, q)").1 =
      .ok "var(--b≡2,p) var(--b≠2,q)" := eq_ok_of_toOption (by decide +kernel)
  refine ⟨(expand_append exEmpty seam done).1 _ after, ?_⟩
  have refused : ((exEmpty.expand "--x: if(a, 1)").2.expand "if(b").1.toOption = none := by
    decide +kernel
  cases failed : ((exEmpty.expand "--x: if(a, 1)").2.expand "if(b").1 with
  | error fault => exact (expand_append exEmpty seam done).2 fault failed
  | ok text =>
    rw [failed] at refused
    cases refused

end Registry

end StyleFlags
