import StyleFlags.Proofs.Shape
import StyleFlags.Registry

/-!
# What sources are made of

The properties and literals of a directive come from tokens, so their texts are
not arbitrary: a property is an identifier that is no reserved word, and the
text of a literal reads back as that literal. Everything that is made from the
tests of directives keeps to this vocabulary.

Results:
1. `Condition.readAt_shaped`: a condition that is read is shaped, over the
   vocabulary of sources.
2. `Directive.tests_shaped`: so is the test of every directive that expanding a
   source records, also when the source is refused in the end.
3. `Directive.Proper.facts`: the facts that such a directive needs are proper:
   they test identifiers, against identifiers or readable literals that fit the
   operator.
-/

namespace StyleFlags

theorem bind_eq_ok {ε α β : Type} {x : Except ε α} {f : α → Except ε β} {b : β}
    (done : (x >>= f) = .ok b) : ∃ a, x = .ok a ∧ f a = .ok b := by
  cases x with
  | error e => cases done
  | ok a => exact ⟨a, rfl, done⟩

theorem bind_eq_ok_iff {ε α β : Type} {x : Except ε α} {f : α → Except ε β} {b : β} :
    (x >>= f) = .ok b ↔ ∃ a, x = .ok a ∧ f a = .ok b := by
  refine ⟨bind_eq_ok, ?_⟩
  rintro ⟨a, rfl, done⟩
  exact done

/-- A result is computed without its error, which cannot be compared. -/
theorem eq_ok_of_toOption {ε α : Type} {x : Except ε α} {a : α} (found : x.toOption = some a) :
    x = .ok a := by
  cases x with
  | error e => cases found
  | ok b => exact congrArg Except.ok (Option.some.inj found)

/-! ## Tokens -/

/-- Whether a text is an identifier: word characters, no digit first, and no reserved word. -/
def isIdentifier (text : String) : Bool :=
  text.toList.head?.any Text.isNameStart && text.toList.all Text.isWord &&
    (LiteralKind.ofWord? text).isNone

/-- The reserved words. -/
def reservedWords : List String :=
  ["true", "false", "null", "Number", "String", "Boolean", "Function"]

theorem LiteralKind.ofWord?_eq_some {text : String} {kind : LiteralKind}
    (word : LiteralKind.ofWord? text = some kind) :
    text ∈ reservedWords ∧ kind ≠ .number ∧ kind ≠ .string := by
  unfold LiteralKind.ofWord? at word
  split at word
  · next isBoolean =>
    cases word
    rcases isBoolean with rfl | rfl <;> decide
  · split at word
    · next isNull =>
      cases word
      rw [isNull]
      decide
    · split at word
      · next isType =>
        cases word
        rcases isType with rfl | rfl | rfl | rfl <;> decide
      · cases word

/-- No reserved word begins like a numeral. -/
theorem LiteralKind.isNumeral_of_ofWord? {text : String} {kind : LiteralKind}
    (word : LiteralKind.ofWord? text = some kind) : Literal.isNumeral text.toList = false := by
  have none : ∀ word ∈ reservedWords, Literal.isNumeral word.toList = false := by decide
  exact none text (ofWord?_eq_some word).1

/-- Whether some text reads as the literal. -/
def Literal.Readable (l : Literal) : Prop :=
  ∃ text quoted offset, Literal.read text quoted offset = .ok l

theorem Literal.readable_iff {l : Literal} :
    l.Readable ↔ l.kind = .string ∨ (l.kind = .number ∧ isNumeral l.text.toList = true) ∨
      LiteralKind.ofWord? l.text = some l.kind := by
  constructor
  · rintro ⟨text, quoted, offset, found⟩
    unfold Literal.read at found
    split at found
    · cases found
      exact .inl rfl
    · split at found
      · next numeral =>
        cases found
        exact .inr (.inl ⟨rfl, numeral⟩)
      · split at found
        · next kind word =>
          cases found
          exact .inr (.inr word)
        · cases found
  · obtain ⟨kind, text⟩ := l
    rintro (rfl | ⟨rfl, numeral⟩ | word)
    · exact ⟨text, true, 0, rfl⟩
    · exact ⟨text, false, 0, by simp only [Literal.read, numeral]; rfl⟩
    · have bare := LiteralKind.isNumeral_of_ofWord? word
      simp only at word bare
      exact ⟨text, false, 0, by simp [Literal.read, bare, word]⟩

theorem Literal.readable_boolean (b : Bool) : (Literal.boolean b).Readable := by
  cases b <;> exact readable_iff.mpr (.inr (.inr rfl))

theorem Literal.readable_negateSign {l m : Literal} (readable : l.Readable)
    (signed : l.negateSign? = some m) : m.Readable := by
  unfold Literal.negateSign? at signed
  split at signed
  · next isNumber =>
    have numeral : isNumeral l.text.toList = true := by
      rcases readable_iff.mp readable with isString | ⟨_, numeral⟩ | word
      · rw [isNumber] at isString
        cases isString
      · exact numeral
      · exact ((LiteralKind.ofWord?_eq_some word).2.1 isNumber).elim
    split at signed
    · next rest minus =>
      cases signed
      refine readable_iff.mpr (.inr (.inl ⟨rfl, ?_⟩))
      rw [minus] at numeral
      rw [String.toList_ofList]
      -- A second minus would be no numeral.
      unfold isNumeral at numeral ⊢
      split
      · next twice => simp [isUnsigned] at numeral
      · exact numeral
    · next plain =>
      cases signed
      refine readable_iff.mpr (.inr (.inl ⟨rfl, ?_⟩))
      rw [String.toList_append]
      unfold isNumeral at numeral
      split at numeral
      · next rest minus => exact (plain rest minus).elim
      · exact numeral
  · cases signed

/-- The names and literals that a source can write. -/
def Condition.Vocabulary.source : Condition.Vocabulary where
  name text := isIdentifier text = true
  literal := Literal.Readable
  boolean := Literal.readable_boolean
  signed := Literal.readable_negateSign

namespace Cursor

theorem isIdentifier_wordToken {word : List Char} {offset : Nat} {first : Char} {rest : List Char}
    (starts : word = first :: rest) (name : Text.isNameStart first = true)
    (words : word.all Text.isWord = true)
    (identifier : (wordToken word offset).kind = .identifier) :
    isIdentifier (wordToken word offset).text = true := by
  unfold wordToken at identifier ⊢
  simp only at identifier ⊢
  split at identifier
  · cases identifier
  · next unreserved =>
    simp only [isIdentifier, String.toList_ofList, words, Bool.and_true, Bool.and_eq_true]
    refine ⟨?_, by simpa using unreserved⟩
    rw [starts]
    exact name

theorem isIdentifier_lexeme {c : Cursor} {first : Char} {rest : List Char} {token : Token} {n : Nat}
    (ahead : c.ahead = first :: rest) (read : c.lexeme first = .ok (token, n))
    (identifier : token.kind = .identifier) : isIdentifier token.text = true := by
  unfold lexeme at read
  split at read
  · next isName =>
    cases read
    have isWord : Text.isWord first = true := by simp [Text.isWord, isName]
    have starts : c.ahead.takeWhile Text.isWord = first :: rest.takeWhile Text.isWord := by
      rw [ahead, List.takeWhile_cons_of_pos isWord]
    exact isIdentifier_wordToken starts isName List.all_takeWhile identifier
  · split at read
    · simp only at read
      split at read
      · cases read
        cases identifier
      · cases read
    · split at read
      · split at read
        · cases read
          cases identifier
        · cases read
      · split at read
        · cases read
          cases identifier
        · cases read

theorem isIdentifier_peek {c : Cursor} {token : Token} {d : c.Shorter}
    (read : c.peek = .ok (some (token, d))) (identifier : token.kind = .identifier) :
    isIdentifier token.text = true := by
  unfold peek at read
  split at read
  · next found =>
    cases read
    unfold next at found
    simp only at found
    split at found
    · cases found
    · next first rest ahead =>
      split at found
      · next lexed =>
        cases found
        exact isIdentifier_lexeme ahead lexed identifier
      · cases found
  · cases read
  · cases read

end Cursor

/-! ## Conditions -/

namespace Condition

mutual

theorem readAt_shaped {least : Nat} {c : Cursor} {condition : Condition} {d : c.Shorter}
    (read : readAt least c = .ok (condition, d)) : condition.Shaped .source := by
  rw [readAt] at read
  obtain ⟨⟨left, e, he⟩, operand, read⟩ := bind_eq_ok read
  obtain ⟨⟨whole, f, hf⟩, joined, read⟩ := bind_eq_ok read
  cases read
  exact readInfix_shaped (readOperand_shaped operand) joined
termination_by 2 * c.size + 1

theorem readOperand_shaped {c : Cursor} {condition : Condition} {d : c.Shorter}
    (read : readOperand c = .ok (condition, d)) : condition.Shaped .source := by
  rw [readOperand] at read
  obtain ⟨peeked, found, read⟩ := bind_eq_ok read
  split at read
  · cases read
  · next token e he =>
    split at read
    · next isName =>
      cases read
      exact Cursor.isIdentifier_peek found isName
    · obtain ⟨l, literal, read⟩ := bind_eq_ok read
      cases read
      exact ⟨rfl, _, _, _, literal⟩
    · obtain ⟨⟨inner, f, hf⟩, grouped, read⟩ := bind_eq_ok read
      obtain ⟨⟨close, g, hg⟩, _, read⟩ := bind_eq_ok read
      cases read
      exact readAt_shaped grouped
    · obtain ⟨⟨operand, f, hf⟩, below, read⟩ := bind_eq_ok read
      obtain ⟨negated, made, read⟩ := bind_eq_ok read
      cases read
      exact (readAt_shaped below).prefixed made
    · obtain ⟨⟨operand, f, hf⟩, below, read⟩ := bind_eq_ok read
      obtain ⟨signed, made, read⟩ := bind_eq_ok read
      cases read
      exact (readAt_shaped below).prefixed made
    · cases read
termination_by 2 * c.size

theorem readInfix_shaped {least : Nat} {left : Condition} {c : Cursor} {condition : Condition}
    {d : c.NotLonger} (shaped : left.Shaped .source)
    (read : readInfix least left c = .ok (condition, d)) : condition.Shaped .source := by
  rw [readInfix] at read
  obtain ⟨peeked, found, read⟩ := bind_eq_ok read
  split at read
  · split at read
    · cases read
      exact shaped
    · obtain ⟨⟨right, e, he⟩, below, read⟩ := bind_eq_ok read
      obtain ⟨joined, made, read⟩ := bind_eq_ok read
      obtain ⟨⟨whole, f, hf⟩, rest, read⟩ := bind_eq_ok read
      cases read
      exact readInfix_shaped (shaped.infixed (readAt_shaped below) made) rest
  · cases read
    exact shaped
termination_by 2 * c.size

end

end Condition

/-! ## Facts -/

/-- The operand of a comparison in a fact: what a source can write, and fits the operator. -/
def Operand.Proper (op : Comparison) : Operand → Prop
  | literal l => l.Readable ∧ Condition.fits op l
  | property name _ => isIdentifier name = true

/-- A fact that a source can ask for. -/
def Fact.Proper (f : Fact) : Prop :=
  isIdentifier f.property = true ∧
    match f.test with
    | .truthy _ => True
    | .compare op operand => operand.Proper op

theorem Fact.Proper.isIdentifier_dependency {f : Fact} (proper : f.Proper) {q : String}
    (reads : f.dependency? = some q) : isIdentifier q = true := by
  obtain ⟨property, test⟩ := f
  cases test with
  | truthy negated => cases reads
  | compare op operand =>
    cases operand with
    | literal l => cases reads
    | property name negated =>
      cases reads
      exact proper.2

namespace Condition

theorem ShapedOperand.proper {op : Comparison} {c : Condition} {operand : Operand}
    (shaped : c.ShapedOperand .source op) (found : Operand.ofCondition? c = some operand) :
    operand.Proper op := by
  cases c with
  | property negated name =>
    cases found
    exact shaped
  | literal negated l =>
    cases found
    exact shaped.2
  | binary negated found left right => exact shaped.elim

theorem Shaped.proper_ofCondition? {c : Condition} {f : Fact} (shaped : c.Shaped .source)
    (found : Fact.ofCondition? c = some f) : f.Proper := by
  cases c with
  | property negated name =>
    cases found
    exact ⟨shaped, trivial⟩
  | literal negated l => cases found
  | binary negated op left right =>
    cases op with
    | junction op => cases found
    | compare op =>
      obtain ⟨⟨name, rfl, known⟩, operand⟩ := shaped
      simp only [Fact.ofCondition?, property?, Option.bind_eq_bind, Option.bind_some,
        Option.bind_eq_some_iff, Option.some.injEq] at found
      obtain ⟨value, isOperand, rfl⟩ := found
      refine ⟨known, ?_⟩
      cases negated with
      | false => exact operand.proper isOperand
      | true => exact operand.dual.proper isOperand

/-- All facts of a condition that was read are proper. -/
theorem Shaped.proper_facts {c : Condition} (shaped : c.Shaped .source) :
    ∀ f ∈ c.facts, f.Proper := by
  induction c with
  | property negated name =>
    intro f member
    exact shaped.proper_ofCondition? (Option.mem_toList.mp member)
  | literal negated l =>
    intro f member
    cases member
  | binary negated op left right leftIh rightIh =>
    intro f member
    cases op with
    | junction op =>
      obtain ⟨_, _, hl, hr⟩ := shaped
      rcases List.mem_append.mp member with inLeft | inRight
      · exact leftIh hl f inLeft
      · exact rightIh hr f inRight
    | compare op => exact shaped.proper_ofCondition? (Option.mem_toList.mp member)

end Condition

/-! ## Directives -/

namespace Expansion

variable {α β : Type} {p : Directive → Prop}

/-- Every directive that the expansion lists satisfies `p`, whatever its outcome. -/
def Records (p : Directive → Prop) (x : Expansion α) : Prop := ∀ d ∈ x.directives, p d

theorem records_pure (a : α) : Records p (pure a) := by
  intro d listed
  cases listed

theorem Records.bind {x : Expansion α} {f : α → Expansion β} (first : Records p x)
    (second : ∀ a, x.result = .ok a → Records p (f a)) : Records p (x >>= f) := by
  intro d listed
  obtain ⟨directives, result⟩ := x
  cases result with
  | error e => exact first d listed
  | ok a =>
    rcases List.mem_append.mp listed with inFirst | inSecond
    · exact first d inFirst
    · exact second a rfl d inSecond

theorem records_lift (x : Except CompileError α) : Records p (liftM x) := by
  intro d listed
  cases listed

theorem records_liftFault (x : Except Fault α) : Records p (liftM x) := by
  intro d listed
  cases x <;> cases listed

theorem records_record {d : Directive} (satisfied : p d) : Records p (record d) := by
  intro e listed
  cases List.mem_singleton.mp listed
  exact satisfied

theorem records_balanced {stops keywords : List String} {limit : Nat}
    {handle : String → (d : Cursor) → d.size ≤ limit → Expansion (List Char × d.Shorter)}
    (handled : ∀ keyword d within, Records p (handle keyword d within)) (c : Cursor)
    (within : c.size ≤ limit) :
    Records p (Cursor.balanced stops keywords limit handle c within) := by
  rw [Cursor.balanced]
  split
  · exact records_liftFault _
  · exact records_pure _
  · exact records_pure _
  · next text keyword d read =>
    refine (handled _ _ _).bind ?_
    rintro ⟨spliced, e, shorter⟩ _
    have := Cursor.size_piece read
    refine (records_balanced handled e _).bind ?_
    intro rest _
    exact records_pure _
termination_by c.size

end Expansion

namespace Directive

open Expansion

/-- The test of a directive is shaped, over what sources can write. -/
def Proper (d : Directive) : Prop := d.test.Shaped .source

theorem mem_needs {d : Directive} {options : Options} {need : Need}
    (needed : need ∈ d.needs options) :
    need ∈ d.branchNeeds options "if-" d.positive ∨
      need ∈ d.branchNeeds options "else-" d.negative := by
  unfold needs at needed
  split at needed
  · cases needed
  · rcases List.mem_append.mp needed with first | second
    · exact .inl first
    · split at second
      · exact .inr second
      · cases second

theorem fact_mem_branchNeeds {d : Directive} {options : Options} {stem : String} {c : Condition}
    {f : Fact} (needed : .fact f ∈ d.branchNeeds options stem c) : f ∈ c.facts := by
  rcases List.mem_append.mp needed with inFacts | inGuard
  · obtain ⟨g, member, same⟩ := List.mem_map.mp inFacts
    cases same
    exact member
  · split at inGuard
    · cases List.mem_singleton.mp inGuard
    · cases inGuard

theorem prepared_mem_branchNeeds {d : Directive} {options : Options} {stem name value : String}
    {c : Condition} (needed : .prepared name value ∈ d.branchNeeds options stem c) :
    name = stem ++ d.normal.name ∧ value = (Guard.ofCondition none c).text options := by
  rcases List.mem_append.mp needed with inFacts | inGuard
  · obtain ⟨_, _, same⟩ := List.mem_map.mp inFacts
    cases same
  · split at inGuard
    · cases List.mem_singleton.mp inGuard
      exact ⟨rfl, rfl⟩
    · cases inGuard

theorem Proper.facts {options : Options} {d : Directive} (proper : d.Proper) {f : Fact}
    (needed : .fact f ∈ d.needs options) : f.Proper := by
  have normal : d.normal.Shaped .source := Condition.Shaped.nnf proper
  rcases mem_needs needed with first | second
  · exact normal.nnf.distribute.proper_facts f (fact_mem_branchNeeds first)
  · exact normal.negate.nnf.nnf.distribute.proper_facts f (fact_mem_branchNeeds second)

theorem records_expandAt (c : Cursor) : Records Proper (expandAt c) := by
  rw [expandAt]
  refine (records_lift _).bind ?_
  rintro ⟨keyword, d, hd⟩ _
  simp only
  split
  · refine (records_lift _).bind ?_
    rintro ⟨_, e, he⟩ _
    refine (records_lift _).bind ?_
    rintro ⟨test, f, hf⟩ read
    have shaped : test.Shaped .source := Condition.readAt_shaped read
    refine (records_lift _).bind ?_
    rintro ⟨_, g, hg⟩ _
    have smaller : g.size < c.size :=
      calc g.size < f.size := hg
        _ < e.size := hf
        _ < d.size := he
        _ < c.size := hd
    refine (records_balanced (fun _ k within => records_expandAt k) g _).bind ?_
    intro span _
    refine (records_lift _).bind ?_
    rintro ⟨consequent, stop, h, hh⟩ _
    have closer : h.size ≤ g.size := hh
    simp only
    split
    · refine (records_balanced (fun _ k within => records_expandAt k) h _).bind ?_
      intro span' _
      refine (records_lift _).bind ?_
      rintro ⟨alternate, _, i, hi⟩ _
      refine (records_record shaped).bind ?_
      intro text _
      exact records_pure _
    · refine (records_record shaped).bind ?_
      intro text _
      exact records_pure _
  · exact records_pure _
termination_by c.size
decreasing_by
  · exact Nat.lt_of_le_of_lt within smaller
  · exact Nat.lt_of_le_of_lt (Nat.le_trans within closer) smaller

theorem records_expandFrom (c : Cursor) : Records Proper (expandFrom c) := by
  rw [expandFrom]
  split
  · exact records_pure _
  · next text stop d found =>
    have bound := Cursor.size_upTo keywords c
    rw [found] at bound
    refine (records_expandAt d).bind ?_
    rintro ⟨out, e, shorter⟩ _
    have smaller : e.size < c.size := Nat.lt_of_lt_of_le shorter bound
    refine (records_expandFrom e).bind ?_
    intro rest _
    exact records_pure _
termination_by c.size

/-- The tests of all directives of a source are shaped, also those before an error. -/
theorem tests_shaped (source : String) : Records Proper (expand source) := by
  refine (records_expandFrom _).bind ?_
  intro text _
  exact records_pure _

end Directive

end StyleFlags
