import StyleFlags.Proofs.Branches
import StyleFlags.Proofs.Closed
import StyleFlags.Proofs.Seams

/-!
# The parts of a directive

A directive in a source is written as `if(`, a test, a comma, a branch, and perhaps a comma and
one more branch, and `)`. The test is read as tokens, and the branches are raw text: they may hold
commas and parentheses within strings and parentheses, and the second one commas anywhere. Where
directives begin, and which texts can be a branch as they stand, is said here without saying how
texts are scanned, and then compared with what scanning does.

Results:
1. `Directive.meets_iff`, `Directive.Begins.of_append`: a word is met exactly where it begins a
   directive, and none begins across the end of a part.
2. `Directive.plain_iff`, `Directive.isBranch_iff`: what scanning copies as it stands.
3. `Directive.opens_of_read`: a test that is read alone is read before a comma.
4. `Directive.text_eq`: the references of a directive.
5. `Registry.expand_directive`: a directive is cut into its parts, and what stands around it is
   copied.
-/

namespace StyleFlags

/-! ## Where directives begin -/

namespace Directive

/-- Whether a directive begins between two parts of a text: a keyword with no word before it and, at
most behind white space, a parenthesis after it. -/
def Begins (before after : List Char) : Prop :=
  (∀ c ∈ before.getLast?, Text.isWord c = false) ∧
    ∃ word ∈ keywords, ∃ gap rest, after = word.toList ++ gap ++ '(' :: rest ∧
      ∀ c ∈ gap, Text.isGap c = true

/-- Whether no directive begins in a text. -/
def Plain (text : List Char) : Prop := ∀ before after, text = before ++ after → ¬Begins before after

theorem keywords_words : ∀ word ∈ keywords, word.toList.head?.any Text.isNameStart = true ∧
    word.toList.all Text.isWord = true := by
  decide

/-- Whether a directive begins with this word between two parts of a text. -/
def BeginsWith (word : String) (before after : List Char) : Prop :=
  (∀ c ∈ before.getLast?, Text.isWord c = false) ∧
    ∃ gap rest, after = word.toList ++ gap ++ '(' :: rest ∧ ∀ c ∈ gap, Text.isGap c = true

theorem begins_iff {before after : List Char} :
    Begins before after ↔ ∃ word ∈ keywords, BeginsWith word before after := by
  constructor
  · rintro ⟨apart, word, listed, begins⟩
    exact ⟨word, listed, apart, begins⟩
  · rintro ⟨word, listed, apart, begins⟩
    exact ⟨apart, word, listed, begins⟩

theorem isWord_of_isGap {c : Char} (gap : Text.isGap c = true) : Text.isWord c = false := by
  simp only [Text.isGap, Bool.or_eq_true, beq_iff_eq] at gap
  rcases gap with (((rfl | rfl) | rfl) | rfl) | rfl <;> rfl

/-- A word is met exactly where it begins a directive. -/
theorem meets_iff {c : Cursor} {word : String}
    (isName : word.toList.head?.any Text.isNameStart = true) :
    c.meets word = true ↔ BeginsWith word c.behind.reverse c.ahead := by
  simp only [Cursor.meets, isName, if_true, Bool.and_eq_true, Bool.not_eq_true', beq_iff_eq,
    BeginsWith, List.getLast?_reverse]
  constructor
  · rintro ⟨spelled, ⟨notBehind, _⟩, opening⟩
    obtain ⟨after, parts⟩ := List.isPrefixOf_iff_prefix.mp spelled
    rw [← parts, List.drop_left] at opening
    obtain ⟨rest, opened⟩ := List.head?_eq_some_iff.mp opening
    refine ⟨fun x isFirst => ?_, after.takeWhile Text.isGap, rest, ?_, fun _ => Text.mem_takeWhile⟩
    · rw [Option.mem_def.mp isFirst] at notBehind
      exact notBehind
    · rw [← opened, List.append_assoc, List.takeWhile_append_dropWhile, parts]
  · rintro ⟨apart, gap, rest, spelled, gaps⟩
    have after : c.ahead.drop word.toList.length = gap ++ '(' :: rest := by
      rw [spelled, List.append_assoc, List.drop_left]
    have isPrefix : word.toList.isPrefixOf c.ahead = true :=
      List.isPrefixOf_iff_prefix.mpr ⟨gap ++ '(' :: rest, by rw [spelled, List.append_assoc]⟩
    have notAfter : (gap ++ '(' :: rest).head?.any Text.isWord = false := by
      cases gap with
      | nil => rfl
      | cons x tail => exact isWord_of_isGap (gaps x List.mem_cons_self)
    have opening : ((gap ++ '(' :: rest).dropWhile Text.isGap).head? = some '(' := by
      rw [List.dropWhile_append_of_pos gaps]
      rfl
    rw [after]
    refine ⟨isPrefix, ⟨?_, notAfter⟩, opening⟩
    cases first : c.behind.head? with
    | none => rfl
    | some x => exact apart x first

/-- A keyword is met only where a directive begins. -/
theorem begins_of_meetsAny? {c : Cursor} {word : String} (met : c.meetsAny? keywords = some word) :
    Begins c.behind.reverse c.ahead := by
  have listed := List.mem_of_find?_eq_some met
  exact begins_iff.mpr ⟨word, listed, (meets_iff (keywords_words word listed).1).mp
    (List.find?_some met)⟩

/-- What stands further behind does not matter. -/
theorem Begins.alone {further before after : List Char} (begins : Begins (further ++ before) after) :
    Begins before after := by
  refine ⟨fun c isLast => begins.1 c ?_, begins.2⟩
  rw [List.getLast?_append, Option.mem_def.mp isLast]
  rfl

/-- Whether the keyword of a directive, with its parenthesis, cannot reach from one text into the
next. -/
def Cut (after rest : List Char) : Prop :=
  ∀ y ∈ rest.head?, y ≠ '(' ∧ Text.isGap y = false ∧
    (Text.isWord y = true → ∀ x ∈ after.getLast?, Text.isWord x = false)

theorem Begins.of_append {before after rest : List Char} (begins : Begins before (after ++ rest))
    (nonempty : after ≠ []) (cut : Cut after rest) : Begins before after := by
  obtain ⟨apart, word, listed, gap, others, spelled, gaps⟩ := begins
  have words := List.all_eq_true.mp (keywords_words word listed).2
  refine ⟨apart, word, listed, gap, ?_⟩
  have parts : (word.toList ++ gap ++ ['(']) ++ others = after ++ rest := by
    rw [spelled]
    simp
  rcases List.append_eq_append_iff.mp parts with ⟨more, inside, _⟩ | ⟨_ | ⟨y, more⟩, inside, behind⟩
  · exact ⟨more, by rw [inside]; simp, gaps⟩
  · exact ⟨[], by simpa using inside.symm, gaps⟩
  · -- The keyword would go on into the next text, from a character that belongs to no word.
    obtain ⟨notOpening, notGap, apart⟩ := cut y (by simp [behind])
    have notBehind : y ∉ gap ++ ['('] := by
      rw [List.mem_append, List.mem_singleton]
      rintro (inGap | isOpening)
      · rw [gaps y inGap] at notGap
        cases notGap
      · exact notOpening isOpening
    rw [List.append_assoc] at inside
    have isWord : Text.isWord y = true := by
      have member : y ∈ word.toList ++ (gap ++ ['(']) := by simp [inside]
      exact words y ((List.mem_append.mp member).resolve_right notBehind)
    rcases List.append_eq_append_iff.mp inside with ⟨middle, _, tail⟩ | ⟨middle, within, _⟩
    · exact absurd (by simp [tail]) notBehind
    · have member : after.getLast nonempty ∈ word.toList := by simp [within]
      have notWord := apart isWord _ (List.getLast?_eq_some_getLast nonempty)
      rw [words _ member] at notWord
      cases notWord

/-- No keyword is met in a text where no directive begins, whatever stands around it. -/
theorem meetsAny?_of_not_begins {before after behind rest : List Char}
    (none : ¬Begins before after) (nonempty : after ≠ []) (cut : Cut after rest) :
    Cursor.meetsAny? ⟨before.reverse ++ behind, after ++ rest⟩ keywords = .none := by
  refine Option.eq_none_iff_forall_ne_some.mpr fun word met => none ?_
  have begins := begins_of_meetsAny? met
  simp only [List.reverse_append, List.reverse_reverse] at begins
  exact begins.alone.of_append nonempty cut

/-- A text is copied up to what follows it, if no stop is met on the way. -/
theorem upToFrom_append {stops : List String} {text behind rest : List Char}
    (unmet : ∀ before after, text = before ++ after → after ≠ [] →
      Cursor.meetsAny? ⟨before.reverse ++ behind, after ++ rest⟩ stops = none) :
    Cursor.upToFrom stops behind (text ++ rest) =
      (text ++ (Cursor.upToFrom stops (text.reverse ++ behind) rest).1,
        (Cursor.upToFrom stops (text.reverse ++ behind) rest).2) := by
  induction text generalizing behind with
  | nil => rfl
  | cons first tail ih =>
    have here : Cursor.meetsAny? ⟨behind, first :: (tail ++ rest)⟩ stops = none :=
      unmet [] (first :: tail) rfl (List.cons_ne_nil _ _)
    have below : ∀ before after, tail = before ++ after → after ≠ [] →
        Cursor.meetsAny? ⟨before.reverse ++ first :: behind, after ++ rest⟩ stops = none := by
      intro before after parts nonempty
      simpa using unmet (first :: before) after (by rw [parts]; rfl) nonempty
    rw [List.cons_append, Cursor.upToFrom_cons_of_none here, ih below]
    simp

/-- A text without a stop is one where no stop is met. -/
theorem upToFrom_eq_none_iff {stops : List String} {text behind : List Char} :
    (Cursor.upToFrom stops behind text).2.1 = none ↔
      ∀ before after, text = before ++ after → after ≠ [] →
        Cursor.meetsAny? ⟨before.reverse ++ behind, after⟩ stops = none := by
  constructor
  · intro found
    induction text generalizing behind with
    | nil =>
      intro before after parts nonempty
      exact absurd (List.append_eq_nil_iff.mp parts.symm).2 nonempty
    | cons first tail ih =>
      intro before after parts nonempty
      cases met : Cursor.meetsAny? ⟨behind, first :: tail⟩ stops with
      | some word => simp [Cursor.upToFrom, met] at found
      | none =>
        rw [Cursor.upToFrom_cons_of_none met] at found
        cases before with
        | nil =>
          rw [List.nil_append] at parts
          rw [← parts]
          exact met
        | cons c before =>
          obtain ⟨rfl, rest⟩ := List.cons.inj parts
          simpa using ih found before after rest nonempty
  · intro unmet
    have copied : Cursor.upToFrom stops behind (text ++ []) = _ :=
      upToFrom_append (by simpa only [List.append_nil] using unmet)
    rw [List.append_nil] at copied
    rw [copied]
    rfl

end Directive

/-! ## Branches -/

namespace Directive

open Cursor

/-- Whether a text can be a branch as it stands: it is closed, and outside of its parentheses and
strings no directive begins and no comma stands, unless commas are allowed. -/
def IsBranch (commas : Bool) (text : List Char) : Prop :=
  Text.Closed text ∧ ∀ before after, text = before ++ after → Text.Closed before →
    ¬Begins before after ∧ (after.head? = some ',' → commas = true)

/-- The marks that end a branch. -/
def branchStops (commas : Bool) : List String := if commas then [")"] else [",", ")"]

theorem meets_mark {mark : String} {m : Char} (spelled : mark.toList = [m])
    (bare : Text.isNameStart m = false) (behind rest : List Char) (x : Char) :
    Cursor.meets ⟨behind, x :: rest⟩ mark = (x == m) := by
  rw [BEq.comm]
  simp [Cursor.meets, spelled, List.isPrefixOf, bare]

theorem meetsAny?_branchStops (commas : Bool) (behind rest : List Char) (x : Char) :
    meetsAny? ⟨behind, x :: rest⟩ (branchStops commas) =
      if x = ',' ∧ commas = false then some "," else if x = ')' then some ")" else none := by
  have comma : Cursor.meets ⟨behind, x :: rest⟩ "," = (x == ',') := meets_mark rfl rfl ..
  have closing : Cursor.meets ⟨behind, x :: rest⟩ ")" = (x == ')') := meets_mark rfl rfl ..
  cases commas with
  | true =>
    simp only [branchStops, if_true, meetsAny?, List.find?_cons, List.find?_nil, closing]
    grind
  | false =>
    simp only [branchStops, meetsAny?, List.find?_cons, List.find?_nil, comma, closing,
      Bool.false_eq_true, if_false]
    grind

/-- Nothing is met in a branch outside of its parentheses and strings. -/
theorem IsBranch.unmet {commas : Bool} {text : List Char} (isBranch : IsBranch commas text)
    (behind : List Char) {rest : List Char} (ends : ∀ y ∈ rest.head?, y = ',' ∨ y = ')') :
    Unmet (branchStops commas) keywords behind text rest := by
  obtain ⟨closed, outside⟩ := isBranch
  intro before after parts nonempty front
  obtain ⟨x, tail, rfl⟩ := List.exists_cons_of_ne_nil nonempty
  obtain ⟨none, comma⟩ := outside before (x :: tail) parts front
  have notClosing : x ≠ ')' := front.head_ne_closing (parts ▸ closed)
  have noMark : meetsAny? ⟨before.reverse ++ behind, x :: (tail ++ rest)⟩ (branchStops commas) =
      .none := by
    rw [meetsAny?_branchStops, if_neg, if_neg notClosing]
    rintro ⟨rfl, refused⟩
    rw [comma rfl] at refused
    cases refused
  have cut : Cut (x :: tail) rest := by
    intro y isHead
    rcases ends y isHead with rfl | rfl
    · exact ⟨by decide, by decide, by rintro ⟨⟩⟩
    · exact ⟨by decide, by decide, by rintro ⟨⟩⟩
  have noWord : meetsAny? ⟨before.reverse ++ behind, x :: (tail ++ rest)⟩ keywords = .none :=
    meetsAny?_of_not_begins none nonempty cut
  rw [List.cons_append, ending?, noMark, noWord]
  rfl

/-- A branch is copied as it stands, up to its mark. -/
theorem IsBranch.piece {commas : Bool} {text : List Char} (isBranch : IsBranch commas text)
    (behind rest : List Char) {mark : Char} {stop : String}
    (met : meetsAny? ⟨text.reverse ++ behind, mark :: rest⟩ (branchStops commas) = some stop) :
    Cursor.piece (branchStops commas) keywords ⟨behind, text ++ mark :: rest⟩ =
      .ok (text, .stop stop, ⟨text.reverse ++ behind, mark :: rest⟩) := by
  have isMark : mark = ',' ∨ mark = ')' := by
    rw [meetsAny?_branchStops] at met
    split at met
    · next isComma => exact .inl isComma.1
    · split at met
      · next isClosing => exact .inr isClosing
      · cases met
  have unmet : Unmet (branchStops commas) keywords behind text (mark :: rest) :=
    isBranch.unmet behind (by rintro y ⟨⟩; exact isMark)
  exact piece_closed isBranch.1 unmet (by simp [ending?, met])

/-! ## Evaluating the conditions on texts -/

/-- A keyword is met where a directive begins. -/
theorem meetsAny?_of_begins {behind ahead : List Char} (begins : Begins behind.reverse ahead) :
    meetsAny? ⟨behind, ahead⟩ keywords ≠ none := by
  obtain ⟨word, listed, begins⟩ := begins_iff.mp begins
  intro none
  exact List.find?_eq_none.mp none word listed
    ((meets_iff (c := ⟨behind, ahead⟩) (keywords_words word listed).1).mpr begins)

theorem not_begins_nil {before : List Char} : ¬Begins before [] := by
  rintro ⟨_, word, _, gap, rest, spelled, _⟩
  simp at spelled

theorem Begins.append {before after : List Char} (begins : Begins before after) (more : List Char) :
    Begins before (after ++ more) := by
  obtain ⟨apart, word, listed, gap, rest, rfl, gaps⟩ := begins
  exact ⟨apart, word, listed, gap, rest ++ more, by simp, gaps⟩

/-- A text without a directive is copied to its end. -/
theorem upTo_plain {text : List Char} (plain : Plain text) (behind : List Char) :
    ∃ d, Cursor.upTo keywords ⟨behind, text⟩ = (text, none, d) := by
  have unmet : ∀ before after, text = before ++ after → after ≠ [] →
      meetsAny? ⟨before.reverse ++ behind, after ++ []⟩ keywords = none := by
    intro before after parts nonempty
    exact meetsAny?_of_not_begins (plain before after parts) nonempty (by rintro y ⟨⟩)
  have copied := upToFrom_append unmet
  simp only [List.append_nil, upToFrom] at copied
  exact ⟨_, copied⟩

theorem plain_iff {text : List Char} :
    Plain text ↔ (Cursor.upTo keywords ⟨[], text⟩).2.1 = none := by
  constructor
  · intro plain
    obtain ⟨d, copied⟩ := upTo_plain plain []
    rw [copied]
  · intro found before after parts begins
    have unmet := upToFrom_eq_none_iff.mp found before after parts
    rw [← List.reverse_reverse before] at begins
    refine meetsAny?_of_begins begins ?_
    rw [← List.append_nil before.reverse]
    refine unmet ?_
    rintro rfl
    exact not_begins_nil begins

theorem isBranch_iff {commas : Bool} {text : List Char} :
    IsBranch commas text ↔
      (Cursor.piece (branchStops commas) keywords ⟨[], text ++ [')']⟩).toOption.map
        (fun found => (found.1, found.2.1)) = some (text, .stop ")") := by
  have closing (behind rest : List Char) :
      meetsAny? ⟨behind, ')' :: rest⟩ (branchStops commas) = some ")" := by
    rw [meetsAny?_branchStops, if_neg (by simp), if_pos rfl]
  constructor
  · intro isBranch
    rw [isBranch.piece [] [] (closing _ _)]
    rfl
  · intro scanned
    obtain ⟨⟨copied, ending, d⟩, found, same⟩ := Option.map_eq_some_iff.mp scanned
    obtain ⟨rfl, rfl⟩ : copied = text ∧ ending = .stop ")" := by simpa using same
    have found : Cursor.piece (branchStops commas) keywords ⟨[], copied ++ [')']⟩ =
        .ok (copied, .stop ")", d) := eq_ok_of_toOption found
    have unmet := unmet_of_pieceFrom found
    refine ⟨leftBy_of_pieceFrom (by simp [closing]) found Ending.noConfusion, ?_⟩
    intro before after parts closed
    cases after with
    | nil => exact ⟨not_begins_nil, by rintro ⟨⟩⟩
    | cons x tail =>
      have none := unmet before (x :: tail) parts (List.cons_ne_nil _ _) closed
      simp only [ending?, Option.or_eq_none_iff, Option.map_eq_none_iff] at none
      refine ⟨fun begins => meetsAny?_of_begins ?_ none.2, ?_⟩
      · simpa using begins.append [')']
      · rintro ⟨⟩
        have noMark := none.1
        rw [List.cons_append, meetsAny?_branchStops] at noMark
        cases commas with
        | true => rfl
        | false => simp at noMark

instance (text : List Char) : Decidable (Plain text) := decidable_of_iff _ plain_iff.symm

instance (commas : Bool) (text : List Char) : Decidable (IsBranch commas text) :=
  decidable_of_iff _ isBranch_iff.symm

/-! ## Tests -/

/-- The word of a directive with its parenthesis, a test and a comma are its head, however the text
goes on. -/
theorem opens_of_read {test : String} {t : Condition} (accepted : Condition.read test = .ok t)
    (behind rest : List Char) :
    Opens ⟨behind, 'i' :: 'f' :: '(' :: (test.toList ++ ',' :: rest)⟩ t
      ⟨',' :: (test.toList.reverse ++ '(' :: 'f' :: 'i' :: behind), rest⟩ := by
  obtain ⟨d, condition, ended⟩ := Condition.read_eq_ok_iff.mp accepted
  let inside : Cursor := ⟨'(' :: 'f' :: 'i' :: behind, test.toList ++ ',' :: rest⟩
  have longer : Extends (inside.behind.reverse ++ test.toList) (',' :: rest) (.start test) inside :=
    ⟨rfl, rfl, rfl⟩
  obtain ⟨d', condition', longer⟩ :=
    Condition.conditionAt_extends condition (.inr ⟨ended, rfl⟩) longer
  obtain ⟨comma, e, third, isComma, rfl⟩ := longer.next_comma ended
  have word (offset : Nat) : Lexeme ['i', 'f'] ⟨.identifier, "if", false, offset⟩
      ('(' :: (test.toList ++ ',' :: rest)) :=
    .word rfl (forall_of_all (by decide)) (Text.ends_cons.mpr rfl)
  have opening (offset : Nat) : Lexeme ['('] ⟨.operator .openParen, "(", false, offset⟩
      (test.toList ++ ',' :: rest) := .symbol .openParen rfl
  refine ⟨_, ⟨'f' :: 'i' :: behind, '(' :: (test.toList ++ ',' :: rest)⟩, _, inside, d', comma,
    next_iff.mpr ⟨[], ['i', 'f'], _, rfl, by simp, word _, rfl, rfl⟩, rfl, rfl,
    next_iff.mpr ⟨[], ['('], _, rfl, by simp, opening _, rfl, rfl⟩, rfl, condition', ?_, isComma⟩
  simpa [inside] using third

/-! ## References -/

/-- The custom property that guards a branch of a test: for a junction a prepared value named after
the test, and else the flag of the condition of the branch. -/
def guardOf (stem : String) (test branch : Condition) : String :=
  if test.nnf.isJunction then stem ++ test.nnf.name else branch.nnf.name

theorem guardName_eq {v : Condition.Vocabulary} {d : Directive} (stem : String) {branch : Condition}
    (shaped : branch.Shaped v) (isOpen : branch.literal? = none)
    (sameKind : branch.isJunction = d.test.isJunction) :
    d.guardName stem (branch.nnf.dnf true) = .ok (guardOf stem d.test branch) := by
  unfold guardName guardOf normal
  split
  · rfl
  · next single =>
    have isSingle : branch.nnf.isJunction = false := by
      simpa [sameKind] using single
    have isNormal := Condition.isNnf_nnf shaped
    rw [Condition.dnf_of_single shaped.nnf isNormal isSingle]
    obtain ⟨f, isFact⟩ := Condition.exists_fact shaped.nnf isNormal
      ((Condition.literal?_nnf _).trans isOpen) isSingle
    rw [isFact, f.ofCondition?_condition, f.name_condition]

/-- A single condition is negated before or after its normal form is taken. -/
theorem nnf_negate_nnf {v : Condition.Vocabulary} {c : Condition} (shaped : c.Shaped v)
    (single : c.isJunction = false) : c.nnf.negate.nnf = c.negate.nnf := by
  cases c with
  | property negated name => simp [Condition.nnf_property, Condition.negate]
  | literal negated l => simp [Condition.nnf_literal, Condition.negate]
  | binary negated op left right =>
    cases op with
    | junction op => cases single
    | compare op =>
      obtain ⟨⟨name, rfl, _⟩, operand⟩ := shaped
      cases negated <;> simp [Condition.nnf, Condition.negate, operand.nnf_eq, Comparison.dual_dual]

theorem text_eq {v : Condition.Vocabulary} {t : Condition} (shaped : t.Shaped v)
    (isOpen : t.literal? = none)
    (consequent alternate : String) :
    text ⟨t, consequent, none⟩ = .ok (referenceOr (guardOf "if-" t t) consequent) ∧
    text ⟨t, consequent, some alternate⟩ = .ok (referenceOr (guardOf "if-" t t) consequent ++ " " ++
      referenceOr (guardOf "else-" t t.negate) alternate) := by
  have constant : t.constant? = none := Condition.constant?_eq_none.mpr isOpen
  have positive (a : Option String) :
      guardName ⟨t, consequent, a⟩ "if-" (positive ⟨t, consequent, a⟩) =
        .ok (guardOf "if-" t t) := guardName_eq "if-" shaped isOpen rfl
  have negative (a : Option String) :
      guardName ⟨t, consequent, a⟩ "else-" (negative ⟨t, consequent, a⟩) =
        .ok (guardOf "else-" t t.negate) := by
    cases junction : t.isJunction with
    | true =>
      have isJunction : t.nnf.isJunction = true := (t.isJunction_nnf).trans junction
      rw [guardName, guardOf, normal, if_pos isJunction, if_pos isJunction]
    | false =>
      have denied := guardName_eq (d := ⟨t, consequent, a⟩) "else-" shaped.negate
        (Condition.literal?_negate_eq_none.mpr isOpen) t.isJunction_negate
      rwa [← nnf_negate_nnf shaped junction] at denied
  constructor
  · rw [text, constant, positive]
    rfl
  · rw [text, constant, positive, negative]
    rfl

/-! ## Directives between plain texts -/

theorem meetsAny?_if {behind rest : List Char} (apart : behind.head?.any Text.isWord = false) :
    meetsAny? ⟨behind, 'i' :: 'f' :: '(' :: rest⟩ keywords = some "if" := by
  have met : Cursor.meets ⟨behind, 'i' :: 'f' :: '(' :: rest⟩ "if" = true := by
    show (true && (!behind.head?.any Text.isWord && true && true)) = true
    rw [apart]
    rfl
  rw [meetsAny?, keywords, List.find?_cons, met]

/-- Up to a directive, a text without one is copied. -/
theorem upTo_if {before rest : List Char} (plain : Plain before)
    (apart : ∀ c ∈ before.getLast?, Text.isWord c = false) :
    Cursor.upTo keywords ⟨[], before ++ 'i' :: 'f' :: '(' :: rest⟩ =
      (before, some "if", ⟨before.reverse, 'i' :: 'f' :: '(' :: rest⟩) := by
  have unmet : ∀ front after, before = front ++ after → after ≠ [] →
      meetsAny? ⟨front.reverse ++ [], after ++ 'i' :: 'f' :: '(' :: rest⟩ keywords = none := by
    intro front after parts nonempty
    refine meetsAny?_of_not_begins (plain front after parts) nonempty ?_
    rintro y ⟨⟩
    refine ⟨by decide, by decide, fun _ x isLast => apart x ?_⟩
    rw [parts, List.getLast?_append, Option.mem_def.mp isLast]
    rfl
  have found : meetsAny? ⟨before.reverse, 'i' :: 'f' :: '(' :: rest⟩ keywords = some "if" := by
    refine meetsAny?_if ?_
    rw [List.head?_reverse]
    cases last : before.getLast? with
    | none => rfl
    | some c => exact apart c last
  rw [Cursor.upTo, upToFrom_append unmet, List.append_nil]
  simp only [upToFrom, found, List.append_nil]

theorem expand_between {before after rest behind out : List Char} {ds : List Directive}
    (plain : Plain before) (apart : ∀ c ∈ before.getLast?, Text.isWord c = false)
    (plainAfter : Plain after)
    (expands : Expands .directive ⟨before.reverse, 'i' :: 'f' :: '(' :: rest⟩ ds out ⟨behind, after⟩)
    {source : String} (spelled : source.toList = before ++ 'i' :: 'f' :: '(' :: rest) :
    expand source = ⟨ds, .ok (String.ofList (before ++ out ++ after))⟩ := by
  obtain ⟨_, expanded⟩ := expands.runs
  obtain ⟨d, copied⟩ := upTo_plain plainAfter behind
  have start : (Cursor.start source).upTo keywords =
      (before, some "if", ⟨before.reverse, 'i' :: 'f' :: '(' :: rest⟩) := by
    rw [Cursor.start, spelled, upTo_if plain apart]
  rw [expand_eq, expandFrom_of_ok start expanded, expandFrom_of_none copied]
  simp [resume, Except.map]

section Parts

variable {test : String} {t : Condition} {consequent alternate : List Char}

theorem expands_one_branch (accepted : Condition.read test = .ok t) (isOpen : t.literal? = none)
    (first : IsBranch false consequent) (behind after : List Char) :
    ∃ d, Expands .directive
      ⟨behind, 'i' :: 'f' :: '(' :: (test.toList ++ ',' :: (consequent ++ ')' :: after))⟩
      [⟨t, branch consequent, none⟩]
      (referenceOr (guardOf "if-" t t) (branch consequent)).toList ⟨d, after⟩ := by
  obtain ⟨_, ⟨_, condition⟩, _⟩ := Condition.read_eq_ok_iff.mp accepted
  have written := text_eq (Condition.readAt_shaped condition) isOpen (branch consequent) ""
  have inside := first.piece (',' :: (test.toList.reverse ++ '(' :: 'f' :: 'i' :: behind)) after
    (meetsAny?_branchStops false _ after ')')
  exact ⟨_, .single (opens_of_read accepted behind _) (.ended inside) (by decide) written.1⟩

theorem expands_two_branches (accepted : Condition.read test = .ok t) (isOpen : t.literal? = none)
    (first : IsBranch false consequent) (second : IsBranch true alternate)
    (behind after : List Char) :
    ∃ d, Expands .directive
      ⟨behind, 'i' :: 'f' :: '(' :: (test.toList ++ ',' :: (consequent ++ ',' :: (alternate ++
        ')' :: after)))⟩
      [⟨t, branch consequent, some (branch alternate)⟩]
      (referenceOr (guardOf "if-" t t) (branch consequent) ++ " " ++
        referenceOr (guardOf "else-" t t.negate) (branch alternate)).toList ⟨d, after⟩ := by
  obtain ⟨_, ⟨_, condition⟩, _⟩ := Condition.read_eq_ok_iff.mp accepted
  have written := text_eq (Condition.readAt_shaped condition) isOpen (branch consequent)
    (branch alternate)
  have inside := first.piece (',' :: (test.toList.reverse ++ '(' :: 'f' :: 'i' :: behind))
    (alternate ++ ')' :: after) (meetsAny?_branchStops false _ _ ',')
  have other := second.piece (',' :: (consequent.reverse ++
    ',' :: (test.toList.reverse ++ '(' :: 'f' :: 'i' :: behind))) after
    (meetsAny?_branchStops true _ after ')')
  exact ⟨_, .double (opens_of_read accepted behind _) (.ended inside) (.ended other) written.2⟩

end Parts

end Directive

/-! ## Registries -/

namespace Registry

open Directive

/-- A directive between texts without one is replaced by references to the guards of its branches,
with the branches as they stand behind the commas, trimmed, for fallbacks. The texts around it are
copied, and what the directive needs is added. -/
theorem expand_directive (r : Registry) {before test consequent alternate after : String}
    {t : Condition} (accepted : Condition.read test = .ok t) (isOpen : t.literal? = none)
    (first : IsBranch false consequent.toList) (second : IsBranch true alternate.toList)
    (plain : Plain before.toList) (apart : ∀ c ∈ before.toList.getLast?, Text.isWord c = false)
    (plainAfter : Plain after.toList) :
    r.expand (before ++ "if(" ++ test ++ "," ++ consequent ++ "," ++ alternate ++ ")" ++ after) =
      (.ok (before ++ "var(--" ++ guardOf "if-" t t ++ "," ++ branch consequent.toList ++
          ") var(--" ++ guardOf "else-" t t.negate ++ "," ++ branch alternate.toList ++ ")" ++ after),
        r.addDirective ⟨t, branch consequent.toList, some (branch alternate.toList)⟩) ∧
    r.expand (before ++ "if(" ++ test ++ "," ++ consequent ++ ")" ++ after) =
      (.ok (before ++ "var(--" ++ guardOf "if-" t t ++ "," ++ branch consequent.toList ++ ")" ++
          after),
        r.addDirective ⟨t, branch consequent.toList, none⟩) := by
  constructor
  · obtain ⟨d, expands⟩ := expands_two_branches accepted isOpen first second before.toList.reverse
      after.toList
    rw [expand, expand_between plain apart plainAfter expands (by simp)]
    refine Prod.ext (congrArg Except.ok (String.toList_injective ?_)) rfl
    simp [referenceOr]
  · obtain ⟨d, expands⟩ := expands_one_branch accepted isOpen first before.toList.reverse after.toList
    rw [expand, expand_between plain apart plainAfter expands (by simp)]
    refine Prod.ext (congrArg Except.ok (String.toList_injective ?_)) rfl
    simp [referenceOr]

/-- `a && n > 2`. -/
def exBounded : Condition :=
  .binary false (.junction .and) (.property false "a")
    (.binary false (.compare .gt) (.property false "n") (.literal false ⟨.number, "2"⟩))

/-- Both branches hold marks within parentheses and strings, and the second a comma outside of them.
The words `if` stand before no parenthesis. -/
theorem expand_directive_exBounded :
    exEmpty.expand ("content: '→'; font: " ++ "if(" ++ "a && n > 2 " ++ "," ++
        " calc(1px, (2px)) « if " ++ "," ++ "ü, 'x,)'\n" ++ ")" ++ "; if") =
      (.ok ("content: '→'; font: " ++ "var(--if-a∧∣n⋗2∣,calc(1px, (2px)) « if) " ++
          "var(--else-a∧∣n⋗2∣,ü, 'x,)')" ++ "; if"),
        exEmpty.addDirective ⟨exBounded, "calc(1px, (2px)) « if", some "ü, 'x,)'"⟩) := by
  have accepted : Condition.read "a && n > 2 " = .ok exBounded :=
    eq_ok_of_toOption (by decide +kernel)
  have apart : ∀ c ∈ "content: '→'; font: ".toList.getLast?, Text.isWord c = false := by
    rintro c ⟨⟩
    decide
  have plain : Plain "content: '→'; font: ".toList := by decide +kernel
  have first : IsBranch false " calc(1px, (2px)) « if ".toList := by decide +kernel
  have second : IsBranch true "ü, 'x,)'\n".toList := by decide +kernel
  have plainAfter : Plain "; if".toList := by decide +kernel
  have consequent : branch " calc(1px, (2px)) « if ".toList = "calc(1px, (2px)) « if" := by
    decide +kernel
  have alternate : branch "ü, 'x,)'\n".toList = "ü, 'x,)'" := by decide +kernel
  have expanded := (expand_directive exEmpty accepted rfl first second plain apart plainAfter).1
  rw [consequent, alternate] at expanded
  exact expanded.trans (Prod.ext (congrArg Except.ok (by decide +kernel)) rfl)

end Registry

end StyleFlags
