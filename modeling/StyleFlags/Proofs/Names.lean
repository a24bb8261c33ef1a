import StyleFlags.Proofs.Separated
import StyleFlags.Proofs.Source

/-!
# Names tell texts and facts apart

A decoder reads the text back from its spelling: a glyph stands for its
operator, a backslash for the character behind it or for a hexadecimal code.
Property names and numerals hold no operator, so a glyph in the name of a fact
can only be the one that separates the property from its operand.

Results:
1. `decodes_escapeChars`: a spelling is made of pieces that each stand for a part of the
   text; so it reads back (`unescape_escape`), and no two texts have the same spelling.
2. `escaped_escapeChars`, `Condition.escaped_name`: a special character stands in a
   spelling behind a backslash only, and so does a quote of the text; so a name holds no
   separator of declarations (`Condition.spelled_name`).
3. `Fact.ofName_name`: the name of a fact about what a source can write reads back,
   so no two of them have the same name.
-/

namespace StyleFlags.Name

/-! ## Decoding -/

/-- What the decoder has read last. -/
inductive Decoding where
  | plain
  | escaped
  | code (value : Nat)

/-- The texts that glyphs stand for. -/
def glyphTexts : List (Char × List Char) :=
  [('⋁', ['|', '|']), ('∧', ['&', '&']), ('≡', ['=', '=']), ('≠', ['!', '=']), ('⋜', ['<', '=']),
    ('⋝', ['>', '=']), (negation, ['!']), ('⋖', ['<']), ('⋗', ['>']), (blank, [' '])]

/-- The text that a character of a spelling stands for when no backslash is before it. -/
def glyphText (c : Char) : List Char := (glyphTexts.lookup c).getD [c]

/-- The value of a hexadecimal digit. -/
def hexDigit? (c : Char) : Option Nat := (List.range 16).find? fun n => Nat.digitChar n = c

/-- Whether a style sheet takes a character behind a backslash as a digit of a code. -/
def isHex (c : Char) : Bool := "0123456789abcdefABCDEF".toList.contains c

/-- Reads the text back from its spelling. -/
def unescapeFrom : Decoding → List Char → List Char
  | _, [] => []
  | .plain, c :: rest =>
    if c = '\\' then unescapeFrom .escaped rest else glyphText c ++ unescapeFrom .plain rest
  | .escaped, c :: rest =>
    match hexDigit? c with
    | some n => unescapeFrom (.code n) rest
    | none => c :: unescapeFrom .plain rest
  | .code value, c :: rest =>
    match hexDigit? c with
    | some n => unescapeFrom (.code (16 * value + n)) rest
    | none => Char.ofNat value :: unescapeFrom .plain rest

def unescape (name : String) : String := String.ofList (unescapeFrom .plain name.toList)

theorem hexDigit?_digitChar {n : Nat} (small : n < 16) : hexDigit? n.digitChar = some n := by
  have all : ∀ n < 16, hexDigit? (Nat.digitChar n) = some n := by decide
  exact all n small

theorem hexDigit?_eq_none {c : Char} (noDigit : isHex c = false) : hexDigit? c = none := by
  have digits : ∀ n ∈ List.range 16, isHex (Nat.digitChar n) = true := by decide
  refine List.find?_eq_none.mpr fun n inRange isDigit => ?_
  rw [← of_decide_eq_true isDigit, digits n inRange] at noDigit
  cases noDigit

theorem unescapeFrom_code {n : Nat} (small : n < 256) (rest : List Char) :
    unescapeFrom .escaped (Nat.toDigits 16 n ++ ' ' :: rest) =
      Char.ofNat n :: unescapeFrom .plain rest := by
  have blank : hexDigit? ' ' = none := by decide
  by_cases oneDigit : n < 16
  · rw [Nat.toDigits_of_lt_base oneDigit]
    simp [unescapeFrom, hexDigit?_digitChar oneDigit, blank]
  · rw [Nat.toDigits_of_base_le (by decide) (by omega), Nat.toDigits_of_lt_base (by omega)]
    have high := hexDigit?_digitChar (n := n / 16) (by omega)
    have low := hexDigit?_digitChar (n := n % 16) (by omega)
    simp [unescapeFrom, high, low, blank, Nat.div_add_mod]

theorem isAlphanum_of_mem_toDigits {n : Nat} {x : Char} (small : n < 256)
    (member : x ∈ Nat.toDigits 16 n) : x.isAlphanum = true := by
  have digits : ∀ d < 16, (Nat.digitChar d).isAlphanum = true := by decide
  by_cases oneDigit : n < 16
  · rw [Nat.toDigits_of_lt_base oneDigit, List.mem_singleton] at member
    rw [member]
    exact digits n oneDigit
  · rw [Nat.toDigits_of_base_le (by decide) (by omega), Nat.toDigits_of_lt_base (by omega),
      List.singleton_append, List.mem_cons, List.mem_singleton] at member
    rcases member with rfl | rfl
    · exact digits _ (by omega)
    · exact digits _ (by omega)

theorem isHex_eq_false {c : Char} (noWord : c.isAlphanum = false) : isHex c = false := by
  have words : ∀ d ∈ "0123456789abcdefABCDEF".toList, d.isAlphanum = true :=
    forall_of_all (by decide)
  refine eq_false_of_ne_true fun isDigit => ?_
  rw [words c (List.contains_iff_mem.mp isDigit)] at noWord
  cases noWord

/-! ## The spelling of a character -/

/-- The characters that operators and spaces are made of. -/
def operatorChars : List Char := ['|', '&', '=', '!', '<', '>', ' ']

/-- A character that stands in a name without a backslash: a word character, a hyphen, or anything
beyond ASCII. -/
def Bare (c : Char) : Prop := c.isAlphanum = true ∨ c = '-' ∨ c = '_' ∨ 0x80 ≤ c.toNat

/-- Whether a character stands in a name behind a backslash only. A space is none of these, as it
closes a hexadecimal code. -/
def isSpecial (c : Char) : Bool :=
  c.toNat < 0x80 && !c.isAlphanum && !(['-', '_', ' '].contains c)

/-- Characters that all stand in a name behind a backslash only. -/
def Special (stops : List Char) : Prop := ∀ s ∈ stops, isSpecial s = true

/-- Characters that stand in the spelling of a text behind a backslash only. A quote is one of them, but
stands bare in the name of a string. -/
def Hidden (stops : List Char) : Prop := ∀ s ∈ stops, isSpecial s = true ∨ s = quote

theorem special_separators : Special separators := forall_of_all (by decide)

theorem Special.hidden {stops : List Char} (special : Special stops) : Hidden stops :=
  fun s member => .inl (special s member)

theorem hidden_quote : Hidden [quote] := fun _ member => .inr (List.mem_singleton.mp member)

theorem Bare.isSpecial_eq_false {c : Char} (bare : Bare c) : isSpecial c = false := by
  rcases bare with alphanumeric | rfl | rfl | high
  · simp [isSpecial, alphanumeric]
  · decide
  · decide
  · have : ¬c.toNat < 0x80 := by omega
    simp [isSpecial, this]

theorem Bare.ne_backslash {c : Char} (bare : Bare c) : c ≠ '\\' := by
  rintro rfl
  exact absurd bare.isSpecial_eq_false (by decide)

theorem Hidden.notMem {stops : List Char} (hidden : Hidden stops) {c : Char} (bare : Bare c)
    (noQuote : c ≠ quote) : c ∉ stops := by
  intro member
  rcases hidden c member with special | isQuote
  · rw [bare.isSpecial_eq_false] at special
    cases special
  · exact noQuote isQuote

theorem bare_of_mem_glyphs {c : Char} (member : c ∈ glyphs) : Bare c := by
  have all : ∀ g ∈ glyphs, 0x80 ≤ g.toNat := forall_of_all (by decide)
  exact .inr (.inr (.inr (all c member)))

theorem Bare.escaped {stops : List Char} {c : Char} (bare : Bare c) (apart : c ∉ stops) :
    Escaped stops [c] :=
  .plain apart bare.ne_backslash .nil

theorem escaped_of_isAlphanum {stops : List Char} (hidden : Hidden stops) {l : List Char}
    (alphanumeric : ∀ c ∈ l, c.isAlphanum = true) : Escaped stops l := by
  induction l with
  | nil => exact .nil
  | cons c rest ih =>
    obtain ⟨head, tail⟩ := List.forall_mem_cons.mp alphanumeric
    have noQuote : c ≠ quote := by
      rintro rfl
      cases head
    exact .plain (hidden.notMem (.inl head) noQuote) (Bare.ne_backslash (.inl head)) (ih tail)

theorem escaped_glyph {stops : List Char} (special : Special stops) {g : Char}
    (isGlyph : g ∈ glyphs) : Escaped stops [g] := by
  have bare := bare_of_mem_glyphs isGlyph
  refine bare.escaped fun member => ?_
  have isSpecial := special g member
  rw [bare.isSpecial_eq_false] at isSpecial
  cases isSpecial

theorem toNat_of_isAlpha {c : Char} (alpha : c.isAlpha = true) :
    65 ≤ c.toNat ∧ c.toNat ≤ 122 := by
  delta Char.isAlpha Char.isUpper Char.isLower at alpha
  simp only [Bool.or_eq_true, Bool.and_eq_true, decide_eq_true_eq, ge_iff_le,
    UInt32.le_iff_toNat_le] at alpha
  have value : c.toNat = c.val.toNat := rfl
  simp at alpha
  omega

theorem toNat_of_isDigit {c : Char} (digit : c.isDigit = true) : 48 ≤ c.toNat ∧ c.toNat ≤ 57 := by
  delta Char.isDigit at digit
  simp only [Bool.and_eq_true, decide_eq_true_eq, ge_iff_le, UInt32.le_iff_toNat_le] at digit
  have value : c.toNat = c.val.toNat := rfl
  simp at digit
  omega

theorem toNat_lt_of_isAlphanum {c : Char} (alphanumeric : c.isAlphanum = true) :
    c.toNat < 0x80 := by
  delta Char.isAlphanum at alphanumeric
  rcases (Bool.or_eq_true _ _).mp alphanumeric with alpha | digit
  · have := toNat_of_isAlpha alpha
    omega
  · have := toNat_of_isDigit digit
    omega

theorem notMem_glyphs_of_lt {c : Char} (ascii : c.toNat < 0x80) : c ∉ glyphs := by
  have above : ∀ g ∈ glyphs, 0x80 ≤ g.toNat := forall_of_all (by decide)
  intro member
  have := above c member
  omega

theorem mem_glyphs_of_mem_glyphTexts {g : Char} {text : List Char}
    (entry : (g, text) ∈ glyphTexts) : g ∈ glyphs := by
  have all : ∀ e ∈ glyphTexts, e.1 ∈ glyphs := by decide
  exact all _ entry

theorem glyphText_of_notMem {c : Char} (plain : c ∉ glyphs) : glyphText c = [c] := by
  have missing : glyphTexts.lookup c = none := by
    refine List.lookup_eq_none_iff.mpr fun e member => ?_
    refine bne_iff_ne.mpr ?_
    rintro rfl
    exact plain (mem_glyphs_of_mem_glyphTexts member)
  rw [glyphText, missing]
  rfl

theorem toNat_lt_of_isControl {c : Char} (control : isControl c = true) : c.toNat < 256 := by
  simp only [isControl, Bool.or_eq_true, Bool.and_eq_true, decide_eq_true_eq] at control
  omega

/-! ## The pieces of a spelling -/

/-- A piece of a spelling and the text that it stands for. -/
inductive Piece : List Char → List Char → Prop
  | glyph {g : Char} {text : List Char} : (g, text) ∈ glyphTexts → Piece [g] text
  | bare {c : Char} : Bare c → c ∉ glyphs → Piece [c] [c]
  | code {c : Char} : isControl c = true → Piece ('\\' :: Nat.toDigits 16 c.toNat ++ [' ']) [c]
  | escaped {c : Char} : isHex c = false → isControl c = false → Piece ['\\', c] [c]

/-- A spelling cut into its pieces, and the text that they stand for. -/
inductive Decodes : List Char → List Char → Prop
  | nil : Decodes [] []
  | cons {piece part name text : List Char} : Piece piece part → Decodes name text →
      Decodes (piece ++ name) (part ++ text)

theorem piece_escapeChar (c : Char) : Piece (escapeChar c) [c] := by
  unfold escapeChar
  split
  · next isBlank =>
    subst isBlank
    exact .glyph (by decide)
  split
  · next isWord =>
    simp only [Bool.or_eq_true, decide_eq_true_eq] at isWord
    rcases isWord with (alphanumeric | rfl) | rfl
    · exact .bare (.inl alphanumeric) (notMem_glyphs_of_lt (toNat_lt_of_isAlphanum alphanumeric))
    · exact .bare (.inr (.inl rfl)) (by decide)
    · exact .bare (.inr (.inr (.inl rfl))) (by decide)
  next notWord =>
  split
  · next control => exact .code control
  next notControl =>
  split
  · next isOther =>
    simp only [Bool.and_eq_true, decide_eq_true_eq, Bool.not_eq_true', List.contains_eq_mem,
      decide_eq_false_iff_not] at isOther
    exact .bare (.inr (.inr (.inr isOther.1))) isOther.2
  unfold charGlyph?
  split
  · next found => split at found <;> cases found <;> exact .glyph (by decide)
  · simp only [Bool.or_eq_true, not_or, Bool.not_eq_true] at notWord
    exact .escaped (isHex_eq_false notWord.1.1) (eq_false_of_ne_true notControl)

theorem piece_of_pairGlyph? {c d g : Char} (found : pairGlyph? c d = some g) :
    Piece [g] [c, d] := by
  unfold pairGlyph? at found
  split at found <;> cases found <;> exact .glyph (by decide)

/-- The spelling of a text decodes to the text: the operators that are two characters long are the
pieces that stand for more than one. -/
theorem decodes_escapeChars (l : List Char) : Decodes (escapeChars l) l := by
  induction l using escapeChars.induct with
  | case1 => exact .nil
  | case2 c =>
    have single := Decodes.cons (piece_escapeChar c) .nil
    rwa [List.append_nil] at single
  | case3 c d rest g found ih =>
    rw [escapeChars, found]
    exact .cons (piece_of_pairGlyph? found) ih
  | case4 c d rest missing ih =>
    rw [escapeChars, missing]
    exact .cons (piece_escapeChar c) ih

namespace Piece

variable {piece part : List Char}

theorem unescapeFrom_append (cut : Piece piece part) (rest : List Char) :
    unescapeFrom .plain (piece ++ rest) = part ++ unescapeFrom .plain rest := by
  cases cut with
  | glyph entry =>
    have reads : ∀ e ∈ glyphTexts, glyphText e.1 = e.2 := by decide
    have bare := bare_of_mem_glyphs (mem_glyphs_of_mem_glyphTexts entry)
    rw [List.singleton_append, unescapeFrom, if_neg bare.ne_backslash, reads _ entry]
  | bare bare noGlyph =>
    rw [List.singleton_append, unescapeFrom, if_neg bare.ne_backslash, glyphText_of_notMem noGlyph]
  | code control =>
    rw [List.cons_append, List.cons_append, List.append_assoc, unescapeFrom, if_pos rfl,
      List.singleton_append, unescapeFrom_code (toNat_lt_of_isControl control), Char.ofNat_toNat,
      List.singleton_append]
  | escaped noDigit _ => simp [unescapeFrom, hexDigit?_eq_none noDigit]

theorem escaped_of {stops : List Char} (hidden : Hidden stops) (cut : Piece piece part) :
    Escaped stops piece := by
  cases cut with
  | @glyph g text entry =>
    have noQuote : ∀ e ∈ glyphTexts, e.1 ≠ quote := by decide
    have bare := bare_of_mem_glyphs (mem_glyphs_of_mem_glyphTexts entry)
    exact bare.escaped (hidden.notMem bare (noQuote _ entry))
  | bare bare noGlyph =>
    refine bare.escaped (hidden.notMem bare ?_)
    rintro rfl
    exact noGlyph (by decide)
  | @code c control =>
    have digits : ∀ x ∈ Nat.toDigits 16 c.toNat, x.isAlphanum = true :=
      fun x member => isAlphanum_of_mem_toDigits (toNat_lt_of_isControl control) member
    cases found : Nat.toDigits 16 c.toNat with
    | nil => exact absurd found Nat.toDigits_ne_nil
    | cons d more =>
      rw [found] at digits
      obtain ⟨first, others⟩ := List.forall_mem_cons.mp digits
      have sameLine : d ≠ '\n' := by
        rintro rfl
        cases first
      refine .escaped sameLine (Escaped.append (escaped_of_isAlphanum hidden others) ?_)
      refine .plain (fun member => ?_) (by decide) .nil
      rcases hidden ' ' member with special | isQuote
      · exact absurd special (by decide)
      · exact absurd isQuote (by decide)
  | escaped _ notControl =>
    refine .escaped ?_ .nil
    rintro rfl
    cases notControl

theorem notMem_glyphs (cut : Piece piece part)
    (plain : ∀ c ∈ part, c ∉ operatorChars ∧ c ∉ glyphs) : ∀ x ∈ piece, x ∉ glyphs := by
  cases cut with
  | @glyph g text entry =>
    -- every glyph of the table stands for operators
    have operators : ∀ e ∈ glyphTexts, e.2.any operatorChars.contains = true := by decide
    obtain ⟨c, member, isOperator⟩ := List.any_eq_true.mp (operators _ entry)
    exact absurd (List.contains_iff_mem.mp isOperator) (plain c member).1
  | bare _ noGlyph => exact List.forall_mem_singleton.mpr noGlyph
  | code control =>
    intro x member
    simp only [List.cons_append, List.mem_cons, List.mem_append, List.not_mem_nil, or_false]
      at member
    rcases member with rfl | digit | rfl
    · decide
    · exact notMem_glyphs_of_lt (toNat_lt_of_isAlphanum
        (isAlphanum_of_mem_toDigits (toNat_lt_of_isControl control) digit))
    · decide
  | @escaped c _ _ =>
    intro x member
    rcases List.mem_cons.mp member with rfl | member
    · decide
    · rw [List.mem_singleton.mp member]
      exact (plain c List.mem_cons_self).2

end Piece

namespace Decodes

variable {name text : List Char}

/-- No spelling stands for two texts. -/
theorem unescapeFrom_eq (decodes : Decodes name text) : unescapeFrom .plain name = text := by
  induction decodes with
  | nil => rfl
  | cons cut _ ih => rw [cut.unescapeFrom_append, ih]

theorem escaped_of {stops : List Char} (hidden : Hidden stops) (decodes : Decodes name text) :
    Escaped stops name := by
  induction decodes with
  | nil => exact .nil
  | cons cut _ ih => exact (cut.escaped_of hidden).append ih

theorem notMem_glyphs (decodes : Decodes name text)
    (plain : ∀ c ∈ text, c ∉ operatorChars ∧ c ∉ glyphs) : ∀ x ∈ name, x ∉ glyphs := by
  induction decodes with
  | nil => exact List.forall_mem_nil _
  | cons cut _ ih =>
    obtain ⟨first, others⟩ := List.forall_mem_append.mp plain
    exact List.forall_mem_append.mpr ⟨cut.notMem_glyphs first, ih others⟩

end Decodes

/-! ## The spelling of a text -/

theorem unescapeFrom_escapeChars (l : List Char) : unescapeFrom .plain (escapeChars l) = l :=
  (decodes_escapeChars l).unescapeFrom_eq

theorem unescape_escape (text : String) : unescape (escape text) = text := by
  rw [unescape, escape, String.toList_ofList, unescapeFrom_escapeChars, String.ofList_toList]

theorem escape_injective {a b : String} (same : escape a = escape b) : a = b := by
  rw [← unescape_escape a, same, unescape_escape]

theorem escaped_escapeChars {stops : List Char} (hidden : Hidden stops)
    (l : List Char) : Escaped stops (escapeChars l) :=
  (decodes_escapeChars l).escaped_of hidden

/-- A text without operators, spaces and glyphs has a spelling without glyphs. -/
theorem notMem_glyphs_escapeChars {l : List Char}
    (plain : ∀ c ∈ l, c ∉ operatorChars ∧ c ∉ glyphs) : ∀ x ∈ escapeChars l, x ∉ glyphs :=
  (decodes_escapeChars l).notMem_glyphs plain

theorem toList_property (name : String) (negated : Bool) :
    (property name negated).toList =
      (if negated then [negation] else []) ++ escapeChars name.toList := by
  cases negated <;> simp [property, escape]

theorem toList_literal (l : Literal) :
    (literal l).toList =
      if l.kind = .string then quote :: (escapeChars l.text.toList ++ [quote])
      else escapeChars l.text.toList := by
  unfold literal
  split <;> simp [escape]

theorem escaped_property {stops : List Char} (special : Special stops)
    (name : String) (negated : Bool) : Escaped stops (property name negated).toList := by
  rw [toList_property]
  refine Escaped.append ?_ (escaped_escapeChars special.hidden _)
  cases negated with
  | false => exact .nil
  | true => exact escaped_glyph special (by decide)

theorem escaped_literal {stops : List Char} (special : Special stops)
    (l : Literal) : Escaped stops (literal l).toList := by
  have quoted := escaped_glyph special (g := quote) (by decide)
  rw [toList_literal]
  split
  · exact quoted.append ((escaped_escapeChars special.hidden _).append quoted)
  · exact escaped_escapeChars special.hidden _

end StyleFlags.Name

namespace StyleFlags

/-! ## Names of conditions -/

theorem Comparison.glyph_mem (op : Comparison) : op.glyph ∈ Name.glyphs := by
  cases op <;> decide

theorem BinaryOperator.glyph_mem (op : BinaryOperator) : op.glyph ∈ Name.glyphs := by
  cases op with
  | junction op => cases op <;> decide
  | compare op => exact op.glyph_mem

section Stops

variable {stops : List Char} (special : Name.Special stops)

include special

theorem Condition.escaped_render (c : Condition) (parent : Option BinaryOperator) :
    Escaped stops (c.render .glyphs parent).toList := by
  induction c generalizing parent with
  | property negated name => exact Name.escaped_property special name negated
  | literal negated l => exact Name.escaped_literal special l
  | binary negated op left right ihl ihr =>
    have operator := Name.escaped_glyph special op.glyph_mem
    have joined := ((ihl (some op)).append operator).append (ihr (some op))
    have bar := Name.escaped_glyph special (g := Name.bar) (by decide)
    have grouped := (bar.append joined).append bar
    simp only [render]
    split
    · have denied := (Name.escaped_glyph special (g := Name.negation) (by decide)).append grouped
      simpa [Spelling.glyphs] using denied
    · split
      · simpa [Spelling.glyphs] using joined
      · simpa [Spelling.glyphs] using grouped

theorem Condition.escaped_name (c : Condition) : Escaped stops c.name.toList :=
  c.escaped_render special c.op?

theorem Operand.escaped_name (operand : Operand) : Escaped stops operand.name.toList := by
  cases operand with
  | literal l => exact Name.escaped_literal special l
  | property name negated => exact Name.escaped_property special name negated

end Stops

theorem Condition.spelled_name (c : Condition) : Spelled c.name.toList :=
  (c.escaped_name Name.special_separators).spelled

/-! ## Names of facts -/

theorem Fact.toList_name_compare (property : String) (op : Comparison) (operand : Operand) :
    (Fact.name ⟨property, .compare op operand⟩).toList =
      Name.escapeChars property.toList ++ op.glyph :: operand.name.toList := by
  simp [Fact.name, Name.property, Name.escape]

theorem Fact.escaped_name {stops : List Char} (special : Name.Special stops)
    (f : Fact) : Escaped stops f.name.toList := by
  obtain ⟨property, test⟩ := f
  cases test with
  | truthy negated => exact Name.escaped_property special property negated
  | compare op operand =>
    rw [toList_name_compare, ← List.singleton_append]
    exact (Name.escaped_escapeChars special.hidden _).append
      ((Name.escaped_glyph special op.glyph_mem).append (operand.escaped_name special))

theorem Fact.spelled_name (f : Fact) : Spelled f.name.toList :=
  (f.escaped_name Name.special_separators).spelled

/-- Whether a character can stand in an identifier or a numeral. -/
def Text.isPlain (c : Char) : Bool := isWord c || c == '-' || c == '.'

/-- A text of such characters has no glyph in its spelling. -/
theorem notMem_glyphs_of_isPlain {text : String} (plain : text.toList.all Text.isPlain = true) :
    ∀ x ∈ Name.escapeChars text.toList, x ∉ Name.glyphs := by
  have others : ∀ o ∈ Name.operatorChars ++ Name.glyphs, Text.isPlain o = false :=
    forall_of_all (by decide)
  refine Name.notMem_glyphs_escapeChars fun c member => ?_
  have isPlain := List.all_eq_true.mp plain c member
  constructor
  · intro isOperator
    rw [others c (List.mem_append_left _ isOperator)] at isPlain
    cases isPlain
  · intro isGlyph
    rw [others c (List.mem_append_right _ isGlyph)] at isPlain
    cases isPlain

theorem isPlain_of_isIdentifier {text : String} (identifier : isIdentifier text = true) :
    text.toList.all Text.isPlain = true := by
  simp only [isIdentifier, Bool.and_eq_true] at identifier
  refine List.all_eq_true.mpr fun c member => ?_
  have isWord := List.all_eq_true.mp identifier.1.2 c member
  simp [Text.isPlain, isWord]

theorem isPlain_of_isDigit {c : Char} (digit : c.isDigit = true) : Text.isPlain c = true := by
  simp [Text.isPlain, Text.isWord, digit]

theorem isPlain_of_isUnsigned {l : List Char} (unsigned : Literal.isUnsigned l = true) :
    l.all Text.isPlain = true := by
  have digits {l : List Char} (all : l.all Char.isDigit = true) : l.all Text.isPlain = true :=
    List.all_eq_true.mpr fun c member => isPlain_of_isDigit (List.all_eq_true.mp all c member)
  simp only [Literal.isUnsigned, Bool.and_eq_true] at unsigned
  rw [← List.takeWhile_append_dropWhile (p := Char.isDigit) (l := l), List.all_append,
    digits List.all_takeWhile, Bool.true_and]
  obtain ⟨_, tail⟩ := unsigned
  split at tail
  · next ended =>
    rw [ended]
    rfl
  · next fraction rest =>
    rw [rest]
    simp only [Bool.and_eq_true] at tail
    simp [digits tail.2, show Text.isPlain '.' = true by decide]
  · cases tail

theorem isPlain_of_isNumeral {l : List Char} (numeral : Literal.isNumeral l = true) :
    l.all Text.isPlain = true := by
  unfold Literal.isNumeral at numeral
  split at numeral
  · rw [List.all_cons, isPlain_of_isUnsigned numeral]
    decide
  · exact isPlain_of_isUnsigned numeral

/-! ## Reading facts back -/

/-- The kind of literal that a text without quotes is; an identifier is none. -/
def Literal.kindOfText? (text : String) : Option LiteralKind :=
  if isNumeral text.toList then some .number else LiteralKind.ofWord? text

theorem Literal.kindOfText?_text {l : Literal} (readable : l.Readable) (bare : l.kind ≠ .string) :
    kindOfText? l.text = some l.kind := by
  rcases readable_iff.mp readable with isString | ⟨isNumber, numeral⟩ | word
  · exact absurd isString bare
  · rw [kindOfText?, if_pos numeral, isNumber]
  · rw [kindOfText?, LiteralKind.isNumeral_of_ofWord? word, if_neg Bool.false_ne_true, word]

theorem Literal.isPlain_text {l : Literal} (readable : l.Readable) (bare : l.kind ≠ .string) :
    l.text.toList.all Text.isPlain = true := by
  rcases readable_iff.mp readable with isString | ⟨_, numeral⟩ | word
  · exact absurd isString bare
  · exact isPlain_of_isNumeral numeral
  · have plain : ∀ word ∈ reservedWords, word.toList.all Text.isPlain = true := by decide
    exact plain l.text (LiteralKind.ofWord?_eq_some word).1

theorem isDigit_of_isNameStart {c : Char} (starts : Text.isNameStart c = true) :
    c.isDigit = false := by
  simp only [Text.isNameStart, Bool.or_eq_true, beq_iff_eq] at starts
  rcases starts with (alpha | rfl) | rfl
  · cases digit : c.isDigit with
    | false => rfl
    | true =>
      have letters := Name.toNat_of_isAlpha alpha
      have digits := Name.toNat_of_isDigit digit
      omega
  · decide
  · decide

theorem Literal.kindOfText?_identifier {text : String} (identifier : isIdentifier text = true) :
    kindOfText? text = none := by
  simp only [isIdentifier, Bool.and_eq_true, Option.isNone_iff_eq_none] at identifier
  obtain ⟨⟨starts, _⟩, noWord⟩ := identifier
  have noNumeral : isNumeral text.toList = false := by
    cases chars : text.toList with
    | nil => rfl
    | cons first rest =>
      rw [chars, List.head?_cons, Option.any_some] at starts
      unfold isNumeral
      split
      · next same =>
        cases same
        cases starts
      · simp [isUnsigned, isDigit_of_isNameStart starts]
  rw [kindOfText?, noNumeral, if_neg Bool.false_ne_true, noWord]

/-- An operand that a source can write, whatever it is compared with. -/
def Operand.Scanned : Operand → Prop
  | literal l => l.Readable
  | property name _ => isIdentifier name = true

/-- A fact about identifiers and literals that a source can write. -/
def Fact.Scanned (f : Fact) : Prop :=
  isIdentifier f.property = true ∧
    match f.test with
    | .truthy _ => True
    | .compare _ operand => operand.Scanned

theorem Fact.Proper.scanned {f : Fact} (proper : f.Proper) : f.Scanned := by
  obtain ⟨property, test⟩ := f
  obtain ⟨identifier, operands⟩ := proper
  refine ⟨identifier, ?_⟩
  cases test with
  | truthy negated => exact trivial
  | compare op operand =>
    cases operand with
    | literal l => exact operands.1
    | property name negated => exact operands

namespace Operand

/-- Reads an operand back from its name. -/
def ofName (name : List Char) : Operand :=
  match name with
  | '´' :: rest => literal (.string (String.ofList (Name.unescapeFrom .plain rest.dropLast)))
  | '¬' :: rest => property (String.ofList (Name.unescapeFrom .plain rest)) true
  | _ =>
    let text := String.ofList (Name.unescapeFrom .plain name)
    match Literal.kindOfText? text with
    | some kind => literal ⟨kind, text⟩
    | none => property text false

theorem ofName_escapeChars {text : String} (plain : text.toList.all Text.isPlain = true) :
    ofName (Name.escapeChars text.toList) =
      match Literal.kindOfText? text with
      | some kind => literal ⟨kind, text⟩
      | none => property text false := by
  have noGlyph := notMem_glyphs_of_isPlain plain
  unfold ofName
  split
  · next found =>
    rw [found] at noGlyph
    exact absurd (by decide) (noGlyph _ List.mem_cons_self)
  · next found =>
    rw [found] at noGlyph
    exact absurd (by decide) (noGlyph _ List.mem_cons_self)
  · rw [Name.unescapeFrom_escapeChars, String.ofList_toList]

theorem ofName_name {operand : Operand} (scanned : operand.Scanned) :
    ofName operand.name.toList = operand := by
  cases operand with
  | literal l =>
    obtain ⟨kind, text⟩ := l
    rw [name, Name.toList_literal]
    split
    · next isString =>
      cases isString
      simp [ofName, Name.quote, Name.unescapeFrom_escapeChars, Literal.string]
    · next bare =>
      rw [ofName_escapeChars (Literal.isPlain_text scanned bare),
        Literal.kindOfText?_text scanned bare]
  | property text negated =>
    rw [name, Name.toList_property]
    cases negated with
    | false =>
      simp only [Bool.false_eq_true, if_false, List.nil_append]
      rw [ofName_escapeChars (isPlain_of_isIdentifier scanned),
        Literal.kindOfText?_identifier scanned]
    | true => simp [ofName, Name.negation, Name.unescapeFrom_escapeChars]

end Operand

namespace Fact

/-- The comparison with a glyph. -/
def comparisonOfGlyph (glyph : Char) : Comparison :=
  match glyph with
  | '≡' => .eq
  | '≠' => .ne
  | '⋗' => .gt
  | '⋝' => .ge
  | '⋖' => .lt
  | _ => .le

/-- Whether a character of a name is no glyph. -/
def isLetter (c : Char) : Bool := !Name.glyphs.contains c

/-- Reads a fact back from its name, cut before the first glyph. The glyph stands behind the
property, or before it if it is a negation. -/
def ofParts (before after : List Char) : Fact :=
  let text (chars : List Char) := String.ofList (Name.unescapeFrom .plain chars)
  match after with
  | [] => ⟨text before, .truthy false⟩
  | '¬' :: rest => ⟨text rest, .truthy true⟩
  | glyph :: rest => ⟨text before, .compare (comparisonOfGlyph glyph) (Operand.ofName rest)⟩

def ofName (name : String) : Fact :=
  ofParts (name.toList.takeWhile isLetter) (name.toList.dropWhile isLetter)

theorem isLetter_eq_false {c : Char} (isGlyph : c ∈ Name.glyphs) : isLetter c = false := by
  simpa [isLetter] using isGlyph

/-- The spelling of an identifier has no glyph. -/
theorem isLetter_of_mem {property : String} (identifier : isIdentifier property = true) :
    ∀ x ∈ Name.escapeChars property.toList, isLetter x = true := by
  intro x member
  simpa [isLetter] using notMem_glyphs_of_isPlain (isPlain_of_isIdentifier identifier) x member

theorem ofName_name {f : Fact} (scanned : f.Scanned) : ofName f.name = f := by
  obtain ⟨property, test⟩ := f
  obtain ⟨identifier, operands⟩ := scanned
  have letters := isLetter_of_mem identifier
  have reads := Name.unescapeFrom_escapeChars property.toList
  cases test with
  | truthy negated =>
    rw [ofName, name, Name.toList_property]
    cases negated with
    | false =>
      rw [if_neg Bool.false_ne_true, List.nil_append, ← List.append_nil (Name.escapeChars _),
        List.takeWhile_append_of_pos letters, List.dropWhile_append_of_pos letters]
      simp [ofParts, reads]
    | true =>
      have isGlyph := isLetter_eq_false (c := Name.negation) (by decide)
      rw [if_pos rfl, List.singleton_append, List.dropWhile_cons, isGlyph]
      simp [ofParts, Name.negation, reads]
  | compare op operand =>
    have isGlyph := isLetter_eq_false op.glyph_mem
    rw [ofName, toList_name_compare, List.takeWhile_append_of_pos letters,
      List.dropWhile_append_of_pos letters, List.takeWhile_cons, List.dropWhile_cons, isGlyph]
    cases op <;>
      simp [ofParts, Comparison.glyph, comparisonOfGlyph, reads, Operand.ofName_name operands]

theorem name_injective {f g : Fact} (hf : f.Proper) (hg : g.Proper) (same : f.name = g.name) :
    f = g := by
  rw [← ofName_name hf.scanned, same, ofName_name hg.scanned]

end Fact

end StyleFlags
