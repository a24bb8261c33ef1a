import StyleFlags.Proofs.Names

/-!
# A spelling is one name

A style sheet ends a name at the first character that a name cannot hold. A spelling holds such
characters within its escapes only, whatever the text is, so it cannot end early and what stands
behind it cannot become a part of it.

Results:
1. `Decodes.purpose`: each character that a name cannot hold bare opens an escape, is what a
   backslash escapes, or closes a hexadecimal code.
2. `escape_injective_unbroken`: this holds of the spelling of every text, and the spelling stands
   for that text alone.
-/

namespace StyleFlags.Name

/-- A text of whole pieces, which a style sheet reads as one name or a part of one. -/
def Unbroken (name : List Char) : Prop := ∃ text, Decodes name text

theorem Unbroken.nil : Unbroken [] := ⟨[], .nil⟩

theorem Piece.unbroken_append {piece part rest : List Char} (cut : Piece piece part)
    (unbroken : Unbroken rest) : Unbroken (piece ++ rest) := by
  obtain ⟨text, decodes⟩ := unbroken
  exact ⟨part ++ text, .cons cut decodes⟩

/-- What a character that a name cannot hold bare is there for, by what stands before it and behind it:
it is a part of one escape, between whole pieces. -/
inductive Purpose : List Char → Char → List Char → Prop
  /-- The backslash that an escape begins with. -/
  | opens {before after : List Char} : Unbroken before → Unbroken ('\\' :: after) →
      Purpose before '\\' after
  /-- The character that the backslash before it escapes. -/
  | escaped {before after : List Char} {c : Char} : Unbroken before → isHex c = false →
      isControl c = false → Unbroken after → Purpose (before ++ ['\\']) c after
  /-- The space that ends the digits of a control character. -/
  | closes {before after : List Char} {c : Char} : Unbroken before → isControl c = true →
      Unbroken after → Purpose (before ++ '\\' :: Nat.toDigits 16 c.toNat) ' ' after

variable {before after : List Char} {c : Char}

theorem Purpose.append_left {piece part : List Char} (cut : Piece piece part)
    (purpose : Purpose before c after) : Purpose (piece ++ before) c after := by
  cases purpose with
  | opens front behind => exact .opens (cut.unbroken_append front) behind
  | escaped front noDigit notControl behind =>
    rw [← List.append_assoc]
    exact .escaped (cut.unbroken_append front) noDigit notControl behind
  | closes front control behind =>
    rw [← List.append_assoc]
    exact .closes (cut.unbroken_append front) control behind

/-- The digits of a code can stand bare, so the space behind them is what is left. -/
theorem eq_of_code {n : Nat} (small : n < 256) (notBare : ¬Bare c)
    (split : Nat.toDigits 16 n ++ [' '] = before ++ c :: after) :
    before = Nat.toDigits 16 n ∧ c = ' ' ∧ after = [] := by
  rcases List.eq_nil_or_concat after with rfl | ⟨init, last, rfl⟩
  · obtain ⟨digits, space⟩ := List.append_inj' split rfl
    exact ⟨digits.symm, (List.cons.inj space).1.symm, rfl⟩
  · rw [List.concat_eq_append, ← List.cons_append, ← List.append_assoc] at split
    obtain ⟨digits, _⟩ := List.append_inj' split rfl
    have digit : c ∈ Nat.toDigits 16 n := by
      rw [digits]
      exact List.mem_append_right _ List.mem_cons_self
    exact absurd (.inl (isAlphanum_of_mem_toDigits small digit)) notBare

theorem Piece.purpose {piece part rest : List Char} (cut : Piece piece part)
    (unbroken : Unbroken rest) (split : piece = before ++ c :: after) (notBare : ¬Bare c) :
    Purpose before c (after ++ rest) := by
  have member : c ∈ piece := by
    rw [split]
    exact List.mem_append_right _ List.mem_cons_self
  have whole := cut.unbroken_append unbroken
  cases cut with
  | glyph entry =>
    rw [List.mem_singleton.mp member] at notBare
    exact absurd (bare_of_mem_glyphs (mem_glyphs_of_mem_glyphTexts entry)) notBare
  | bare bare _ =>
    rw [List.mem_singleton.mp member] at notBare
    exact absurd bare notBare
  | code control =>
    cases before with
    | nil =>
      obtain ⟨rfl, rfl⟩ := List.cons.inj split
      exact .opens .nil whole
    | cons first digits =>
      obtain ⟨rfl, behind⟩ := List.cons.inj split
      obtain ⟨rfl, rfl, rfl⟩ := eq_of_code (toNat_lt_of_isControl control) notBare behind
      exact .closes .nil control unbroken
  | escaped noDigit notControl =>
    cases before with
    | nil =>
      obtain ⟨rfl, rfl⟩ := List.cons.inj split
      exact .opens .nil whole
    | cons first between =>
      obtain ⟨rfl, behind⟩ := List.cons.inj split
      obtain ⟨rfl, same⟩ | ⟨_, absent⟩ := List.singleton_eq_append_iff.mp behind
      · obtain ⟨rfl, rfl⟩ := List.cons.inj same
        exact .escaped .nil noDigit notControl unbroken
      · cases absent

theorem Decodes.purpose {name text : List Char} (decodes : Decodes name text)
    (split : name = before ++ c :: after) (notBare : ¬Bare c) : Purpose before c after := by
  induction decodes generalizing before with
  | nil => exact absurd split.symm (List.append_ne_nil_of_right_ne_nil _ (List.cons_ne_nil _ _))
  | cons cut rest ih =>
    -- the character stands behind the first piece or within it
    rcases List.append_eq_append_iff.mp split with ⟨front, rfl, behind⟩ | ⟨inside, within, behind⟩
    · exact (ih behind).append_left cut
    · cases inside with
      | nil =>
        rw [List.append_nil] at within
        subst within
        have purpose : Purpose [] c after := ih behind.symm
        have first := purpose.append_left cut
        rwa [List.append_nil] at first
      | cons d more =>
        obtain ⟨rfl, rfl⟩ := List.cons.inj behind
        exact cut.purpose ⟨_, rest⟩ within notBare

/-- The spelling of a text stands for no other text, and no character of it ends the name early. -/
theorem escape_injective_unbroken (text : String) :
    (∀ other, escape other = escape text → other = text) ∧
    (∀ read, Decodes (escape text).toList read ↔ read = text.toList) ∧
    unescape (escape text) = text ∧
    ∀ before c after, (escape text).toList = before ++ c :: after → ¬Bare c →
      Purpose before c after := by
  have decodes : Decodes (escape text).toList text.toList := by
    rw [escape, String.toList_ofList]
    exact decodes_escapeChars text.toList
  refine ⟨fun _ => escape_injective, fun read => ⟨fun reads => ?_, ?_⟩, unescape_escape text,
    fun before c after => decodes.purpose⟩
  · rw [← reads.unescapeFrom_eq, decodes.unescapeFrom_eq]
  · rintro rfl
    exact decodes

/-- The space behind a tab's code closes it, and the parenthesis stands behind its backslash. -/
theorem escape_injective_unbroken_tab :
    (escape "(\t").toList = ['\\', '(', '\\', '9', ' '] ∧ unescape "\\(\\9 " = "(\t" ∧
    Purpose ['\\'] '(' ['\\', '9', ' '] ∧ Purpose ['\\', '(', '\\', '9'] ' ' [] := by
  have spelled : (escape "(\t").toList = ['\\', '(', '\\', '9', ' '] := by decide
  obtain ⟨_, _, reads, purpose⟩ := escape_injective_unbroken "(\t"
  refine ⟨spelled, ?_, purpose _ _ _ spelled ?_, purpose ['\\', '(', '\\', '9'] _ _ spelled ?_⟩
  · have name : escape "(\t" = "\\(\\9 " := by decide
    rwa [name] at reads
  · unfold Bare
    decide
  · unfold Bare
    decide

end StyleFlags.Name
