import StyleFlags.Expression.Read
import StyleFlags.Proofs.Parsing

/-!
# How structured values are read

What reading a structured value does where it succeeds, as a relation between places in a text.
A value is a group, a list or a word with a chain of members and calls behind it; where the
chain stops, where a comma is skipped and where raw text is read instead of tokens is said by
the relation, so that a proof about values is an induction over how they are read.

Results:
1. `Expression.reads_of_readValue`: what reading succeeds on is related.
2. `Expression.Reads.runs`: what is related, reading succeeds on.
3. `Expression.read_eq_ok_iff`: so for a whole text the two are the same.
-/

namespace StyleFlags

namespace Expression

/-! ## Reading as a relation -/

/-- What is read: a value, the items of a list up to a symbol, the entries of an object, or the
whole that a value becomes with the members and calls behind it. -/
inductive Goal where
  | value (x : Expression)
  | items (closing : Operator) (xs : List Expression)
  | entries (es : List (String × Expression))
  | chain (base whole : Expression)

/-- The value of a word or of a literal. -/
def Primary (t : Token) (x : Expression) : Prop :=
  (t.kind = .identifier ∧ x = identifier t.text) ∨
    (t.kind = .literal ∧ ∃ l, Literal.read t.text t.quoted t.offset = .ok l ∧ x = literal l)

/-- Whether the next token, if there is one, is none of some symbols. -/
def Without (ops : List Operator) (c : Cursor) : Prop :=
  ∃ peeked, c.peek = .ok peeked ∧ ∀ token ∈ peeked, ∀ op ∈ ops, token.1.kind ≠ .operator op

/-- Whether a comma was skipped between two places, or there is none. -/
def Skips (c d : Cursor) : Prop :=
  (∃ t, c.Next t d ∧ t.kind = .operator .comma) ∨ (d = c ∧ Without [.comma] c)

/-- The symbols that a chain goes on with. -/
def links : List Operator := [.dot, .openBracket, .openParen]

/-- Reading at one place, up to another. -/
inductive Reads : Goal → Cursor → Cursor → Prop
  | group {c d e f : Cursor} {t u : Token} {x : Expression} :
      c.Next t d → t.kind = .operator .openParen → Reads (.value x) d e →
      e.Next u f → u.kind = .operator .closeParen → Reads (.value x) c f
  | object {c d e : Cursor} {t : Token} {es : List (String × Expression)} :
      c.Next t d → t.kind = .operator .openBrace → Reads (.entries es) d e →
      Reads (.value (object es)) c e
  | array {c d e : Cursor} {t : Token} {xs : List Expression} :
      c.Next t d → t.kind = .operator .openBracket → Reads (.items .closeBracket xs) d e →
      Reads (.value (array xs)) c e
  | primary {c d e : Cursor} {t : Token} {first whole : Expression} :
      c.Next t d → Primary t first → Reads (.chain first whole) d e → Reads (.value whole) c e
  | noItem {c d : Cursor} {t : Token} {closing : Operator} :
      c.Next t d → t.kind = .operator closing → Reads (.items closing []) c d
  | item {c d e f g : Cursor} {t : Token} {closing : Operator} {x : Expression}
      {xs : List Expression} :
      c.Next t d → t.kind ≠ .operator closing → Reads (.value x) c e → Skips e f →
      Reads (.items closing xs) f g → Reads (.items closing (x :: xs)) c g
  | noEntry {c d : Cursor} {t : Token} :
      c.Next t d → t.kind = .operator .closeBrace → Reads (.entries []) c d
  | entry {c d e f g h : Cursor} {key colon : Token} {x : Expression}
      {es : List (String × Expression)} :
      c.Next key d → key.kind = .identifier → d.Next colon e → colon.kind = .operator .colon →
      Reads (.value x) e f → Skips f g → Reads (.entries es) g h →
      Reads (.entries ((key.text, x) :: es)) c h
  | dotted {c d e f : Cursor} {dot key : Token} {base whole : Expression} :
      c.Next dot d → dot.kind = .operator .dot → d.Next key e → key.kind = .identifier →
      Reads (.chain (member base (identifier key.text) false) whole) e f →
      Reads (.chain base whole) c f
  | indexed {c d e f g : Cursor} {t u : Token} {base key whole : Expression} :
      c.Next t d → t.kind = .operator .openBracket → Reads (.value key) d e →
      e.Next u f → u.kind = .operator .closeBracket →
      Reads (.chain (member base key true) whole) f g → Reads (.chain base whole) c g
  | raw {c d e f : Cursor} {t : Token} {text : List Char} {stop : String} {whole : Expression} :
      c.Next t d → t.kind = .operator .openParen →
      d.piece [")"] [] = .ok (text, .stop stop, e) →
      Reads (.chain (token (String.ofList text)) whole) (e.advance 1) f →
      Reads (.chain (identifier "token") whole) c f
  | called {c d e f : Cursor} {t : Token} {base whole : Expression} {xs : List Expression} :
      c.Next t d → t.kind = .operator .openParen → base ≠ identifier "token" →
      Reads (.items .closeParen xs) d e → Reads (.chain (call base xs) whole) e f →
      Reads (.chain base whole) c f
  | ended {c : Cursor} {x : Expression} : Without links c → Reads (.chain x x) c c

/-! ## What succeeds is related -/

section Steps

variable {c d : Cursor} {x : Expression}

theorem readPrimary_eq_ok {e : c.Shorter} :
    readPrimary c = .ok (x, e) ↔ ∃ t, c.Next t e.val ∧ Primary t x := by
  rw [readPrimary, bind_eq_ok_iff]
  constructor
  · rintro ⟨peeked, found, read⟩
    split at read
    · next t f =>
      refine ⟨t, ?_⟩
      split at read
      · next isName =>
        cases read
        exact ⟨⟨_, found⟩, .inl ⟨isName, rfl⟩⟩
      · next isLiteral =>
        obtain ⟨l, literal, read⟩ := bind_eq_ok read
        cases read
        exact ⟨⟨_, found⟩, .inr ⟨isLiteral, l, literal, rfl⟩⟩
      · cases read
    · cases read
  · rintro ⟨⟨kind, text, quoted, offset⟩, ⟨_, found⟩, ⟨rfl, rfl⟩ | ⟨rfl, l, literal, rfl⟩⟩
    · exact ⟨_, found, rfl⟩
    · exact ⟨_, found, bind_eq_ok_iff.mpr ⟨l, literal, rfl⟩⟩

theorem skipComma_eq_ok {e : c.NotLonger} : skipComma c = .ok e ↔ Skips c e.val := by
  rw [skipComma, bind_eq_ok_iff]
  constructor
  · rintro ⟨peeked, found, read⟩
    split at read
    · next t f hf =>
      split at read
      · next isComma =>
        cases read
        exact .inl ⟨t, ⟨hf, found⟩, isComma⟩
      · next other =>
        cases read
        exact .inr ⟨rfl, _, found, by simpa using other⟩
    · cases read
      exact .inr ⟨rfl, _, found, by simp⟩
  · obtain ⟨d, hd⟩ := e
    rintro (⟨t, ⟨shorter, found⟩, isComma⟩ | ⟨same, peeked, found, other⟩)
    · exact ⟨_, found, if_pos isComma⟩
    · obtain rfl : d = c := same
      refine ⟨peeked, found, ?_⟩
      cases peeked with
      | none => rfl
      | some token => exact if_neg (other token rfl .comma (by simp))

theorem readRaw_eq_ok {text : String} {e : c.NotLonger} :
    readRaw c = .ok (text, e) ↔ ∃ raw stop f, c.piece [")"] [] = .ok (raw, .stop stop, f) ∧
      text = String.ofList raw ∧ e.val = f.advance 1 := by
  unfold readRaw
  split
  · next raw stop f scanned =>
    constructor
    · rintro ⟨⟩
      exact ⟨raw, stop, f, scanned, rfl, rfl⟩
    · rintro ⟨_, _, _, same, rfl, place⟩
      rw [scanned] at same
      cases same
      exact congrArg Except.ok (Prod.ext rfl (Subtype.ext place.symm))
  · next other noStop scanned =>
    constructor
    · rintro ⟨⟩
    · rintro ⟨raw, stop, f, same, _⟩
      rw [scanned] at same
      cases same
      exact (noStop _ _ _ rfl).elim
  · next scanned =>
    constructor
    · rintro ⟨⟩
    · rintro ⟨raw, stop, f, same, _⟩
      rw [scanned] at same
      cases same

theorem Skips.size_le (skips : Skips c d) : d.size ≤ c.size := by
  rcases skips with ⟨t, next, _⟩ | ⟨rfl, _⟩
  · exact Nat.le_of_lt next.size_lt
  · exact Nat.le_refl _

end Steps

mutual

theorem reads_of_readValue {c : Cursor} {x : Expression} {d : c.Shorter}
    (read : readValue c = .ok (x, d)) : Reads (.value x) c d.val := by
  rw [readValue] at read
  obtain ⟨peeked, found, read⟩ := bind_eq_ok read
  split at read
  · next text quoted offset e he =>
    obtain ⟨⟨inner, f, hf⟩, grouped, read⟩ := bind_eq_ok read
    obtain ⟨⟨closing, g, hg⟩, closed, read⟩ := bind_eq_ok read
    cases read
    obtain ⟨next, closes⟩ := Cursor.expect_eq_ok.mp closed
    exact .group ⟨he, found⟩ rfl (reads_of_readValue grouped) next closes
  · next text quoted offset e he =>
    obtain ⟨⟨entries, f, hf⟩, listed, read⟩ := bind_eq_ok read
    cases read
    exact .object ⟨he, found⟩ rfl (reads_of_readEntries listed)
  · next text quoted offset e he =>
    obtain ⟨⟨items, f, hf⟩, listed, read⟩ := bind_eq_ok read
    cases read
    exact .array ⟨he, found⟩ rfl (reads_of_readItems listed)
  · obtain ⟨⟨first, e, he⟩, isPrimary, read⟩ := bind_eq_ok read
    obtain ⟨⟨whole, f, hf⟩, linked, read⟩ := bind_eq_ok read
    cases read
    obtain ⟨t, next, value⟩ := readPrimary_eq_ok.mp isPrimary
    exact .primary next value (reads_of_readChain linked)
termination_by 3 * c.size + 1

theorem reads_of_readItems {closing : Operator} {c : Cursor} {xs : List Expression} {d : c.Shorter}
    (read : readItems closing c = .ok (xs, d)) : Reads (.items closing xs) c d.val := by
  rw [readItems] at read
  obtain ⟨peeked, found, read⟩ := bind_eq_ok read
  split at read
  · cases read
  · next t e he =>
    split at read
    · next closes =>
      cases read
      exact .noItem ⟨he, found⟩ closes
    · next goesOn =>
      obtain ⟨⟨item, f, hf⟩, first, read⟩ := bind_eq_ok read
      obtain ⟨⟨g, hg⟩, skipped, read⟩ := bind_eq_ok read
      obtain ⟨⟨rest, h, hh⟩, others, read⟩ := bind_eq_ok read
      cases read
      exact .item ⟨he, found⟩ goesOn (reads_of_readValue first) (skipComma_eq_ok.mp skipped)
        (reads_of_readItems others)
termination_by 3 * c.size + 2

theorem reads_of_readEntries {c : Cursor} {es : List (String × Expression)} {d : c.Shorter}
    (read : readEntries c = .ok (es, d)) : Reads (.entries es) c d.val := by
  rw [readEntries] at read
  obtain ⟨peeked, found, read⟩ := bind_eq_ok read
  split at read
  · next text quoted offset e he =>
    cases read
    exact .noEntry ⟨he, found⟩ rfl
  · obtain ⟨⟨key, e, he⟩, named, read⟩ := bind_eq_ok read
    obtain ⟨⟨colon, f, hf⟩, marked, read⟩ := bind_eq_ok read
    obtain ⟨⟨value, g, hg⟩, first, read⟩ := bind_eq_ok read
    obtain ⟨⟨h, hh⟩, skipped, read⟩ := bind_eq_ok read
    obtain ⟨⟨rest, i, hi⟩, others, read⟩ := bind_eq_ok read
    cases read
    obtain ⟨isKey, isName⟩ := Cursor.expect_eq_ok.mp named
    obtain ⟨isNext, isColon⟩ := Cursor.expect_eq_ok.mp marked
    exact .entry isKey isName isNext isColon (reads_of_readValue first)
      (skipComma_eq_ok.mp skipped) (reads_of_readEntries others)
termination_by 3 * c.size + 2

theorem reads_of_readChain {base : Expression} {c : Cursor} {x : Expression} {d : c.NotLonger}
    (read : readChain base c = .ok (x, d)) : Reads (.chain base x) c d.val := by
  rw [readChain] at read
  obtain ⟨peeked, found, read⟩ := bind_eq_ok read
  split at read
  · next text quoted offset e he =>
    obtain ⟨⟨key, f, hf⟩, named, read⟩ := bind_eq_ok read
    obtain ⟨⟨whole, g, hg⟩, linked, read⟩ := bind_eq_ok read
    cases read
    obtain ⟨isKey, isName⟩ := Cursor.expect_eq_ok.mp named
    exact .dotted ⟨he, found⟩ rfl isKey isName (reads_of_readChain linked)
  · next text quoted offset e he =>
    obtain ⟨⟨key, f, hf⟩, inside, read⟩ := bind_eq_ok read
    obtain ⟨⟨closing, g, hg⟩, closed, read⟩ := bind_eq_ok read
    obtain ⟨⟨whole, h, hh⟩, linked, read⟩ := bind_eq_ok read
    cases read
    obtain ⟨next, closes⟩ := Cursor.expect_eq_ok.mp closed
    exact .indexed ⟨he, found⟩ rfl (reads_of_readValue inside) next closes
      (reads_of_readChain linked)
  · next text quoted offset e he =>
    split at read
    · obtain ⟨⟨text, f, hf⟩, copied, read⟩ := bind_eq_ok read
      obtain ⟨⟨whole, g, hg⟩, linked, read⟩ := bind_eq_ok read
      cases read
      obtain ⟨raw, stop, place, scanned, rfl, same⟩ := readRaw_eq_ok.mp copied
      have behind := reads_of_readChain linked
      cases same
      exact .raw ⟨he, found⟩ rfl scanned behind
    · next other =>
      obtain ⟨⟨arguments, f, hf⟩, listed, read⟩ := bind_eq_ok read
      obtain ⟨⟨whole, g, hg⟩, linked, read⟩ := bind_eq_ok read
      cases read
      exact .called ⟨he, found⟩ rfl other (reads_of_readItems listed) (reads_of_readChain linked)
  · next noDot noBracket noParen =>
    cases read
    refine .ended ⟨peeked, found, ?_⟩
    rintro ⟨⟨kind, text, quoted, offset⟩, e, he⟩ isNext op isLink rfl
    simp only [links, List.mem_cons, List.not_mem_nil, or_false] at isLink
    rcases isLink with rfl | rfl | rfl
    · exact noDot _ _ _ _ _ isNext
    · exact noBracket _ _ _ _ _ isNext
    · exact noParen _ _ _ _ _ isNext
termination_by 3 * c.size

end

/-! ## What is related succeeds -/

/-- What the functions do with what is read. -/
def Goal.Runs : Goal → Cursor → Cursor → Prop
  | .value x, c, d => ∃ shorter, readValue c = .ok (x, ⟨d, shorter⟩)
  | .items closing xs, c, d => ∃ shorter, readItems closing c = .ok (xs, ⟨d, shorter⟩)
  | .entries es, c, d => ∃ shorter, readEntries c = .ok (es, ⟨d, shorter⟩)
  | .chain base x, c, d => ∃ notLonger, readChain base c = .ok (x, ⟨d, notLonger⟩)

section Cases

variable {c d e f g h : Cursor} {t u : Token} {x base whole : Expression} {xs : List Expression}
  {es : List (String × Expression)}

/-- A token of some kind that comes next is what is peeked at. -/
theorem exists_peek {kind : TokenKind} (next : c.Next t d) (isKind : t.kind = kind) :
    ∃ text quoted offset shorter,
      c.peek = .ok (some (⟨kind, text, quoted, offset⟩, ⟨d, shorter⟩)) := by
  obtain ⟨found, text, quoted, offset⟩ := t
  obtain rfl : found = kind := isKind
  obtain ⟨shorter, peeked⟩ := next
  exact ⟨text, quoted, offset, shorter, peeked⟩

theorem runs_group (next : c.Next t d) (opens : t.kind = .operator .openParen)
    (inside : Goal.Runs (.value x) d e) (last : e.Next u f)
    (closes : u.kind = .operator .closeParen) :
    Goal.Runs (.value x) c f := by
  obtain ⟨text, quoted, offset, hd, found⟩ := exists_peek next opens
  obtain ⟨he, inside⟩ := inside
  have closed : e.expect (.operator .closeParen) = .ok (u, ⟨f, last.size_lt⟩) :=
    Cursor.expect_eq_ok.mpr ⟨last, closes⟩
  refine ⟨Nat.lt_trans last.size_lt (Nat.lt_trans he hd), ?_⟩
  rw [readValue]
  refine bind_eq_ok_iff.mpr ⟨_, found, ?_⟩
  exact bind_eq_ok_iff.mpr ⟨_, inside, bind_eq_ok_iff.mpr ⟨_, closed, rfl⟩⟩

theorem runs_object (next : c.Next t d) (opens : t.kind = .operator .openBrace)
    (inside : Goal.Runs (.entries es) d e) : Goal.Runs (.value (object es)) c e := by
  obtain ⟨text, quoted, offset, hd, found⟩ := exists_peek next opens
  obtain ⟨he, inside⟩ := inside
  refine ⟨Nat.lt_trans he hd, ?_⟩
  rw [readValue]
  exact bind_eq_ok_iff.mpr ⟨_, found, bind_eq_ok_iff.mpr ⟨_, inside, rfl⟩⟩

theorem runs_array (next : c.Next t d) (opens : t.kind = .operator .openBracket)
    (inside : Goal.Runs (.items .closeBracket xs) d e) : Goal.Runs (.value (array xs)) c e := by
  obtain ⟨text, quoted, offset, hd, found⟩ := exists_peek next opens
  obtain ⟨he, inside⟩ := inside
  refine ⟨Nat.lt_trans he hd, ?_⟩
  rw [readValue]
  exact bind_eq_ok_iff.mpr ⟨_, found, bind_eq_ok_iff.mpr ⟨_, inside, rfl⟩⟩

theorem runs_primary {first : Expression} (next : c.Next t d) (value : Primary t first)
    (linked : Goal.Runs (.chain first whole) d e) : Goal.Runs (.value whole) c e := by
  obtain ⟨he, linked⟩ := linked
  have isPrimary : readPrimary c = .ok (first, ⟨d, next.size_lt⟩) :=
    readPrimary_eq_ok.mpr ⟨t, next, value⟩
  obtain ⟨kind, text, quoted, offset⟩ := t
  obtain ⟨hd, found⟩ := next
  refine ⟨Nat.lt_of_le_of_lt he hd, ?_⟩
  rw [readValue]
  refine bind_eq_ok_iff.mpr ⟨_, found, ?_⟩
  -- Neither kind is one of the symbols that open a group, an object or an array.
  rcases value with ⟨rfl, _⟩ | ⟨rfl, _⟩
  · exact bind_eq_ok_iff.mpr ⟨_, isPrimary, bind_eq_ok_iff.mpr ⟨_, linked, rfl⟩⟩
  · exact bind_eq_ok_iff.mpr ⟨_, isPrimary, bind_eq_ok_iff.mpr ⟨_, linked, rfl⟩⟩

theorem runs_noItem {closing : Operator} (next : c.Next t d) (closes : t.kind = .operator closing) :
    Goal.Runs (.items closing []) c d := by
  obtain ⟨hd, found⟩ := next
  refine ⟨hd, ?_⟩
  rw [readItems]
  exact bind_eq_ok_iff.mpr ⟨_, found, if_pos closes⟩

theorem runs_item {closing : Operator} (next : c.Next t d) (goesOn : t.kind ≠ .operator closing)
    (first : Goal.Runs (.value x) c e) (skips : Skips e f)
    (others : Goal.Runs (.items closing xs) f g) : Goal.Runs (.items closing (x :: xs)) c g := by
  obtain ⟨hd, found⟩ := next
  obtain ⟨he, first⟩ := first
  obtain ⟨hg, others⟩ := others
  have closer : f.size ≤ e.size := skips.size_le
  have skipped : skipComma e = .ok ⟨f, closer⟩ := skipComma_eq_ok.mpr skips
  refine ⟨Nat.lt_trans (Nat.lt_of_lt_of_le hg closer) he, ?_⟩
  rw [readItems]
  refine bind_eq_ok_iff.mpr ⟨_, found, (if_neg goesOn).trans ?_⟩
  refine bind_eq_ok_iff.mpr ⟨_, first, bind_eq_ok_iff.mpr ⟨_, skipped, ?_⟩⟩
  exact bind_eq_ok_iff.mpr ⟨_, others, rfl⟩

theorem runs_noEntry (next : c.Next t d) (closes : t.kind = .operator .closeBrace) :
    Goal.Runs (.entries []) c d := by
  obtain ⟨text, quoted, offset, hd, found⟩ := exists_peek next closes
  refine ⟨hd, ?_⟩
  rw [readEntries]
  exact bind_eq_ok_iff.mpr ⟨_, found, rfl⟩

theorem runs_entry {key colon : Token} (next : c.Next key d) (isName : key.kind = .identifier)
    (second : d.Next colon e) (isColon : colon.kind = .operator .colon)
    (first : Goal.Runs (.value x) e f) (skips : Skips f g) (others : Goal.Runs (.entries es) g h) :
    Goal.Runs (.entries ((key.text, x) :: es)) c h := by
  obtain ⟨text, quoted, offset, hd, found⟩ := exists_peek next isName
  obtain ⟨hf, first⟩ := first
  obtain ⟨hh, others⟩ := others
  have closer : g.size ≤ f.size := skips.size_le
  have skipped : skipComma f = .ok ⟨g, closer⟩ := skipComma_eq_ok.mpr skips
  have named : c.expect .identifier = .ok (key, ⟨d, next.size_lt⟩) :=
    Cursor.expect_eq_ok.mpr ⟨next, isName⟩
  have marked : d.expect (.operator .colon) = .ok (colon, ⟨e, second.size_lt⟩) :=
    Cursor.expect_eq_ok.mpr ⟨second, isColon⟩
  have shorter : h.size < c.size :=
    calc h.size < g.size := hh
      _ ≤ f.size := closer
      _ < e.size := hf
      _ < d.size := second.size_lt
      _ < c.size := hd
  refine ⟨shorter, ?_⟩
  rw [readEntries]
  refine bind_eq_ok_iff.mpr ⟨_, found, ?_⟩
  refine bind_eq_ok_iff.mpr ⟨_, named, bind_eq_ok_iff.mpr ⟨_, marked, ?_⟩⟩
  refine bind_eq_ok_iff.mpr ⟨_, first, bind_eq_ok_iff.mpr ⟨_, skipped, ?_⟩⟩
  exact bind_eq_ok_iff.mpr ⟨_, others, rfl⟩

theorem runs_dotted {dot key : Token} (next : c.Next dot d) (isDot : dot.kind = .operator .dot)
    (second : d.Next key e) (isName : key.kind = .identifier)
    (linked : Goal.Runs (.chain (member base (identifier key.text) false) whole) e f) :
    Goal.Runs (.chain base whole) c f := by
  obtain ⟨text, quoted, offset, hd, found⟩ := exists_peek next isDot
  obtain ⟨hf, linked⟩ := linked
  have named : d.expect .identifier = .ok (key, ⟨e, second.size_lt⟩) :=
    Cursor.expect_eq_ok.mpr ⟨second, isName⟩
  refine ⟨Nat.le_of_lt (Nat.lt_of_le_of_lt hf (Nat.lt_trans second.size_lt hd)), ?_⟩
  rw [readChain]
  refine bind_eq_ok_iff.mpr ⟨_, found, ?_⟩
  exact bind_eq_ok_iff.mpr ⟨_, named, bind_eq_ok_iff.mpr ⟨_, linked, rfl⟩⟩

theorem runs_indexed {key : Expression} (next : c.Next t d)
    (opens : t.kind = .operator .openBracket)
    (inside : Goal.Runs (.value key) d e) (last : e.Next u f)
    (closes : u.kind = .operator .closeBracket)
    (linked : Goal.Runs (.chain (member base key true) whole) f g) :
    Goal.Runs (.chain base whole) c g := by
  obtain ⟨text, quoted, offset, hd, found⟩ := exists_peek next opens
  obtain ⟨he, inside⟩ := inside
  obtain ⟨hg, linked⟩ := linked
  have closed : e.expect (.operator .closeBracket) = .ok (u, ⟨f, last.size_lt⟩) :=
    Cursor.expect_eq_ok.mpr ⟨last, closes⟩
  have shorter : g.size < c.size :=
    calc g.size ≤ f.size := hg
      _ < e.size := last.size_lt
      _ < d.size := he
      _ < c.size := hd
  refine ⟨Nat.le_of_lt shorter, ?_⟩
  rw [readChain]
  refine bind_eq_ok_iff.mpr ⟨_, found, ?_⟩
  refine bind_eq_ok_iff.mpr ⟨_, inside, bind_eq_ok_iff.mpr ⟨_, closed, ?_⟩⟩
  exact bind_eq_ok_iff.mpr ⟨_, linked, rfl⟩

theorem runs_raw {text : List Char} {stop : String} (next : c.Next t d)
    (opens : t.kind = .operator .openParen) (scanned : d.piece [")"] [] = .ok (text, .stop stop, e))
    (linked : Goal.Runs (.chain (token (String.ofList text)) whole) (e.advance 1) f) :
    Goal.Runs (.chain (identifier "token") whole) c f := by
  obtain ⟨spelling, quoted, offset, hd, found⟩ := exists_peek next opens
  obtain ⟨hf, linked⟩ := linked
  have closer : (e.advance 1).size ≤ d.size := by
    rw [Cursor.size_advance]
    exact Nat.le_trans (Nat.sub_le _ _) (Cursor.size_piece scanned)
  have copied : readRaw d = .ok (String.ofList text, ⟨e.advance 1, closer⟩) :=
    readRaw_eq_ok.mpr ⟨text, stop, e, scanned, rfl, rfl⟩
  refine ⟨Nat.le_of_lt (Nat.lt_of_le_of_lt (Nat.le_trans hf closer) hd), ?_⟩
  rw [readChain]
  refine bind_eq_ok_iff.mpr ⟨_, found, ?_⟩
  exact bind_eq_ok_iff.mpr ⟨_, copied, bind_eq_ok_iff.mpr ⟨_, linked, rfl⟩⟩

theorem runs_called (next : c.Next t d) (opens : t.kind = .operator .openParen)
    (other : base ≠ identifier "token") (listed : Goal.Runs (.items .closeParen xs) d e)
    (linked : Goal.Runs (.chain (call base xs) whole) e f) : Goal.Runs (.chain base whole) c f := by
  obtain ⟨text, quoted, offset, hd, found⟩ := exists_peek next opens
  obtain ⟨he, listed⟩ := listed
  obtain ⟨hf, linked⟩ := linked
  refine ⟨Nat.le_of_lt (Nat.lt_of_le_of_lt hf (Nat.lt_trans he hd)), ?_⟩
  rw [readChain]
  refine bind_eq_ok_iff.mpr ⟨_, found, ?_⟩
  simp only
  exact bind_eq_ok_iff.mpr ⟨_, listed, bind_eq_ok_iff.mpr ⟨_, linked, rfl⟩⟩

theorem runs_ended (without : Without links c) : Goal.Runs (.chain x x) c c := by
  obtain ⟨peeked, found, none⟩ := without
  refine ⟨Nat.le_refl _, ?_⟩
  rw [readChain]
  refine bind_eq_ok_iff.mpr ⟨_, found, ?_⟩
  split
  · exact absurd rfl (none _ rfl .dot (by simp [links]))
  · exact absurd rfl (none _ rfl .openBracket (by simp [links]))
  · exact absurd rfl (none _ rfl .openParen (by simp [links]))
  · rfl

end Cases

theorem Reads.runs {goal : Goal} {c d : Cursor} (reads : Reads goal c d) : goal.Runs c d := by
  induction reads with
  | group next opens _ last closes inside => exact runs_group next opens inside last closes
  | object next opens _ inside => exact runs_object next opens inside
  | array next opens _ inside => exact runs_array next opens inside
  | primary next value _ linked => exact runs_primary next value linked
  | noItem next closes => exact runs_noItem next closes
  | item next goesOn _ skips _ first others => exact runs_item next goesOn first skips others
  | noEntry next closes => exact runs_noEntry next closes
  | entry next isName second isColon _ skips _ first others =>
    exact runs_entry next isName second isColon first skips others
  | dotted next isDot second isName _ linked => exact runs_dotted next isDot second isName linked
  | indexed next opens _ last closes _ inside linked =>
    exact runs_indexed next opens inside last closes linked
  | raw next opens scanned _ linked => exact runs_raw next opens scanned linked
  | called next opens other _ _ listed linked => exact runs_called next opens other listed linked
  | ended without => exact runs_ended without

theorem read_eq_ok_iff {text : String} {x : Expression} :
    read text = .ok x ↔ ∃ d, Reads (.value x) (Cursor.start text) d ∧ d.tokens = .ok [] := by
  constructor
  · intro done
    obtain ⟨⟨y, d, hd⟩, value, done⟩ := bind_eq_ok done
    obtain ⟨_, finished, done⟩ := bind_eq_ok done
    cases done
    exact ⟨d, reads_of_readValue value, Cursor.finish_eq_ok.mp finished⟩
  · rintro ⟨d, reads, ended⟩
    obtain ⟨_, value⟩ := reads.runs
    exact bind_eq_ok_iff.mpr
      ⟨_, value, bind_eq_ok_iff.mpr ⟨_, Cursor.finish_eq_ok.mpr ended, rfl⟩⟩

end Expression

end StyleFlags
