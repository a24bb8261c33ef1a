import StyleFlags.Proofs.Lexemes
import StyleFlags.Text.Span

/-!
# Closed texts

A text is closed if every string in it ends and its parentheses outside of strings are balanced.
What a balanced span copies is closed, and a closed text is copied as a whole, unless something that
ends the span is met in it outside of all parentheses and strings.

Results:
1. `Text.Closed.of_append`: behind a closed beginning, a closed text is closed.
2. `Cursor.pieceFrom_closed`, `Cursor.piece_closed`: scanning passes over a closed text, up to
   what ends it.
3. `Cursor.leftBy_of_pieceFrom`, `Cursor.unmet_of_pieceFrom`: what is scanned up to a stop is
   closed, and nothing was met in it.
-/

namespace StyleFlags

/-! ## Closed texts -/

namespace Text

/-- Whether all strings of a text are closed, and its parentheses outside of strings balanced. -/
inductive Closed : List Char → Prop
  | nil : Closed []
  | char {c : Char} {rest : List Char} :
      c ≠ '(' → c ≠ ')' → isQuote c = false → Closed rest → Closed (c :: rest)
  | string {quote : Char} {inside rest : List Char} :
      isQuote quote = true → quote ∉ inside → Closed rest →
      Closed (quote :: (inside ++ quote :: rest))
  | group {inside rest : List Char} :
      Closed inside → Closed rest → Closed ('(' :: (inside ++ ')' :: rest))

theorem closed_cons {c : Char} {rest : List Char} (closed : Closed (c :: rest)) :
    (c ≠ '(' ∧ c ≠ ')' ∧ isQuote c = false ∧ Closed rest) ∨
    (isQuote c = true ∧ ∃ inside tail, rest = inside ++ c :: tail ∧ c ∉ inside ∧ Closed tail) ∨
    (c = '(' ∧ ∃ inside tail, rest = inside ++ ')' :: tail ∧ Closed inside ∧ Closed tail) := by
  generalize spelled : c :: rest = text at closed
  cases closed with
  | nil => cases spelled
  | char notOpening notClosing bare tail =>
    cases spelled
    exact .inl ⟨notOpening, notClosing, bare, tail⟩
  | string isQuote kept tail =>
    cases spelled
    exact .inr (.inl ⟨isQuote, _, _, rfl, kept, tail⟩)
  | group inside tail =>
    cases spelled
    exact .inr (.inr ⟨rfl, _, _, rfl, inside, tail⟩)

theorem not_closed_closing {rest : List Char} : ¬Closed (')' :: rest) := by
  intro closed
  rcases closed_cons closed with ⟨_, notClosing, _⟩ | ⟨isQuote, _⟩ | ⟨isOpening, _⟩
  · exact notClosing rfl
  · cases isQuote
  · cases isOpening

/-- What stands behind a closed text, and with it is closed, is closed itself. -/
theorem Closed.of_append {a b : List Char} (first : Closed a) (both : Closed (a ++ b)) :
    Closed b := by
  induction size : a.length using Nat.strongRecOn generalizing a b with
  | ind n ih =>
    subst size
    have cancel {c d : List Char} (shorter : c.length < a.length) (hc : Closed c)
        (hd : Closed (c ++ d)) : Closed d := ih _ shorter hc hd rfl
    cases first with
    | nil => exact both
    | char notOpening notClosing bare closed =>
      rcases closed_cons both with ⟨_, _, _, both⟩ | ⟨isQuote, _⟩ | ⟨isOpening, _⟩
      · exact cancel (by simp) closed both
      · rw [isQuote] at bare
        cases bare
      · exact absurd isOpening notOpening
    | @string quote inside rest isQuote kept closed =>
      rcases closed_cons both with ⟨_, _, bare, _⟩ | ⟨_, inside', tail, spelled, kept', both⟩ |
        ⟨isOpening, _⟩
      · rw [isQuote] at bare
        cases bare
      · have text : inside ++ quote :: (rest ++ b) = inside' ++ quote :: tail := by
          rw [← spelled]
          simp
        have clean : ∀ c ∈ inside, ¬c = quote := fun c member same => kept (same ▸ member)
        have clean' : ∀ c ∈ inside', ¬c = quote := fun c member same => kept' (same ▸ member)
        obtain ⟨_, _, rfl⟩ := parts_unique clean clean' rfl rfl text
        exact cancel (by simp; omega) closed both
      · rw [isOpening] at isQuote
        cases isQuote
    | @group inside rest grouped closed =>
      rcases closed_cons both with ⟨notOpening, _⟩ | ⟨isQuote, _⟩ |
        ⟨_, inside', tail, spelled, grouped', both⟩
      · exact absurd rfl notOpening
      · cases isQuote
      · -- Two closed texts before a closing parenthesis are one: else the longer goes on with it.
        have text : inside ++ ')' :: (rest ++ b) = inside' ++ ')' :: tail := by
          rw [← spelled]
          simp
        have shorter : inside.length < ('(' :: (inside ++ ')' :: rest)).length := by
          rw [List.length_cons, List.length_append]
          omega
        have same : rest ++ b = tail := by
          rcases List.append_eq_append_iff.mp text with ⟨_ | ⟨c, more⟩, longer, others⟩ |
            ⟨_ | ⟨c, more⟩, longer, others⟩
          · exact (List.cons.inj others).2
          · obtain ⟨rfl, _⟩ := List.cons.inj others
            rw [longer] at grouped'
            exact (not_closed_closing (cancel shorter grouped grouped')).elim
          · exact (List.cons.inj others).2.symm
          · obtain ⟨rfl, _⟩ := List.cons.inj others
            have within : inside'.length ≤ inside.length := by
              rw [longer, List.length_append]
              omega
            rw [longer] at grouped
            exact (not_closed_closing
              (cancel (Nat.lt_of_le_of_lt within shorter) grouped' grouped)).elim
        exact cancel (by simp; omega) closed (same ▸ both)

/-- Outside of its parentheses a closed text has no closing one. -/
theorem Closed.head_ne_closing {a b : List Char} {c : Char} (first : Closed a)
    (both : Closed (a ++ c :: b)) : c ≠ ')' := by
  rintro rfl
  exact not_closed_closing (first.of_append both)

end Text

/-! ## Scanning -/

namespace Cursor

variable {stops words : List String}

theorem pieceFrom_cons_of_none {nesting : Nesting} {behind rest : List Char} {first : Char}
    (unmet : nesting.isOpen = true → ending? stops words ⟨behind, first :: rest⟩ = none) :
    pieceFrom stops words nesting behind (first :: rest) =
      prepend first (pieceFrom stops words (nesting.after ⟨behind, first :: rest⟩ first)
        (first :: behind) rest) := by
  have none : (if nesting.isOpen then ending? stops words ⟨behind, first :: rest⟩ else none) =
      none := by
    split
    · next isOpen => exact unmet isOpen
    · rfl
  simp only [pieceFrom, none]

theorem foldr_prepend (chars text : List Char) (ending : Ending) (d : Cursor) :
    chars.foldr prepend (.ok (text, ending, d)) = .ok (chars ++ text, ending, d) := by
  induction chars with
  | nil => rfl
  | cons first tail ih =>
    rw [List.foldr_cons, ih]
    rfl

/-- A string is passed over up to the quote that closes it. -/
theorem pieceFrom_inside {quote : Char} {opened : Cursor} {depth : Nat}
    {behind inside rest : List Char} (kept : quote ∉ inside) :
    pieceFrom stops words (.inside quote opened depth) behind (inside ++ quote :: rest) =
      (inside ++ [quote]).foldr prepend
        (pieceFrom stops words (.outside depth) (quote :: (inside.reverse ++ behind)) rest) := by
  induction inside generalizing behind with
  | nil =>
    rw [List.nil_append, pieceFrom_cons_of_none (by rintro ⟨⟩), Nesting.after, if_pos rfl]
    rfl
  | cons first tail ih =>
    obtain ⟨other, kept⟩ := not_or.mp (mt List.mem_cons.mpr kept)
    rw [List.cons_append, pieceFrom_cons_of_none (by rintro ⟨⟩), Nesting.after,
      if_neg (Ne.symm other), ih kept]
    simp

/-- Whether nothing that ends a piece is met in a text outside of its parentheses and strings. -/
def Unmet (stops words : List String) (behind text rest : List Char) : Prop :=
  ∀ before after, text = before ++ after → after ≠ [] → Text.Closed before →
    ending? stops words ⟨before.reverse ++ behind, after ++ rest⟩ = none

section Unmet

variable {behind text rest : List Char}

theorem Unmet.head {c : Char} (unmet : Unmet stops words behind (c :: text) rest) :
    ending? stops words ⟨behind, c :: (text ++ rest)⟩ = none :=
  unmet [] (c :: text) rfl (List.cons_ne_nil _ _) .nil

theorem Unmet.tail {front : List Char} (unmet : Unmet stops words behind (front ++ text) rest)
    (closes : ∀ {before}, Text.Closed before → Text.Closed (front ++ before)) :
    Unmet stops words (front.reverse ++ behind) text rest := by
  intro before after parts nonempty closed
  have there := unmet (front ++ before) after (by simp [parts]) nonempty (closes closed)
  simpa using there

/-- A closed text is passed over, if outside of all parentheses nothing is met in it. -/
theorem pieceFrom_closed (closed : Text.Closed text) {depth : Nat}
    (unmet : depth = 0 → Unmet stops words behind text rest) :
    pieceFrom stops words (.outside depth) behind (text ++ rest) =
      text.foldr prepend (pieceFrom stops words (.outside depth) (text.reverse ++ behind) rest) := by
  have top {depth : Nat} (isOpen : (Nesting.outside depth).isOpen = true) : depth = 0 := by
    simpa [Nesting.isOpen] using isOpen
  induction closed generalizing depth behind rest with
  | nil => rfl
  | @char c tail notOpening notClosing bare closed ih =>
    have after : (Nesting.outside depth).after ⟨behind, c :: (tail ++ rest)⟩ c = .outside depth := by
      simp [Nesting.after, bare, depthAfter, notOpening, notClosing]
    have behindChar (isTop : depth = 0) : Unmet stops words (c :: behind) tail rest := by
      have below : Unmet stops words behind ([c] ++ tail) rest := unmet isTop
      exact below.tail (.char notOpening notClosing bare)
    rw [List.cons_append, pieceFrom_cons_of_none fun isOpen => (unmet (top isOpen)).head, after,
      ih behindChar]
    simp
  | @string quote inside tail isQuote kept closed ih =>
    have after (here : Cursor) :
        (Nesting.outside depth).after here quote = .inside quote here depth := if_pos isQuote
    have behindString (isTop : depth = 0) :
        Unmet stops words (quote :: (inside.reverse ++ quote :: behind)) tail rest := by
      have below : Unmet stops words behind (quote :: (inside ++ [quote]) ++ tail) rest := by
        simpa using unmet isTop
      simpa using below.tail fun closed => by simpa using Text.Closed.string isQuote kept closed
    rw [List.cons_append, pieceFrom_cons_of_none fun isOpen => (unmet (top isOpen)).head, after,
      List.append_assoc, List.cons_append, pieceFrom_inside kept, ih behindString]
    simp
  | @group inside tail grouped closed inner outer =>
    have opened (here : Cursor) :
        (Nesting.outside depth).after here '(' = .outside (depth + 1) := rfl
    have closes (here : Cursor) :
        (Nesting.outside (depth + 1)).after here ')' = .outside depth := rfl
    have behindGroup (isTop : depth = 0) :
        Unmet stops words (')' :: (inside.reverse ++ '(' :: behind)) tail rest := by
      have below : Unmet stops words behind ('(' :: (inside ++ [')']) ++ tail) rest := by
        simpa using unmet isTop
      simpa using below.tail fun closed => by simpa using Text.Closed.group grouped closed
    rw [List.cons_append, pieceFrom_cons_of_none fun isOpen => (unmet (top isOpen)).head, opened,
      List.append_assoc, List.cons_append, inner (by rintro ⟨⟩),
      pieceFrom_cons_of_none (by rintro ⟨⟩), closes, outer behindGroup]
    simp

/-- A closed text is copied up to what ends it. -/
theorem piece_closed (closed : Text.Closed text) {mark : Char} {ending : Ending}
    (unmet : Unmet stops words behind text (mark :: rest))
    (met : ending? stops words ⟨text.reverse ++ behind, mark :: rest⟩ = some ending) :
    piece stops words ⟨behind, text ++ mark :: rest⟩ =
      .ok (text, ending, ⟨text.reverse ++ behind, mark :: rest⟩) := by
  have ended : pieceFrom stops words (.outside 0) (text.reverse ++ behind) (mark :: rest) =
      .ok ([], ending, ⟨text.reverse ++ behind, mark :: rest⟩) := by
    simp [pieceFrom, Nesting.isOpen, met]
  rw [piece, pieceFrom_closed closed fun _ => unmet, ended, foldr_prepend, List.append_nil]

end Unmet

/-- Whether a text closes some parentheses that were opened before it, and all of its own. -/
def Balances : Nat → List Char → Prop
  | 0, text => Text.Closed text
  | depth + 1, text =>
    ∃ inside rest, text = inside ++ ')' :: rest ∧ Text.Closed inside ∧ Balances depth rest

theorem Balances.prepend {depth : Nat} {text : List Char} (balances : Balances depth text)
    (front : List Char) (closes : ∀ {rest}, Text.Closed rest → Text.Closed (front ++ rest)) :
    Balances depth (front ++ text) := by
  cases depth with
  | zero => exact closes balances
  | succ depth =>
    obtain ⟨inside, rest, rfl, closed, below⟩ := balances
    exact ⟨front ++ inside, rest, by simp, closes closed, below⟩

/-- Whether a text leads out of a nesting. -/
def Nesting.LeftBy : Nesting → List Char → Prop
  | outside depth, text => Balances depth text
  | inside quote _ depth, text =>
    ∃ string rest, text = string ++ quote :: rest ∧ quote ∉ string ∧ Balances depth rest

theorem Nesting.LeftBy.cons {nesting : Nesting} {here : Cursor} {first : Char} {text : List Char}
    (below : (nesting.after here first).LeftBy text)
    (notClosing : nesting = .outside 0 → first ≠ ')') : nesting.LeftBy (first :: text) := by
  cases nesting with
  | inside quote opened depth =>
    by_cases same : first = quote
    · rw [after, if_pos same] at below
      exact ⟨[], text, by rw [same]; rfl, by simp, below⟩
    · rw [after, if_neg same] at below
      obtain ⟨string, rest, rfl, kept, balances⟩ := below
      exact ⟨first :: string, rest, rfl, by simp [kept, Ne.symm same], balances⟩
  | outside depth =>
    cases isQuote : Text.isQuote first with
    | true =>
      rw [after, if_pos isQuote] at below
      obtain ⟨string, rest, rfl, kept, balances⟩ := below
      show Balances depth (first :: (string ++ first :: rest))
      have whole := balances.prepend (first :: (string ++ [first])) fun closed => by
        simpa using Text.Closed.string isQuote kept closed
      simpa using whole
    | false =>
      have level : (Nesting.outside depth).after here first = .outside (depthAfter depth first) := by
        simp [after, isQuote]
      rw [level] at below
      by_cases isOpening : first = '('
      · subst isOpening
        obtain ⟨group, rest, rfl, closed, balances⟩ := below
        show Balances depth ('(' :: (group ++ ')' :: rest))
        have whole := balances.prepend ('(' :: (group ++ [')'])) fun behind => by
          simpa using Text.Closed.group closed behind
        simpa using whole
      · by_cases isClosing : first = ')'
        · subst isClosing
          cases depth with
          | zero => exact absurd rfl (notClosing rfl)
          | succ depth => exact ⟨[], text, rfl, .nil, below⟩
        · have stays : depthAfter depth first = depth := by simp [depthAfter, isOpening, isClosing]
          rw [stays] at below
          exact below.prepend [first] (.char isOpening isClosing isQuote)

/-- A piece that ends before a stop is closed. -/
theorem leftBy_of_pieceFrom (closing : ∀ behind rest, meetsAny? ⟨behind, ')' :: rest⟩ stops ≠ none)
    {nesting : Nesting} {behind ahead text : List Char} {ending : Ending} {d : Cursor}
    (found : pieceFrom stops words nesting behind ahead = .ok (text, ending, d))
    (ends : ending ≠ .finish) : nesting.LeftBy text := by
  induction ahead generalizing nesting behind text with
  | nil =>
    simp only [pieceFrom] at found
    split at found
    · cases found
      exact absurd rfl ends
    · cases found
  | cons first rest ih =>
    simp only [pieceFrom] at found
    split at found
    · next met =>
      cases found
      split at met
      · next isOpen =>
        cases nesting with
        | inside => cases isOpen
        | outside depth =>
          obtain rfl : depth = 0 := by simpa [Nesting.isOpen] using isOpen
          exact Text.Closed.nil
      · cases met
    · next unmet =>
      obtain ⟨inside, rfl, below⟩ := prepend_eq_ok found
      refine (ih below).cons ?_
      rintro rfl rfl
      simp [Nesting.isOpen, ending?, closing] at unmet

/-- Where a whole text is scanned, nothing was met in it. -/
theorem unmet_of_pieceFrom {stops words : List String} {behind text rest : List Char}
    {ending : Ending} {d : Cursor}
    (found : pieceFrom stops words (.outside 0) behind (text ++ rest) = .ok (text, ending, d)) :
    Unmet stops words behind text rest := by
  intro before
  induction size : before.length using Nat.strongRecOn generalizing before with
  | ind n ih =>
    subst size
    rintro after rfl nonempty closed
    have earlier : Unmet stops words behind before (after ++ rest) := by
      rintro front back rfl notEmpty closedFront
      have shorter : front.length < (front ++ back).length := by
        simpa using List.length_pos_iff.mpr notEmpty
      have none := ih _ shorter front rfl (back ++ after) (by simp) (by simp [nonempty]) closedFront
      simpa using none
    cases met : ending? stops words ⟨before.reverse ++ behind, after ++ rest⟩ with
    | none => rfl
    | some other =>
      -- The scan would have ended here.
      obtain ⟨first, tail, rfl⟩ := List.exists_cons_of_ne_nil nonempty
      rw [List.append_assoc] at found
      have cut := found.symm.trans (piece_closed closed earlier met)
      simp at cut

end Cursor

end StyleFlags
