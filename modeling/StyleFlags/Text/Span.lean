import StyleFlags.Text.Token

/-!
# Spans of raw text

Copies text up to a stop, without reading tokens. A stop that begins like an
identifier is a keyword: it has to stand by itself, with a parenthesis after it.
A balanced span passes over parentheses and strings, and hands each keyword
that it meets outside of them to a handler, whose text takes the place of what
the handler has read.
-/

namespace StyleFlags.Cursor

/-! ## Stops -/

/-- Whether a stop stands at the cursor. A keyword needs no word before it and a parenthesis after
it. -/
def meets (c : Cursor) (stop : String) : Bool :=
  let wanted := stop.toList
  wanted.isPrefixOf c.ahead &&
    if wanted.head?.any Text.isNameStart then
      let after := c.ahead.drop wanted.length
      !c.behind.head?.any Text.isWord && !after.head?.any Text.isWord &&
        (after.dropWhile Text.isGap).head? == some '('
    else true

/-- The first of several stops that stands at the cursor. -/
def meetsAny? (c : Cursor) (stops : List String) : Option String := stops.find? c.meets

/-- Copies text up to the first stop. -/
def upToFrom (stops : List String) (behind : List Char) :
    List Char → List Char × Option String × Cursor
  | [] => ([], none, ⟨behind, []⟩)
  | first :: rest =>
    match meetsAny? ⟨behind, first :: rest⟩ stops with
    | some stop => ([], some stop, ⟨behind, first :: rest⟩)
    | none =>
      let (text, stop, d) := upToFrom stops (first :: behind) rest
      (first :: text, stop, d)

/-- Copies text up to the first stop, and stays before it; without a stop, all that is left. -/
def upTo (stops : List String) (c : Cursor) : List Char × Option String × Cursor :=
  upToFrom stops c.behind c.ahead

theorem size_upToFrom (stops : List String) (behind ahead : List Char) :
    (upToFrom stops behind ahead).2.2.size ≤ ahead.length := by
  induction ahead generalizing behind with
  | nil => simp [upToFrom, size]
  | cons first rest ih =>
    simp only [upToFrom]
    split
    · simp [size]
    · exact Nat.le_succ_of_le (ih (first :: behind))

theorem size_upTo (stops : List String) (c : Cursor) : (c.upTo stops).2.2.size ≤ c.size :=
  size_upToFrom stops c.behind c.ahead

/-! ## Pieces of balanced spans -/

/-- How a piece of a balanced span ends. -/
inductive Ending where
  | stop (stop : String)
  | keyword (keyword : String)
  | finish
deriving DecidableEq, Repr

/-- The stop or else the keyword that stands at the cursor. -/
def ending? (stops keywords : List String) (c : Cursor) : Option Ending :=
  ((c.meetsAny? stops).map .stop).or ((c.meetsAny? keywords).map .keyword)

/-- The parentheses and the string around a place: their depth, and the quote of the string with the
place where it was opened. -/
inductive Nesting where
  | outside (depth : Nat)
  | inside (quote : Char) (opened : Cursor) (depth : Nat)
deriving DecidableEq, Repr

/-- The depth of parentheses behind a character. A closing one too many does not count. -/
def depthAfter (depth : Nat) (c : Char) : Nat :=
  if c = '(' then depth + 1 else if c = ')' then depth - 1 else depth

/-- The nesting behind the character `first`. -/
def Nesting.after (nesting : Nesting) (here : Cursor) (first : Char) : Nesting :=
  match nesting with
  | outside depth =>
    if Text.isQuote first then inside first here depth else outside (depthAfter depth first)
  | inside quote opened depth =>
    if first = quote then outside depth else inside quote opened depth

/-- Where a piece can end: outside of all parentheses and strings. -/
def Nesting.isOpen : Nesting → Bool
  | outside depth => depth == 0
  | inside _ _ _ => false

/-- A piece of text, how it ends, and where. -/
abbrev Piece := List Char × Ending × Cursor

/-- A piece with one more character before it. -/
def prepend (first : Char) : Except Fault Piece → Except Fault Piece
  | .ok (text, ending, d) => .ok (first :: text, ending, d)
  | .error fault => .error fault

/-- Copies text up to a stop or a keyword that is outside of all parentheses and strings. -/
def pieceFrom (stops keywords : List String) (nesting : Nesting) (behind : List Char) :
    List Char → Except Fault Piece
  | [] =>
    match nesting with
    | .outside _ => .ok ([], .finish, ⟨behind, []⟩)
    | .inside _ opened _ => .error ⟨.unterminatedString, opened⟩
  | first :: rest =>
    let here : Cursor := ⟨behind, first :: rest⟩
    match if nesting.isOpen then here.ending? stops keywords else none with
    | some ending => .ok ([], ending, here)
    | none =>
      prepend first
        (pieceFrom stops keywords (nesting.after here first) (first :: behind) rest)

/-- Copies text up to a stop or a keyword that is outside of the parentheses and strings opened
since the cursor, and stays before it. -/
def piece (stops keywords : List String) (c : Cursor) : Except Fault Piece :=
  pieceFrom stops keywords (.outside 0) c.behind c.ahead

theorem prepend_eq_ok {first : Char} {result : Except Fault Piece} {text : List Char}
    {ending : Ending} {d : Cursor} (joined : prepend first result = .ok (text, ending, d)) :
    ∃ rest, text = first :: rest ∧ result = .ok (rest, ending, d) := by
  unfold prepend at joined
  split at joined
  · cases joined
    exact ⟨_, rfl, rfl⟩
  · cases joined

theorem size_pieceFrom {stops keywords : List String} {nesting : Nesting}
    {behind ahead text : List Char} {ending : Ending} {d : Cursor}
    (read : pieceFrom stops keywords nesting behind ahead = .ok (text, ending, d)) :
    d.size ≤ ahead.length := by
  induction ahead generalizing nesting behind text with
  | nil =>
    simp only [pieceFrom] at read
    split at read
    · cases read
      simp [size]
    · cases read
  | cons first rest ih =>
    simp only [pieceFrom] at read
    split at read
    · cases read
      simp [size]
    · obtain ⟨_, _, below⟩ := prepend_eq_ok read
      exact Nat.le_succ_of_le (ih below)

theorem size_piece {stops keywords : List String} {c d : Cursor} {text : List Char}
    {ending : Ending} (read : c.piece stops keywords = .ok (text, ending, d)) :
    d.size ≤ c.size := size_pieceFrom read

/-! ## Balanced spans -/

/-- A balanced span: its text, the stop it ends before, and the place of it. -/
structure Balanced (c : Cursor) where
  text : List Char
  stop : Option String
  place : c.NotLonger

/-- Copies text up to a stop outside of parentheses and strings. Each keyword met on the way is
handed on; the handler has to move past it, and its text takes the place of what it has read.
`limit` bounds the places that the handler is called at. -/
def balanced {m : Type → Type} [Monad m] [MonadLiftT (Except Fault) m]
    (stops keywords : List String) (limit : Nat)
    (handle : String → (d : Cursor) → d.size ≤ limit → m (List Char × d.Shorter))
    (c : Cursor) (within : c.size ≤ limit) : m (Balanced c) :=
  match read : c.piece stops keywords with
  | .error fault => liftM (Except.error fault : Except Fault (Balanced c))
  | .ok (text, .finish, d) => pure ⟨text, none, ⟨d, size_piece read⟩⟩
  | .ok (text, .stop stop, d) => pure ⟨text, some stop, ⟨d, size_piece read⟩⟩
  | .ok (text, .keyword keyword, d) =>
    have bound := size_piece read
    do
      let (spliced, ⟨e, shorter⟩) ← handle keyword d (Nat.le_trans bound within)
      let rest ← balanced stops keywords limit handle e (by omega)
      return ⟨text ++ spliced ++ rest.text, rest.stop,
        ⟨rest.place.val, by have := rest.place.property; omega⟩⟩
termination_by c.size

end StyleFlags.Cursor
