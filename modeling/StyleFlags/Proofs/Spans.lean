import StyleFlags.Proofs.Closed

/-!
# What a balanced span copies

Where a balanced span ends, in terms of the text alone: `Text.Outside` says that a text closes its
strings, and at which depth it ends, and the end is the first index with such a text before it at
which a stop is met. The run over the characters, with its nesting, is compared to that once, in
`pieceFrom_cases`; a span with keywords is then a list of such pieces, with what the handler reads
between them.

Handlers run in `Handling`, with a state of their own. A span can fail in it, and so can a handler.

Results:
1. `Cursor.ends_piece`: a piece ends at the first index where something is met, or fails at a string
   that is not closed.
2. `Cursor.spliced_of_spanOf`, `Cursor.Spliced.spanOf_eq`: a span is made of splices and a last
   piece.
3. `Cursor.balanced_copies_and_splices`: what is yielded without keywords, and with a handler.
-/

namespace StyleFlags

/-! ## Outside of strings -/

namespace Text

/-- Whether a text ends outside of strings, at a depth of parentheses. Parentheses in strings do not
count, and a closing one too many does not either. -/
inductive Outside : List Char → Nat → Prop
  | nil : Outside [] 0
  | char {text : List Char} {depth : Nat} {c : Char} :
      Outside text depth → isQuote c = false → Outside (text ++ [c]) (Cursor.depthAfter depth c)
  | string {text inside : List Char} {depth : Nat} {quote : Char} :
      Outside text depth → isQuote quote = true → quote ∉ inside →
      Outside (text ++ quote :: (inside ++ [quote])) depth

/-- The depth behind a character, and the quote of the string around that place. -/
def levelAfter (level : Nat × Option Char) (c : Char) : Nat × Option Char :=
  match level.2 with
  | none => if isQuote c then (level.1, some c) else (Cursor.depthAfter level.1 c, none)
  | some quote => if c = quote then (level.1, none) else level

/-- The depth behind a text, and the quote of a string that it leaves open. -/
def level (text : List Char) : Nat × Option Char := text.foldl levelAfter (0, none)

theorem level_append (text more : List Char) :
    level (text ++ more) = more.foldl levelAfter (level text) := List.foldl_append

/-- A string stays open until its quote comes again. -/
theorem foldl_levelAfter_inside {quote : Char} {inside : List Char} (bare : quote ∉ inside)
    (depth : Nat) : inside.foldl levelAfter (depth, some quote) = (depth, some quote) := by
  induction inside with
  | nil => rfl
  | cons first tail ih =>
    obtain ⟨other, bare⟩ := not_or.mp (mt List.mem_cons.mpr bare)
    rw [List.foldl_cons, levelAfter]
    simp only [if_neg (Ne.symm other)]
    exact ih bare

theorem Outside.level_eq {text : List Char} {depth : Nat} (outside : Outside text depth) :
    level text = (depth, none) := by
  induction outside with
  | nil => rfl
  | char _ plain ih =>
    rw [level_append, ih]
    simp [levelAfter, plain]
  | string _ isQuote bare ih =>
    rw [level_append, ih, List.foldl_cons, List.foldl_append]
    simp only [levelAfter, isQuote, if_true]
    rw [foldl_levelAfter_inside bare]
    simp [levelAfter]

theorem level_of_open {text inside : List Char} {depth : Nat} {quote : Char}
    (outside : Outside text depth) (isQuote : isQuote quote = true) (bare : quote ∉ inside) :
    level (text ++ quote :: inside) = (depth, some quote) := by
  rw [level_append, outside.level_eq, List.foldl_cons]
  simp only [levelAfter, isQuote, if_true]
  exact foldl_levelAfter_inside bare depth

end Text

namespace Cursor

/-! ## The first place where something is met -/

section First

variable {α : Type} (test : Cursor → Option α) (c : Cursor)

/-- Whether a test finds nothing up to the index `n` outside of the parentheses and strings opened
since the cursor. -/
def FreeUpTo (n : Nat) : Prop :=
  ∀ j < n, Text.Outside (c.ahead.take j) 0 → test (c.advance j) = none

/-- Whether `i` is the first index, outside of the parentheses and strings opened since the cursor,
at which a test finds something. -/
structure FirstMet (i : Nat) (found : α) : Prop where
  inText : i < c.size
  outside : Text.Outside (c.ahead.take i) 0
  met : test (c.advance i) = some found
  free : FreeUpTo test c i

/-- Whether a quote at the index `i`, outside of all strings, opens a string that is not closed, and
a test finds nothing up to there. -/
structure Unclosed (i : Nat) : Prop where
  outside : ∃ depth, Text.Outside (c.ahead.take i) depth
  opens : ∃ quote rest, c.ahead.drop i = quote :: rest ∧ Text.isQuote quote = true ∧ quote ∉ rest
  free : FreeUpTo test c (i + 1)

end First

section First

variable {α : Type} {test : Cursor → Option α} {c : Cursor} {i j : Nat} {a b : α}

theorem FreeUpTo.not_met {n : Nat} (free : FreeUpTo test c n) (before : i < n)
    (outside : Text.Outside (c.ahead.take i) 0) : test (c.advance i) ≠ some a := by
  rw [free i before outside]
  exact (Option.some_ne_none a).symm

theorem FirstMet.unique (first : FirstMet test c i a) (other : FirstMet test c j b) :
    i = j ∧ a = b := by
  have same : i = j := Nat.le_antisymm
    (Nat.le_of_not_lt fun before => first.free.not_met before other.outside other.met)
    (Nat.le_of_not_lt fun before => other.free.not_met before first.outside first.met)
  subst same
  exact ⟨rfl, Option.some.inj (first.met.symm.trans other.met)⟩

theorem FreeUpTo.not_firstMet (free : FreeUpTo test c c.size) : ¬FirstMet test c i a :=
  fun first => free.not_met first.inText first.outside first.met

/-- Behind a quote that opens an unclosed string no place is outside of it. -/
theorem Unclosed.not_outside (unclosed : Unclosed test c i) (behind : i < j) (depth : Nat) :
    ¬Text.Outside (c.ahead.take j) depth := by
  intro outside
  obtain ⟨level, start⟩ := unclosed.outside
  obtain ⟨quote, rest, spelled, isQuote, bare⟩ := unclosed.opens
  obtain ⟨n, rfl⟩ := Nat.exists_eq_add_of_lt behind
  have parts : c.ahead.take (i + n + 1) = c.ahead.take i ++ quote :: rest.take n := by
    rw [Nat.add_assoc, List.take_add, spelled, List.take_succ_cons]
  have bare : quote ∉ rest.take n := fun member => bare (List.mem_of_mem_take member)
  have inside := Text.level_of_open start isQuote bare
  rw [← parts, outside.level_eq] at inside
  cases inside

theorem Unclosed.not_firstMet (unclosed : Unclosed test c i) : ¬FirstMet test c j a := by
  intro first
  by_cases behind : i < j
  · exact unclosed.not_outside behind 0 first.outside
  · exact unclosed.free.not_met (Nat.lt_succ_of_le (Nat.le_of_not_lt behind)) first.outside first.met

theorem Unclosed.lt_size (unclosed : Unclosed test c i) : i < c.size := by
  obtain ⟨quote, rest, spelled, _⟩ := unclosed.opens
  have present : c.ahead.drop i ≠ [] := by
    rw [spelled]
    exact List.cons_ne_nil _ _
  exact Nat.lt_of_not_le fun beyond => present (List.drop_eq_nil_of_le beyond)

theorem Unclosed.unique (one : Unclosed test c i) (two : Unclosed test c j) : i = j := by
  have notBefore {m n : Nat} (first : Unclosed test c m) (second : Unclosed test c n) : ¬m < n := by
    intro before
    obtain ⟨depth, outside⟩ := second.outside
    exact first.not_outside before depth outside
  exact Nat.le_antisymm (Nat.le_of_not_lt (notBefore two one))
    (Nat.le_of_not_lt (notBefore one two))

end First

/-! ## Pieces -/

section Pieces

variable {stops words : List String} {c : Cursor}

/-- Whether a nesting is that behind `front`, which lies ahead of the cursor and before `rest`. -/
def Nesting.Behind (c : Cursor) (front rest : List Char) : Nesting → Prop
  | outside depth => Text.Outside front depth
  | inside quote opened depth => ∃ before string, front = before ++ quote :: string ∧
      Text.Outside before depth ∧ Text.isQuote quote = true ∧ quote ∉ string ∧
      opened = c.passed before (quote :: (string ++ rest))

theorem Nesting.Behind.after {front rest : List Char} {first : Char} {nesting : Nesting}
    (behind : nesting.Behind c front (first :: rest)) :
    (nesting.after (c.passed front (first :: rest)) first).Behind c (front ++ [first]) rest := by
  cases nesting with
  | outside depth =>
    have outside : Text.Outside front depth := behind
    unfold Nesting.after
    cases isQuote : Text.isQuote first with
    | true => exact ⟨front, [], rfl, outside, isQuote, List.not_mem_nil, rfl⟩
    | false => exact outside.char isQuote
  | inside quote opened depth =>
    obtain ⟨before, string, rfl, outside, isQuote, bare, rfl⟩ := behind
    unfold Nesting.after
    by_cases closes : first = quote
    · subst closes
      simp only [if_true]
      show Text.Outside _ depth
      rw [List.append_assoc, List.cons_append]
      exact outside.string isQuote bare
    · simp only [if_neg closes]
      refine ⟨before, string ++ [first], ?_, outside, isQuote, ?_, ?_⟩
      · rw [List.append_assoc, List.cons_append]
      · simp [bare, Ne.symm closes]
      · rw [List.append_assoc, List.singleton_append]

theorem Nesting.Behind.isOpen_iff {front rest : List Char} {nesting : Nesting}
    (behind : nesting.Behind c front rest) : nesting.isOpen = true ↔ Text.Outside front 0 := by
  cases nesting with
  | outside depth =>
    have outside : Text.Outside front depth := behind
    constructor
    · intro isOpen
      obtain rfl : depth = 0 := by simpa [Nesting.isOpen] using isOpen
      exact outside
    · intro top
      have same := outside.level_eq.symm.trans top.level_eq
      simpa [Nesting.isOpen] using congrArg Prod.fst same
  | inside quote opened depth =>
    obtain ⟨before, string, rfl, outside, isQuote, bare, _⟩ := behind
    constructor
    · intro isOpen
      cases isOpen
    · intro top
      have same := (Text.level_of_open outside isQuote bare).symm.trans top.level_eq
      cases same

/-- A piece ends at the first index where a stop or a keyword is met, or fails at a string that is
not closed before that, or else goes to the end of the text. -/
theorem pieceFrom_cases {front rest : List Char} {nesting : Nesting}
    (ahead : c.ahead = front ++ rest) (behind : nesting.Behind c front rest)
    (free : FreeUpTo (ending? stops words) c front.length) :
    (∃ i ending, FirstMet (ending? stops words) c (front.length + i) ending ∧
      pieceFrom stops words nesting (front.reverse ++ c.behind) rest =
        .ok (rest.take i, ending, c.advance (front.length + i))) ∨
    (∃ i, Unclosed (ending? stops words) c i ∧
      pieceFrom stops words nesting (front.reverse ++ c.behind) rest =
        .error ⟨.unterminatedString, c.advance i⟩) ∨
    (FreeUpTo (ending? stops words) c c.size ∧ (∃ depth, Text.Outside c.ahead depth) ∧
      pieceFrom stops words nesting (front.reverse ++ c.behind) rest =
        .ok (rest, .finish, c.advance c.size)) := by
  -- `front` grows with each character, so that all indices count from the cursor.
  induction rest generalizing front nesting with
  | nil =>
    rw [List.append_nil] at ahead
    cases nesting with
    | outside depth =>
      have whole : c.size = front.length := congrArg List.length ahead
      refine .inr (.inr ⟨whole ▸ free, ⟨depth, ahead ▸ behind⟩, ?_⟩)
      rw [whole, advance_eq_passed (ahead.trans (List.append_nil front).symm)]
      rfl
    | inside quote opened depth =>
      obtain ⟨before, string, spelled, outside, isQuote, bare, rfl⟩ := behind
      have parts : c.ahead = before ++ quote :: string := ahead.trans spelled
      have shorter : before.length + 1 ≤ front.length := by
        rw [spelled, List.length_append, List.length_cons]
        omega
      refine .inr (.inl ⟨before.length, ⟨⟨depth, ?_⟩, ⟨quote, string, ?_, isQuote, bare⟩, ?_⟩, ?_⟩)
      · rwa [parts, List.take_left]
      · rw [parts, List.drop_left]
      · exact fun j below => free j (Nat.lt_of_lt_of_le below shorter)
      · rw [advance_eq_passed parts, List.append_nil]
        rfl
  | cons first rest ih =>
    have here : c.advance front.length = c.passed front (first :: rest) := advance_eq_passed ahead
    have taken : c.ahead.take front.length = front := by rw [ahead, List.take_left]
    by_cases met : nesting.isOpen = true ∧ ending? stops words (c.advance front.length) ≠ none
    · obtain ⟨isOpen, present⟩ := met
      obtain ⟨ending, found⟩ := Option.ne_none_iff_exists'.mp present
      refine .inl ⟨0, ending, ⟨?_, ?_, found, free⟩, ?_⟩
      · rw [Nat.add_zero, size, ahead, List.length_append, List.length_cons]
        omega
      · rw [Nat.add_zero, taken]
        exact behind.isOpen_iff.mp isOpen
      · rw [here] at found
        have ends : ending? stops words ⟨front.reverse ++ c.behind, first :: rest⟩ =
          some ending := found
        rw [Nat.add_zero, here, pieceFrom]
        simp only [isOpen, if_true, ends]
        rfl
    · have unmet (isOpen : nesting.isOpen = true) :
          ending? stops words (c.advance front.length) = none :=
        Classical.byContradiction fun present => met ⟨isOpen, present⟩
      have next : FreeUpTo (ending? stops words) c (front ++ [first]).length := by
        intro j below outside
        rw [List.length_append] at below
        rcases Nat.lt_or_eq_of_le (Nat.le_of_lt_succ below) with before | rfl
        · exact free j before outside
        · rw [taken] at outside
          exact unmet (behind.isOpen_iff.mpr outside)
      have goesOn : pieceFrom stops words nesting (front.reverse ++ c.behind) (first :: rest) =
          prepend first (pieceFrom stops words
            (nesting.after (c.passed front (first :: rest)) first)
            ((front ++ [first]).reverse ++ c.behind) rest) := by
        rw [here] at unmet
        rw [pieceFrom_cons_of_none unmet, List.reverse_append]
        rfl
      have ahead' : c.ahead = (front ++ [first]) ++ rest := by
        rw [ahead, List.append_assoc, List.singleton_append]
      rw [goesOn]
      rcases ih ahead' behind.after next with ⟨i, ending, first', found⟩ | ⟨i, unclosed, found⟩ |
        ⟨free', closed, found⟩
      · rw [List.length_append, List.length_singleton, Nat.add_assoc, Nat.add_comm 1 i]
          at first' found
        exact .inl ⟨i + 1, ending, first', by rw [found]; rfl⟩
      · exact .inr (.inl ⟨i, unclosed, by rw [found]; rfl⟩)
      · exact .inr (.inr ⟨free', closed, by rw [found]; rfl⟩)

/-- How a piece comes out: it ends at the first index where something is met outside of parentheses
and strings, or fails at a string that is not closed, or goes to the end of the text. -/
inductive Ends (stops words : List String) (c : Cursor) : Except Fault Piece → Prop
  | met {i : Nat} {ending : Ending} : FirstMet (ending? stops words) c i ending →
      Ends stops words c (.ok (c.ahead.take i, ending, c.advance i))
  | unclosed {i : Nat} : Unclosed (ending? stops words) c i →
      Ends stops words c (.error ⟨.unterminatedString, c.advance i⟩)
  | finish : FreeUpTo (ending? stops words) c c.size → (∀ i, ¬Unclosed (ending? stops words) c i) →
      Ends stops words c (.ok (c.ahead, .finish, c.advance c.size))

theorem ends_piece (stops words : List String) (c : Cursor) :
    Ends stops words c (c.piece stops words) := by
  have start : (Nesting.outside 0).Behind c [] c.ahead := Text.Outside.nil
  have free : FreeUpTo (ending? stops words) c 0 := fun j below => absurd below (Nat.not_lt_zero j)
  rcases pieceFrom_cases rfl start free with ⟨i, ending, first, found⟩ | ⟨i, unclosed, found⟩ |
    ⟨free, closed, found⟩
  · rw [List.length_nil, Nat.zero_add] at first found
    rw [piece, show pieceFrom _ _ _ c.behind c.ahead = _ from found]
    exact .met first
  · rw [piece, show pieceFrom _ _ _ c.behind c.ahead = _ from found]
    exact .unclosed unclosed
  · rw [piece, show pieceFrom _ _ _ c.behind c.ahead = _ from found]
    obtain ⟨depth, outside⟩ := closed
    refine .finish free fun i unclosed => unclosed.not_outside unclosed.lt_size depth ?_
    rwa [size, List.take_length]

theorem Ends.unique {one two : Except Fault Piece} (first : Ends stops words c one)
    (second : Ends stops words c two) : one = two := by
  cases first with
  | met met =>
    cases second with
    | met other =>
      obtain ⟨rfl, rfl⟩ := met.unique other
      rfl
    | unclosed unclosed => exact absurd met unclosed.not_firstMet
    | finish free _ => exact absurd met free.not_firstMet
  | unclosed unclosed =>
    cases second with
    | met other => exact absurd other unclosed.not_firstMet
    | unclosed other => rw [unclosed.unique other]
    | finish _ closed => exact absurd unclosed (closed _)
  | finish free closed =>
    cases second with
    | met other => exact absurd other free.not_firstMet
    | unclosed unclosed => exact absurd unclosed (closed _)
    | finish => rfl

theorem piece_eq_iff {result : Except Fault Piece} :
    c.piece stops words = result ↔ Ends stops words c result :=
  ⟨fun same => same ▸ ends_piece stops words c, fun ends => (ends_piece stops words c).unique ends⟩

end Pieces

/-! ## Tests that find the same -/

section Tests

variable {α β : Type} {test : Cursor → Option α} {other : Cursor → Option β} {f : α → β}
  {c : Cursor}

theorem freeUpTo_congr (same : ∀ d, other d = (test d).map f) {n : Nat} :
    FreeUpTo other c n ↔ FreeUpTo test c n := by
  simp only [FreeUpTo, same, Option.map_eq_none_iff]

theorem unclosed_congr (same : ∀ d, other d = (test d).map f) {i : Nat} :
    Unclosed other c i ↔ Unclosed test c i :=
  ⟨fun u => ⟨u.outside, u.opens, (freeUpTo_congr same).mp u.free⟩,
    fun u => ⟨u.outside, u.opens, (freeUpTo_congr same).mpr u.free⟩⟩

theorem firstMet_congr (same : ∀ d, other d = (test d).map f) {i : Nat} {b : β} :
    FirstMet other c i b ↔ ∃ a, f a = b ∧ FirstMet test c i a := by
  constructor
  · intro first
    have met := first.met
    rw [same, Option.map_eq_some_iff] at met
    obtain ⟨a, met, image⟩ := met
    exact ⟨a, image, first.inText, first.outside, met, (freeUpTo_congr same).mp first.free⟩
  · rintro ⟨a, rfl, first⟩
    refine ⟨first.inText, first.outside, ?_, (freeUpTo_congr same).mpr first.free⟩
    rw [same, first.met]
    rfl

/-- Without keywords, only stops are met. -/
theorem ending?_nil (stops : List String) (d : Cursor) :
    ending? stops [] d = (d.meetsAny? stops).map .stop := by
  show ((d.meetsAny? stops).map Ending.stop).or none = _
  exact Option.or_none

end Tests

/-! ## Handlers -/

/-- Why a call ends early: it fails and leaves the cursor at a place, or a handler has not moved. -/
inductive Halt where
  | failed (error : CompileError) (place : Cursor)
  | idle
deriving DecidableEq, Repr

/-- What a handler does. It has a state of its own, which stays when it fails. -/
abbrev Handling (σ : Type) := ExceptT Halt (StateM σ)

namespace Handling

variable {σ α β : Type}

instance : MonadLift (Except Fault) (Handling σ) where
  monadLift result :=
    ExceptT.mk (pure (result.mapError fun fault => Halt.failed fault.error fault.place))

/-- The result that is reached from a state, and the state behind it. -/
def answer (x : Handling σ α) (state : σ) : Except Halt α × σ := (ExceptT.run x).run state

theorem answer_pure (a : α) (state : σ) :
    answer (pure a : Handling σ α) state = (.ok a, state) := rfl

theorem answer_lift (fault : Fault) (state : σ) :
    answer (liftM (Except.error fault : Except Fault α) : Handling σ α) state =
      (.error (.failed fault.error fault.place), state) := rfl

theorem answer_bind_of_ok {x : Handling σ α} {f : α → Handling σ β} {state after : σ} {a : α}
    (reached : x.answer state = (.ok a, after)) : (x >>= f).answer state = (f a).answer after := by
  unfold answer at reached ⊢
  rw [ExceptT.run_bind, StateT.run_bind, reached]
  rfl

theorem answer_bind_of_error {x : Handling σ α} {f : α → Handling σ β} {state after : σ}
    {halt : Halt} (halted : x.answer state = (.error halt, after)) :
    (x >>= f).answer state = (.error halt, after) := by
  unfold answer at halted ⊢
  rw [ExceptT.run_bind, StateT.run_bind, halted]
  rfl

theorem answer_bind_eq_ok {x : Handling σ α} {f : α → Handling σ β} {state last : σ} {b : β} :
    (x >>= f).answer state = (.ok b, last) ↔
      ∃ a after, x.answer state = (.ok a, after) ∧ (f a).answer after = (.ok b, last) := by
  constructor
  · intro reached
    cases first : x.answer state with
    | mk result after =>
      cases result with
      | error halt =>
        rw [answer_bind_of_error first] at reached
        cases reached
      | ok a =>
        rw [answer_bind_of_ok first] at reached
        exact ⟨a, after, rfl, reached⟩
  · intro reached
    obtain ⟨a, after, first, reached⟩ := reached
    rw [answer_bind_of_ok first, reached]

end Handling

/-! ## Balanced spans -/

section Balanced

variable {m : Type → Type} [Monad m] [MonadLiftT (Except Fault) m] {stops keywords : List String}
  {limit : Nat} {handle : String → (d : Cursor) → d.size ≤ limit → m (List Char × d.Shorter)}
  {c d : Cursor} {within : c.size ≤ limit} {text : List Char}

theorem balanced_of_error {fault : Fault} (read : c.piece stops keywords = .error fault) :
    c.balanced stops keywords limit handle within =
      liftM (Except.error fault : Except Fault (Balanced c)) := by
  rw [balanced]
  split <;> next found => cases found.symm.trans read <;> rfl

theorem balanced_of_finish (read : c.piece stops keywords = .ok (text, .finish, d)) :
    c.balanced stops keywords limit handle within = pure ⟨text, none, ⟨d, size_piece read⟩⟩ := by
  rw [balanced]
  split <;> next found => cases found.symm.trans read <;> rfl

theorem balanced_of_stop {stop : String}
    (read : c.piece stops keywords = .ok (text, .stop stop, d)) :
    c.balanced stops keywords limit handle within =
      pure ⟨text, some stop, ⟨d, size_piece read⟩⟩ := by
  rw [balanced]
  split <;> next found => cases found.symm.trans read <;> rfl

theorem size_handled (e : d.Shorter) {ending : Ending}
    (read : c.piece stops keywords = .ok (text, ending, d)) : e.val.size ≤ c.size :=
  Nat.le_trans (Nat.le_of_lt e.property) (size_piece read)

theorem balanced_of_keyword {keyword : String}
    (read : c.piece stops keywords = .ok (text, .keyword keyword, d)) :
    c.balanced stops keywords limit handle within =
      handle keyword d (Nat.le_trans (size_piece read) within) >>= fun handled =>
        handled.2.val.balanced stops keywords limit handle
          (Nat.le_trans (size_handled handled.2 read) within) >>= fun rest =>
            pure ⟨text ++ handled.1 ++ rest.text, rest.stop, ⟨rest.place.val,
              Nat.le_trans rest.place.property (size_handled handled.2 read)⟩⟩ := by
  rw [balanced]
  split <;> next found => cases found.symm.trans read <;> rfl

end Balanced

/-- Text that a handler takes the place of: what is copied before it, what it reads and what it
yields. -/
structure Splice where
  copied : List Char
  consumed : List Char
  output : List Char

section Splices

variable {σ : Type} (stops keywords : List String) {limit : Nat}
  (handle : String → (d : Cursor) → d.size ≤ limit → Handling σ (List Char × d.Shorter))

/-- Whether a handler stays in the text. That it moves on is in its type. -/
def Advances : Prop := ∀ keyword d within state output e after,
  (handle keyword d within).answer state = (.ok (output, e), after) → e.val.source = d.source

/-- Whether a span is made of splices and a last piece, `last`. Each splice copies up to the first
index, outside of the parentheses and strings since the splice before, where a stop or a keyword is
met; this is a keyword, and the handler is called there. The last piece goes up to a stop, or to the
end. -/
inductive Spliced : Cursor → σ → List Splice → List Char → Option String → Cursor → σ → Prop
  | stopped {c : Cursor} {state : σ} {i : Nat} {stop : String} :
      FirstMet (ending? stops keywords) c i (.stop stop) →
      Spliced c state [] (c.ahead.take i) (some stop) (c.advance i) state
  | finished {c : Cursor} {state : σ} :
      FreeUpTo (ending? stops keywords) c c.size → (∀ i, ¬Unclosed (ending? stops keywords) c i) →
      Spliced c state [] c.ahead none (c.advance c.size) state
  | spliced {c d : Cursor} {state after final : σ} {i : Nat} {keyword : String}
      {output last : List Char} {e : (c.advance i).Shorter} {splices : List Splice}
      {stop : Option String} (within) :
      FirstMet (ending? stops keywords) c i (.keyword keyword) →
      (handle keyword (c.advance i) within).answer state = (.ok (output, e), after) →
      Spliced e.val after splices last stop d final →
      Spliced c state (⟨c.ahead.take i, (c.advance i).ahead.take ((c.advance i).size - e.val.size),
        output⟩ :: splices) last stop d final

end Splices

/-- The text of a span, the stop that it ends before and the place of it, with the state behind
it. -/
def spanOf {σ : Type} {c : Cursor} (span : Handling σ (Balanced c)) (state : σ) :
    Except Halt (List Char × Option String × Cursor) × σ :=
  ((span.answer state).1.map fun b => (b.text, b.stop, b.place.val), (span.answer state).2)

section Splices

variable {σ : Type} {stops keywords : List String} {limit : Nat}
  {handle : String → (d : Cursor) → d.size ≤ limit → Handling σ (List Char × d.Shorter)}
  {c d : Cursor} {state final : σ} {text last : List Char} {stop : Option String}
  {splices : List Splice}

theorem spanOf_eq_ok {span : Handling σ (Balanced c)} :
    spanOf span state = (.ok (text, stop, d), final) ↔ ∃ b, span.answer state = (.ok b, final) ∧
      b.text = text ∧ b.stop = stop ∧ b.place.val = d := by
  unfold spanOf
  cases span.answer state with
  | mk result after =>
    constructor
    · intro same
      cases result with
      | error halt => cases same
      | ok b =>
        cases same
        exact ⟨b, rfl, rfl, rfl, rfl⟩
    · intro reached
      obtain ⟨b, same, rfl, rfl, rfl⟩ := reached
      cases same
      rfl

theorem ending?_ne_finish (e : Cursor) : ending? stops keywords e ≠ some .finish := by
  unfold ending?
  cases e.meetsAny? stops with
  | some stop => exact fun same => by cases same
  | none =>
    cases e.meetsAny? keywords with
    | some keyword => exact fun same => by cases same
    | none => exact fun same => by cases same

theorem spliced_of_spanOf (within : c.size ≤ limit)
    (spanned : spanOf (c.balanced stops keywords limit handle within) state =
      (.ok (text, stop, d), final)) :
    ∃ splices last, Spliced stops keywords handle c state splices last stop d final ∧
      text = splices.flatMap (fun s => s.copied ++ s.output) ++ last := by
  -- By the size, as the handler leaves less ahead than lay at its keyword.
  induction size : c.size using Nat.strongRecOn generalizing c state text with
  | ind n ih =>
    subst size
    obtain ⟨b, reached, rfl, rfl, rfl⟩ := spanOf_eq_ok.mp spanned
    have ends := ends_piece stops keywords c
    generalize read : c.piece stops keywords = result at ends
    cases ends with
    | unclosed unclosed =>
      rw [balanced_of_error read, Handling.answer_lift] at reached
      cases reached
    | finish free closed =>
      rw [balanced_of_finish read, Handling.answer_pure] at reached
      cases reached
      exact ⟨[], c.ahead, .finished free closed, rfl⟩
    | @met i ending first =>
      cases ending with
      | finish => exact absurd first.met (ending?_ne_finish _)
      | stop stop =>
        rw [balanced_of_stop read, Handling.answer_pure] at reached
        cases reached
        exact ⟨[], c.ahead.take i, .stopped first, rfl⟩
      | keyword keyword =>
        rw [balanced_of_keyword read] at reached
        obtain ⟨⟨output, e⟩, after, handled, reached⟩ := Handling.answer_bind_eq_ok.mp reached
        obtain ⟨rest, final', spanned, reached⟩ := Handling.answer_bind_eq_ok.mp reached
        rw [Handling.answer_pure] at reached
        cases reached
        have shorter : e.val.size < c.size :=
          Nat.lt_of_lt_of_le e.property (size_piece read)
        obtain ⟨splices, last, spliced, text⟩ := ih _ shorter _
          (spanOf_eq_ok.mpr ⟨rest, spanned, rfl, rfl, rfl⟩) rfl
        refine ⟨_, last, .spliced _ first handled spliced, ?_⟩
        simp [text]

theorem Spliced.spanOf_eq
    (spliced : Spliced stops keywords handle c state splices last stop d final)
    (within : c.size ≤ limit) :
    spanOf (c.balanced stops keywords limit handle within) state =
      (.ok (splices.flatMap (fun s => s.copied ++ s.output) ++ last, stop, d), final) := by
  induction spliced with
  | stopped first =>
    rw [balanced_of_stop (piece_eq_iff.mpr (.met first))]
    rfl
  | finished free closed =>
    rw [balanced_of_finish (piece_eq_iff.mpr (.finish free closed))]
    rfl
  | @spliced c d state after final i keyword output last e splices stop below first handled _ ih =>
    have read := piece_eq_iff.mpr (.met first)
    obtain ⟨rest, spanned, text, rfl, rfl⟩ := spanOf_eq_ok.mp
      (ih (Nat.le_trans (Nat.le_of_lt e.property) below))
    rw [spanOf, balanced_of_keyword read, Handling.answer_bind_of_ok handled,
      Handling.answer_bind_of_ok spanned, Handling.answer_pure]
    show (Except.ok (c.ahead.take i ++ output ++ rest.text, rest.stop, rest.place.val), final) = _
    rw [text, List.flatMap_cons]
    simp only [List.append_assoc]

/-- A place further on in the same text is behind what was read up to it. -/
theorem ahead_eq_of_source {e : Cursor} (same : e.source = c.source) (shorter : e.size ≤ c.size) :
    c.ahead = c.ahead.take (c.size - e.size) ++ e.ahead := by
  have here : c.ahead <:+ c.source := List.suffix_append _ _
  have there : e.ahead <:+ c.source := same ▸ List.suffix_append _ _
  obtain ⟨front, parts⟩ := List.suffix_of_suffix_length_le there here shorter
  have length : c.size - e.size = front.length := by
    show c.ahead.length - e.ahead.length = front.length
    rw [← parts, List.length_append, Nat.add_sub_cancel]
  rw [length, ← parts, List.take_left]

/-- The text of the source is copied, but for what the handler reads. -/
theorem Spliced.ahead_eq (spliced : Spliced stops keywords handle c state splices last stop d final)
    (advances : Advances handle) :
    c.ahead = splices.flatMap (fun s => s.copied ++ s.consumed) ++ (last ++ d.ahead) ∧
      ∀ s ∈ splices, s.consumed ≠ [] := by
  induction spliced with
  | @stopped c _ i _ _ => exact ⟨(List.take_append_drop i c.ahead).symm, by simp⟩
  | @finished c _ _ _ =>
    refine ⟨?_, by simp⟩
    show c.ahead = c.ahead ++ c.ahead.drop c.ahead.length
    rw [List.drop_length, List.append_nil]
  | @spliced c d state after final i keyword output last e splices stop below first handled _ ih =>
    obtain ⟨rest, consumed⟩ := ih
    have read := ahead_eq_of_source (advances _ _ _ _ _ _ _ handled) (Nat.le_of_lt e.property)
    constructor
    · have parts : c.ahead = c.ahead.take i ++ (c.advance i).ahead :=
        (List.take_append_drop i c.ahead).symm
      rw [rest] at read
      rw [List.flatMap_cons, List.append_assoc, List.append_assoc, ← read]
      exact parts
    · refine List.forall_mem_cons.mpr ⟨?_, consumed⟩
      have more : e.val.ahead.length < (c.advance i).ahead.length := e.property
      intro none
      rcases List.take_eq_nil_iff.mp none with nothing | nothing
      · exact absurd (Nat.le_of_sub_eq_zero nothing) (Nat.not_le.mpr more)
      · rw [nothing] at more
        exact absurd more (Nat.not_lt_zero _)

/-- How a span without keywords comes out. It ends at the first index where a stop is met outside of
the parentheses and strings opened since the cursor, or fails at a string that is not closed, or
goes to the end of the text. -/
inductive Copied (stops : List String) (c : Cursor) :
    Except Halt (List Char × Option String × Cursor) → Prop
  | stopped {i : Nat} {stop : String} : FirstMet (·.meetsAny? stops) c i stop →
      Copied stops c (.ok (c.ahead.take i, some stop, c.advance i))
  | failed {i : Nat} : Unclosed (·.meetsAny? stops) c i →
      Copied stops c
        (.error (.failed (.lex (c.advance i).position .unterminatedString) (c.advance i)))
  | finished : FreeUpTo (·.meetsAny? stops) c c.size → (∀ i, ¬Unclosed (·.meetsAny? stops) c i) →
      Copied stops c (.ok (c.ahead, none, c.advance c.size))

theorem exists_copied (stops : List String) (c : Cursor) : ∃ result, Copied stops c result := by
  have same := ending?_nil stops
  have ends := ends_piece stops [] c
  generalize c.piece stops [] = result at ends
  cases ends with
  | met first =>
    obtain ⟨stop, _, first⟩ := (firstMet_congr same).mp first
    exact ⟨_, .stopped first⟩
  | unclosed unclosed => exact ⟨_, .failed ((unclosed_congr same).mp unclosed)⟩
  | finish free closed =>
    exact ⟨_, .finished ((freeUpTo_congr same).mp free)
      fun i => mt (unclosed_congr same).mpr (closed i)⟩

theorem Copied.spanOf_eq {result : Except Halt (List Char × Option String × Cursor)}
    (copied : Copied stops c result) (within : c.size ≤ limit) :
    spanOf (c.balanced stops [] limit handle within) state = (result, state) := by
  have same := ending?_nil stops
  cases copied with
  | stopped first =>
    have read := piece_eq_iff.mpr (.met ((firstMet_congr same).mpr ⟨_, rfl, first⟩))
    rw [balanced_of_stop read]
    rfl
  | failed unclosed =>
    have read := piece_eq_iff.mpr (.unclosed ((unclosed_congr same).mpr unclosed))
    rw [balanced_of_error read]
    rfl
  | finished free closed =>
    have read := piece_eq_iff.mpr (.finish ((freeUpTo_congr same).mpr free)
      fun i => mt (unclosed_congr same).mp (closed i))
    rw [balanced_of_finish read]
    rfl

/-- Without keywords, a span goes up to the first stop outside of the parentheses and strings opened
since the cursor, or to the end of the text, or fails at a string that is not closed before that.
With keywords, and a handler that moves on in the text, what is yielded is the text passed, with the
output of the handler in the place of what it has read. -/
theorem balanced_copies_and_splices {σ : Type} (stops : List String) (c : Cursor) (state : σ)
    (handle : String → (d : Cursor) → d.size ≤ c.size → Handling σ (List Char × d.Shorter)) :
    (∀ result final,
      spanOf (c.balanced stops [] c.size handle (Nat.le_refl _)) state = (result, final) ↔
        Copied stops c result ∧ final = state) ∧
    (Advances handle → ∀ keywords text stop d final,
      spanOf (c.balanced stops keywords c.size handle (Nat.le_refl _)) state =
          (.ok (text, stop, d), final) ↔
        ∃ splices last, Spliced stops keywords handle c state splices last stop d final ∧
          (∀ s ∈ splices, s.consumed ≠ []) ∧
          c.ahead = splices.flatMap (fun s => s.copied ++ s.consumed) ++ (last ++ d.ahead) ∧
          text = splices.flatMap (fun s => s.copied ++ s.output) ++ last) := by
  refine ⟨fun result final => ?_, fun advances keywords text stop d final => ?_⟩
  · constructor
    · intro spanned
      obtain ⟨other, copied⟩ := exists_copied stops c
      rw [copied.spanOf_eq] at spanned
      cases spanned
      exact ⟨copied, rfl⟩
    · intro found
      obtain ⟨copied, rfl⟩ := found
      exact copied.spanOf_eq _
  · constructor
    · intro spanned
      obtain ⟨splices, last, spliced, text⟩ := spliced_of_spanOf _ spanned
      obtain ⟨ahead, consumed⟩ := spliced.ahead_eq advances
      exact ⟨splices, last, spliced, consumed, ahead, text⟩
    · intro found
      obtain ⟨splices, last, spliced, _, _, rfl⟩ := found
      exact spliced.spanOf_eq _

end Splices

/-- A handler that counts its calls, and moves over the next closing parenthesis. -/
def exCounting (_ : String) (d : Cursor) : Handling Nat (List Char × d.Shorter) := do
  let e := (d.skip (· != ')')).advance 1
  if shorter : e.size < d.size then
    modify (· + 1)
    return (("[" ++ toString (← get) ++ "]").toList, ⟨e, shorter⟩)
  else throw .idle

def exSpliced : Cursor := start "a if(b,c) d match('e') f, g"

theorem advances_exCounting {limit : Nat}
    {handle : String → (d : Cursor) → d.size ≤ limit → Handling Nat (List Char × d.Shorter)}
    (same : handle = fun keyword d _ => exCounting keyword d) : Advances handle := by
  subst same
  intro keyword d _ state output e after reached
  by_cases shorter : ((d.skip (· != ')')).advance 1).size < d.size
  · have found : (exCounting keyword d).answer state =
        (.ok (("[" ++ toString (state + 1) ++ "]").toList, ⟨_, shorter⟩), state + 1) := by
      simp only [exCounting, dif_pos shorter]
      rfl
    cases found.symm.trans reached
    show ((d.advance _).advance 1).source = d.source
    rw [source_advance, source_advance]
  · have found : (exCounting keyword d).answer state = (.error .idle, state) := by
      simp only [exCounting, dif_neg shorter]
      rfl
    cases found.symm.trans reached

theorem balanced_copies_and_splices_exCounting :
    spanOf (exSpliced.balanced [","] ["if", "match"] exSpliced.size (fun k d _ => exCounting k d)
      (Nat.le_refl _)) 0 = (.ok ("a [1] d [2] f".toList, some ",", exSpliced.advance 24), 2) ∧
    ∃ (splices : List Splice) (last : List Char), exSpliced.ahead =
        splices.flatMap (fun s => s.copied ++ s.consumed) ++ (last ++ ", g".toList) ∧
      "a [1] d [2] f".toList = splices.flatMap (fun s => s.copied ++ s.output) ++ last := by
  have spanned : spanOf (exSpliced.balanced [","] ["if", "match"] exSpliced.size
      (fun k d _ => exCounting k d) (Nat.le_refl _)) 0 =
        (.ok ("a [1] d [2] f".toList, some ",", exSpliced.advance 24), 2) :=
    Prod.ext (eq_ok_of_toOption (by decide +kernel)) (by decide +kernel)
  obtain ⟨splices, last, _, _, ahead, text⟩ := ((balanced_copies_and_splices [","] exSpliced 0
    (fun k d _ => exCounting k d)).2 (advances_exCounting rfl) _ _ _ _ _).mp spanned
  exact ⟨spanned, splices, last, ahead, text⟩

end Cursor

end StyleFlags
