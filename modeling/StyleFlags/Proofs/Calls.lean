import StyleFlags.Proofs.Crossing

/-!
# Calls on the bytes of a text

A `Script` makes calls one after the other, in any order, and goes on behind failed ones. Its
handlers are scripts that make calls of their own, so spans may be nested. Scripts are run on a
cursor, and on the bytes of a text with an offset for the place. The latter records the offset behind
each call and both ends of each piece that is cut out of the text, and it breaks off where the text
cannot be cut.

Results:
1. `Cursor.position_lt_iff`: places in a text are in the order of their positions.
2. `Buffer.follows_balancedFrom`: a span comes to the same on bytes, if its handler does.
3. `Script.follows_run`: so does a script.
4. `Script.calls_on_boundaries`: on bytes, every script keeps to the boundaries of characters.
-/

namespace StyleFlags

open Key (encoded encoded_append)
open Trace (Reaches reaches_pure reaches_halt reaches_mark)

/-- What a call comes to: its result, the state of the handlers behind it, and the place. -/
structure Finish (α σ π : Type) where
  result : Except CompileError α
  state : σ
  place : π

namespace Finish

variable {α σ : Type}

/-- With the position in the place of the cursor. -/
def located (f : Finish α σ Cursor) : Finish α σ Nat := ⟨f.result, f.state, f.place.position⟩

/-- What a call comes to when it is made on bytes; without a result, a handler has not moved on. -/
def outcome (found : Option (Finish α σ Cursor)) : Except Break (Finish α σ Nat) :=
  found.elim (.error .idle) fun f => .ok f.located

end Finish

/-! ## Balanced spans by bytes -/

namespace Buffer

open Trace (halt)

/-- Copies text up to a stop outside of parentheses and strings, and lets the handler take the place
of what it reads. -/
def balancedFrom {σ : Type} (text : String) (stops keywords : List String)
    (handle : String → Nat → σ → Trace (Finish String σ Nat)) (copied : String) (start : Nat)
    (state : σ) : Trace (Finish (String × Option String) σ Nat) := do
  match ← pieceFrom text stops keywords 0 start with
  | .error pos => return ⟨.error (.lex pos .unterminatedString), state, pos⟩
  | .ok (.finish, pos) =>
    return ⟨.ok (copied ++ (← slice text start (Key.bytes text).length), none), state, pos⟩
  | .ok (.stop stop, pos) =>
    return ⟨.ok (copied ++ (← slice text start pos), some stop), state, pos⟩
  | .ok (.keyword keyword, pos) =>
    let piece ← slice text start pos
    let handled ← handle keyword pos state
    match handled.result with
    | .error error => return ⟨.error error, handled.state, handled.place⟩
    | .ok output =>
      if handled.place ≤ pos then halt .idle
      else if _ : start < handled.place ∧ handled.place ≤ (Key.bytes text).length then
        balancedFrom text stops keywords handle (copied ++ piece ++ output) handled.place
          handled.state
      else halt .cut
termination_by (Key.bytes text).length - start

end Buffer

/-! ## Balanced spans on cursors -/

namespace Cursor

variable {σ : Type}

/-- What a handler comes to at the cursor `d`. One that does not move on is idle. -/
def handled (d : Cursor) (state : σ) :
    Option (Finish String σ Cursor) → Except Halt (List Char × d.Shorter) × σ
  | none => (.error .idle, state)
  | some ⟨.error error, after, place⟩ => (.error (.failed error place), after)
  | some ⟨.ok output, after, e⟩ =>
    if shorter : e.size < d.size then (.ok (output.toList, ⟨e, shorter⟩), after)
    else (.error .idle, after)

/-- The handler that comes to what is found from a state. -/
def handling (d : Cursor) (found : σ → Option (Finish String σ Cursor)) :
    Handling σ (List Char × d.Shorter) :=
  ExceptT.mk fun state => d.handled state (found state)

/-- What a span comes to, behind some text. -/
def spanFinish (copied : String) :
    Except Halt (List Char × Option String × Cursor) × σ →
      Option (Finish (String × Option String) σ Cursor)
  | (.ok (text, stop, d), state) => some ⟨.ok (copied ++ String.ofList text, stop), state, d⟩
  | (.error (.failed error place), state) => some ⟨.error error, state, place⟩
  | (.error .idle, _) => none

/-- A call for a balanced span. -/
def balancedCall (stops keywords : List String)
    (handle : String → Cursor → σ → Option (Finish String σ Cursor)) (c : Cursor) (state : σ) :
    Option (Finish (String × Option String) σ Cursor) :=
  spanFinish "" (spanOf (c.balanced stops keywords c.size
    (fun keyword d _ => d.handling (handle keyword d)) (NotLonger.self c).property) state)

end Cursor

/-! ## Scripts -/

/-- Calls one after the other. Each may depend on the results of those before it, failed ones
included; a handler is a script as well, and is given the state that the last one left. -/
inductive Script (σ : Type) where
  | done (result : Except CompileError String) (state : σ)
  | next (resume : Except CompileError (Option Token) → Script σ)
  | remaining (resume : String → Script σ)
  | upTo (stops : List String) (resume : String → Option String → Script σ)
  | balanced (stops keywords : List String) (state : σ) (handler : σ → String → Script σ)
      (resume : Except CompileError (String × Option String) → σ → Script σ)

namespace Script

variable {σ : Type}

/-- Makes the calls from a place on. There is no result if a handler has not moved on. -/
def run : Script σ → Cursor → Option (Finish String σ Cursor)
  | done result state, c => some ⟨result, state, c⟩
  | next resume, c => (resume c.tokenCall.1).run c.tokenCall.2
  | remaining resume, c => (resume c.remaining).run c
  | upTo stops resume, c =>
    (resume (String.ofList (c.upTo stops).1) (c.upTo stops).2.1).run (c.upTo stops).2.2
  | balanced stops keywords state handler resume, c =>
    (c.balancedCall stops keywords (fun keyword d s => (handler s keyword).run d) state).bind
      fun f => (resume f.result f.state).run f.place

/-- Makes the calls on the bytes of a text, and marks the offset behind each. -/
def onBytes (text : String) : Script σ → Nat → Trace (Finish String σ Nat)
  | done result state, pos => return ⟨result, state, pos⟩
  | next resume, pos => do
    let found ← Buffer.next text pos
    Trace.mark found.2
    (resume found.1).onBytes text found.2
  | remaining resume, pos => do
    let rest ← Buffer.remaining text pos
    Trace.mark pos
    (resume rest).onBytes text pos
  | upTo stops resume, pos => do
    let found ← Buffer.upTo text stops pos
    Trace.mark found.2.2
    (resume found.1 found.2.1).onBytes text found.2.2
  | balanced stops keywords state handler resume, pos => do
    let found ← Buffer.balancedFrom text stops keywords
      (fun keyword p s => (handler s keyword).onBytes text p) "" pos state
    Trace.mark found.place
    (resume found.result found.state).onBytes text found.place

/-- Whether the handlers of a script move on from each keyword, or fail. -/
def Moves : Script σ → Prop
  | done _ _ => True
  | next resume => ∀ found, (resume found).Moves
  | remaining resume => ∀ rest, (resume rest).Moves
  | upTo _ resume => ∀ copied stop, (resume copied stop).Moves
  | balanced _ keywords _ handler resume =>
    (∀ state, ∀ keyword ∈ keywords, (handler state keyword).Moves ∧
      ∀ d f output, 0 < d.size → d.meets keyword = true →
        (handler state keyword).run d = some f → f.result = .ok output → f.place.size < d.size) ∧
    ∀ found after, (resume found after).Moves

end Script

/-! ## Agreement -/

/-- Whether a call on bytes comes to what it does on a cursor, and stays in the text. -/
structure Follows {α σ : Type} (text : String) (x : Trace (Finish α σ Nat))
    (found : Option (Finish α σ Cursor)) : Prop where
  reaches : Reaches text x (Finish.outcome found)
  inText : ∀ f ∈ found, f.place.source = text.toList

theorem follows_some {α σ : Type} {text : String} {x : Trace (Finish α σ Nat)}
    {f : Finish α σ Cursor} (reaches : Reaches text x (.ok f.located))
    (inText : f.place.source = text.toList) : Follows text x (some f) :=
  ⟨reaches, fun _ found => Option.some.inj found ▸ inText⟩

theorem follows_none {α σ : Type} {text : String} {x : Trace (Finish α σ Nat)}
    (reaches : Reaches text x (.error .idle)) : Follows text x none :=
  ⟨reaches, fun _ found => absurd found.symm (Option.some_ne_none _)⟩

namespace Cursor

variable {c e : Cursor} {text : String}

theorem source_upTo (c : Cursor) (stops : List String) : (c.upTo stops).2.2.source = c.source := by
  have found : c.upTo stops = ((c.upTo stops).1, (c.upTo stops).2.1, (c.upTo stops).2.2) := rfl
  obtain ⟨parts, passed, _⟩ := upTo_parts found
  rw [passed, source_passed parts]

theorem length_le_encoded (chars : List Char) : chars.length ≤ (encoded chars).length := by
  induction chars with
  | nil => exact Nat.le_refl 0
  | cons first rest ih =>
    rw [Text.encoded_cons, List.length_append, String.length_utf8EncodeChar, List.length_cons]
    have := first.utf8Size_pos
    omega

/-- Of two places in a text, the one with less ahead has the greater position. -/
theorem position_le_of_size (inText : c.source = text.toList) (inText' : e.source = text.toList)
    (shorter : e.size ≤ c.size) : c.position + (c.size - e.size) ≤ e.position := by
  have parts := ahead_eq_of_source (inText'.trans inText.symm) shorter
  have same := (length_bytes inText).symm.trans (length_bytes inText')
  rw [parts, encoded_append, List.length_append] at same
  have more := length_le_encoded (c.ahead.take (c.size - e.size))
  rw [List.length_take, ← size] at more
  omega

theorem position_lt_iff (inText : c.source = text.toList) (inText' : e.source = text.toList) :
    c.position < e.position ↔ e.size < c.size := by
  constructor
  · intro before
    refine Nat.lt_of_not_le fun longer => ?_
    have := position_le_of_size inText' inText longer
    omega
  · intro shorter
    have := position_le_of_size inText inText' (Nat.le_of_lt shorter)
    omega

section Spans

variable {σ : Type} {stops keywords : List String} {limit : Nat}
  {handle : String → (d : Cursor) → d.size ≤ limit → Handling σ (List Char × d.Shorter)}
  {c d : Cursor} {within : c.size ≤ limit} {piece : List Char} {keyword : String} {state after : σ}

theorem answer_handling (d : Cursor) (found : σ → Option (Finish String σ Cursor)) (state : σ) :
    (d.handling found).answer state = d.handled state (found state) := rfl

theorem spanOf_of_halted {halt : Halt}
    (read : c.piece stops keywords = .ok (piece, .keyword keyword, d))
    (halted : (handle keyword d (Nat.le_trans (size_piece read) within)).answer state =
      (.error halt, after)) :
    spanOf (c.balanced stops keywords limit handle within) state = (.error halt, after) := by
  unfold spanOf
  rw [balanced_of_keyword read, Handling.answer_bind_of_error halted]
  rfl

/-- Behind what a handler yields, a span goes on at the place that the handler has left. -/
theorem spanFinish_of_handled {output : List Char} {e : d.Shorter}
    (read : c.piece stops keywords = .ok (piece, .keyword keyword, d))
    (handled : (handle keyword d (Nat.le_trans (size_piece read) within)).answer state =
      (.ok (output, e), after)) (copied : String) :
    spanFinish copied (spanOf (c.balanced stops keywords limit handle within) state) =
      spanFinish (copied ++ String.ofList piece ++ String.ofList output)
        (spanOf (e.val.balanced stops keywords limit handle
          (Nat.le_trans (size_handled e read) within)) after) := by
  unfold spanOf
  rw [balanced_of_keyword read, Handling.answer_bind_of_ok handled]
  cases rest : (e.val.balanced stops keywords limit handle
      (Nat.le_trans (size_handled e read) within)).answer after with
  | mk result final =>
    cases result with
    | error halt =>
      rw [Handling.answer_bind_of_error rest]
      cases halt with
      | failed error place => rfl
      | idle => rfl
    | ok b =>
      rw [Handling.answer_bind_of_ok rest, Handling.answer_pure]
      have joined : copied ++ String.ofList (piece ++ output ++ b.text) =
          copied ++ String.ofList piece ++ String.ofList output ++ String.ofList b.text := by
        simp only [String.ofList_append, String.append_assoc]
      exact congrArg (fun text => some (Finish.mk (.ok (text, b.stop)) final b.place.val)) joined

theorem meets_of_ending? (met : d.ending? stops keywords = some (.keyword keyword)) :
    keyword ∈ keywords ∧ d.meets keyword = true := by
  unfold ending? at met
  cases stopped : d.meetsAny? stops with
  | some stop =>
    rw [stopped] at met
    cases met
  | none =>
    rw [stopped] at met
    obtain ⟨word, found, same⟩ := Option.map_eq_some_iff.mp met
    cases same
    exact ⟨List.mem_of_find?_eq_some found, List.find?_some found⟩

/-- A span comes to a result if its handler does and moves on from each keyword. -/
theorem exists_spanFinish {handle : String → Cursor → σ → Option (Finish String σ Cursor)}
    (moves : ∀ keyword ∈ keywords, ∀ d state, 0 < d.size → d.meets keyword = true →
      ∃ f, handle keyword d state = some f ∧
        ∀ output, f.result = .ok output → f.place.size < d.size)
    (within : c.size ≤ limit) (copied : String) (state : σ) :
    ∃ f, spanFinish copied (spanOf (c.balanced stops keywords limit
      (fun keyword d _ => d.handling (handle keyword d)) within) state) = some f := by
  induction size : c.size using Nat.strongRecOn generalizing c copied state with
  | ind n ih =>
    subst size
    have ends := ends_piece stops keywords c
    generalize read : c.piece stops keywords = result at ends
    cases ends with
    | unclosed unclosed =>
      rw [balanced_of_error read]
      exact ⟨_, rfl⟩
    | finish free closed =>
      rw [balanced_of_finish read]
      exact ⟨_, rfl⟩
    | @met i ending first =>
      cases ending with
      | finish => exact absurd first.met (ending?_ne_finish _)
      | stop stop =>
        rw [balanced_of_stop read]
        exact ⟨_, rfl⟩
      | keyword keyword =>
        obtain ⟨listed, met⟩ := meets_of_ending? first.met
        have some : 0 < (c.advance i).size := by
          rw [size_advance]
          exact Nat.sub_pos_of_lt first.inText
        obtain ⟨f, found, moved⟩ := moves keyword listed (c.advance i) state some met
        obtain ⟨result, after, e⟩ := f
        have answer := answer_handling (c.advance i) (handle keyword (c.advance i)) state
        rw [found] at answer
        cases result with
        | error error =>
          rw [spanOf_of_halted read answer]
          exact ⟨_, rfl⟩
        | ok output =>
          have shorter : e.size < (c.advance i).size := moved output rfl
          rw [handled, dif_pos shorter] at answer
          rw [spanFinish_of_handled read answer copied]
          exact ih e.size (Nat.lt_of_lt_of_le shorter (size_piece read)) _ _ _ rfl

end Spans

end Cursor

namespace Buffer

section Balanced

variable {σ : Type} {text : String} {stops keywords : List String}
  {handle : String → Cursor → σ → Option (Finish String σ Cursor)}
  {handle' : String → Nat → σ → Trace (Finish String σ Nat)}

section Handled

variable {start pos place : Nat} {copied keyword piece output : String} {state after : σ}
  {result : Except Break (Finish (String × Option String) σ Nat)}

theorem reaches_balancedFrom_of_moved
    (scanned : Reaches text (pieceFrom text stops keywords 0 start)
      (.ok (.ok (.keyword keyword, pos))))
    (sliced : Reaches text (slice text start pos) (.ok piece))
    (handled : Reaches text (handle' keyword pos state) (.ok ⟨.ok output, after, place⟩))
    (before : pos < place) (room : start < place ∧ place ≤ (Key.bytes text).length)
    (next : Reaches text (balancedFrom text stops keywords handle' (copied ++ piece ++ output) place
      after) result) :
    Reaches text (balancedFrom text stops keywords handle' copied start state) result := by
  rw [balancedFrom]
  refine scanned.bind (sliced.bind (handled.bind ?_))
  simp only [if_neg (Nat.not_le.mpr before), dif_pos room]
  exact next

theorem reaches_balancedFrom_of_idle
    (scanned : Reaches text (pieceFrom text stops keywords 0 start)
      (.ok (.ok (.keyword keyword, pos))))
    (sliced : Reaches text (slice text start pos) (.ok piece))
    (handled : Reaches text (handle' keyword pos state) (.ok ⟨.ok output, after, place⟩))
    (stays : place ≤ pos) :
    Reaches text (balancedFrom text stops keywords handle' copied start state) (.error .idle) := by
  rw [balancedFrom]
  refine scanned.bind (sliced.bind (handled.bind ?_))
  simp only [if_pos stays]
  exact reaches_halt _

end Handled

/-- A span comes to the same on bytes, if its handler does. -/
theorem follows_balancedFrom
    (agrees : ∀ keyword d state, d.source = text.toList →
      Follows text (handle' keyword d.position state) (handle keyword d state))
    {limit : Nat} {c : Cursor} (within : c.size ≤ limit) (inText : c.source = text.toList)
    (copied : String) (state : σ) :
    Follows text (balancedFrom text stops keywords handle' copied c.position state)
      (Cursor.spanFinish copied (Cursor.spanOf (c.balanced stops keywords limit
        (fun keyword d _ => d.handling (handle keyword d)) within) state)) := by
  induction size : c.size using Nat.strongRecOn generalizing c copied state with
  | ind n ih =>
    subst size
    have scanned := reaches_pieceFrom inText stops keywords 0
    have ends := Cursor.ends_piece stops keywords c
    have inText' (i : Nat) := (c.source_advance i).trans inText
    have sliced (i : Nat) : Reaches text (slice text c.position (c.advance i).position)
      (.ok (String.ofList (c.ahead.take i))) :=
        reaches_slice inText (List.take_append_drop i c.ahead).symm
    rw [← Cursor.piece] at scanned
    generalize read : c.piece stops keywords = result at ends scanned
    cases ends with
    | unclosed unclosed =>
      rw [Cursor.balanced_of_error read, balancedFrom]
      exact follows_some (scanned.bind (reaches_pure _)) (inText' _)
    | finish free closed =>
      rw [Cursor.balanced_of_finish read, balancedFrom]
      exact follows_some (scanned.bind ((reaches_rest inText).bind (reaches_pure _))) (inText' _)
    | @met i ending first =>
      cases ending with
      | finish => exact absurd first.met (Cursor.ending?_ne_finish _)
      | stop stop =>
        rw [Cursor.balanced_of_stop read, balancedFrom]
        exact follows_some (scanned.bind ((sliced i).bind (reaches_pure _))) (inText' i)
      | keyword keyword =>
        have follows := agrees keyword (c.advance i) state (inText' i)
        have answer := Cursor.answer_handling (c.advance i) (handle keyword (c.advance i)) state
        cases found : handle keyword (c.advance i) state with
        | none =>
          rw [found] at follows answer
          rw [Cursor.spanOf_of_halted read answer, balancedFrom]
          exact follows_none (scanned.bind ((sliced i).bind follows.reaches.bind_error))
        | some f =>
          obtain ⟨result, after, e⟩ := f
          have inText'' : e.source = text.toList := follows.inText _ found
          rw [found] at follows answer
          cases result with
          | error error =>
            rw [Cursor.spanOf_of_halted read answer, balancedFrom]
            exact follows_some
              (scanned.bind ((sliced i).bind (follows.reaches.bind (reaches_pure _)))) inText''
          | ok output =>
            -- Whether the handler has moved on is seen from sizes there, and from offsets here.
            have order := Cursor.position_lt_iff (inText' i) inText''
            by_cases shorter : e.size < (c.advance i).size
            · have before := order.mpr shorter
              have behind : c.position ≤ (c.advance i).position := by
                show c.position ≤ (c.passed (c.ahead.take i) (c.ahead.drop i)).position
                rw [Cursor.position_passed]
                exact Nat.le_add_right _ _
              have room : c.position < e.position ∧ e.position ≤ (Key.bytes text).length :=
                ⟨Nat.lt_of_le_of_lt behind before, e.position_le inText''⟩
              have smaller : e.size < c.size := (Cursor.position_lt_iff inText inText'').mp room.1
              have next := ih e.size smaller (Nat.le_trans (Nat.le_of_lt smaller) within) inText''
                (copied ++ String.ofList (c.ahead.take i) ++ output) after rfl
              rw [Cursor.handled, dif_pos shorter] at answer
              rw [Cursor.spanFinish_of_handled read answer copied, String.ofList_toList]
              exact ⟨reaches_balancedFrom_of_moved scanned (sliced i) follows.reaches before room
                next.reaches, next.inText⟩
            · rw [Cursor.handled, dif_neg shorter] at answer
              rw [Cursor.spanOf_of_halted read answer]
              exact follows_none (reaches_balancedFrom_of_idle scanned (sliced i) follows.reaches
                (Nat.le_of_not_lt (mt order.mp shorter)))

end Balanced

end Buffer

namespace Script

variable {σ : Type} {text : String} {c : Cursor}

/-- A script comes to the same on bytes, call by call. -/
theorem follows_run (script : Script σ) (inText : c.source = text.toList) :
    Follows text (script.onBytes text c.position) (script.run c) := by
  induction script generalizing c with
  | done result state => exact follows_some (reaches_pure _) inText
  | next resume ih =>
    have inText' := c.source_tokenCall.trans inText
    have rest := ih c.tokenCall.1 inText'
    refine ⟨?_, rest.inText⟩
    exact (Buffer.reaches_next inText).bind
      ((reaches_mark (Buffer.boundary_position inText')).bind rest.reaches)
  | remaining resume ih =>
    have rest := ih c.remaining inText
    refine ⟨?_, rest.inText⟩
    exact (Buffer.reaches_remaining inText).bind
      ((reaches_mark (Buffer.boundary_position inText)).bind rest.reaches)
  | upTo stops resume ih =>
    have inText' := (c.source_upTo stops).trans inText
    have rest := ih (String.ofList (c.upTo stops).1) (c.upTo stops).2.1 inText'
    refine ⟨?_, rest.inText⟩
    exact (Buffer.reaches_upTo inText stops).bind
      ((reaches_mark (Buffer.boundary_position inText')).bind rest.reaches)
  | balanced stops keywords state handler resume ihHandler ihResume =>
    have call : Follows text (Buffer.balancedFrom text stops keywords
        (fun keyword p s => (handler s keyword).onBytes text p) "" c.position state)
        (c.balancedCall stops keywords (fun keyword d s => (handler s keyword).run d) state) :=
      Buffer.follows_balancedFrom (fun keyword d s inText => ihHandler s keyword inText)
        (Nat.le_refl _) inText "" state
    unfold onBytes run
    cases found : c.balancedCall stops keywords (fun keyword d s => (handler s keyword).run d)
      state with
    | none =>
      rw [found] at call
      exact follows_none call.reaches.bind_error
    | some f =>
      have inText' := call.inText f found
      rw [found] at call
      have rest := ihResume f.result f.state inText'
      refine ⟨?_, rest.inText⟩
      exact call.reaches.bind ((reaches_mark (Buffer.boundary_position inText')).bind rest.reaches)

/-- Every script whose handlers move on comes to a result. -/
theorem exists_run (script : Script σ) (moves : script.Moves) (c : Cursor) :
    ∃ f, script.run c = some f := by
  induction script generalizing c with
  | done result state => exact ⟨_, rfl⟩
  | next resume ih => exact ih _ (moves _) _
  | remaining resume ih => exact ih _ (moves _) _
  | upTo stops resume ih => exact ih _ _ (moves _ _) _
  | balanced stops keywords state handler resume ihHandler ihResume =>
    obtain ⟨handlers, resumes⟩ := moves
    have call : ∃ f, c.balancedCall stops keywords (fun keyword d s => (handler s keyword).run d)
        state = some f := by
      refine Cursor.exists_spanFinish (fun keyword listed d s some met => ?_) (Nat.le_refl _) ""
        state
      obtain ⟨moves, moved⟩ := handlers s keyword listed
      obtain ⟨f, found⟩ := ihHandler s keyword moves d
      exact ⟨f, found, fun output => moved d f output some met found⟩
    obtain ⟨f, found⟩ := call
    unfold run
    rw [found]
    exact ihResume f.result f.state (resumes _ _) f.place

/-- However calls follow each other, on the bytes of a text they end on the boundaries of characters
and cut it there only; and they come to what they do on a cursor. They all come to a result if the
handlers move on. -/
theorem calls_on_boundaries (text : String) (script : Script σ) :
    (∀ n ∈ (script.onBytes text 0).marks,
      n ≤ (Key.bytes text).length ∧ (⟨n⟩ : String.Pos.Raw).IsValid text) ∧
    (script.onBytes text 0).outcome ≠ .error .cut ∧
    (script.onBytes text 0).outcome = Finish.outcome (script.run (Cursor.start text)) ∧
    (script.Moves → ∃ f, (script.onBytes text 0).outcome = .ok f) := by
  have follows := (follows_run script (Cursor.source_start text)).reaches
  have same : (script.onBytes text 0).outcome = Finish.outcome (script.run (Cursor.start text)) :=
    follows.outcome
  refine ⟨follows.marks, ?_, same, fun moves => ?_⟩
  · rw [same]
    cases script.run (Cursor.start text) with
    | none => exact fun cut => by cases cut
    | some f => exact fun cut => by cases cut
  · obtain ⟨f, found⟩ := exists_run script moves (Cursor.start text)
    rw [same, found]
    exact ⟨f.located, rfl⟩

/-- A span up to `ü`, with a handler that counts its calls and reads the keyword only. -/
def exCounted : Script Nat :=
  .balanced ["ü"] ["if"] 0
    (fun calls _ => .next fun found => .done (found.map fun _ => "≡") (calls + 1))
    (fun found calls => .done (found.map Prod.fst) calls)

theorem moves_exCounted : exCounted.Moves := by
  refine ⟨fun calls keyword _ => ⟨fun _ => trivial, fun d f output some _ ran result => ?_⟩,
    fun _ _ => trivial⟩
  cases ran
  show d.tokenCall.2.size < d.size
  change (d.tokenCall.1.map fun _ => "≡") = .ok output at result
  unfold Cursor.tokenCall at result ⊢
  cases read : d.next with
  | error fault =>
    rw [read] at result
    cases result
  | ok found =>
    obtain ⟨token, e⟩ := found
    show e.size < d.size
    cases token with
    | some t => exact Cursor.next_shorter read
    | none =>
      rw [Cursor.size, (Cursor.next_eq_none read).2]
      exact some

theorem calls_on_boundaries_exCounted :
    exCounted.Moves ∧ (exCounted.onBytes "é if(ü) if (≡)ü" 0).marks =
      [0, 3, 3, 5, 5, 5, 10, 10, 12, 12, 12, 18, 18] ∧
    ∃ f, (exCounted.onBytes "é if(ü) if (≡)ü" 0).outcome = .ok f := by
  refine ⟨moves_exCounted, ?_, (calls_on_boundaries _ exCounted).2.2.2 moves_exCounted⟩
  decide +kernel

end Script

end StyleFlags
