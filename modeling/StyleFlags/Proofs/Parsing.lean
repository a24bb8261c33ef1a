import StyleFlags.Proofs.Grammar
import StyleFlags.Proofs.Source

/-!
# Reading is deriving

A text is read as a condition while it is cut into tokens, one token ahead. The
tokens of the whole text can be listed apart from that, and then a text is read
exactly if its tokens derive from the grammar and the condition can be built
along the derivation.

Results:
1. `Condition.reads_of_operandAt`, `Condition.reads_of_infixesAt`: what reading
   succeeds on, climbing reads from the tokens.
2. `Grammar.Reads.runs`: what climbing reads, and can be built, reading succeeds on.
3. `Condition.read_eq_ok_iff_derives`: a text is read as a condition if and only
   if that condition is built along the one derivation of its tokens.
-/

namespace StyleFlags

/-! ## The tokens of a text -/

namespace Cursor

/-- The tokens from here to the end of the text. -/
def tokens (c : Cursor) : Except CompileError (List Token) := do
  match ← c.peek with
  | none => return []
  | some (token, ⟨d, _⟩) => return token :: (← d.tokens)
termination_by c.size

/-- Whether `t` is the next token, and `d` the place after it. -/
def Next (c : Cursor) (t : Token) (d : Cursor) : Prop :=
  ∃ shorter, c.peek = .ok (some (t, ⟨d, shorter⟩))

variable {c d : Cursor} {t : Token} {ts : List Token}

/-- Whether the next token, if there is one, is no operator that binds tighter than `least`. -/
def Stops (c : Cursor) (least : Nat) : Prop :=
  ∃ peeked, c.peek = .ok peeked ∧
    ∀ token ∈ peeked, ∀ op, token.1.kind = .operator op → op.precedence ≤ least

theorem Next.size_lt (next : c.Next t d) : d.size < c.size := next.1

theorem tokens_eq_nil : c.tokens = .ok [] ↔ c.peek = .ok none := by
  rw [tokens, bind_eq_ok_iff]
  constructor
  · rintro ⟨peeked, found, listed⟩
    split at listed
    · exact found
    · obtain ⟨ts, _, listed⟩ := bind_eq_ok listed
      cases listed
  · intro found
    exact ⟨none, found, rfl⟩

theorem tokens_eq_cons : c.tokens = .ok (t :: ts) ↔ ∃ d, c.Next t d ∧ d.tokens = .ok ts := by
  rw [tokens, bind_eq_ok_iff]
  constructor
  · rintro ⟨peeked, found, listed⟩
    split at listed
    · cases listed
    · next token d hd =>
      obtain ⟨ts, rest, listed⟩ := bind_eq_ok listed
      cases listed
      exact ⟨d, ⟨hd, found⟩, rest⟩
  · rintro ⟨d, ⟨hd, found⟩, rest⟩
    exact ⟨_, found, bind_eq_ok_iff.mpr ⟨ts, rest, rfl⟩⟩

theorem stops_iff {least : Nat} (listed : c.tokens = .ok ts) :
    c.Stops least ↔ Grammar.Bounded least ts := by
  cases ts with
  | nil =>
    have ended := tokens_eq_nil.mp listed
    exact ⟨fun _ => Grammar.bounded_nil least, fun _ => ⟨none, ended, by simp⟩⟩
  | cons t ts =>
    obtain ⟨d, ⟨shorter, found⟩, _⟩ := tokens_eq_cons.mp listed
    rw [Grammar.bounded_cons]
    constructor
    · rintro ⟨peeked, same, stops⟩
      rw [found] at same
      cases same
      exact stops _ rfl
    · intro stops
      refine ⟨_, found, fun token isNext => ?_⟩
      cases isNext
      exact stops

theorem finish_eq_ok : c.finish = .ok () ↔ c.tokens = .ok [] := by
  rw [tokens_eq_nil, finish, bind_eq_ok_iff]
  constructor
  · rintro ⟨peeked, found, ended⟩
    split at ended
    · cases ended
    · exact found
  · intro found
    exact ⟨none, found, rfl⟩

theorem expect_eq_ok {kind : TokenKind} {shorter : c.Shorter} :
    c.expect kind = .ok (t, shorter) ↔ c.Next t shorter.val ∧ t.kind = kind := by
  rw [expect, bind_eq_ok_iff]
  constructor
  · rintro ⟨peeked, found, ended⟩
    split at ended
    · split at ended
      · next isKind =>
        cases ended
        exact ⟨⟨_, found⟩, isKind⟩
      · cases ended
    · cases ended
  · rintro ⟨⟨_, found⟩, isKind⟩
    exact ⟨_, found, if_pos isKind⟩

end Cursor

/-! ## Reading, place by place -/

namespace Condition

open Grammar

/-- Reading an operand at `c` gives `x` and ends at `d`. -/
def OperandAt (c : Cursor) (x : Condition) (d : Cursor) : Prop :=
  ∃ shorter, readOperand c = .ok (x, ⟨d, shorter⟩)

/-- Reading at `c` the infix operators behind `left` gives `x` and ends at `d`. -/
def InfixesAt (least : Nat) (left : Condition) (c : Cursor) (x : Condition) (d : Cursor) : Prop :=
  ∃ notLonger, readInfix least left c = .ok (x, ⟨d, notLonger⟩)

/-- Reading a condition at `c` gives `x` and ends at `d`. -/
def ConditionAt (least : Nat) (c : Cursor) (x : Condition) (d : Cursor) : Prop :=
  ∃ shorter, readAt least c = .ok (x, ⟨d, shorter⟩)

variable {c d e : Cursor} {x left : Condition} {least : Nat}

theorem conditionAt_iff :
    ConditionAt least c x e ↔ ∃ left d, OperandAt c left d ∧ InfixesAt least left d x e := by
  constructor
  · rintro ⟨_, read⟩
    rw [readAt] at read
    obtain ⟨⟨left, d, hd⟩, operand, read⟩ := bind_eq_ok read
    obtain ⟨⟨whole, f, hf⟩, joined, read⟩ := bind_eq_ok read
    cases read
    exact ⟨left, d, ⟨hd, operand⟩, hf, joined⟩
  · rintro ⟨left, d, ⟨hd, operand⟩, he, joined⟩
    refine ⟨Nat.lt_of_le_of_lt he hd, ?_⟩
    rw [readAt]
    exact bind_eq_ok_iff.mpr ⟨_, operand, bind_eq_ok_iff.mpr ⟨_, joined, rfl⟩⟩

theorem operandAt_iff :
    OperandAt c x e ↔ ∃ t d, c.Next t d ∧
      ((t.kind = .identifier ∧ x = property false t.text ∧ e = d) ∨
        (t.kind = .literal ∧ e = d ∧
          ∃ l, Literal.read t.text t.quoted t.offset = .ok l ∧ x = literal false l) ∨
        (t.kind = .operator .openParen ∧ ∃ f closing, ConditionAt 0 d x f ∧
          f.Next closing e ∧ closing.kind = .operator .closeParen) ∨
        (∃ op y, t.kind = .operator op ∧ (op = .bang ∨ op = .minus) ∧
          ConditionAt op.precedence d y e ∧ prefixed op y = .ok x)) := by
  constructor
  · rintro ⟨_, read⟩
    rw [readOperand] at read
    obtain ⟨peeked, found, read⟩ := bind_eq_ok read
    split at read
    · cases read
    · next t d hd =>
      refine ⟨t, d, ⟨hd, found⟩, ?_⟩
      split at read
      · next isName =>
        cases read
        exact .inl ⟨isName, rfl, rfl⟩
      · next isLiteral =>
        obtain ⟨l, literal, read⟩ := bind_eq_ok read
        cases read
        exact .inr (.inl ⟨isLiteral, rfl, l, literal, rfl⟩)
      · next opens =>
        obtain ⟨⟨inner, f, hf⟩, grouped, read⟩ := bind_eq_ok read
        obtain ⟨⟨closing, g, hg⟩, closed, read⟩ := bind_eq_ok read
        cases read
        obtain ⟨next, closes⟩ := Cursor.expect_eq_ok.mp closed
        exact .inr (.inr (.inl ⟨opens, f, closing, ⟨hf, grouped⟩, next, closes⟩))
      · next isBang =>
        obtain ⟨⟨y, f, hf⟩, below, read⟩ := bind_eq_ok read
        obtain ⟨negated, made, read⟩ := bind_eq_ok read
        cases read
        exact .inr (.inr (.inr ⟨.bang, y, isBang, .inl rfl, ⟨hf, below⟩, made⟩))
      · next isMinus =>
        obtain ⟨⟨y, f, hf⟩, below, read⟩ := bind_eq_ok read
        obtain ⟨signed, made, read⟩ := bind_eq_ok read
        cases read
        exact .inr (.inr (.inr ⟨.minus, y, isMinus, .inr rfl, ⟨hf, below⟩, made⟩))
      · cases read
  · rintro ⟨⟨kind, text, quoted, offset⟩, d, ⟨hd, found⟩, read⟩
    rcases read with ⟨rfl, rfl, rfl⟩ | ⟨rfl, rfl, l, literal, rfl⟩ |
      ⟨rfl, f, closing, ⟨hf, grouped⟩, next, closes⟩ | ⟨op, y, rfl, signs, ⟨he, below⟩, made⟩
    · refine ⟨hd, ?_⟩
      rw [readOperand]
      exact bind_eq_ok_iff.mpr ⟨_, found, rfl⟩
    · refine ⟨hd, ?_⟩
      rw [readOperand]
      refine bind_eq_ok_iff.mpr ⟨_, found, ?_⟩
      exact bind_eq_ok_iff.mpr ⟨l, literal, rfl⟩
    · refine ⟨Nat.lt_trans next.size_lt (Nat.lt_trans hf hd), ?_⟩
      have closed : f.expect (.operator .closeParen) = .ok (closing, ⟨e, next.size_lt⟩) :=
        Cursor.expect_eq_ok.mpr ⟨next, closes⟩
      rw [readOperand]
      refine bind_eq_ok_iff.mpr ⟨_, found, ?_⟩
      exact bind_eq_ok_iff.mpr ⟨_, grouped, bind_eq_ok_iff.mpr ⟨_, closed, rfl⟩⟩
    · refine ⟨Nat.lt_trans he hd, ?_⟩
      rw [readOperand]
      refine bind_eq_ok_iff.mpr ⟨_, found, ?_⟩
      rcases signs with rfl | rfl
      · exact bind_eq_ok_iff.mpr ⟨_, below, bind_eq_ok_iff.mpr ⟨_, made, rfl⟩⟩
      · exact bind_eq_ok_iff.mpr ⟨_, below, bind_eq_ok_iff.mpr ⟨_, made, rfl⟩⟩

/-- Reading infix operators ends where no tighter one comes next, and otherwise takes one and goes on
behind it. -/
theorem infixesAt_iff :
    InfixesAt least left c x e ↔
      (x = left ∧ e = c ∧ c.Stops least) ∨
      ∃ t op d right f joined, c.Next t d ∧ t.kind = .operator op ∧ least < op.precedence ∧
        ConditionAt op.precedence d right f ∧ infixed op left right = .ok joined ∧
        InfixesAt least joined f x e := by
  constructor
  · rintro ⟨_, read⟩
    rw [readInfix] at read
    obtain ⟨peeked, found, read⟩ := bind_eq_ok read
    split at read
    · next op text quoted offset d hd =>
      split at read
      · next loose =>
        cases read
        refine .inl ⟨rfl, rfl, _, found, ?_⟩
        intro token isNext other isOp
        cases isNext
        cases isOp
        exact loose
      · next tight =>
        obtain ⟨⟨right, f, hf⟩, below, read⟩ := bind_eq_ok read
        obtain ⟨joined, made, read⟩ := bind_eq_ok read
        obtain ⟨⟨whole, g, hg⟩, rest, read⟩ := bind_eq_ok read
        cases read
        exact .inr ⟨_, op, d, right, f, joined, ⟨hd, found⟩, rfl, Nat.lt_of_not_le tight,
          ⟨hf, below⟩, made, hg, rest⟩
    · next noOperator =>
      cases read
      refine .inl ⟨rfl, rfl, peeked, found, ?_⟩
      rintro ⟨⟨kind, text, quoted, offset⟩, d, hd⟩ isNext op rfl
      exact (noOperator op text quoted offset d hd isNext).elim
  · rintro (⟨rfl, rfl, peeked, found, loose⟩ |
      ⟨⟨kind, text, quoted, offset⟩, op, d, right, f, joined, ⟨hd, found⟩, rfl, tight, ⟨hf, below⟩,
        made, hg, rest⟩)
    · refine ⟨Nat.le_refl _, ?_⟩
      rw [readInfix]
      refine bind_eq_ok_iff.mpr ⟨peeked, found, ?_⟩
      split
      · exact if_pos (loose _ rfl _ rfl)
      · rfl
    · refine ⟨Nat.le_trans hg (Nat.le_of_lt (Nat.lt_trans hf hd)), ?_⟩
      rw [readInfix]
      refine bind_eq_ok_iff.mpr ⟨_, found, (if_neg (Nat.not_le.mpr tight)).trans ?_⟩
      exact bind_eq_ok_iff.mpr
        ⟨_, below, bind_eq_ok_iff.mpr ⟨_, made, bind_eq_ok_iff.mpr ⟨_, rest, rfl⟩⟩⟩

theorem infixed_eq_ok {op : Operator} {right joined : Condition}
    (made : infixed op left right = .ok joined) : ∃ binary, op = .binary binary := by
  cases op with
  | binary op => exact ⟨op, rfl⟩
  | _ => cases made

/-! ## From reading to the grammar -/

mutual

theorem climbs_of_conditionAt {least : Nat} {c d : Cursor} {x : Condition} {us : List Token}
    (read : ConditionAt least c x d) (rest : d.tokens = .ok us) :
    ∃ ts y, c.tokens = .ok ts ∧ Climbs least ts y us ∧ y.build = .ok x := by
  obtain ⟨left, e, operand, infixes⟩ := conditionAt_iff.mp read
  have shorter : e.size < c.size := operand.1
  obtain ⟨vs, behind, climbs⟩ := reads_of_infixesAt infixes rest
  obtain ⟨ts, first, listed, reads, built⟩ := reads_of_operandAt operand behind
  obtain ⟨y, joined, whole⟩ := climbs first built
  exact ⟨ts, y, listed, ⟨first, vs, reads, joined⟩, whole⟩
termination_by 2 * c.size + 1

theorem reads_of_operandAt {c d : Cursor} {x : Condition} {us : List Token}
    (read : OperandAt c x d) (rest : d.tokens = .ok us) :
    ∃ ts y, c.tokens = .ok ts ∧ Reads .operand ts y us ∧ y.build = .ok x := by
  obtain ⟨t, e, next, read⟩ := operandAt_iff.mp read
  have shorter := next.size_lt
  rcases read with ⟨isName, rfl, rfl⟩ | ⟨isLiteral, rfl, l, literal, rfl⟩ |
    ⟨opens, f, closing, grouped, nextAgain, closes⟩ | ⟨op, y, isOp, signs, below, made⟩
  · exact ⟨_, .identifier t, Cursor.tokens_eq_cons.mpr ⟨d, next, rest⟩, .identifier isName, rfl⟩
  · exact ⟨_, .literal t, Cursor.tokens_eq_cons.mpr ⟨d, next, rest⟩, .literal isLiteral,
      bind_eq_ok_iff.mpr ⟨l, literal, rfl⟩⟩
  · obtain ⟨ts, y, listed, ⟨first, mid, operand, infixes⟩, built⟩ :=
      climbs_of_conditionAt grouped (Cursor.tokens_eq_cons.mpr ⟨d, nextAgain, rest⟩)
    exact ⟨_, .group y, Cursor.tokens_eq_cons.mpr ⟨e, next, listed⟩,
      .group opens operand infixes closes, built⟩
  · obtain ⟨ts, z, listed, climbs, built⟩ := climbs_of_conditionAt below rest
    rw [precedence_sign signs] at climbs
    exact ⟨_, .prefixed op z, Cursor.tokens_eq_cons.mpr ⟨e, next, listed⟩,
      .prefixed isOp signs climbs.operand, bind_eq_ok_iff.mpr ⟨y, built, made⟩⟩
termination_by 2 * c.size

theorem reads_of_infixesAt {least : Nat} {left : Condition} {c d : Cursor} {x : Condition}
    {us : List Token} (read : InfixesAt least left c x d) (rest : d.tokens = .ok us) :
    ∃ ts, c.tokens = .ok ts ∧
      ∀ y, y.build = .ok left → ∃ z, Reads (.infixes least y) ts z us ∧ z.build = .ok x := by
  rcases infixesAt_iff.mp read with ⟨rfl, rfl, stops⟩ |
    ⟨t, op, e, right, f, joined, next, isOp, tighter, below, made, behind⟩
  · exact ⟨us, rest, fun y built => ⟨y, .stop ((Cursor.stops_iff rest).mp stops), built⟩⟩
  · have shorter := next.size_lt
    have shorterStill : f.size < e.size := below.1
    obtain ⟨vs, listed, climbs⟩ := reads_of_infixesAt behind rest
    obtain ⟨ts, z, all, ⟨first, mid, operand, infixes⟩, builtRight⟩ :=
      climbs_of_conditionAt below listed
    obtain ⟨op, rfl⟩ := infixed_eq_ok made
    refine ⟨t :: ts, Cursor.tokens_eq_cons.mpr ⟨e, next, all⟩, fun y builtLeft => ?_⟩
    obtain ⟨w, reads, whole⟩ := climbs (.infixed op y z)
      (bind_eq_ok_iff.mpr ⟨left, builtLeft, bind_eq_ok_iff.mpr ⟨right, builtRight, made⟩⟩)
    exact ⟨w, .step isOp tighter operand infixes reads, whole⟩
termination_by 2 * c.size

end

end Condition

/-! ## From the grammar to reading -/

namespace Grammar

open Condition

/-- What reading does with the tokens that climbing reads, if the condition can be built. -/
def Mode.Runs : Mode → List Token → Derivation → List Token → Prop
  | .operand, ts, y, us => ∀ x, y.build = .ok x → ∀ c : Cursor, c.tokens = .ok ts →
      ∃ d, OperandAt c x d ∧ d.tokens = .ok us
  | .infixes least left, ts, y, us => ∀ x, y.build = .ok x → ∃ l, left.build = .ok l ∧
      ∀ c : Cursor, c.tokens = .ok ts → ∃ d, InfixesAt least l c x d ∧ d.tokens = .ok us

theorem Mode.runs_stop {least : Nat} {left : Derivation} {ts : List Token}
    (bounded : Bounded least ts) : Runs (.infixes least left) ts left ts := by
  intro x built
  refine ⟨x, built, fun c listed => ⟨c, ?_, listed⟩⟩
  exact infixesAt_iff.mpr (.inl ⟨rfl, rfl, (Cursor.stops_iff listed).mpr bounded⟩)

theorem Mode.Runs.climb {least : Nat} {ts us vs : List Token} {first y : Derivation}
    (operand : Runs .operand ts first us) (infixes : Runs (.infixes least first) us y vs)
    {x : Condition} (built : y.build = .ok x) {c : Cursor} (listed : c.tokens = .ok ts) :
    ∃ d, ConditionAt least c x d ∧ d.tokens = .ok vs := by
  obtain ⟨left, builtLeft, behind⟩ := infixes x built
  obtain ⟨d, read, listed⟩ := operand left builtLeft c listed
  obtain ⟨e, joined, listed⟩ := behind d listed
  exact ⟨e, conditionAt_iff.mpr ⟨left, d, read, joined⟩, listed⟩

theorem Reads.runs {mode : Mode} {ts us : List Token} {y : Derivation}
    (reads : Reads mode ts y us) : mode.Runs ts y us := by
  induction reads with
  | @identifier t ts isName =>
    intro x built c listed
    obtain ⟨d, next, listed⟩ := Cursor.tokens_eq_cons.mp listed
    cases built
    exact ⟨d, operandAt_iff.mpr ⟨t, d, next, .inl ⟨isName, rfl, rfl⟩⟩, listed⟩
  | @literal t ts isLiteral =>
    intro x built c listed
    obtain ⟨d, next, listed⟩ := Cursor.tokens_eq_cons.mp listed
    obtain ⟨l, literal, built⟩ := bind_eq_ok built
    cases built
    exact ⟨d, operandAt_iff.mpr ⟨t, d, next, .inr (.inl ⟨isLiteral, rfl, l, literal, rfl⟩)⟩, listed⟩
  | @group opening closing ts us vs first inner opens _ _ closes operand infixes =>
    intro x built c listed
    obtain ⟨d, next, listed⟩ := Cursor.tokens_eq_cons.mp listed
    obtain ⟨e, grouped, listed⟩ := operand.climb infixes built listed
    obtain ⟨f, nextAgain, listed⟩ := Cursor.tokens_eq_cons.mp listed
    exact ⟨f, operandAt_iff.mpr ⟨opening, d, next,
      .inr (.inr (.inl ⟨opens, e, closing, grouped, nextAgain, closes⟩))⟩, listed⟩
  | @prefixed t op ts us y isOp signs _ operand =>
    intro x built c listed
    obtain ⟨d, next, listed⟩ := Cursor.tokens_eq_cons.mp listed
    obtain ⟨z, builtOperand, made⟩ := bind_eq_ok built
    obtain ⟨e, below, listed⟩ :=
      operand.climb (Mode.runs_stop (bounded_four us)) builtOperand listed
    rw [← precedence_sign signs] at below
    exact ⟨e, operandAt_iff.mpr ⟨t, d, next, .inr (.inr (.inr ⟨op, z, isOp, signs, below, made⟩))⟩,
      listed⟩
  | stop bounded => exact Mode.runs_stop bounded
  | @step least left first right whole t op ts us vs ws isOp tighter _ _ _ operand infixes rest =>
    intro x built
    obtain ⟨joined, builtJoined, behind⟩ := rest x built
    obtain ⟨l, builtLeft, builtJoined⟩ := bind_eq_ok builtJoined
    obtain ⟨r, builtRight, made⟩ := bind_eq_ok builtJoined
    refine ⟨l, builtLeft, fun c listed => ?_⟩
    obtain ⟨d, next, listed⟩ := Cursor.tokens_eq_cons.mp listed
    obtain ⟨e, below, listed⟩ := operand.climb infixes builtRight listed
    obtain ⟨f, joins, listed⟩ := behind e listed
    exact ⟨f, infixesAt_iff.mpr
      (.inr ⟨t, .binary op, d, r, e, joined, next, isOp, tighter, below, made, joins⟩), listed⟩

end Grammar

/-! ## Whole texts -/

namespace Condition

open Grammar

theorem read_eq_ok_iff {text : String} {x : Condition} :
    read text = .ok x ↔ ∃ d, ConditionAt 0 (Cursor.start text) x d ∧ d.tokens = .ok [] := by
  constructor
  · intro done
    obtain ⟨⟨y, d, hd⟩, condition, done⟩ := bind_eq_ok done
    obtain ⟨_, finished, done⟩ := bind_eq_ok done
    cases done
    exact ⟨d, ⟨hd, condition⟩, Cursor.finish_eq_ok.mp finished⟩
  · rintro ⟨d, ⟨hd, condition⟩, ended⟩
    exact bind_eq_ok_iff.mpr
      ⟨_, condition, bind_eq_ok_iff.mpr ⟨_, Cursor.finish_eq_ok.mpr ended, rfl⟩⟩

/-- A text is read as a condition if and only if it is tokens from start to end, the tokens derive from
the grammar, in one way only, and every step of the derivation can be built. The condition is then the
one that is built. -/
theorem read_eq_ok_iff_derives (text : String) (x : Condition) :
    read text = .ok x ↔
      ∃ ts y, (Cursor.start text).tokens = .ok ts ∧ Derives .or ts y ∧
        (∀ other, Derives .or ts other → other = y) ∧ y.build = .ok x := by
  rw [read_eq_ok_iff]
  constructor
  · rintro ⟨d, condition, ended⟩
    obtain ⟨ts, y, listed, climbs, built⟩ := climbs_of_conditionAt condition ended
    have derives := derives_iff_climbs.mpr climbs
    exact ⟨ts, y, listed, derives, fun other also => also.unique derives, built⟩
  · rintro ⟨ts, y, listed, derives, _, built⟩
    obtain ⟨first, mid, operand, infixes⟩ := derives_iff_climbs.mp derives
    exact operand.runs.climb infixes.runs built listed

/-- All layers of the grammar, and again some of them in a group behind a negation. -/
def exLayered : String := "a || !(b || n >= -2) && k == 'x'"

def exName (text : String) (offset : Nat) : Token := ⟨.identifier, text, false, offset⟩

def exConstant (text : String) (offset : Nat) : Token := ⟨.literal, text, false, offset⟩

def exSymbol (op : Operator) (offset : Nat) : Token := ⟨.operator op, op.symbol, false, offset⟩

def exTokens : List Token :=
  [exName "a" 0, exSymbol (.binary (.junction .or)) 2, exSymbol .bang 5, exSymbol .openParen 6,
    exName "b" 7, exSymbol (.binary (.junction .or)) 9, exName "n" 12,
    exSymbol (.binary (.compare .ge)) 14, exSymbol .minus 17, exConstant "2" 18,
    exSymbol .closeParen 19, exSymbol (.binary (.junction .and)) 21, exName "k" 24,
    exSymbol (.binary (.compare .eq)) 26, ⟨.literal, "x", true, 29⟩]

/-- How the tokens derive. -/
def exDerivation : Derivation :=
  .infixed (.junction .or) (.identifier (exName "a" 0))
    (.infixed (.junction .and)
      (.prefixed .bang (.group (.infixed (.junction .or) (.identifier (exName "b" 7))
        (.infixed (.compare .ge) (.identifier (exName "n" 12))
          (.prefixed .minus (.literal (exConstant "2" 18)))))))
      (.infixed (.compare .eq) (.identifier (exName "k" 24)) (.literal ⟨.literal, "x", true, 29⟩)))

/-- What is built along the derivation. -/
def exBuilt : Condition :=
  binary false (.junction .or) (property false "a")
    (binary false (.junction .and)
      (binary true (.junction .or) (property false "b")
        (binary false (.compare .ge) (property false "n") (literal false ⟨.number, "-2"⟩)))
      (binary false (.compare .eq) (property false "k") (literal false ⟨.string, "x"⟩)))

theorem derives_exLayered : Derives .or exTokens exDerivation := by
  have word (name : String) (offset : Nat) :
      Derives .comparison [exName name offset] (.identifier (exName name offset)) :=
    .item (.item (.identifier rfl))
  have two : Derives .unary [exConstant "2" 18] _ := .item (.literal rfl)
  have quoted : Derives .unary [⟨.literal, "x", true, 29⟩] _ := .item (.literal rfl)
  have negative : Derives .unary (exSymbol .minus 17 :: _) _ := .prefixed rfl (.inr rfl) two
  have atLeast : Derives .comparison _ _ :=
    .infixed (t := exSymbol (.binary (.compare .ge)) 14) rfl (word "n" 12) rfl negative
  have inside : Derives .or _ _ :=
    .infixed (t := exSymbol (.binary (.junction .or)) 9) rfl (.item (.item (word "b" 7))) rfl
      (.item atLeast)
  have group : Derives .primary
      (exSymbol .openParen 6 :: (_ ++ [exSymbol .closeParen 19])) _ := .group rfl inside rfl
  have denied : Derives .unary (exSymbol .bang 5 :: _) _ :=
    .prefixed rfl (.inl rfl) (.item group)
  have equal : Derives .comparison _ _ :=
    .infixed (t := exSymbol (.binary (.compare .eq)) 26) rfl (word "k" 24) rfl quoted
  have both : Derives .and _ _ :=
    .infixed (t := exSymbol (.binary (.junction .and)) 21) rfl (.item (.item denied)) rfl equal
  have joined := Derives.infixed (t := exSymbol (.binary (.junction .or)) 2)
    (rfl : layerOf (.junction .or) = .or) (.item (.item (word "a" 0))) rfl both
  exact joined

theorem read_eq_ok_iff_derives_exLayered :
    (Cursor.start exLayered).tokens = .ok exTokens ∧ Derives .or exTokens exDerivation ∧
      exDerivation.build = .ok exBuilt ∧ read exLayered = .ok exBuilt := by
  have listed : (Cursor.start exLayered).tokens = .ok exTokens :=
    eq_ok_of_toOption (by decide +kernel)
  have built : exDerivation.build = .ok exBuilt := eq_ok_of_toOption (by decide +kernel)
  exact ⟨listed, derives_exLayered, built, (read_eq_ok_iff_derives _ _).mpr
    ⟨_, _, listed, derives_exLayered, fun _ also => also.unique derives_exLayered, built⟩⟩

end Condition

end StyleFlags
