import StyleFlags.Condition.Read

/-!
# The grammar of conditions

The grammar has five layers. A condition is a chain of `||` over chains of `&&`
over chains of comparisons over signed operands, and every chain leans to the
left. Reading by precedence climbs through the same layers with one loop: what
it has read so far is never looser than the operator that comes next.

Results:
1. `Reads.sound`: what climbing reads derives from the grammar.
2. `Derives.reads`: what derives from the grammar is what climbing reads.
3. `Reads.deterministic`, `Derives.unique`: so tokens have one derivation at most.
-/

namespace StyleFlags.Grammar

/-! ## Layers and derivations -/

/-- The layers of the grammar, from the loosest to the tightest. -/
inductive Layer where
  | or
  | and
  | comparison
  | unary
  | primary
deriving DecidableEq, Repr

/-- The layer that a layer is made of. -/
def Layer.tighter : Layer → Layer
  | or => and
  | and => comparison
  | comparison => unary
  | unary => primary
  | primary => primary

/-- The layer whose chains an operator joins. -/
def layerOf : BinaryOperator → Layer
  | .junction .or => .or
  | .junction .and => .and
  | .compare _ => .comparison

/-- How a condition derives from its tokens. -/
inductive Derivation where
  | identifier (token : Token)
  | literal (token : Token)
  | group (inner : Derivation)
  | prefixed (op : Operator) (operand : Derivation)
  | infixed (op : BinaryOperator) (left right : Derivation)

/-- Builds the condition, from the leaves up. -/
def Derivation.build : Derivation → Except CompileError Condition
  | identifier token => .ok (.property false token.text)
  | literal token => do
    let l ← Literal.read token.text token.quoted token.offset
    return .literal false l
  | group inner => inner.build
  | prefixed op operand => do Condition.prefixed op (← operand.build)
  | infixed op left right => do Condition.infixed (.binary op) (← left.build) (← right.build)

/-- The grammar: which tokens derive at a layer, and how. A chain of a layer is one item of the tighter
layer, or a chain, an operator and one more item. -/
inductive Derives : Layer → List Token → Derivation → Prop
  | identifier {t : Token} : t.kind = .identifier → Derives .primary [t] (.identifier t)
  | literal {t : Token} : t.kind = .literal → Derives .primary [t] (.literal t)
  | group {opening closing : Token} {ts : List Token} {x : Derivation} :
      opening.kind = .operator .openParen → Derives .or ts x →
      closing.kind = .operator .closeParen →
      Derives .primary (opening :: (ts ++ [closing])) (.group x)
  | prefixed {t : Token} {op : Operator} {ts : List Token} {x : Derivation} :
      t.kind = .operator op → op = .bang ∨ op = .minus → Derives .unary ts x →
      Derives .unary (t :: ts) (.prefixed op x)
  | item {layer : Layer} {ts : List Token} {x : Derivation} :
      Derives layer.tighter ts x → Derives layer ts x
  | infixed {layer : Layer} {t : Token} {op : BinaryOperator} {ts us : List Token}
      {x y : Derivation} :
      layerOf op = layer → Derives layer ts x → t.kind = .operator (.binary op) →
      Derives layer.tighter us y → Derives layer (ts ++ t :: us) (.infixed op x y)

/-! ## Climbing -/

/-- No operator that binds tighter than `least` comes next. -/
def Bounded (least : Nat) (ts : List Token) : Prop :=
  ∀ t ∈ ts.head?, ∀ op, t.kind = .operator op → op.precedence ≤ least

/-- What is read: an operand, or the operators behind something that was read. -/
inductive Mode where
  | operand
  | infixes (least : Nat) (left : Derivation)

/-- Reading by precedence: which tokens are read as what, and which are left. -/
inductive Reads : Mode → List Token → Derivation → List Token → Prop
  | identifier {t : Token} {ts : List Token} : t.kind = .identifier →
      Reads .operand (t :: ts) (.identifier t) ts
  | literal {t : Token} {ts : List Token} : t.kind = .literal →
      Reads .operand (t :: ts) (.literal t) ts
  | group {opening closing : Token} {ts us vs : List Token} {first inner : Derivation} :
      opening.kind = .operator .openParen → Reads .operand ts first us →
      Reads (.infixes 0 first) us inner (closing :: vs) → closing.kind = .operator .closeParen →
      Reads .operand (opening :: ts) (.group inner) vs
  | prefixed {t : Token} {op : Operator} {ts us : List Token} {x : Derivation} :
      t.kind = .operator op → op = .bang ∨ op = .minus → Reads .operand ts x us →
      Reads .operand (t :: ts) (.prefixed op x) us
  | stop {least : Nat} {left : Derivation} {ts : List Token} : Bounded least ts →
      Reads (.infixes least left) ts left ts
  | step {least : Nat} {left first right whole : Derivation} {t : Token} {op : BinaryOperator}
      {ts us vs ws : List Token} :
      t.kind = .operator (.binary op) → least < (Operator.binary op).precedence →
      Reads .operand ts first us → Reads (.infixes (Operator.binary op).precedence first) us right vs →
      Reads (.infixes least (.infixed op left right)) vs whole ws →
      Reads (.infixes least left) (t :: ts) whole ws

theorem bounded_nil (least : Nat) : Bounded least [] := by
  intro t next
  cases next

theorem bounded_cons {least : Nat} {t : Token} {ts : List Token} :
    Bounded least (t :: ts) ↔ ∀ op, t.kind = .operator op → op.precedence ≤ least := by
  simp [Bounded]

theorem Bounded.mono {least more : Nat} {ts : List Token} (bounded : Bounded least ts)
    (le : least ≤ more) : Bounded more ts :=
  fun t next op isOp => Nat.le_trans (bounded t next op isOp) le

theorem Bounded.of_kind {least : Nat} {t : Token} {ts : List Token} {op : Operator}
    (isOp : t.kind = .operator op) (le : op.precedence ≤ least) : Bounded least (t :: ts) := by
  rw [bounded_cons]
  intro other isOther
  rw [isOp] at isOther
  cases isOther
  exact le

theorem precedence_le (op : Operator) : op.precedence ≤ 4 := by
  unfold Operator.precedence
  split <;> decide

theorem precedence_sign {op : Operator} (signs : op = .bang ∨ op = .minus) : op.precedence = 4 := by
  rcases signs with rfl | rfl
  · rfl
  · rfl

theorem bounded_four (ts : List Token) : Bounded 4 ts := fun _ _ op _ => precedence_le op

/-! ## Soundness -/

/-- The layer of what is read with operators that bind tighter than `least`. -/
def above : Nat → Layer
  | 0 => .or
  | 1 => .and
  | 2 => .comparison
  | _ => .unary

theorem Derives.loosen {least more : Nat} {ts : List Token} {x : Derivation}
    (derives : Derives (above more) ts x) (le : least ≤ more) : Derives (above least) ts x := by
  induction le with
  | refl => exact derives
  | @step m _ ih =>
    refine ih ?_
    rcases m with _ | _ | _ | m
    · exact .item derives
    · exact .item derives
    · exact .item derives
    · exact derives

/-- The layer of an operator, by its precedence. -/
theorem layerOf_eq (op : BinaryOperator) :
    ∃ p < 3, (Operator.binary op).precedence = p + 1 ∧ layerOf op = above p ∧
      (above p).tighter = above (p + 1) := by
  cases op with
  | junction op => cases op <;> exact ⟨_, by decide, rfl, rfl, rfl⟩
  | compare op => exact ⟨2, by decide, rfl, rfl, rfl⟩

/-- What a reading claims. Operators behind `left` may only be read if `left` is as tight as the next
of them. -/
def Mode.Sound : Mode → List Token → Derivation → List Token → Prop
  | .operand, ts, x, us => ∃ taken, ts = taken ++ us ∧ Derives .unary taken x
  | .infixes least left, ts, x, us => ∀ before p, Derives (above p) before left → least ≤ p →
      Bounded (p + 1) ts →
      ∃ taken, ts = taken ++ us ∧ Derives (above least) (before ++ taken) x ∧ Bounded least us

theorem Mode.Sound.climb {least : Nat} {ts us vs : List Token} {first whole : Derivation}
    (operand : Sound .operand ts first us) (infixes : Sound (.infixes least first) us whole vs)
    (le : least ≤ 3) :
    ∃ taken, ts = taken ++ vs ∧ Derives (above least) taken whole ∧ Bounded least vs := by
  obtain ⟨taken, rfl, derives⟩ := operand
  obtain ⟨more, rfl, whole, bounded⟩ := infixes taken 3 derives le (bounded_four us)
  exact ⟨taken ++ more, by rw [List.append_assoc], whole, bounded⟩

theorem Reads.sound {mode : Mode} {ts us : List Token} {x : Derivation} (reads : Reads mode ts x us) :
    mode.Sound ts x us := by
  induction reads with
  | identifier isName => exact ⟨[_], rfl, .item (.identifier isName)⟩
  | literal isLiteral => exact ⟨[_], rfl, .item (.literal isLiteral)⟩
  | @group opening closing ts us vs first inner opens _ _ closes operand infixes =>
    obtain ⟨taken, rfl, derives, _⟩ := operand.climb infixes (Nat.zero_le _)
    exact ⟨opening :: (taken ++ [closing]), by simp, .item (.group opens derives closes)⟩
  | @prefixed t op ts us x isOp signs _ operand =>
    obtain ⟨taken, rfl, derives⟩ := operand
    exact ⟨t :: taken, rfl, .prefixed isOp signs derives⟩
  | stop bounded =>
    intro before p derives le _
    exact ⟨[], rfl, by rw [List.append_nil]; exact derives.loosen le, bounded⟩
  | @step least left first right whole t op ts us vs ws isOp tighter _ _ _ operand infixes rest =>
    intro before p derives _ bounded
    obtain ⟨q, small, precedence, layer, item⟩ := layerOf_eq op
    have le := bounded_cons.mp bounded _ isOp
    rw [precedence] at infixes tighter le
    obtain ⟨taken, rfl, right, boundedRight⟩ := operand.climb infixes small
    have joined : Derives (above q) (before ++ t :: taken) (.infixed op left _) :=
      .infixed layer (derives.loosen (Nat.le_of_succ_le_succ le)) isOp (item ▸ right)
    obtain ⟨more, rfl, whole, boundedRest⟩ :=
      rest _ q joined (Nat.le_of_lt_succ tighter) boundedRight
    exact ⟨t :: (taken ++ more), by simp, by simpa using whole, boundedRest⟩

/-! ## Completeness -/

/-- Reading an operand and the operators behind it. -/
def Climbs (least : Nat) (ts : List Token) (x : Derivation) (us : List Token) : Prop :=
  ∃ first mid, Reads .operand ts first mid ∧ Reads (.infixes least first) mid x us

/-- How tightly a layer binds: as its operators, or tighter than all of them. -/
def Layer.precedence : Layer → Nat
  | or => 1
  | and => 2
  | comparison => 3
  | unary => 4
  | primary => 4

theorem Layer.precedence_le (layer : Layer) : layer.precedence ≤ 4 := by
  cases layer <;> decide

theorem Layer.precedence_le_tighter (layer : Layer) :
    layer.precedence ≤ layer.tighter.precedence := by
  cases layer <;> decide

theorem precedence_layerOf (op : BinaryOperator) :
    (Operator.binary op).precedence = (layerOf op).precedence ∧
      (layerOf op).precedence < (layerOf op).tighter.precedence := by
  cases op with
  | junction op => cases op <;> decide
  | compare op => cases op <;> decide

/-- How tokens of a layer are read with `rest` behind them: as an operand if the layer is a tight one,
and otherwise with the operators behind them that bind no tighter. -/
structure ReadsBefore (layer : Layer) (ts : List Token) (x : Derivation) (rest : List Token) : Prop where
  operand : layer.precedence = 4 → Reads .operand (ts ++ rest) x rest
  climbs : ∀ {least whole us}, least < layer.precedence → Bounded layer.precedence rest →
    Reads (.infixes least x) rest whole us → Climbs least (ts ++ rest) whole us

theorem ReadsBefore.of_operand {layer : Layer} {ts rest : List Token} {x : Derivation}
    (operand : Reads .operand (ts ++ rest) x rest) : ReadsBefore layer ts x rest :=
  ⟨fun _ => operand, fun _ _ infixes => ⟨x, rest, operand, infixes⟩⟩

/-- What derives at a layer is read, whatever follows. -/
theorem Derives.reads {layer : Layer} {ts : List Token} {x : Derivation}
    (derives : Derives layer ts x) (rest : List Token) : ReadsBefore layer ts x rest := by
  induction derives generalizing rest with
  | identifier isName => exact .of_operand (.identifier isName)
  | literal isLiteral => exact .of_operand (.literal isLiteral)
  | @group opening closing ts x opens _ closes inner =>
    have bounded {least : Nat} : Bounded least (closing :: rest) := .of_kind closes (Nat.zero_le _)
    obtain ⟨first, mid, operand, infixes⟩ :=
      (inner (closing :: rest)).climbs (by decide : 0 < _) bounded (.stop bounded)
    refine .of_operand ?_
    rw [List.cons_append, List.append_assoc]
    exact .group opens operand infixes closes
  | prefixed isOp signs _ ih => exact .of_operand (.prefixed isOp signs ((ih rest).operand rfl))
  | @item layer ts x _ ih =>
    have le := layer.precedence_le_tighter
    refine ⟨fun four => (ih rest).operand ?_, fun tighter bounded infixes => ?_⟩
    · exact Nat.le_antisymm layer.tighter.precedence_le (four ▸ le)
    · exact (ih rest).climbs (Nat.lt_of_lt_of_le tighter le) (bounded.mono le) infixes
  | @infixed layer t op ts us x y isLayer _ isOp _ left right =>
    subst isLayer
    obtain ⟨precedence, tight⟩ := precedence_layerOf op
    refine ⟨fun four => ?_, fun tighter bounded infixes => ?_⟩
    · rw [four] at tight
      exact absurd (layerOf op).tighter.precedence_le (Nat.not_le.mpr tight)
    · rw [List.append_assoc, List.cons_append]
      refine (left (t :: (us ++ rest))).climbs tighter ?_ ?_
      · exact .of_kind isOp (Nat.le_of_eq precedence)
      · -- The right side is read up to `rest`, as no operator there binds tighter than this one.
        rw [← precedence] at tight tighter bounded
        obtain ⟨first, mid, operand, behind⟩ :=
          (right rest).climbs tight (bounded.mono (Nat.le_of_lt tight)) (.stop bounded)
        exact .step isOp tighter operand behind infixes

/-! ## Uniqueness -/

theorem Reads.deterministic {mode : Mode} {ts us vs : List Token} {x y : Derivation}
    (first : Reads mode ts x us) (second : Reads mode ts y vs) : x = y ∧ us = vs := by
  induction first generalizing y vs with
  | identifier isName =>
    cases second with
    | identifier _ => exact ⟨rfl, rfl⟩
    | literal isLiteral => simp [isName] at isLiteral
    | group opens _ _ _ => simp [isName] at opens
    | prefixed isOp _ _ => simp [isName] at isOp
  | literal isLiteral =>
    cases second with
    | identifier isName => simp [isLiteral] at isName
    | literal _ => exact ⟨rfl, rfl⟩
    | group opens _ _ _ => simp [isLiteral] at opens
    | prefixed isOp _ _ => simp [isLiteral] at isOp
  | group opens _ _ _ operand infixes =>
    cases second with
    | identifier isName => simp [opens] at isName
    | literal isLiteral => simp [opens] at isLiteral
    | group _ operand' infixes' _ =>
      obtain ⟨rfl, rfl⟩ := operand operand'
      obtain ⟨rfl, same⟩ := infixes infixes'
      cases same
      exact ⟨rfl, rfl⟩
    | prefixed isOp signs _ =>
      rw [opens] at isOp
      cases isOp
      rcases signs with h | h <;> cases h
  | prefixed isOp signs _ operand =>
    cases second with
    | identifier isName => simp [isOp] at isName
    | literal isLiteral => simp [isOp] at isLiteral
    | group opens _ _ _ =>
      rw [isOp] at opens
      cases opens
      rcases signs with h | h <;> cases h
    | prefixed isOp' _ operand' =>
      obtain ⟨rfl, rfl⟩ := operand operand'
      rw [isOp] at isOp'
      cases isOp'
      exact ⟨rfl, rfl⟩
  | stop bounded =>
    cases second with
    | stop _ => exact ⟨rfl, rfl⟩
    | step isOp tighter _ _ _ => exact absurd (bounded_cons.mp bounded _ isOp) (Nat.not_le.mpr tighter)
  | step isOp tighter _ _ _ operand infixes rest =>
    cases second with
    | stop bounded => exact absurd (bounded_cons.mp bounded _ isOp) (Nat.not_le.mpr tighter)
    | step isOp' _ operand' infixes' rest' =>
      rw [isOp] at isOp'
      cases isOp'
      obtain ⟨rfl, rfl⟩ := operand operand'
      obtain ⟨rfl, rfl⟩ := infixes infixes'
      exact rest rest'

theorem Climbs.deterministic {least : Nat} {ts us vs : List Token} {x y : Derivation}
    (first : Climbs least ts x us) (second : Climbs least ts y vs) : x = y ∧ us = vs := by
  obtain ⟨left, mid, operand, infixes⟩ := first
  obtain ⟨left', mid', operand', infixes'⟩ := second
  obtain ⟨rfl, rfl⟩ := operand.deterministic operand'
  exact infixes.deterministic infixes'

/-- No operator binds tight enough to be read after one that is written before its operand. -/
theorem Climbs.operand {ts us : List Token} {x : Derivation} (climbs : Climbs 4 ts x us) :
    Reads .operand ts x us := by
  obtain ⟨first, mid, operand, infixes⟩ := climbs
  obtain ⟨rfl, rfl⟩ := infixes.deterministic (.stop (bounded_four mid))
  exact operand

/-- Reading whole tokens as a condition is deriving them from the grammar. -/
theorem derives_iff_climbs {ts : List Token} {x : Derivation} :
    Derives .or ts x ↔ Climbs 0 ts x [] := by
  constructor
  · intro derives
    have climbs :=
      (derives.reads []).climbs (by decide : 0 < _) (bounded_nil _) (.stop (bounded_nil _))
    rwa [List.append_nil] at climbs
  · rintro ⟨first, mid, operand, infixes⟩
    obtain ⟨taken, rfl, derives, _⟩ := operand.sound.climb infixes.sound (Nat.zero_le _)
    rwa [List.append_nil]

/-- Tokens have one derivation at most. -/
theorem Derives.unique {ts : List Token} {x y : Derivation} (first : Derives .or ts x)
    (second : Derives .or ts y) : x = y :=
  ((derives_iff_climbs.mp first).deterministic (derives_iff_climbs.mp second)).1

end StyleFlags.Grammar
