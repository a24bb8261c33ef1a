import StyleFlags.Condition.Normal

/-!
# The shape of conditions

Building folds constants and refuses some comparisons, so not every tree is a
condition that can be met. `Condition.Shaped` says what is left: no negated
literal, no literal below a connective, and comparisons of a bare property with
a leaf that fits the operator. `Condition.Built` lists the operations that make
conditions.

Results:
1. `Built.shaped`: every condition that can be built has this shape.
2. `distributes`: distribution comes to an end, by steps that `Distributes` lists.
   `Shaped.nnf_induct`, `distribute_induct`: inductions that follow the steps of
   pushing negations and of distribution, with one case for each way a junction
   can come out.
3. `Shaped.negate`, `Shaped.nnf`, `Shaped.distribute`: the shape is kept, with
   whatever restriction on names and literals the vocabulary states.
4. `Gathers.mem_distribute`: what is collected from the leaves is kept by distribution.
5. `isNnf_nnf`, `isNnf_distribute`: the normal forms negate nothing but properties.
-/

namespace StyleFlags.Condition

/-! ## Vocabularies -/

/-- The names and literals that conditions may be made of. Folding makes boolean literals and
changes the sign of numbers, so a vocabulary is closed under both. -/
structure Vocabulary where
  name : String → Prop
  literal : Literal → Prop
  boolean : ∀ b, literal (.boolean b)
  signed : ∀ {l m}, literal l → l.negateSign? = some m → literal m

/-- The vocabulary without restrictions. -/
def Vocabulary.all : Vocabulary where
  name _ := True
  literal _ := True
  boolean _ := trivial
  signed _ _ := trivial

/-- Whether a literal can be the right side of a comparison: a type name has no order, and equality
with a boolean is folded away. -/
def fits (op : Comparison) (l : Literal) : Prop :=
  if op.isEquality then l.kind ≠ .boolean else l.kind ≠ .typeName

/-- The right side of a comparison: a leaf that fits the operator. -/
def ShapedOperand (v : Vocabulary) (op : Comparison) : Condition → Prop
  | property _ name => v.name name
  | literal negated l => negated = false ∧ v.literal l ∧ fits op l
  | binary _ _ _ _ => False

/-- The shape of every condition that can be built. -/
def Shaped (v : Vocabulary) : Condition → Prop
  | property _ name => v.name name
  | literal negated l => negated = false ∧ v.literal l
  | binary _ (.junction _) left right =>
    left.literal? = none ∧ right.literal? = none ∧ left.Shaped v ∧ right.Shaped v
  | binary _ (.compare op) left right =>
    (∃ name, left = property false name ∧ v.name name) ∧ right.ShapedOperand v op

theorem ShapedOperand.shaped {v : Vocabulary} {op : Comparison} {c : Condition}
    (shaped : c.ShapedOperand v op) : c.op? = none ∧ c.Shaped v := by
  cases c with
  | property negated name => exact ⟨rfl, shaped⟩
  | literal negated l => exact ⟨rfl, shaped.1, shaped.2.1⟩
  | binary negated found left right => exact shaped.elim

/-! ## Building -/

section Building

variable {v : Vocabulary}

theorem shaped_boolean (b : Bool) : (boolean b).Shaped v := ⟨rfl, v.boolean b⟩

theorem constant?_eq_none {c : Condition} : c.constant? = none ↔ c.literal? = none := by
  simp [constant?]

@[simp] theorem literal?_negate_eq_none {c : Condition} :
    c.negate.literal? = none ↔ c.literal? = none := by
  cases c <;> simp [negate, literal?]

theorem Shaped.negate {c : Condition} (shaped : c.Shaped v) : c.negate.Shaped v := by
  cases c with
  | property negated name => exact shaped
  | literal negated l => exact ⟨shaped.1, v.boolean _⟩
  | binary negated op left right => cases op <;> exact shaped

theorem Shaped.junction {op : Connective} {left right : Condition} (hl : left.Shaped v)
    (hr : right.Shaped v) : (junction op left right).Shaped v := by
  unfold Condition.junction
  split
  · exact shaped_boolean _
  · split
    · exact shaped_boolean _
    · exact hr
  · split
    · exact shaped_boolean _
    · exact hl
  · next leftOpen rightOpen =>
    exact ⟨constant?_eq_none.mp leftOpen, constant?_eq_none.mp rightOpen, hl, hr⟩

/-- What a comparison that was not refused compares. -/
theorem misuse?_eq_none {op : Comparison} {left right : Condition}
    (proper : misuse? op left right = none) :
    ∃ name, left = property false name ∧
      ((∃ negated other, right = property negated other) ∨
        ∃ negated l, right = literal negated l ∧ (op.isEquality = false → l.kind ≠ .typeName)) := by
  unfold misuse? at proper
  split at proper
  · next name negated l =>
    refine ⟨name, rfl, .inr ⟨negated, l, rfl, ?_⟩⟩
    intro ordered isTypeName
    simp [ordered, isTypeName] at proper
  · next name negated other => exact ⟨name, rfl, .inl ⟨negated, other, rfl⟩⟩
  · cases proper
  · cases proper

theorem Shaped.comparison {op : Comparison} {left right c : Condition} (hl : left.Shaped v)
    (hr : right.Shaped v) (built : comparison op left right = .ok c) : c.Shaped v := by
  unfold Condition.comparison at built
  split at built
  · cases built
  · next proper =>
    obtain ⟨name, rfl, ⟨negated, other, rfl⟩ | ⟨negated, l, rfl, ordered⟩⟩ := misuse?_eq_none proper
    · cases built
      exact ⟨⟨name, rfl, hl⟩, hr⟩
    · simp only [literal?] at built
      split at built
      · cases built
        split
        · exact hl
        · exact hl.negate
      · next notFolded =>
        cases built
        refine ⟨⟨name, rfl, hl⟩, hr.1, hr.2, ?_⟩
        unfold fits
        split
        · next isEquality =>
          intro isBoolean
          simp [isEquality, isBoolean] at notFolded
        · next isOrder => exact ordered (by simpa using isOrder)

theorem Shaped.infixed {op : Operator} {left right c : Condition} (hl : left.Shaped v)
    (hr : right.Shaped v) (built : infixed op left right = .ok c) : c.Shaped v := by
  unfold Condition.infixed join at built
  split at built
  · split at built
    · cases built
      exact hl.junction hr
    · exact hl.comparison hr built
  · cases built

theorem Shaped.prefixed {op : Operator} {operand c : Condition} (shaped : operand.Shaped v)
    (built : prefixed op operand = .ok c) : c.Shaped v := by
  unfold Condition.prefixed at built
  split at built
  · cases built
    exact shaped.negate
  · split at built
    · next l signed =>
      cases built
      cases operand with
      | literal negated m => exact ⟨rfl, v.signed shaped.2 signed⟩
      | property negated name => cases signed
      | binary negated op left right => cases signed
    · cases built
  · cases built

end Building

/-! ## Negations -/

section Negations

variable {v : Vocabulary}

theorem fits_dual {op : Comparison} {l : Literal} : fits op.dual l ↔ fits op l := by
  simp [fits]

theorem ShapedOperand.dual {op : Comparison} {c : Condition} (shaped : c.ShapedOperand v op) :
    c.ShapedOperand v op.dual := by
  cases c with
  | property negated name => exact shaped
  | literal negated l => exact ⟨shaped.1, shaped.2.1, fits_dual.mpr shaped.2.2⟩
  | binary negated found left right => exact shaped

theorem Shaped.deMorgan {c : Condition} (shaped : c.Shaped v) : c.deMorgan.Shaped v := by
  cases c with
  | property negated name => exact shaped
  | literal negated l => exact shaped
  | binary negated op left right =>
    cases op with
    | junction op =>
      obtain ⟨leftOpen, rightOpen, hl, hr⟩ := shaped
      exact ⟨literal?_negate_eq_none.mpr leftOpen, literal?_negate_eq_none.mpr rightOpen,
        hl.negate, hr.negate⟩
    | compare op => exact ⟨shaped.1, shaped.2.dual⟩

@[simp] theorem nnf_property (negated : Bool) (name : String) :
    (property negated name).nnf = property negated name := by
  rw [nnf]
  · intros; contradiction
  · intros; contradiction
  · intros; contradiction

@[simp] theorem nnf_literal (negated : Bool) (l : Literal) :
    (literal negated l).nnf = literal negated l := by
  rw [nnf]
  · intros; contradiction
  · intros; contradiction
  · intros; contradiction

/-- The operand of a comparison is a leaf, which has no negation to push. -/
theorem ShapedOperand.nnf_eq {op : Comparison} {c : Condition} (shaped : c.ShapedOperand v op) :
    c.nnf = c := by
  cases c with
  | property negated name => exact nnf_property negated name
  | literal negated l => exact nnf_literal negated l
  | binary negated found left right => exact shaped.elim

@[simp] theorem literal?_nnf (c : Condition) : c.nnf.literal? = c.literal? := by
  cases c with
  | property negated name => rw [nnf_property]
  | literal negated l => rw [nnf_literal]
  | binary negated op left right =>
    cases negated with
    | false => rw [nnf]; rfl
    | true => cases op <;> rw [nnf] <;> rfl

/-- An induction over the steps that push negations down. `motive c d` relates a shaped condition with
what becomes of it; a junction and a comparison have one case each for being negated and for not. -/
theorem Shaped.nnf_induct {motive : Condition → Condition → Prop}
    (property : ∀ negated name, v.name name →
      motive (property negated name) (property negated name))
    (literal : ∀ l, v.literal l → motive (literal false l) (literal false l))
    (denied : ∀ op left right, (binary true (.junction op) left right).Shaped v →
      motive left.negate left.negate.nnf → motive right.negate right.negate.nnf →
      motive (binary true (.junction op) left right)
        (binary false (.junction op.dual) left.negate.nnf right.negate.nnf))
    (kept : ∀ op left right, (binary false (.junction op) left right).Shaped v →
      motive left left.nnf → motive right right.nnf →
      motive (binary false (.junction op) left right)
        (binary false (.junction op) left.nnf right.nnf))
    (deniedComparison : ∀ op name operand, v.name name → operand.ShapedOperand v op →
      motive (binary true (.compare op) (.property false name) operand)
        (binary false (.compare op.dual) (.property false name) operand))
    (keptComparison : ∀ op name operand, v.name name → operand.ShapedOperand v op →
      motive (binary false (.compare op) (.property false name) operand)
        (binary false (.compare op) (.property false name) operand))
    {c : Condition} (shaped : c.Shaped v) : motive c c.nnf := by
  fun_induction Condition.nnf c with
  | case1 op left right leftIh rightIh =>
    exact denied op left right shaped (leftIh shaped.2.2.1.negate) (rightIh shaped.2.2.2.negate)
  | case2 op left right leftIh rightIh =>
    obtain ⟨⟨name, rfl, known⟩, operand⟩ := shaped
    rw [nnf_property, operand.nnf_eq]
    exact deniedComparison op name right known operand
  | case3 op left right leftIh rightIh =>
    cases op with
    | junction op => exact kept op left right shaped (leftIh shaped.2.2.1) (rightIh shaped.2.2.2)
    | compare op =>
      obtain ⟨⟨name, rfl, known⟩, operand⟩ := shaped
      rw [nnf_property, operand.nnf_eq]
      exact keptComparison op name right known operand
  | case4 c noDenied noDeniedComparison noBinary =>
    cases c with
    | property negated name => exact property negated name shaped
    | literal negated l =>
      cases shaped.1
      exact literal l shaped.2
    | binary negated op left right =>
      cases negated with
      | false => exact (noBinary op left right rfl).elim
      | true =>
        cases op with
        | junction op => exact (noDenied op left right rfl).elim
        | compare op => exact (noDeniedComparison op left right rfl).elim

theorem Shaped.nnf {c : Condition} (shaped : c.Shaped v) : c.nnf.Shaped v := by
  refine shaped.nnf_induct (motive := fun _ d => d.Shaped v) ?_ ?_ ?_ ?_ ?_ ?_
  · intro negated name known
    exact known
  · intro l known
    exact ⟨rfl, known⟩
  · intro op left right ⟨leftOpen, rightOpen, _⟩ onLeft onRight
    refine ⟨?_, ?_, onLeft, onRight⟩
    · rw [literal?_nnf]
      exact literal?_negate_eq_none.mpr leftOpen
    · rw [literal?_nnf]
      exact literal?_negate_eq_none.mpr rightOpen
  · intro op left right ⟨leftOpen, rightOpen, _⟩ onLeft onRight
    exact ⟨(literal?_nnf left).trans leftOpen, (literal?_nnf right).trans rightOpen,
      onLeft, onRight⟩
  · intro op name operand known shaped
    exact ⟨⟨name, rfl, known⟩, shaped.dual⟩
  · intro op name operand known shaped
    exact ⟨⟨name, rfl, known⟩, shaped⟩

end Negations

/-! ## Distribution -/

/-- The steps of distribution, from a condition to what becomes of it. A junction with the connective
that is distributed comes out in one of three ways: no side can be opened, one side is opened, or one
side is opened and both parts are distributed again. -/
inductive Distributes (target : Connective) (perfect : Bool) : Condition → Condition → Prop
  | property (negated : Bool) (name : String) :
      Distributes target perfect (property negated name) (property negated name)
  | literal (negated : Bool) (l : Literal) :
      Distributes target perfect (literal negated l) (literal negated l)
  | passed {negated : Bool} {op : BinaryOperator} {left right left' right' : Condition} :
      op ≠ .junction target → Distributes target perfect left left' →
      Distributes target perfect right right' →
      Distributes target perfect (binary negated op left right) (binary negated op left' right')
  | closed {negated : Bool} {left right left' right' : Condition} :
      Distributes target perfect left left' → Distributes target perfect right right' →
      opened? target.dual left' right' = none →
      Distributes target perfect (binary negated (.junction target) left right)
        (binary negated (.junction target) left' right')
  | opened {negated : Bool} {left right left' right' first second injected : Condition} :
      Distributes target perfect left left' → Distributes target perfect right right' →
      opened? target.dual left' right' = some (first, second, injected) →
      (perfect && (injected.carries target.dual || first.carries target.dual ||
        second.carries target.dual)) = false →
      Distributes target perfect (binary negated (.junction target) left right)
        (binary negated (.junction target.dual) (pair target first injected)
          (pair target second injected))
  | again {negated : Bool}
      {left right left' right' first second injected first' second' : Condition} :
      Distributes target perfect left left' → Distributes target perfect right right' →
      opened? target.dual left' right' = some (first, second, injected) →
      (perfect && (injected.carries target.dual || first.carries target.dual ||
        second.carries target.dual)) = true →
      Distributes target perfect (pair target first injected) first' →
      Distributes target perfect (pair target second injected) second' →
      Distributes target perfect (binary negated (.junction target) left right)
        (binary negated (.junction target.dual) first' second')

theorem Distributes.eq {target : Connective} {perfect : Bool} {c d : Condition}
    (steps : Distributes target perfect c d) : distribute target perfect c = d := by
  induction steps with
  | property negated name => exact distribute_property ..
  | literal negated l => exact distribute_literal ..
  | passed other _ _ onLeft onRight => rw [distribute_binary, if_neg other, onLeft, onRight]
  | closed _ _ none onLeft onRight =>
    rw [distribute_binary, if_pos rfl, onLeft, onRight, distributeJunction, none]
  | opened _ _ found ends onLeft onRight =>
    rw [distribute_binary, if_pos rfl, onLeft, onRight, distributeJunction, found]
    simp only [ends, Bool.false_eq_true, if_false]
  | again _ _ found goesOn _ _ onLeft onRight onFirst onSecond =>
    rw [distribute_binary, if_pos rfl, onLeft, onRight, distributeJunction, found]
    simp only [goesOn, if_true, onFirst, onSecond]

/-- The steps of distribution come to an end on every condition. -/
theorem distributes (target : Connective) (perfect : Bool) (c : Condition) :
    Distributes target perfect c (distribute target perfect c) := by
  -- On the weight, which bounds also the parts that are distributed again.
  suffices bounded : ∀ n c, c.weight target ≤ n →
      Distributes target perfect c (distribute target perfect c) from
    bounded _ c (Nat.le_refl _)
  intro n
  induction n with
  | zero =>
    intro c small
    have := two_le_weight target c
    omega
  | succ n ih =>
    intro c small
    cases c with
    | property negated name => simpa using .property negated name
    | literal negated l => simpa using .literal negated l
    | binary negated op left right =>
      have hl := two_le_weight target left
      have hr := two_le_weight target right
      have below : left.weight target ≤ n ∧ right.weight target ≤ n := by
        have growLeft := Nat.mul_le_mul_left (left.weight target) hr
        have growRight := Nat.mul_le_mul_right (right.weight target) hl
        simp only [weight] at small
        split at small <;> omega
      have onLeft := ih left below.1
      have onRight := ih right below.2
      rw [distribute_binary]
      split
      · next isTarget =>
        subst isTarget
        rw [distributeJunction]
        split
        · next none => exact .closed onLeft onRight none
        · next first second injected found =>
          have total := weight_of_opened? found
          have boundLeft := (distributeBounded target perfect left).property
          have boundRight := (distributeBounded target perfect right).property
          have whole := Nat.mul_le_mul boundLeft boundRight
          have boundFirst := weight_pair_le target first injected
          have boundSecond := weight_pair_le target second injected
          have hi := two_le_weight target injected
          simp only [weight, if_true] at small
          rw [Nat.add_mul, Nat.add_mul, Nat.one_mul] at total
          simp only [distribute] at total
          split
          · next goesOn =>
            exact .again onLeft onRight found goesOn (ih _ (by omega)) (ih _ (by omega))
          · next ends => exact .opened onLeft onRight found (eq_false_of_ne_true ends)
      · next isOther => exact .passed isOther onLeft onRight

/-- An induction over the steps of distribution. `motive c d` relates a condition with what becomes
of it, whether or not parts of it are distributed again. -/
theorem distribute_induct {target : Connective} {perfect : Bool}
    {motive : Condition → Condition → Prop}
    (property : ∀ negated name, motive (property negated name) (property negated name))
    (literal : ∀ negated l, motive (literal negated l) (literal negated l))
    (passed : ∀ negated op left right, op ≠ .junction target →
      motive left (distribute target perfect left) →
      motive right (distribute target perfect right) →
      motive (binary negated op left right)
        (binary negated op (distribute target perfect left) (distribute target perfect right)))
    (closed : ∀ negated left right,
      opened? target.dual (distribute target perfect left) (distribute target perfect right) =
        none →
      motive left (distribute target perfect left) →
      motive right (distribute target perfect right) →
      motive (binary negated (.junction target) left right)
        (binary negated (.junction target) (distribute target perfect left)
          (distribute target perfect right)))
    (opened : ∀ negated left right first second injected,
      opened? target.dual (distribute target perfect left) (distribute target perfect right) =
        some (first, second, injected) →
      motive left (distribute target perfect left) →
      motive right (distribute target perfect right) →
      motive (binary negated (.junction target) left right)
        (binary negated (.junction target.dual) (pair target first injected)
          (pair target second injected)))
    (again : ∀ negated left right first second injected,
      opened? target.dual (distribute target perfect left) (distribute target perfect right) =
        some (first, second, injected) →
      motive left (distribute target perfect left) →
      motive right (distribute target perfect right) →
      motive (pair target first injected)
        (distribute target perfect (pair target first injected)) →
      motive (pair target second injected)
        (distribute target perfect (pair target second injected)) →
      motive (binary negated (.junction target) left right)
        (binary negated (.junction target.dual)
          (distribute target perfect (pair target first injected))
          (distribute target perfect (pair target second injected)))) :
    ∀ c, motive c (distribute target perfect c) := by
  have follow {c d : Condition} (steps : Distributes target perfect c d) : motive c d := by
    induction steps with
    | property negated name => exact property negated name
    | literal negated l => exact literal negated l
    | passed other hl hr onLeft onRight =>
      cases hl.eq
      cases hr.eq
      exact passed _ _ _ _ other onLeft onRight
    | closed hl hr none onLeft onRight =>
      cases hl.eq
      cases hr.eq
      exact closed _ _ _ none onLeft onRight
    | opened hl hr found _ onLeft onRight =>
      cases hl.eq
      cases hr.eq
      exact opened _ _ _ _ _ _ found onLeft onRight
    | again hl hr found _ hf hs onLeft onRight onFirst onSecond =>
      cases hl.eq
      cases hr.eq
      cases hf.eq
      cases hs.eq
      exact again _ _ _ _ _ _ found onLeft onRight onFirst onSecond
  exact fun c => follow (distributes target perfect c)

theorem sides?_eq_some {op : Connective} {c first second : Condition}
    (found : c.sides? op = some (first, second)) :
    c = binary false (.junction op) first second := by
  unfold sides? at found
  split at found
  · split at found
    · next same =>
      cases found
      rw [same]
    · cases found
  · cases found

/-- One of the two sides was opened, and the other one is injected. -/
theorem opened?_eq_some {op : Connective} {left right first second injected : Condition}
    (found : opened? op left right = some (first, second, injected)) :
    (left = binary false (.junction op) first second ∧ injected = right) ∨
      (right = binary false (.junction op) first second ∧ injected = left) := by
  unfold opened? at found
  split at found
  · next onLeft =>
    cases found
    exact .inl ⟨sides?_eq_some onLeft, rfl⟩
  · rw [Option.map_eq_some_iff] at found
    obtain ⟨⟨a, b⟩, onRight, same⟩ := found
    cases same
    exact .inr ⟨sides?_eq_some onRight, rfl⟩

section Distribution

variable {v : Vocabulary} {target : Connective} {perfect : Bool}

theorem junction_of_open {op : Connective} {left right : Condition} (hl : left.literal? = none)
    (hr : right.literal? = none) :
    junction op left right = binary false (.junction op) left right := by
  simp [junction, constant?_eq_none.mpr hl, constant?_eq_none.mpr hr]

theorem literal?_pair {side injected : Condition} (hs : side.literal? = none)
    (hi : injected.literal? = none) : (pair target side injected).literal? = none := by
  unfold pair
  split
  · exact hs
  · rw [junction_of_open hs hi]
    rfl

theorem Shaped.pair {side injected : Condition} (hs : side.Shaped v) (hi : injected.Shaped v) :
    (pair target side injected).Shaped v := by
  unfold Condition.pair
  split
  · exact hs
  · exact hs.junction hi

/-- The three parts of an opened junction are shaped, and none is a literal. -/
theorem Shaped.of_opened {op : Connective} {left right first second injected : Condition}
    (hl : left.Shaped v) (hr : right.Shaped v) (leftOpen : left.literal? = none)
    (rightOpen : right.literal? = none)
    (found : opened? op left right = some (first, second, injected)) :
    (first.Shaped v ∧ first.literal? = none) ∧ (second.Shaped v ∧ second.literal? = none) ∧
      injected.Shaped v ∧ injected.literal? = none := by
  obtain ⟨rfl, rfl⟩ | ⟨rfl, rfl⟩ := opened?_eq_some found
  · obtain ⟨openFirst, openSecond, shapedFirst, shapedSecond⟩ := hl
    exact ⟨⟨shapedFirst, openFirst⟩, ⟨shapedSecond, openSecond⟩, hr, rightOpen⟩
  · obtain ⟨openFirst, openSecond, shapedFirst, shapedSecond⟩ := hr
    exact ⟨⟨shapedFirst, openFirst⟩, ⟨shapedSecond, openSecond⟩, hl, leftOpen⟩

@[simp] theorem literal?_distribute (c : Condition) :
    (distribute target perfect c).literal? = c.literal? := by
  cases c with
  | property negated name => rw [distribute_property]
  | literal negated l => rw [distribute_literal]
  | binary negated op left right =>
    rw [distribute_binary]
    split
    · rw [distributeJunction]
      split
      · rfl
      · simp only
        split <;> rfl
    · rfl

/-- The operand of a comparison is a leaf, in which nothing is distributed. -/
theorem ShapedOperand.distribute_eq {op : Comparison} {c : Condition}
    (shaped : c.ShapedOperand v op) : distribute target perfect c = c := by
  cases c with
  | property negated name => exact distribute_property ..
  | literal negated l => exact distribute_literal ..
  | binary negated found left right => exact shaped.elim

theorem Shaped.distribute {c : Condition} (shaped : c.Shaped v) :
    (distribute target perfect c).Shaped v := by
  revert shaped
  refine distribute_induct (motive := fun c d => c.Shaped v → d.Shaped v) ?_ ?_ ?_ ?_ ?_ ?_ c
  · intro negated name shaped
    exact shaped
  · intro negated l shaped
    exact shaped
  · intro negated op left right _ onLeft onRight shaped
    cases op with
    | junction op =>
      obtain ⟨leftOpen, rightOpen, hl, hr⟩ := shaped
      exact ⟨(literal?_distribute left).trans leftOpen, (literal?_distribute right).trans rightOpen,
        onLeft hl, onRight hr⟩
    | compare op =>
      obtain ⟨⟨name, rfl, known⟩, operand⟩ := shaped
      rw [distribute_property, operand.distribute_eq]
      exact ⟨⟨name, rfl, known⟩, operand⟩
  · intro negated left right _ onLeft onRight shaped
    obtain ⟨leftOpen, rightOpen, hl, hr⟩ := shaped
    exact ⟨(literal?_distribute left).trans leftOpen, (literal?_distribute right).trans rightOpen,
      onLeft hl, onRight hr⟩
  · intro negated left right first second injected found onLeft onRight shaped
    obtain ⟨leftOpen, rightOpen, hl, hr⟩ := shaped
    obtain ⟨hf, hs, hi⟩ := Shaped.of_opened (onLeft hl) (onRight hr)
      ((literal?_distribute left).trans leftOpen) ((literal?_distribute right).trans rightOpen) found
    exact ⟨literal?_pair hf.2 hi.2, literal?_pair hs.2 hi.2, hf.1.pair hi.1, hs.1.pair hi.1⟩
  · intro negated left right first second injected found onLeft onRight onFirst onSecond shaped
    obtain ⟨leftOpen, rightOpen, hl, hr⟩ := shaped
    obtain ⟨hf, hs, hi⟩ := Shaped.of_opened (onLeft hl) (onRight hr)
      ((literal?_distribute left).trans leftOpen) ((literal?_distribute right).trans rightOpen) found
    exact ⟨(literal?_distribute _).trans (literal?_pair hf.2 hi.2),
      (literal?_distribute _).trans (literal?_pair hs.2 hi.2), onFirst (hf.1.pair hi.1),
      onSecond (hs.1.pair hi.1)⟩

/-! ### What is collected from the leaves -/

/-- What `collected` lists for a junction is what it lists for the two sides. -/
def Gathers {α : Type} (collected : Condition → List α) : Prop :=
  ∀ negated op left right, collected (binary negated (.junction op) left right) =
    collected left ++ collected right

namespace Gathers

variable {α : Type} {collected : Condition → List α} {x : α}

theorem mem_junction (gathers : Gathers collected) {negated : Bool} {op : Connective}
    {left right : Condition} :
    x ∈ collected (binary negated (.junction op) left right) ↔
      x ∈ collected left ∨ x ∈ collected right := by
  rw [gathers, List.mem_append]

theorem mem_pair (gathers : Gathers collected) {side injected : Condition}
    (sideOpen : side.literal? = none) (injectedOpen : injected.literal? = none) :
    x ∈ collected (pair target side injected) ↔ x ∈ collected side ∨ x ∈ collected injected := by
  unfold pair
  split
  · next same => rw [same, or_self]
  · rw [junction_of_open sideOpen injectedOpen, gathers.mem_junction]

/-- The parts of an opened junction together hold what its sides do. -/
theorem mem_opened (gathers : Gathers collected) {op : Connective}
    {left right first second injected : Condition}
    (found : opened? op left right = some (first, second, injected)) :
    (x ∈ collected first ∨ x ∈ collected injected) ∨
        (x ∈ collected second ∨ x ∈ collected injected) ↔
      x ∈ collected left ∨ x ∈ collected right := by
  rw [← or_or_distrib_right]
  obtain ⟨rfl, rfl⟩ | ⟨rfl, rfl⟩ := opened?_eq_some found
  · rw [gathers.mem_junction]
  · rw [gathers.mem_junction, or_comm]

/-- Distribution repeats leaves and drops repeated ones. So nothing that is collected from them is
lost, and nothing is new. -/
theorem mem_distribute (gathers : Gathers collected) {c : Condition} (shaped : c.Shaped v) :
    x ∈ collected (distribute target perfect c) ↔ x ∈ collected c := by
  revert shaped
  refine distribute_induct
    (motive := fun c d => c.Shaped v → (x ∈ collected d ↔ x ∈ collected c)) ?_ ?_ ?_ ?_ ?_ ?_ c
  · intro negated name _
    rfl
  · intro negated l _
    rfl
  · intro negated op left right _ onLeft onRight shaped
    cases op with
    | junction op =>
      obtain ⟨_, _, hl, hr⟩ := shaped
      rw [gathers.mem_junction, onLeft hl, onRight hr, gathers.mem_junction]
    | compare op =>
      obtain ⟨⟨name, rfl, _⟩, operand⟩ := shaped
      rw [distribute_property, operand.distribute_eq]
  · intro negated left right _ onLeft onRight shaped
    obtain ⟨_, _, hl, hr⟩ := shaped
    rw [gathers.mem_junction, onLeft hl, onRight hr, gathers.mem_junction]
  · intro negated left right first second injected found onLeft onRight shaped
    obtain ⟨leftOpen, rightOpen, hl, hr⟩ := shaped
    obtain ⟨hf, hs, hi⟩ := Shaped.of_opened (v := v) hl.distribute hr.distribute
      ((literal?_distribute left).trans leftOpen) ((literal?_distribute right).trans rightOpen) found
    rw [gathers.mem_junction, gathers.mem_pair hf.2 hi.2, gathers.mem_pair hs.2 hi.2,
      gathers.mem_opened found, onLeft hl, onRight hr, gathers.mem_junction]
  · intro negated left right first second injected found onLeft onRight onFirst onSecond shaped
    obtain ⟨leftOpen, rightOpen, hl, hr⟩ := shaped
    obtain ⟨hf, hs, hi⟩ := Shaped.of_opened (v := v) hl.distribute hr.distribute
      ((literal?_distribute left).trans leftOpen) ((literal?_distribute right).trans rightOpen) found
    rw [gathers.mem_junction, onFirst (hf.1.pair hi.1), onSecond (hs.1.pair hi.1),
      gathers.mem_pair hf.2 hi.2, gathers.mem_pair hs.2 hi.2, gathers.mem_opened found, onLeft hl,
      onRight hr, gathers.mem_junction]

end Gathers

end Distribution

/-! ## Negations at the leaves -/

/-- Whether nothing but properties is negated. -/
def isNnf : Condition → Bool
  | property _ _ => true
  | literal negated _ => !negated
  | binary negated _ left right => !negated && left.isNnf && right.isNnf

section NegationNormalForm

variable {v : Vocabulary}

theorem ShapedOperand.isNnf {op : Comparison} {c : Condition} (shaped : c.ShapedOperand v op) :
    c.isNnf = true := by
  cases c with
  | property negated name => rfl
  | literal negated l => rw [Condition.isNnf, shaped.1, Bool.not_false]
  | binary negated found left right => exact shaped.elim

theorem isNnf_binary {negated : Bool} {op : BinaryOperator} {left right : Condition} :
    (binary negated op left right).isNnf = true ↔
      negated = false ∧ left.isNnf = true ∧ right.isNnf = true := by
  simp [isNnf, and_assoc]

theorem isNnf_nnf {c : Condition} (shaped : c.Shaped v) : c.nnf.isNnf = true := by
  refine shaped.nnf_induct (motive := fun _ d => d.isNnf = true) ?_ ?_ ?_ ?_ ?_ ?_
  · intro negated name _
    rfl
  · intro l _
    rfl
  · intro op left right _ onLeft onRight
    exact isNnf_binary.mpr ⟨rfl, onLeft, onRight⟩
  · intro op left right _ onLeft onRight
    exact isNnf_binary.mpr ⟨rfl, onLeft, onRight⟩
  · intro op name operand _ shaped
    exact isNnf_binary.mpr ⟨rfl, rfl, shaped.isNnf⟩
  · intro op name operand _ shaped
    exact isNnf_binary.mpr ⟨rfl, rfl, shaped.isNnf⟩

theorem nnf_eq_of_isNnf {c : Condition} (normal : c.isNnf = true) : c.nnf = c := by
  induction c with
  | property negated name => exact nnf_property negated name
  | literal negated l => exact nnf_literal negated l
  | binary negated op left right ihl ihr =>
    obtain ⟨rfl, hl, hr⟩ := isNnf_binary.mp normal
    rw [nnf, ihl hl, ihr hr]

theorem isNnf_junction {op : Connective} {left right : Condition} (hl : left.isNnf = true)
    (hr : right.isNnf = true) : (junction op left right).isNnf = true := by
  unfold junction
  split
  · rfl
  · split
    · rfl
    · exact hr
  · split
    · rfl
    · exact hl
  · rw [isNnf, hl, hr]
    rfl

theorem isNnf_pair {target : Connective} {side injected : Condition} (hs : side.isNnf = true)
    (hi : injected.isNnf = true) : (pair target side injected).isNnf = true := by
  unfold pair
  split
  · exact hs
  · exact isNnf_junction hs hi

/-- The three parts of an opened junction negate nothing but properties. -/
theorem isNnf_of_opened {op : Connective} {left right first second injected : Condition}
    (hl : left.isNnf = true) (hr : right.isNnf = true)
    (found : opened? op left right = some (first, second, injected)) :
    first.isNnf = true ∧ second.isNnf = true ∧ injected.isNnf = true := by
  obtain ⟨rfl, rfl⟩ | ⟨rfl, rfl⟩ := opened?_eq_some found
  · obtain ⟨_, hf, hs⟩ := isNnf_binary.mp hl
    exact ⟨hf, hs, hr⟩
  · obtain ⟨_, hf, hs⟩ := isNnf_binary.mp hr
    exact ⟨hf, hs, hl⟩

theorem isNnf_distribute {target : Connective} {perfect : Bool} {c : Condition}
    (normal : c.isNnf = true) : (distribute target perfect c).isNnf = true := by
  revert normal
  refine distribute_induct (motive := fun c d => c.isNnf = true → d.isNnf = true) ?_ ?_ ?_ ?_ ?_ ?_ c
  · intro negated name normal
    exact normal
  · intro negated l normal
    exact normal
  · intro negated op left right _ onLeft onRight normal
    obtain ⟨plain, hl, hr⟩ := isNnf_binary.mp normal
    exact isNnf_binary.mpr ⟨plain, onLeft hl, onRight hr⟩
  · intro negated left right _ onLeft onRight normal
    obtain ⟨plain, hl, hr⟩ := isNnf_binary.mp normal
    exact isNnf_binary.mpr ⟨plain, onLeft hl, onRight hr⟩
  · intro negated left right first second injected found onLeft onRight normal
    obtain ⟨plain, hl, hr⟩ := isNnf_binary.mp normal
    obtain ⟨hf, hs, hi⟩ := isNnf_of_opened (onLeft hl) (onRight hr) found
    exact isNnf_binary.mpr ⟨plain, isNnf_pair hf hi, isNnf_pair hs hi⟩
  · intro negated left right first second injected found onLeft onRight onFirst onSecond normal
    obtain ⟨plain, hl, hr⟩ := isNnf_binary.mp normal
    obtain ⟨hf, hs, hi⟩ := isNnf_of_opened (onLeft hl) (onRight hr) found
    exact isNnf_binary.mpr ⟨plain, onFirst (isNnf_pair hf hi), onSecond (isNnf_pair hs hi)⟩

end NegationNormalForm

/-! ## Conditions that can be built -/

/-- The conditions that the operations of this library make, one from another. -/
inductive Built : Condition → Prop
  | property (name : String) : Built (property false name)
  | literal (l : Literal) : Built (literal false l)
  | infixed {op : Operator} {left right c : Condition} :
      Built left → Built right → infixed op left right = .ok c → Built c
  | prefixed {op : Operator} {operand c : Condition} :
      Built operand → prefixed op operand = .ok c → Built c
  | negate {c : Condition} : Built c → Built c.negate
  | deMorgan {c : Condition} : Built c → Built c.deMorgan
  | nnf {c : Condition} : Built c → Built c.nnf
  | distribute {c : Condition} (target : Connective) (perfect : Bool) :
      Built c → Built (distribute target perfect c)

theorem Built.shaped {c : Condition} (built : Built c) : c.Shaped .all := by
  induction built with
  | property name => exact trivial
  | literal l => exact ⟨rfl, trivial⟩
  | infixed _ _ joined hl hr => exact hl.infixed hr joined
  | prefixed _ made shaped => exact shaped.prefixed made
  | negate _ shaped => exact shaped.negate
  | deMorgan _ shaped => exact shaped.deMorgan
  | nnf _ shaped => exact shaped.nnf
  | distribute target perfect _ shaped => exact shaped.distribute

end StyleFlags.Condition
