import StyleFlags.Proofs.NormalForm

/-!
# Undecided conditions

An order comparison of values without an order is not satisfied, and neither is
its dual. Both come out right if such a comparison counts as undecided, and a
junction as decided only where its sides decide it. Pushing negations down keeps
this verdict exactly; afterwards a condition is satisfied on a bag when the
verdict is that it holds.

Results:
1. `verdict_negate`, `verdict_nnf`: negating turns the verdict around, and the
   negation normal form has the verdict of the condition.
2. `satisfied_of_verdict`: a verdict is right about the bag.
3. `satisfied_of_isNnf`: where only properties are negated, a condition is
   satisfied exactly when the verdict is that it holds.
4. `Comparable.verdict_isSome`: a condition whose order comparisons compare ordered
   values is decided.
-/

namespace StyleFlags

/-- The truth of a junction whose sides may be undecided: one side can decide it alone, and otherwise
both have to be decided. -/
def Connective.combine? (op : Connective) (a b : Option Bool) : Option Bool :=
  if a = some op.absorbing ∨ b = some op.absorbing then some op.absorbing
  else a.bind fun x => b.map (op.combine x)

namespace Connective

theorem combine?_dual (op : Connective) (a b : Option Bool) :
    op.dual.combine? (a.map (!·)) (b.map (!·)) = (op.combine? a b).map (!·) := by
  cases op <;> rcases a with _ | _ | _ <;> rcases b with _ | _ | _ <;> rfl

theorem combine?_eq_true (op : Connective) (a b : Option Bool) :
    (op.combine? a b == some true) = op.combine (a == some true) (b == some true) := by
  cases op <;> rcases a with _ | _ | _ <;> rcases b with _ | _ | _ <;> rfl

/-- What is decided of a junction is its truth, whatever the truth of an undecided side. -/
theorem combine_of_combine? {op : Connective} {a b : Option Bool} {x y truth : Bool}
    (decided : op.combine? a b = some truth) (ha : ∀ t ∈ a, x = t) (hb : ∀ t ∈ b, y = t) :
    op.combine x y = truth := by
  unfold combine? at decided
  split at decided
  · next absorbed =>
    cases decided
    rcases absorbed with rfl | rfl
    · rw [ha op.absorbing rfl]
      cases op <;> simp [combine, absorbing]
    · rw [hb op.absorbing rfl]
      cases op <;> simp [combine, absorbing]
  · simp only [Option.bind_eq_some_iff, Option.map_eq_some_iff] at decided
    obtain ⟨s, rfl, t, rfl, rfl⟩ := decided
    rw [ha s rfl, hb t rfl]

theorem combine?_isSome {op : Connective} {a b : Option Bool} (ha : a.isSome = true)
    (hb : b.isSome = true) : (op.combine? a b).isSome = true := by
  obtain ⟨x, rfl⟩ := Option.isSome_iff_exists.mp ha
  obtain ⟨y, rfl⟩ := Option.isSome_iff_exists.mp hb
  cases op <;> cases x <;> cases y <;> rfl

end Connective

namespace Condition

/-- Whether a condition holds on a bag, if that is decided. An order comparison of values without an
order is not. -/
def verdict (bag : Bag) : Condition → Option Bool
  | property negated name => some (negated ^^ (bag.get name).truthy)
  | literal negated l => some (negated ^^ l.truthy)
  | binary negated (.junction op) left right =>
    (op.combine? (left.verdict bag) (right.verdict bag)).map (negated ^^ ·)
  | binary negated (.compare op) left right =>
    if op.isEquality || ((left.evaluate bag).order? (right.evaluate bag)).isSome then
      some (negated ^^ sidesCompare bag op left right)
    else none

variable {v : Vocabulary} (bag : Bag)

theorem verdict_negate (c : Condition) : c.negate.verdict bag = (c.verdict bag).map (!·) := by
  cases c with
  | property negated name => simp [negate, verdict]
  | literal negated l => simp [negate, verdict]
  | binary negated op left right =>
    cases op with
    | junction op =>
      simp only [negate, verdict, Option.map_map]
      congr 1
      funext b
      simp
    | compare op =>
      simp only [negate, verdict]
      split <;> simp

/-- A verdict is right about the bag. -/
theorem satisfied_of_verdict {bag : Bag} {c : Condition} {truth : Bool}
    (decided : c.verdict bag = some truth) : c.satisfied bag = truth := by
  induction c generalizing truth with
  | property negated name =>
    rw [satisfied_property]
    exact Option.some.inj decided
  | literal negated l =>
    rw [satisfied_literal]
    exact Option.some.inj decided
  | binary negated op left right ihl ihr =>
    cases op with
    | junction op =>
      obtain ⟨inner, joined, rfl⟩ := Option.map_eq_some_iff.mp decided
      rw [satisfied_binary, Connective.combine_of_combine? joined (fun _ => ihl) fun _ => ihr]
    | compare op =>
      rw [verdict] at decided
      split at decided
      · rw [satisfied_compare]
        exact Option.some.inj decided
      · cases decided

/-- A decided comparison and its dual are opposite. -/
theorem sidesCompare_dual {bag : Bag} {op : Comparison} {left right : Condition}
    (decided : op.isEquality || ((left.evaluate bag).order? (right.evaluate bag)).isSome) :
    sidesCompare bag op.dual left right = !sidesCompare bag op left right := by
  unfold sidesCompare compares
  split
  · exact Value.holds_dual fun _ => (Value.Ordered.strings _ _).order?_isSome
  · refine Value.holds_dual fun isOrder => ?_
    rwa [isOrder, Bool.false_or] at decided

/-- An undecided comparison does not hold: a type name is compared for equality only, and other
values are compared by their order. -/
theorem sidesCompare_of_undecided {bag : Bag} {op : Comparison} {left right : Condition}
    (operand : right.ShapedOperand v op)
    (undecided : ¬(op.isEquality || ((left.evaluate bag).order? (right.evaluate bag)).isSome)) :
    sidesCompare bag op left right = false := by
  simp only [Bool.or_eq_true, not_or, Bool.not_eq_true, Option.isSome_eq_false_iff,
    Option.isNone_iff_eq_none] at undecided
  obtain ⟨isOrder, noOrder⟩ := undecided
  have noType : right.literal?.bind Literal.typeName? = none := by
    cases right with
    | property negated name => rfl
    | binary negated found left right => exact operand.elim
    | literal negated l =>
      have other := operand.2.2
      rw [fits, isOrder, if_neg Bool.false_ne_true] at other
      simp only [literal?, Option.bind_some, Literal.typeName?, if_neg other]
  rw [sidesCompare, noType, compares]
  cases op with
  | eq => cases isOrder
  | ne => cases isOrder
  | gt | ge | lt | le => simp only [Value.holds, noOrder, Option.any_none]

theorem verdict_nnf {c : Condition} (shaped : c.Shaped v) : c.nnf.verdict bag = c.verdict bag := by
  refine shaped.nnf_induct (motive := fun c d => d.verdict bag = c.verdict bag) ?_ ?_ ?_ ?_ ?_ ?_
  · intro negated name _
    rfl
  · intro l _
    rfl
  · intro op left right _ onLeft onRight
    rw [verdict_negate] at onLeft onRight
    simp only [verdict, onLeft, onRight, Connective.combine?_dual, Bool.false_xor, Bool.true_xor,
      Option.map_id']
  · intro op left right _ onLeft onRight
    simp only [verdict, onLeft, onRight]
  · intro op name operand _ _
    simp only [verdict, Comparison.isEquality_dual]
    split
    · next decided => rw [sidesCompare_dual decided, Bool.false_xor, Bool.true_xor]
    · rfl
  · intro op name operand _ _
    rfl

/-- Where only properties are negated, what is undecided does not make a condition satisfied. -/
theorem satisfied_of_isNnf {c : Condition} (shaped : c.Shaped v) (normal : c.isNnf = true) :
    c.satisfied bag = (c.verdict bag == some true) := by
  induction c with
  | property negated name =>
    rw [satisfied_property, verdict]
    cases negated ^^ (bag.get name).truthy <;> rfl
  | literal negated l =>
    rw [satisfied_literal, verdict]
    cases negated ^^ l.truthy <;> rfl
  | binary negated op left right ihl ihr =>
    obtain ⟨rfl, hl, hr⟩ := isNnf_binary.mp normal
    cases op with
    | junction op =>
      obtain ⟨_, _, shapedLeft, shapedRight⟩ := shaped
      simp only [satisfied_binary, verdict, Bool.false_xor, Option.map_id']
      rw [ihl shapedLeft hl, ihr shapedRight hr, Connective.combine?_eq_true]
    | compare op =>
      simp only [satisfied_compare, verdict, Bool.false_xor]
      -- An undecided comparison is unsatisfied, but only as it stands without a negation.
      split
      · cases sidesCompare bag op left right <;> rfl
      · next undecided => rw [sidesCompare_of_undecided shaped.2 undecided]; rfl

theorem Comparable.verdict_isSome {bag : Bag} {c : Condition} (comparable : c.Comparable bag) :
    (c.verdict bag).isSome = true := by
  induction c with
  | property negated name => rfl
  | literal negated l => rfl
  | binary negated op left right ihl ihr =>
    cases op with
    | junction op =>
      rw [verdict, Option.isSome_map]
      exact Connective.combine?_isSome (ihl comparable.1) (ihr comparable.2)
    | compare op =>
      have decided : op.isEquality || ((left.evaluate bag).order? (right.evaluate bag)).isSome := by
        cases equality : op.isEquality with
        | true => rfl
        | false => exact (comparable equality).order?_isSome
      rw [verdict, if_pos decided]
      rfl

end Condition

end StyleFlags
