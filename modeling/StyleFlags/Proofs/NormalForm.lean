import StyleFlags.Condition.Evaluate
import StyleFlags.Proofs.Shape

/-!
# The meaning of normal forms

Distribution never changes whether a condition is satisfied. Pushing a negation
past a comparison puts the dual comparison in its place, and that is not always
the negation: values without an order satisfy neither `<` nor `>=`.

Results:
1. `Value.not_holds_of_holds_dual`, `Value.holds_dual`: a comparison and its
   dual never both hold, and exactly one of them holds between ordered values.
2. `nnf_related`: what relates a comparison's dual with its negation relates
   the negation normal form with the condition.
3. `Valuation.truth_distribute`, `satisfied_distribute`: distribution keeps the
   meaning, on a bag and wherever else connectives have their meaning.
4. `normal_forms_satisfied`: the negation normal form implies the condition;
   where all order comparisons compare ordered values, all normal forms are
   equivalent to it.
-/

namespace StyleFlags

/-- The truth of a junction. -/
def Connective.combine (op : Connective) (a b : Bool) : Bool :=
  if op.absorbing then a || b else a && b

theorem Connective.combine_dual (op : Connective) (a b : Bool) :
    op.dual.combine (!a) (!b) = !op.combine a b := by
  cases op <;> simp [combine, dual, absorbing]

theorem Connective.combine_self (op : Connective) (a : Bool) : op.combine a a = a := by
  cases op <;> simp [combine, absorbing]

theorem Connective.combine_comm (op : Connective) (a b : Bool) :
    op.combine a b = op.combine b a := by
  cases op <;> cases a <;> cases b <;> rfl

/-- A connective distributes over its dual. -/
theorem Connective.combine_distrib (op : Connective) (a b c : Bool) :
    op.dual.combine (op.combine a c) (op.combine b c) = op.combine (op.dual.combine a b) c := by
  cases op <;> cases a <;> cases b <;> cases c <;> rfl

/-! ## Comparisons -/

namespace Value

/-- Values that have an order: numbers, strings or truth values on both sides. -/
inductive Ordered : Value → Value → Prop
  | numbers {a b : Number} : a.isNaN = false → b.isNaN = false → Ordered (number a) (number b)
  | strings (a b : String) : Ordered (string a) (string b)
  | bools (a b : Bool) : Ordered (bool a) (bool b)

theorem Ordered.order?_isSome {a b : Value} (ordered : Ordered a b) : (a.order? b).isSome := by
  cases ordered with
  | numbers ha hb => simp [order?, Number.compare?, ha, hb]
  | strings => rfl
  | bools => rfl

/-- Without an order, no order comparison holds; with one, the comparison is read off it. -/
theorem not_holds_of_holds_dual {a b : Value} {op : Comparison} (dual : a.holds op.dual b = true) :
    a.holds op b = false := by
  cases op with
  | eq => simpa [holds, Comparison.dual] using dual
  | ne => simpa [holds, Comparison.dual] using dual
  | gt | ge | lt | le =>
    simp only [holds, Comparison.dual] at dual ⊢
    cases found : a.order? b with
    | none => rfl
    | some order => cases order <;> simp_all

/-- Where there is an order or none is needed, the dual comparison is the negation. -/
theorem holds_dual {a b : Value} {op : Comparison}
    (ordered : op.isEquality = false → (a.order? b).isSome) :
    a.holds op.dual b = !a.holds op b := by
  cases op with
  | eq => simp [holds, Comparison.dual]
  | ne => simp [holds, Comparison.dual]
  | gt | ge | lt | le =>
    obtain ⟨order, found⟩ := Option.isSome_iff_exists.mp (ordered rfl)
    simp only [holds, Comparison.dual, found, Option.any_some]
    cases order <;> rfl

end Value

namespace Condition

/-! ## Truth of a condition -/

@[simp] theorem truthy_bool (b : Bool) : (Value.bool b).truthy = b := rfl

@[simp] theorem truthy_signed (v : Value) (negated : Bool) :
    (v.signed negated).truthy = (negated ^^ v.truthy) := by
  cases negated <;> simp [Value.signed]

@[simp] theorem satisfied_property (bag : Bag) (negated : Bool) (name : String) :
    (property negated name).satisfied bag = (negated ^^ (bag.get name).truthy) := by
  simp [satisfied, evaluate]

@[simp] theorem satisfied_literal (bag : Bag) (negated : Bool) (l : Literal) :
    (literal negated l).satisfied bag = (negated ^^ l.truthy) := by
  simp [satisfied, evaluate, Literal.truthy]

@[simp] theorem satisfied_binary (bag : Bag) (negated : Bool) (op : Connective)
    (left right : Condition) :
    (binary negated (.junction op) left right).satisfied bag =
      (negated ^^ op.combine (left.satisfied bag) (right.satisfied bag)) := by
  cases op <;> cases truth : (left.evaluate bag).truthy <;>
    simp [satisfied, evaluate, Connective.combine, Connective.absorbing, truth]

/-- Whether the sides of a comparison compare on a bag, before its own negation. -/
def sidesCompare (bag : Bag) (op : Comparison) (left right : Condition) : Bool :=
  compares op (left.evaluate bag) (right.literal?.bind Literal.typeName?) (right.evaluate bag)

@[simp] theorem satisfied_compare (bag : Bag) (negated : Bool) (op : Comparison)
    (left right : Condition) :
    (binary negated (.compare op) left right).satisfied bag =
      (negated ^^ sidesCompare bag op left right) := by
  simp [satisfied, evaluate, sidesCompare]

@[simp] theorem truthy_complement (l : Literal) : l.complement.truthy = !l.truthy := by
  unfold Literal.complement
  cases l.truthy <;> rfl

@[simp] theorem satisfied_negate (bag : Bag) (c : Condition) :
    c.negate.satisfied bag = !c.satisfied bag := by
  cases c with
  | property negated name => simp [negate]
  | literal negated l => simp [negate]
  | binary negated op left right => cases op <;> simp [negate]

/-! ## Distribution -/

/-- A way to say which conditions are true. It follows connectives, negated or not, and gives
literals their own truth; of properties and comparisons it may say anything. -/
structure Valuation where
  truth : Condition → Bool
  literal : ∀ l, truth (literal false l) = l.truthy
  junction : ∀ negated op left right, truth (binary negated (.junction op) left right) =
    (negated ^^ op.combine (truth left) (truth right))

namespace Valuation

variable {v : Vocabulary} {target : Connective} {perfect : Bool} (m : Valuation)

theorem truth_boolean (b : Bool) : m.truth (boolean b) = b := by
  rw [boolean, m.literal]
  cases b <;> rfl

/-- A literal of a shaped condition is not negated, so its constant is its truth. -/
theorem truth_of_constant? {c : Condition} {b : Bool} (shaped : c.Shaped v)
    (constant : c.constant? = some b) : m.truth c = b := by
  cases c with
  | literal negated l =>
    cases shaped.1
    rw [m.literal]
    simpa [constant?, literal?] using constant
  | property negated name => cases constant
  | binary negated op left right => cases constant

theorem truth_junction {left right : Condition} (hl : left.Shaped v) (hr : right.Shaped v)
    (op : Connective) :
    m.truth (Condition.junction op left right) = op.combine (m.truth left) (m.truth right) := by
  unfold Condition.junction
  split
  · next l r onLeft onRight =>
    rw [m.truth_of_constant? hl onLeft, m.truth_of_constant? hr onRight, truth_boolean]
    rfl
  · next l onLeft _ =>
    rw [m.truth_of_constant? hl onLeft]
    cases op <;> cases l <;> simp [Connective.combine, Connective.absorbing, truth_boolean]
  · next r _ onRight =>
    rw [m.truth_of_constant? hr onRight]
    cases op <;> cases r <;> simp [Connective.combine, Connective.absorbing, truth_boolean]
  · rw [m.junction, Bool.false_xor]

theorem truth_pair {side injected : Condition} (hs : side.Shaped v) (hi : injected.Shaped v) :
    m.truth (pair target side injected) =
      target.combine (m.truth side) (m.truth injected) := by
  unfold pair
  split
  · next same =>
    subst same
    rw [Connective.combine_self]
  · exact m.truth_junction hs hi target

/-- Opening a side does not change the truth of a junction. -/
theorem combine_opened {left right first second injected : Condition}
    (found : opened? target.dual left right = some (first, second, injected)) :
    target.dual.combine (target.combine (m.truth first) (m.truth injected))
        (target.combine (m.truth second) (m.truth injected)) =
      target.combine (m.truth left) (m.truth right) := by
  rw [Connective.combine_distrib]
  obtain ⟨rfl, rfl⟩ | ⟨rfl, rfl⟩ := opened?_eq_some found
  · rw [m.junction, Bool.false_xor]
  · rw [Connective.combine_comm, m.junction, Bool.false_xor]

/-- Distribution changes the truth of no condition. -/
theorem truth_distribute {c : Condition} (shaped : c.Shaped v) :
    m.truth (distribute target perfect c) = m.truth c := by
  revert shaped
  refine distribute_induct
    (motive := fun c d => c.Shaped v → m.truth d = m.truth c) ?_ ?_ ?_ ?_ ?_ ?_ c
  · intro negated name _
    rfl
  · intro negated l _
    rfl
  · intro negated op left right _ onLeft onRight shaped
    cases op with
    | junction op =>
      obtain ⟨_, _, hl, hr⟩ := shaped
      rw [m.junction, m.junction, onLeft hl, onRight hr]
    | compare op =>
      obtain ⟨⟨name, rfl, _⟩, operand⟩ := shaped
      rw [distribute_property, operand.distribute_eq]
  · intro negated left right _ onLeft onRight shaped
    obtain ⟨_, _, hl, hr⟩ := shaped
    rw [m.junction, m.junction, onLeft hl, onRight hr]
  · intro negated left right first second injected found onLeft onRight shaped
    obtain ⟨leftOpen, rightOpen, hl, hr⟩ := shaped
    obtain ⟨hf, hs, hi⟩ := Shaped.of_opened hl.distribute hr.distribute
      ((literal?_distribute left).trans leftOpen) ((literal?_distribute right).trans rightOpen) found
    rw [m.junction, m.junction, m.truth_pair hf.1 hi.1, m.truth_pair hs.1 hi.1,
      m.combine_opened found, onLeft hl, onRight hr]
  · intro negated left right first second injected found onLeft onRight onFirst onSecond shaped
    obtain ⟨leftOpen, rightOpen, hl, hr⟩ := shaped
    obtain ⟨hf, hs, hi⟩ := Shaped.of_opened hl.distribute hr.distribute
      ((literal?_distribute left).trans leftOpen) ((literal?_distribute right).trans rightOpen) found
    rw [m.junction, m.junction, onFirst (hf.1.pair hi.1), onSecond (hs.1.pair hi.1),
      m.truth_pair hf.1 hi.1, m.truth_pair hs.1 hi.1, m.combine_opened found, onLeft hl, onRight hr]

/-- The truth of conditions on a bag. -/
def onBag (bag : Bag) : Valuation where
  truth := satisfied bag
  literal l := by rw [satisfied_literal, Bool.false_xor]
  junction := satisfied_binary bag

end Valuation

theorem satisfied_distribute {v : Vocabulary} {target : Connective} {perfect : Bool} (bag : Bag)
    {c : Condition} (shaped : c.Shaped v) :
    (distribute target perfect c).satisfied bag = c.satisfied bag :=
  (Valuation.onBag bag).truth_distribute shaped

/-! ## Negations -/

section Negations

variable {rel : Bool → Bool → Prop} {bag : Bag}

/-- At every comparison, `rel` relates the dual comparison with the negation. -/
def Flips (rel : Bool → Bool → Prop) (bag : Bag) : Condition → Prop
  | property _ _ => True
  | literal _ _ => True
  | binary _ (.junction _) left right => left.Flips rel bag ∧ right.Flips rel bag
  | binary _ (.compare op) left right =>
    rel (sidesCompare bag op.dual left right) (!sidesCompare bag op left right)

theorem Flips.negate {c : Condition} (flips : c.Flips rel bag) : c.negate.Flips rel bag := by
  cases c with
  | property negated name => exact trivial
  | literal negated l => exact trivial
  | binary negated op left right => cases op <;> exact flips

/-- What relates the dual of every comparison with its negation, and passes through connectives,
relates the negation normal form with the condition. -/
theorem nnf_related {v : Vocabulary} (refl : ∀ a, rel a a)
    (combine : ∀ (op : Connective) {a b c d}, rel a c → rel b d →
      rel (op.combine a b) (op.combine c d))
    {c : Condition} (shaped : c.Shaped v) (flips : c.Flips rel bag) :
    rel (c.nnf.satisfied bag) (c.satisfied bag) := by
  revert flips
  refine shaped.nnf_induct
    (motive := fun c d => c.Flips rel bag → rel (d.satisfied bag) (c.satisfied bag))
    ?_ ?_ ?_ ?_ ?_ ?_
  · intro negated name _ _
    exact refl _
  · intro l _ _
    exact refl _
  · intro op left right _ onLeft onRight flips
    have left := onLeft flips.1.negate
    have right := onRight flips.2.negate
    rw [satisfied_negate] at left right
    rw [satisfied_binary, satisfied_binary, Bool.false_xor, Bool.true_xor,
      ← Connective.combine_dual]
    exact combine op.dual left right
  · intro op left right _ onLeft onRight flips
    rw [satisfied_binary, satisfied_binary, Bool.false_xor, Bool.false_xor]
    exact combine op (onLeft flips.1) (onRight flips.2)
  · intro op name operand _ _ flips
    rw [satisfied_compare, satisfied_compare, Bool.false_xor, Bool.true_xor]
    exact flips
  · intro op name operand _ _ _
    exact refl _

theorem flips_implied (c : Condition) :
    c.Flips (fun dual negation => dual = true → negation = true) bag := by
  induction c with
  | property negated name => exact trivial
  | literal negated l => exact trivial
  | binary negated op left right hl hr =>
    cases op with
    | junction op => exact ⟨hl, hr⟩
    | compare op =>
      intro dual
      unfold sidesCompare compares at dual ⊢
      split at dual <;> rw [Value.not_holds_of_holds_dual dual] <;> rfl

/-- Every order comparison of the condition compares ordered values. -/
def Comparable (bag : Bag) : Condition → Prop
  | property _ _ => True
  | literal _ _ => True
  | binary _ (.junction _) left right => left.Comparable bag ∧ right.Comparable bag
  | binary _ (.compare op) left right =>
    op.isEquality = false → (left.evaluate bag).Ordered (right.evaluate bag)

theorem Comparable.flips {c : Condition} (comparable : c.Comparable bag) : c.Flips Eq bag := by
  induction c with
  | property negated name => exact trivial
  | literal negated l => exact trivial
  | binary negated op left right hl hr =>
    cases op with
    | junction op => exact ⟨hl comparable.1, hr comparable.2⟩
    | compare op =>
      show sidesCompare bag op.dual left right = !sidesCompare bag op left right
      unfold sidesCompare compares
      split
      · exact Value.holds_dual fun _ => (Value.Ordered.strings _ _).order?_isSome
      · exact Value.holds_dual fun isOrder => (comparable isOrder).order?_isSome

end Negations

/-! ## Normal forms -/

/-- The negation normal form implies the condition. Where every order comparison has ordered values,
it is equivalent to the condition, and so are the conjunctive and disjunctive normal forms. -/
theorem normal_forms_satisfied {c : Condition} (built : c.Built) (bag : Bag) :
    (c.nnf.satisfied bag = true → c.satisfied bag = true) ∧
    (c.Comparable bag →
      c.nnf.satisfied bag = c.satisfied bag ∧
      ∀ perfect, (c.cnf perfect).satisfied bag = c.satisfied bag ∧
        (c.dnf perfect).satisfied bag = c.satisfied bag) := by
  have shaped := built.shaped
  refine ⟨?_, fun comparable => ?_⟩
  · refine nnf_related (fun _ truth => truth) ?_ shaped (flips_implied c)
    intro op a b c d ha hb
    cases op <;> cases a <;> cases b <;> simp_all [Connective.combine, Connective.absorbing]
  · have same : c.nnf.satisfied bag = c.satisfied bag := by
      refine nnf_related (fun _ => rfl) ?_ shaped comparable.flips
      intro op a b c d ha hb
      rw [ha, hb]
    refine ⟨same, fun perfect => ⟨?_, ?_⟩⟩
    · exact (satisfied_distribute bag shaped.nnf).trans same
    · exact (satisfied_distribute bag shaped.nnf).trans same

/-- `!(width < 3 || open)`, with an order comparison below a negated junction. -/
def exNegated : Condition :=
  binary true (.junction .or)
    (binary false (.compare .lt) (property false "width") (literal false ⟨.number, "3"⟩))
    (property false "open")

/-- A width of 4, and `open` is not set. -/
def exWide : Bag := Table.ofList [("width", .number ⟨0x4010000000000000⟩)]

theorem normal_forms_satisfied_exNegated :
    exNegated.Built ∧ exNegated.Comparable exWide ∧ exNegated.satisfied exWide = true ∧
    exNegated.nnf.satisfied exWide = true ∧ (exNegated.cnf true).satisfied exWide = true ∧
    (exNegated.dnf false).satisfied exWide = true := by
  have built : exNegated.Built := by
    have less : Built (binary false (.compare .lt) (property false "width")
        (literal false ⟨.number, "3"⟩)) :=
      @Built.infixed (.binary (.compare .lt)) _ _ _ (.property "width") (.literal ⟨.number, "3"⟩) rfl
    exact .negate (@Built.infixed (.binary (.junction .or)) _ _ _ less (.property "open") rfl)
  have comparable : exNegated.Comparable exWide :=
    ⟨fun _ => .numbers (by decide +kernel) (by decide +kernel), trivial⟩
  have satisfied : exNegated.satisfied exWide = true := by decide +kernel
  obtain ⟨_, equivalent⟩ := normal_forms_satisfied built exWide
  obtain ⟨inNnf, inBoth⟩ := equivalent comparable
  exact ⟨built, comparable, satisfied, inNnf.trans satisfied, (inBoth true).1.trans satisfied,
    (inBoth false).2.trans satisfied⟩

end Condition

end StyleFlags
