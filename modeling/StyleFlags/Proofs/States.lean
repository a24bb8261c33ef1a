import StyleFlags.Proofs.NormalForm
import StyleFlags.Proofs.NumberText
import StyleFlags.Proofs.Registered
import StyleFlags.Sheet

/-!
# The states of flags

A rule sets the flags of its facts to what the facts say about the bag. It
reads the values of its properties only up to `Value.canonical`, which takes
all zeros and all NaNs as one.

Results:
1. `Rule.states_ofFact`: each flag of a rule is on when its fact holds.
2. `Fact.satisfied_congr`, `Rule.declarations_congr`: bags with the same canonical values
   of the properties that a fact or a rule reads agree on it.
3. `Rule.mem_ofTests`: the rules of a property are those of its tests.
4. `Rule.mem_declarations`, `Rule.mem_defaults`: what the rule of a fact declares
   on a bag and in the base block.
-/

namespace StyleFlags

/-! ## Values that rules do not tell apart -/

namespace Number

@[simp] theorem isNaN_canonical (n : Number) : n.canonical.isNaN = n.isNaN := by
  unfold canonical
  split
  · next isNaN =>
    rw [isNaN]
    decide
  · next notNaN =>
    split
    · rw [eq_false_of_ne_true notNaN]
      decide
    · rfl

@[simp] theorem isZero_canonical (n : Number) : n.canonical.isZero = n.isZero := by
  unfold canonical
  split
  · next isNaN =>
    have large : n.magnitude ≠ 0 := by
      have := of_decide_eq_true isNaN
      unfold infinity at this
      omega
    rw [isZero, isZero, beq_false_of_ne large]
    decide
  · split
    · next isZero =>
      rw [isZero]
      decide
    · rfl

theorem rank_canonical {n : Number} (notNaN : n.isNaN = false) : n.canonical.rank = n.rank := by
  unfold canonical
  rw [notNaN, if_neg Bool.false_ne_true]
  split
  · next isZero =>
    have nothing : n.magnitude = 0 := by simpa [Number.isZero] using isZero
    have zero : rank ⟨0⟩ = 0 := by decide
    rw [zero, rank, nothing]
    split <;> rfl
  · rfl

theorem compare?_canonical (a b : Number) :
    a.canonical.compare? b.canonical = a.compare? b := by
  unfold compare?
  rw [isNaN_canonical, isNaN_canonical]
  split
  · rfl
  · next numbers =>
    simp only [Bool.or_eq_true, not_or, Bool.not_eq_true] at numbers
    rw [rank_canonical numbers.1, rank_canonical numbers.2]

end Number

namespace Value

/-- One value for all that rules do not tell apart. -/
def canonical : Value → Value
  | number n => number n.canonical
  | v => v

variable {a b c d : Value}

theorem truthy_congr (same : a.canonical = b.canonical) : a.truthy = b.truthy := by
  have reads (v : Value) : v.canonical.truthy = v.truthy := by
    cases v <;> simp [canonical, truthy]
  rw [← reads a, same, reads]

theorem typeOf_congr (same : a.canonical = b.canonical) : a.typeOf = b.typeOf := by
  have reads (v : Value) : v.canonical.typeOf = v.typeOf := by
    cases v <;> rfl
  rw [← reads a, same, reads]

theorem looseEq_canonical (a b : Value) : a.canonical.looseEq b.canonical = a.looseEq b := by
  cases a with
  | number n =>
    cases b with
    | number m => simp [canonical, looseEq, Value.same, Number.equals, Number.compare?_canonical]
    | _ => rfl
  | _ => cases b <;> rfl

theorem order?_canonical (a b : Value) : a.canonical.order? b.canonical = a.order? b := by
  cases a with
  | number n =>
    cases b with
    | number m => exact Number.compare?_canonical n m
    | _ => rfl
  | _ => cases b <;> rfl

theorem holds_congr (left : a.canonical = b.canonical) (right : c.canonical = d.canonical)
    (op : Comparison) : a.holds op c = b.holds op d := by
  have equality : a.looseEq c = b.looseEq d := by
    rw [← looseEq_canonical, left, right, looseEq_canonical]
  have order : a.order? c = b.order? d := by
    rw [← order?_canonical, left, right, order?_canonical]
  cases op <;> simp [holds, equality, order]

end Value

/-! ## Rules and facts -/

/-- The condition that the operand is. -/
def Operand.condition : Operand → Condition
  | literal l => .literal false l
  | property name negated => .property negated name

namespace Fact

/-- The condition that the fact stands for. -/
def condition (f : Fact) : Condition :=
  match f.test with
  | .truthy negated => .property negated f.property
  | .compare op operand => .binary false (.compare op) (.property false f.property) operand.condition

theorem ofCondition?_condition (f : Fact) : ofCondition? f.condition = some f := by
  obtain ⟨property, test⟩ := f
  cases test with
  | truthy negated => rfl
  | compare op operand => cases operand <;> rfl

/-- The facts whose flags one rule sets together: both facts of an equality, else the fact alone. -/
def family (f : Fact) : List Fact :=
  match f.test with
  | .truthy _ => [f]
  | .compare op operand =>
    if op.isEquality then
      [⟨f.property, .compare .eq operand⟩, ⟨f.property, .compare .ne operand⟩]
    else [f]

end Fact

theorem Operand.evaluate_condition (operand : Operand) (bag : Bag) :
    operand.condition.evaluate bag = operand.value bag := by
  cases operand <;> rfl

theorem Operand.typeName?_condition (operand : Operand) :
    operand.condition.literal?.bind Literal.typeName? = operand.typeName? := by
  cases operand <;> rfl

theorem Fact.satisfied_compare (property : String) (op : Comparison) (operand : Operand)
    (bag : Bag) :
    (Fact.condition ⟨property, .compare op operand⟩).satisfied bag =
      Condition.compares op (bag.get property) operand.typeName? (operand.value bag) := by
  rw [condition, Condition.satisfied_compare, Bool.false_xor, Condition.sidesCompare,
    operand.evaluate_condition, operand.typeName?_condition]
  rfl

/-- A comparison of order has no type name as its operand. -/
theorem Operand.typeName?_eq_none {op : Comparison} {operand : Operand}
    (proper : operand.Proper op) (order : op.isEquality = false) : operand.typeName? = none := by
  cases operand with
  | literal l =>
    have other := proper.2
    rw [Condition.fits, order, if_neg Bool.false_ne_true] at other
    rw [typeName?, Literal.typeName?, if_neg other]
  | property name negated => rfl

namespace Rule

/-- The rule of a fact. -/
def ofFact (f : Fact) : Rule := ofTest f.property f.test

theorem states_ofEquality (property : String) (operand : Operand) (bag : Bag) :
    (ofEquality property operand).states bag =
      [(Fact.name ⟨property, .compare .eq operand⟩,
          Fact.condition ⟨property, .compare .eq operand⟩ |>.satisfied bag),
        (Fact.name ⟨property, .compare .ne operand⟩,
          Fact.condition ⟨property, .compare .ne operand⟩ |>.satisfied bag)] := by
  rw [Fact.satisfied_compare, Fact.satisfied_compare, ofEquality]
  cases operand.typeName? <;> rfl

/-- Each flag of a rule is on when its fact holds. -/
theorem states_ofFact {f : Fact} (proper : f.Proper) (bag : Bag) :
    (ofFact f).states bag = f.family.map fun g => (g.name, g.condition.satisfied bag) := by
  obtain ⟨property, test⟩ := f
  cases test with
  | truthy negated => cases negated <;> simp [ofFact, ofTest, states, Fact.family, Fact.condition]
  | compare op operand =>
    simp only [ofFact, ofTest, Fact.family]
    cases equality : op.isEquality with
    | true =>
      simp only [if_true]
      rw [states_ofEquality]
      rfl
    | false =>
      have noType := Operand.typeName?_eq_none proper.2 equality
      simp [states, Fact.satisfied_compare, noType, Condition.compares]

theorem property_ofFact (f : Fact) : (ofFact f).property = f.property := by
  obtain ⟨property, test⟩ := f
  cases test with
  | truthy negated => cases negated <;> rfl
  | compare op operand =>
    simp only [ofFact, ofTest]
    split
    · unfold ofEquality
      split <;> rfl
    · rfl

theorem dependency?_ofFact (f : Fact) : (ofFact f).dependency? = f.dependency? := by
  obtain ⟨property, test⟩ := f
  cases test with
  | truthy negated => cases negated <;> rfl
  | compare op operand =>
    simp only [ofFact, ofTest, Fact.dependency?]
    split
    · unfold ofEquality
      cases operand with
      | literal l => cases Operand.typeName? (.literal l) <;> rfl
      | property name negated => rfl
    · rfl

theorem ofFact_of_equality {property : String} {test : Test} {operand : Operand}
    (equality : equalityOperand? test = some operand) :
    ofFact ⟨property, test⟩ = ofEquality property operand := by
  cases test with
  | truthy negated => cases equality
  | compare op other =>
    simp only [equalityOperand?] at equality
    split at equality
    · next isEquality =>
      cases equality
      simp only [ofFact, ofTest, isEquality, if_true]
    · cases equality

/-- The facts whose flags are set together have one rule. -/
theorem ofFact_of_mem_family {f g : Fact} (member : g ∈ f.family) : ofFact g = ofFact f := by
  obtain ⟨property, test⟩ := f
  cases test with
  | truthy negated => rw [List.mem_singleton.mp member]
  | compare op operand =>
    simp only [Fact.family] at member
    split at member
    · next equality =>
      have whole : ofFact ⟨property, .compare op operand⟩ = ofEquality property operand :=
        ofFact_of_equality (by simp [equalityOperand?, equality])
      rw [whole]
      rcases List.mem_cons.mp member with rfl | member
      · exact ofFact_of_equality rfl
      · rw [List.mem_singleton.mp member]
        exact ofFact_of_equality rfl
    · rw [List.mem_singleton.mp member]

theorem exists_of_mem_ofTests {property : String} {seen : List Operand} {tests : List Test}
    {rule : Rule} (member : rule ∈ ofTests property seen tests) :
    ∃ test ∈ tests, rule = ofFact ⟨property, test⟩ := by
  induction tests generalizing seen with
  | nil => cases member
  | cons test rest ih =>
    have later {seen : List Operand} (member : rule ∈ ofTests property seen rest) :
        ∃ t ∈ test :: rest, rule = ofFact ⟨property, t⟩ := by
      obtain ⟨t, listed, same⟩ := ih member
      exact ⟨t, List.mem_cons_of_mem _ listed, same⟩
    have now {seen : List Operand}
        (member : rule ∈ ofTest property test :: ofTests property seen rest) :
        ∃ t ∈ test :: rest, rule = ofFact ⟨property, t⟩ := by
      rcases List.mem_cons.mp member with rfl | member
      · exact ⟨test, List.mem_cons_self, rfl⟩
      · exact later member
    rw [ofTests] at member
    split at member
    · exact now member
    · split at member
      · exact later member
      · exact now member

/-- A test whose operand is not in `seen` gets its rule, if only from an earlier test. -/
theorem ofFact_mem_ofTests {property : String} {seen : List Operand} {tests : List Test}
    {test : Test} (listed : test ∈ tests)
    (new : ∀ operand ∈ seen, equalityOperand? test ≠ some operand) :
    ofFact ⟨property, test⟩ ∈ ofTests property seen tests := by
  induction tests generalizing seen with
  | nil => cases listed
  | cons first rest ih =>
    rw [ofTests]
    rcases List.mem_cons.mp listed with rfl | listed
    · split
      · exact List.mem_cons_self
      · next operand equality =>
        rw [if_neg]
        · exact List.mem_cons_self
        · intro known
          exact new operand (List.contains_iff_mem.mp known) equality
    · split
      · exact List.mem_cons_of_mem _ (ih listed new)
      · next operand equality =>
        split
        · exact ih listed new
        · by_cases same : equalityOperand? test = some operand
          · rw [ofFact_of_equality same, ← ofFact_of_equality equality]
            exact List.mem_cons_self
          · refine List.mem_cons_of_mem _ (ih listed ?_)
            rw [List.forall_mem_cons]
            exact ⟨same, new⟩

theorem mem_ofTests {property : String} {tests : List Test} {rule : Rule} :
    rule ∈ ofTests property [] tests ↔ ∃ test ∈ tests, rule = ofFact ⟨property, test⟩ := by
  constructor
  · exact exists_of_mem_ofTests
  · rintro ⟨test, listed, rfl⟩
    exact ofFact_mem_ofTests listed (by simp)

end Rule

/-! ## What facts read -/

/-- An operand reads the property that it names, up to canonical values. -/
theorem Operand.value_congr {operand : Operand} {bag other : Bag}
    (same : ∀ q, operand.property? = some q → (bag.get q).canonical = (other.get q).canonical) :
    (operand.value bag).canonical = (operand.value other).canonical := by
  cases operand with
  | literal l => rfl
  | property name negated =>
    have named := same name rfl
    cases negated with
    | false => exact named
    | true =>
      simp only [value, if_true]
      rw [Value.truthy_congr named]

namespace Fact

theorem self_mem_family (f : Fact) : f ∈ f.family := by
  obtain ⟨property, test⟩ := f
  cases test with
  | truthy negated => exact List.mem_singleton_self _
  | compare op operand => cases op <;> simp [family, Comparison.isEquality]

theorem mem_family {f g : Fact} (member : g ∈ f.family) :
    g.property = f.property ∧ g.dependency? = f.dependency? ∧ (f.Proper → g.Proper) := by
  obtain ⟨property, test⟩ := f
  cases test with
  | truthy negated =>
    cases List.mem_singleton.mp member
    exact ⟨rfl, rfl, id⟩
  | compare op operand =>
    simp only [family] at member
    split at member
    · next equality =>
      have proper (other : Comparison) (isEquality : other.isEquality = true)
          (proper : Proper ⟨property, .compare op operand⟩) :
          Proper ⟨property, .compare other operand⟩ := by
        refine ⟨proper.1, ?_⟩
        cases operand with
        | literal l =>
          refine ⟨proper.2.1, ?_⟩
          have fits := proper.2.2
          unfold Condition.fits at fits ⊢
          rw [equality] at fits
          rwa [isEquality]
        | property name negated => exact proper.2
      rcases List.mem_cons.mp member with rfl | member
      · exact ⟨rfl, rfl, proper .eq rfl⟩
      · cases List.mem_singleton.mp member
        exact ⟨rfl, rfl, proper .ne rfl⟩
    · cases List.mem_singleton.mp member
      exact ⟨rfl, rfl, id⟩

/-- A fact reads its property and the other property of its operand, up to canonical values. -/
theorem satisfied_congr {f : Fact} {bag other : Bag}
    (own : (bag.get f.property).canonical = (other.get f.property).canonical)
    (dependency : ∀ q, f.dependency? = some q →
      (bag.get q).canonical = (other.get q).canonical) :
    f.condition.satisfied bag = f.condition.satisfied other := by
  obtain ⟨property, test⟩ := f
  cases test with
  | truthy negated =>
    simp only [condition, Condition.satisfied_property]
    rw [Value.truthy_congr own]
  | compare op operand =>
    have operands : (operand.value bag).canonical = (operand.value other).canonical :=
      Operand.value_congr dependency
    rw [satisfied_compare, satisfied_compare]
    unfold Condition.compares
    cases operand.typeName? with
    | none => exact Value.holds_congr own operands op
    | some typeName =>
      simp only
      rw [Value.typeOf_congr own]

end Fact

/-! ## Declarations of facts -/

namespace Rule

section Reads

variable {rule : Rule} {bag other : Bag}
  (own : (bag.get rule.property).canonical = (other.get rule.property).canonical)
  (dependency : ∀ q, rule.dependency? = some q → (bag.get q).canonical = (other.get q).canonical)

include own dependency

/-- A rule reads its property and the other property of its operand, up to canonical values. -/
theorem states_congr : rule.states bag = rule.states other := by
  cases rule with
  | truthy property flag =>
    have same : (bag.get property).truthy = (other.get property).truthy := Value.truthy_congr own
    simp only [states, same]
  | falsy property flag =>
    have same : (bag.get property).truthy = (other.get property).truthy := Value.truthy_congr own
    simp only [states, same]
  | equality property operand positive complement =>
    have same : (bag.get property).looseEq (operand.value bag) =
        (other.get property).looseEq (operand.value other) :=
      Value.holds_congr own (Operand.value_congr dependency) .eq
    simp only [states, same]
  | typeOf property typeName positive complement =>
    have same : (bag.get property).typeOf = (other.get property).typeOf := Value.typeOf_congr own
    simp only [states, same]
  | relational property op operand flag =>
    have same : (bag.get property).holds op (operand.value bag) =
        (other.get property).holds op (operand.value other) :=
      Value.holds_congr own (Operand.value_congr dependency) op
    simp only [states, same]

theorem declarations_congr (options : Options) :
    rule.declarations options bag = rule.declarations options other := by
  rw [declarations, declarations, states_congr own dependency]

end Reads

variable {f : Fact} {options : Options} {d : Declaration}

/-- A sparse rule has all its flags off while its property is undefined. -/
theorem not_satisfied_of_isSparse (proper : f.Proper) (sparse : (ofFact f).isSparse = true)
    {bag : Bag} (unset : bag.get f.property = .undefined) : f.condition.satisfied bag = false := by
  obtain ⟨property, test⟩ := f
  cases test with
  | truthy negated => cases negated <;> cases sparse
  | compare op operand =>
    simp only [ofFact, ofTest] at sparse
    split at sparse
    · unfold ofEquality at sparse
      split at sparse <;> cases sparse
    · next order =>
      rw [Fact.satisfied_compare, Operand.typeName?_eq_none proper.2 (eq_false_of_ne_true order),
        Condition.compares, unset]
      cases op with
      | eq => exact absurd rfl order
      | ne => exact absurd rfl order
      | _ => rfl

theorem mem_declarations (proper : f.Proper) {bag : Bag} :
    d ∈ (ofFact f).declarations options bag ↔
      ∃ g ∈ f.family, (g.condition.satisfied bag = true ∨ (ofFact f).isSparse = false) ∧
        d = options.declare g.name (g.condition.satisfied bag) := by
  simp only [declarations, states_ofFact proper, List.mem_map, List.mem_filter, Prod.exists]
  constructor
  · rintro ⟨flag, on, ⟨⟨g, member, same⟩, shown⟩, rfl⟩
    cases same
    exact ⟨g, member, by simpa using shown, rfl⟩
  · rintro ⟨g, member, shown, rfl⟩
    exact ⟨_, _, ⟨⟨g, member, rfl⟩, by simpa using shown⟩, rfl⟩

theorem mem_defaults (proper : f.Proper) :
    d ∈ (ofFact f).defaults options ↔
      ∃ g ∈ f.family, d = options.declare g.name (g.condition.satisfied Table.empty) := by
  have state {g : Fact} (member : g ∈ f.family) :
      (g.condition.satisfied Table.empty && !(ofFact f).isSparse) =
        g.condition.satisfied Table.empty := by
    cases sparse : (ofFact f).isSparse with
    | false => simp
    | true =>
      rw [← ofFact_of_mem_family member] at sparse
      rw [not_satisfied_of_isSparse ((Fact.mem_family member).2.2 proper) sparse rfl]
      rfl
  simp only [defaults, states_ofFact proper, List.mem_map, Prod.exists]
  constructor
  · rintro ⟨flag, on, ⟨g, member, same⟩, rfl⟩
    cases same
    exact ⟨g, member, by rw [state member]⟩
  · rintro ⟨g, member, rfl⟩
    exact ⟨_, _, ⟨g, member, rfl⟩, by rw [state member]⟩

end Rule

end StyleFlags
