import StyleFlags.Proofs.Ownership
import StyleFlags.Proofs.Parsing

/-!
# Rules agree with the conditions they come from

A condition of a single fact is evaluated in two ways: directly, as a tree, and
through the rule that its fact is compiled to, which is named from the fact and
reads the bag by itself. Both give the same truth, and the rule of an equality
gives its other flag the opposite one.

Results:
1. `Sheet.ofFact_mem_rulesFor`, `Sheet.rulesFor_single`: every fact of a registry has its
   rule among those of its property, and a fact by itself has this rule only.
2. `Rule.states_of_single`, `Rule.states_of_equality`: the states of the flags of a rule, by
   the truth of the fact.
3. `Sheet.rule_agrees_with_condition`: the rule of a condition that was read owns a flag
   with the name of the condition, which is on where the condition is satisfied.
-/

namespace StyleFlags

/-! ## The rule of a fact -/

namespace Sheet

/-- The rules that a sheet has for a property, the dependent ones last. -/
def rulesFor (s : Sheet) (property : String) : List Rule :=
  (s.rules.get? property).getD [] ++ ((s.dependents.get? property).map Dependents.rules).getD []

variable {r : Registry} {f : Fact}

theorem ofFact_mem_rulesFor (registered : f ∈ r.facts) :
    Rule.ofFact f ∈ (ofRegistry r).rulesFor f.property := by
  cases reads : f.dependency?.isSome with
  | false =>
    have single : f.dependency?.isNone = true := by simpa using reads
    obtain ⟨rules, found⟩ := exists_rules registered single
    refine List.mem_append_left _ ?_
    rw [found]
    exact (mem_rules found).mpr ⟨f, registered, rfl, single, rfl⟩
  | true =>
    obtain ⟨d, found⟩ := exists_dependents registered reads
    refine List.mem_append_right _ ?_
    rw [found]
    exact (mem_dependents found).mpr ⟨f, registered, rfl, reads, rfl⟩

/-- A registry with a single fact is compiled to the rule of that fact. -/
theorem rulesFor_single (title : String) (options : Options) (f : Fact) :
    (ofRegistry (.ofNeeds title options [.fact f])).rulesFor f.property = [Rule.ofFact f] := by
  have listed : (Registry.ofNeeds title options [.fact f]).tests.get? f.property =
      some (SortedSet.empty.insert f.test) := by
    show (Table.empty.insert f.property (SortedSet.empty.insert f.test)).get? f.property = _
    rw [Table.get?_insert, if_pos rfl]
  have compiled : Rule.ofTests f.property [] (SortedSet.empty.insert f.test).toList =
      [Rule.ofFact f] := by
    show Rule.ofTests f.property [] [f.test] = _
    simp only [Rule.ofTests, List.contains_nil, Bool.false_eq_true, if_false]
    split <;> rfl
  rw [rulesFor, get?_rules, get?_dependents, listed]
  simp only [Option.bind_some, independentRules, dependentRules, compiled]
  cases reads : (Rule.ofFact f).dependency? with
  | none => simp [reads]
  | some other => simp [reads]

end Sheet

namespace Rule

variable {f : Fact}

theorem states_of_single (proper : f.Proper) (single : equalityOperand? f.test = none) (bag : Bag) :
    (ofFact f).states bag = [(f.name, f.condition.satisfied bag)] := by
  rw [states_ofFact proper, Fact.family_of_single single]
  rfl

/-- The two facts of an equality are opposite, also where it is one of types. -/
theorem satisfied_ne (property : String) (operand : Operand) (bag : Bag) :
    (Fact.condition ⟨property, .compare .ne operand⟩).satisfied bag =
      !(Fact.condition ⟨property, .compare .eq operand⟩).satisfied bag := by
  rw [Fact.satisfied_compare, Fact.satisfied_compare]
  cases operand.typeName? <;> rfl

/-- One flag of an equality is that of the fact, and the other has the opposite state. -/
theorem states_of_equality (proper : f.Proper) {operand : Operand}
    (equality : equalityOperand? f.test = some operand) :
    ∃ other, other ≠ f.name ∧ ∀ bag, ((ofFact f).states bag).Perm
      [(f.name, f.condition.satisfied bag), (other, !f.condition.satisfied bag)] := by
  have positive : Fact.mk f.property (.compare .eq operand) ∈ f.family := by
    simp [Fact.family_of_equality equality]
  have complement : Fact.mk f.property (.compare .ne operand) ∈ f.family := by
    simp [Fact.family_of_equality equality]
  have different : Fact.name ⟨f.property, .compare .eq operand⟩ ≠
      Fact.name ⟨f.property, .compare .ne operand⟩ := by
    intro same
    have facts := Fact.name_injective ((Fact.mem_family positive).2.2 proper)
      ((Fact.mem_family complement).2.2 proper) same
    cases facts
  have states (bag : Bag) : (ofFact f).states bag =
      [(Fact.name ⟨f.property, .compare .eq operand⟩,
          (Fact.condition ⟨f.property, .compare .eq operand⟩).satisfied bag),
        (Fact.name ⟨f.property, .compare .ne operand⟩,
          !(Fact.condition ⟨f.property, .compare .eq operand⟩).satisfied bag)] := by
    rw [states_ofFact proper, Fact.family_of_equality equality, ← satisfied_ne]
    rfl
  have itself := f.self_mem_family
  rw [Fact.family_of_equality equality] at itself
  rcases List.mem_cons.mp itself with isEq | isNe
  · refine ⟨Fact.name ⟨f.property, .compare .ne operand⟩, isEq ▸ different.symm, fun bag => ?_⟩
    rw [states, ← isEq]
  · rw [List.mem_singleton] at isNe
    refine ⟨Fact.name ⟨f.property, .compare .eq operand⟩, isNe ▸ different, fun bag => ?_⟩
    have opposite : f.condition.satisfied bag =
        !(Fact.condition ⟨f.property, .compare .eq operand⟩).satisfied bag := by
      rw [← satisfied_ne, ← isNe]
    rw [states, ← opposite, opposite, Bool.not_not, ← isNe]
    exact List.Perm.swap _ _ _

end Rule

/-! ## Conditions of a single fact -/

namespace Condition

/-- Whether a condition is a property, negated or not, or a comparison that is not negated. -/
def isSingle : Condition → Bool
  | property _ _ => true
  | binary negated (.compare _) _ _ => !negated
  | _ => false

/-- Whether a condition compares for equality, with a value or with a type. -/
def isEquality : Condition → Bool
  | binary _ (.compare op) _ _ => op.isEquality
  | _ => false

theorem exists_fact_of_isSingle {x : Condition} (shaped : x.Shaped .source)
    (single : x.isSingle = true) : ∃ f : Fact, x = f.condition := by
  cases x with
  | property negated name => exact exists_fact shaped rfl rfl rfl
  | literal negated l => cases single
  | binary negated op left right =>
    cases op with
    | junction op => cases single
    | compare op =>
      obtain ⟨⟨name, rfl, known⟩, operand⟩ := shaped
      have unsigned : negated = false := by simpa [isSingle] using single
      exact exists_fact ⟨⟨name, rfl, known⟩, operand⟩
        (isNnf_binary.mpr ⟨unsigned, rfl, operand.isNnf⟩) rfl rfl

end Condition

theorem Fact.isEquality_condition (f : Fact) :
    f.condition.isEquality = (Rule.equalityOperand? f.test).isSome := by
  obtain ⟨property, test⟩ := f
  cases test with
  | truthy negated => rfl
  | compare op operand => cases op <;> rfl

namespace Sheet

/-- A property, negated or not, and a comparison that is not negated have a fact. The sheet of that
fact alone has one rule, which every sheet that the fact is compiled into has as well. The rule owns
a flag with the name of the condition, and on every bag this flag is on exactly when the value of
the condition is truthy. For an equality, also one of types, the rule has one more flag, in the
opposite state, and for any other condition it has none. -/
theorem rule_agrees_with_condition {source : String} {x : Condition}
    (accepted : Condition.read source = .ok x) (single : x.isSingle = true) :
    ∃ f rule, Fact.ofCondition? x = some f ∧
      (∀ title options,
        (ofRegistry (.ofNeeds title options [.fact f])).rulesFor f.property = [rule]) ∧
      (∀ r : Registry, f ∈ r.facts → rule ∈ (ofRegistry r).rulesFor f.property) ∧
      x.name ∈ rule.flags ∧
      (x.isEquality = false → ∀ bag, rule.states bag = [(x.name, (x.evaluate bag).truthy)]) ∧
      (x.isEquality = true → ∃ other, other ≠ x.name ∧ ∀ bag, (rule.states bag).Perm
        [(x.name, (x.evaluate bag).truthy), (other, !(x.evaluate bag).truthy)]) := by
  obtain ⟨_, ⟨_, condition⟩, _⟩ := Condition.read_eq_ok_iff.mp accepted
  have shaped := Condition.readAt_shaped condition
  obtain ⟨f, rfl⟩ := Condition.exists_fact_of_isSingle shaped single
  have proper : f.Proper := shaped.proper_ofCondition? f.ofCondition?_condition
  refine ⟨f, Rule.ofFact f, f.ofCondition?_condition, ?_, ?_, ?_, ?_, ?_⟩
  · exact fun title options => rulesFor_single title options f
  · exact fun r registered => ofFact_mem_rulesFor registered
  · rw [Rule.flags_ofFact, f.name_condition]
    exact List.mem_map_of_mem f.self_mem_family
  · intro notEquality bag
    rw [f.isEquality_condition, Option.isSome_eq_false_iff, Option.isNone_iff_eq_none] at notEquality
    rw [f.name_condition]
    exact Rule.states_of_single proper notEquality bag
  · intro isEquality
    rw [f.isEquality_condition] at isEquality
    obtain ⟨operand, equality⟩ := Option.isSome_iff_exists.mp isEquality
    rw [f.name_condition]
    exact Rule.states_of_equality proper equality

/-- `kind != Function`: the rule of a test for a type has its flags in the order of `==` and `!=`. -/
def exTyped : Condition :=
  .binary false (.compare .ne) (.property false "kind") (.literal false ⟨.typeName, "Function"⟩)

theorem rule_agrees_with_condition_exTyped :
    Condition.read "kind != Function" = .ok exTyped ∧ exTyped.isEquality = true ∧
      ∃ (rule : Rule) (other : String), other ≠ "kind≠Function" ∧ ∀ bag, (rule.states bag).Perm
        [("kind≠Function", (exTyped.evaluate bag).truthy),
          (other, !(exTyped.evaluate bag).truthy)] := by
  have accepted : Condition.read "kind != Function" = .ok exTyped :=
    eq_ok_of_toOption (by decide +kernel)
  have named : exTyped.name = "kind≠Function" := by decide +kernel
  obtain ⟨_, rule, _, _, _, _, _, equality⟩ := rule_agrees_with_condition accepted rfl
  rw [named] at equality
  exact ⟨accepted, rfl, rule, equality rfl⟩

end Sheet

end StyleFlags
