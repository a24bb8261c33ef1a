import StyleFlags.Proofs.Registered
import StyleFlags.Proofs.States
import StyleFlags.Sheet

/-!
# The rules of a compiled registry

The sheet of a registry has one rule for every fact, among the rules of the
fact's property: with the independent ones if the fact reads no other property,
and else with the dependent ones.

Results:
1. `mem_rules`, `exists_rules`: the independent rules of a property.
2. `mem_dependents`, `exists_dependents`, `mem_properties`: its dependent rules, and the
   properties that they read.
3. `baseOf_eq`, `mem_baseDefaults`: the base block declares the prepared values, and
   then the default of every flag.
4. `keys_cover_reads`: what the rules of a property declare depends on no value that
   the key of their block leaves out.
-/

namespace StyleFlags.Sheet

variable {r : Registry} {property : String}

/-! ## The rules of a property -/

/-- The rules of a property that read others in a certain way are those of its facts that do. -/
theorem mem_filter_ofTests {tests : SortedSet Test} (listed : r.tests.get? property = some tests)
    (keep : Option String → Bool) {rule : Rule} :
    rule ∈ (Rule.ofTests property [] tests.toList).filter (keep ·.dependency?) ↔
      ∃ f ∈ r.facts, f.property = property ∧ keep f.dependency? = true ∧ rule = Rule.ofFact f := by
  rw [List.mem_filter, Rule.mem_ofTests]
  constructor
  · rintro ⟨⟨test, member, rfl⟩, kept⟩
    rw [Rule.dependency?_ofFact] at kept
    exact ⟨⟨property, test⟩, Registry.mem_facts.mpr ⟨tests, listed, member⟩, rfl, kept, rfl⟩
  · rintro ⟨⟨_, test⟩, registered, rfl, kept, rfl⟩
    obtain ⟨_, listed', member⟩ := Registry.mem_facts.mp registered
    cases listed.symm.trans listed'
    rw [Rule.dependency?_ofFact]
    exact ⟨⟨test, member, rfl⟩, kept⟩

theorem get?_rules : (ofRegistry r).rules.get? property =
    (r.tests.get? property).bind fun tests =>
      if (independentRules property tests).isEmpty then none
      else some (independentRules property tests) :=
  Table.get?_filterMap _

section Rules

variable {rules : List Rule}

theorem get?_rules_eq_some (found : (ofRegistry r).rules.get? property = some rules) :
    ∃ tests, r.tests.get? property = some tests ∧ rules = independentRules property tests ∧
      rules ≠ [] := by
  rw [get?_rules, Option.bind_eq_some_iff] at found
  obtain ⟨tests, listed, kept⟩ := found
  split at kept
  · cases kept
  · next nonempty =>
    cases kept
    exact ⟨tests, listed, rfl, by simpa using nonempty⟩

theorem mem_rules (found : (ofRegistry r).rules.get? property = some rules) {rule : Rule} :
    rule ∈ rules ↔
      ∃ f ∈ r.facts, f.property = property ∧ f.dependency?.isNone = true ∧ rule = Rule.ofFact f := by
  obtain ⟨tests, listed, rfl, _⟩ := get?_rules_eq_some found
  exact mem_filter_ofTests listed Option.isNone

theorem exists_rules {f : Fact} (registered : f ∈ r.facts) (single : f.dependency?.isNone = true) :
    ∃ rules, (ofRegistry r).rules.get? f.property = some rules := by
  obtain ⟨tests, listed, _⟩ := Registry.mem_facts.mp registered
  have rule : Rule.ofFact f ∈ independentRules f.property tests :=
    (mem_filter_ofTests listed Option.isNone).mpr ⟨f, registered, rfl, single, rfl⟩
  rw [get?_rules, listed, Option.bind_some, if_neg (by simp [List.ne_nil_of_mem rule])]
  exact ⟨_, rfl⟩

end Rules

theorem get?_dependents : (ofRegistry r).dependents.get? property =
    (r.tests.get? property).bind fun tests =>
      if (dependentRules property tests).isEmpty then none
      else some ⟨(readBy property (dependentRules property tests)).toList,
        dependentRules property tests⟩ :=
  Table.get?_filterMap _

section Dependents

variable {d : Dependents}

theorem get?_dependents_eq_some (found : (ofRegistry r).dependents.get? property = some d) :
    ∃ tests, r.tests.get? property = some tests ∧ d.rules = dependentRules property tests ∧
      d.properties = (readBy property d.rules).toList ∧ d.rules ≠ [] := by
  rw [get?_dependents, Option.bind_eq_some_iff] at found
  obtain ⟨tests, listed, kept⟩ := found
  split at kept
  · cases kept
  · next nonempty =>
    cases kept
    exact ⟨tests, listed, rfl, rfl, by simpa using nonempty⟩

theorem mem_dependents (found : (ofRegistry r).dependents.get? property = some d) {rule : Rule} :
    rule ∈ d.rules ↔
      ∃ f ∈ r.facts, f.property = property ∧ f.dependency?.isSome = true ∧ rule = Rule.ofFact f := by
  obtain ⟨tests, listed, rules, _, _⟩ := get?_dependents_eq_some found
  rw [rules]
  exact mem_filter_ofTests listed Option.isSome

theorem exists_dependents {f : Fact} (registered : f ∈ r.facts)
    (reads : f.dependency?.isSome = true) :
    ∃ d, (ofRegistry r).dependents.get? f.property = some d := by
  obtain ⟨tests, listed, _⟩ := Registry.mem_facts.mp registered
  have rule : Rule.ofFact f ∈ dependentRules f.property tests :=
    (mem_filter_ofTests listed Option.isSome).mpr ⟨f, registered, rfl, reads, rfl⟩
  rw [get?_dependents, listed, Option.bind_some, if_neg (by simp [List.ne_nil_of_mem rule])]
  exact ⟨_, rfl⟩

/-- The properties that the dependent rules of a property read: itself, and those of operands. -/
theorem mem_properties (found : (ofRegistry r).dependents.get? property = some d) {q : String} :
    q ∈ d.properties ↔ q = property ∨ ∃ rule ∈ d.rules, rule.dependency? = some q := by
  obtain ⟨tests, _, _, properties, _⟩ := get?_dependents_eq_some found
  rw [properties, readBy, SortedSet.mem_insert, SortedSet.mem_ofList, List.mem_filterMap]

/-- These properties are listed in increasing order, each once. -/
theorem properties_increasing (found : (ofRegistry r).dependents.get? property = some d) :
    d.properties.Pairwise (· < ·) := by
  obtain ⟨_, _, _, properties, _⟩ := get?_dependents_eq_some found
  rw [properties]
  exact (readBy property d.rules).increasing.imp compareOfLessAndEq_eq_lt.mp

theorem ne_nil_of_dependents (found : (ofRegistry r).dependents.get? property = some d) :
    d.properties ≠ [] :=
  List.ne_nil_of_mem ((mem_properties found).mpr (.inl rfl))

end Dependents

/-! ## Names of properties -/

section Names

variable {options : Options} (sound : r.Sound options)

include sound

theorem isIdentifier_of_rules {rules : List Rule}
    (found : (ofRegistry r).rules.get? property = some rules) : isIdentifier property = true := by
  obtain ⟨_, _, _, nonempty⟩ := get?_rules_eq_some found
  obtain ⟨rule, member⟩ := List.exists_mem_of_ne_nil rules nonempty
  obtain ⟨f, registered, rfl, _, _⟩ := (mem_rules found).mp member
  exact (sound.proper f registered).1

theorem isIdentifier_of_dependents {d : Dependents}
    (found : (ofRegistry r).dependents.get? property = some d) :
    ∀ q ∈ d.properties, isIdentifier q = true := by
  obtain ⟨_, _, _, _, nonempty⟩ := get?_dependents_eq_some found
  intro q member
  rcases (mem_properties found).mp member with rfl | ⟨rule, member, reads⟩
  · obtain ⟨rule, member⟩ := List.exists_mem_of_ne_nil d.rules nonempty
    obtain ⟨f, registered, rfl, _, _⟩ := (mem_dependents found).mp member
    exact (sound.proper f registered).1
  · obtain ⟨f, registered, _, _, rfl⟩ := (mem_dependents found).mp member
    rw [Rule.dependency?_ofFact] at reads
    exact (sound.proper f registered).isIdentifier_dependency reads

end Names

/-! ## What the rules of a property read -/

section Reads

variable {options : Options} {bag other : Bag}

theorem flatMap_declarations_congr {rules : List Rule}
    (same : ∀ rule ∈ rules, rule.declarations options bag = rule.declarations options other) :
    rules.flatMap (Rule.declarations options bag) =
      rules.flatMap (Rule.declarations options other) := by
  rw [List.flatMap_def, List.flatMap_def, List.map_congr_left same]

/-- Independent rules read their property only. -/
theorem flatMap_rules_congr {rules : List Rule}
    (found : (ofRegistry r).rules.get? property = some rules)
    (agree : (bag.get property).canonical = (other.get property).canonical) :
    rules.flatMap (Rule.declarations options bag) =
      rules.flatMap (Rule.declarations options other) := by
  refine flatMap_declarations_congr fun rule member => ?_
  obtain ⟨f, _, rfl, single, rfl⟩ := (mem_rules found).mp member
  refine Rule.declarations_congr ?_ (fun q reads => ?_) options
  · rwa [Rule.property_ofFact]
  · rw [Rule.dependency?_ofFact] at reads
    rw [reads] at single
    cases single

/-- Dependent rules read the properties that are listed with them only. -/
theorem flatMap_dependentRules_congr {d : Dependents}
    (found : (ofRegistry r).dependents.get? property = some d)
    (agree : ∀ q ∈ d.properties, (bag.get q).canonical = (other.get q).canonical) :
    d.rules.flatMap (Rule.declarations options bag) =
      d.rules.flatMap (Rule.declarations options other) := by
  refine flatMap_declarations_congr fun rule member => ?_
  refine Rule.declarations_congr (agree _ ?_) (fun q reads => agree q ?_) options
  · obtain ⟨f, _, rfl, _, rfl⟩ := (mem_dependents found).mp member
    exact (mem_properties found).mpr (.inl (Rule.property_ofFact f))
  · exact (mem_properties found).mpr (.inr ⟨rule, member, reads⟩)

end Reads

/-- What the independent rules of a property declare depends on its value only. What its dependent
rules declare depends on the values of the listed properties only: these are the property itself and
those that facts about it are compared with, in increasing order. -/
theorem keys_cover_reads (r : Registry) (property : String) :
    (∀ rules, (ofRegistry r).rules.get? property = some rules →
      ∀ bag other : Bag, bag.get property = other.get property →
        rules.flatMap (Rule.declarations r.options bag) =
          rules.flatMap (Rule.declarations r.options other)) ∧
    ∀ d, (ofRegistry r).dependents.get? property = some d →
      d.properties.Pairwise (· < ·) ∧ property ∈ d.properties ∧
      (∀ q ∈ d.properties, q = property ∨
        ∃ f ∈ r.facts, f.property = property ∧ f.dependency? = some q) ∧
      ∀ bag other : Bag, (∀ q ∈ d.properties, bag.get q = other.get q) →
        d.rules.flatMap (Rule.declarations r.options bag) =
          d.rules.flatMap (Rule.declarations r.options other) := by
  refine ⟨fun rules found bag other agree => ?_, fun d found => ?_⟩
  · exact flatMap_rules_congr found (congrArg Value.canonical agree)
  · refine ⟨properties_increasing found, (mem_properties found).mpr (.inl rfl), ?_, ?_⟩
    · intro q listed
      refine ((mem_properties found).mp listed).imp_right ?_
      rintro ⟨rule, member, reads⟩
      obtain ⟨f, registered, own, _, rfl⟩ := (mem_dependents found).mp member
      rw [Rule.dependency?_ofFact] at reads
      exact ⟨f, registered, own, reads⟩
    · intro bag other agree
      exact flatMap_dependentRules_congr found fun q listed =>
        congrArg Value.canonical (agree q listed)

/-- The facts `a`, `a == !c`, `a < b` and `d`. -/
def exReading : Registry :=
  [⟨"a", .truthy false⟩, ⟨"a", .compare .eq (.property "c" true)⟩,
    ⟨"a", .compare .lt (.property "b" false)⟩, ⟨"d", .truthy true⟩].foldl Registry.addFact
    ⟨"scheme", {}, .empty, .empty, .empty⟩

/-- The rules of `a == !c` and `a < b`. -/
def exDependents : Dependents :=
  ⟨["a", "b", "c"], [.equality "a" (.property "c" true) "a≡¬c" "a≠¬c",
    .relational "a" .lt (.property "b" false) "a⋖b"]⟩

def exSettled : Bag :=
  .ofList [("a", .bool false), ("b", .bool true), ("c", .string "x"), ("d", .null)]

/-- The rules of `a` do not tell these bags from others that hold the same where they read, and different
values or none elsewhere. -/
theorem keys_cover_reads_exReading :
    (ofRegistry exReading).rules.get? "a" = some [.truthy "a" "a"] ∧
      [Rule.truthy "a" "a"].flatMap (Rule.declarations exReading.options exSettled) =
        [Rule.truthy "a" "a"].flatMap
          (Rule.declarations exReading.options (.ofList [("a", .bool false), ("c", .null)])) ∧
      (ofRegistry exReading).dependents.get? "a" = some exDependents ∧
      exDependents.rules.flatMap (Rule.declarations exReading.options exSettled) =
        exDependents.rules.flatMap
          (Rule.declarations exReading.options (exSettled.insert "d" (.string "y"))) := by
  have single : (ofRegistry exReading).rules.get? "a" = some [.truthy "a" "a"] := by decide +kernel
  have double : (ofRegistry exReading).dependents.get? "a" = some exDependents := by decide +kernel
  obtain ⟨independent, dependent⟩ := keys_cover_reads exReading "a"
  obtain ⟨_, _, _, agree⟩ := dependent _ double
  exact ⟨single, independent _ single _ _ (by decide +kernel), double,
    agree _ _ (by decide +kernel)⟩

/-! ## The base block -/

/-- The defaults of all flags. -/
def baseDefaults (s : Sheet) : List Declaration :=
  (s.rules.values.flatMap fun rules => rules.flatMap (Rule.defaults s.options)) ++
    (s.dependents.values.flatMap fun d => d.rules.flatMap (Rule.defaults s.options))

/-- What the base block of a registry declares: the prepared values, then the defaults. -/
def baseOf (r : Registry) : List Declaration :=
  (r.prepared.entries.map fun (name, value) => ⟨name, value⟩) ++ (ofRegistry r).baseDefaults

theorem baseOf_eq (r : Registry) :
    baseOf r = baseDeclarations r.options r.prepared (ofRegistry r).rules
      (ofRegistry r).dependents := (List.append_assoc _ _ _).symm

theorem mem_baseDefaults {declaration : Declaration} :
    declaration ∈ (ofRegistry r).baseDefaults ↔
      ∃ f ∈ r.facts, declaration ∈ (Rule.ofFact f).defaults r.options := by
  simp only [baseDefaults, List.mem_append, List.mem_flatMap, Table.mem_values]
  constructor
  · rintro (⟨rules, ⟨property, found⟩, rule, member, declared⟩ |
      ⟨d, ⟨property, found⟩, rule, member, declared⟩)
    · obtain ⟨f, registered, _, _, rfl⟩ := (mem_rules found).mp member
      exact ⟨f, registered, declared⟩
    · obtain ⟨f, registered, _, _, rfl⟩ := (mem_dependents found).mp member
      exact ⟨f, registered, declared⟩
  · rintro ⟨f, registered, declared⟩
    cases reads : f.dependency?.isSome with
    | false =>
      have single : f.dependency?.isNone = true := by simpa using reads
      obtain ⟨rules, found⟩ := exists_rules registered single
      exact .inl ⟨rules, ⟨_, found⟩, _, (mem_rules found).mpr ⟨f, registered, rfl, single, rfl⟩,
        declared⟩
    | true =>
      obtain ⟨d, found⟩ := exists_dependents registered reads
      exact .inr ⟨d, ⟨_, found⟩, _, (mem_dependents found).mpr ⟨f, registered, rfl, reads, rfl⟩,
        declared⟩

end StyleFlags.Sheet
