import StyleFlags.Proofs.Blocks

/-!
# Flags in force

The flags that are in force for a bag are read from the base block and from the
blocks under the keys that the bag was answered with.

Results:
1. `inForce?_baseOf`: in the base block alone, a flag is on when its fact holds
   with every property unset.
2. `mem_declaredUnder_values`, `mem_declaredUnder_dependencies`: what the blocks declare
   that a bag is answered with.
3. `flag_follows_fact`: after any run, the flag of a fact that reads one property is on
   exactly when the fact holds.
-/

namespace StyleFlags

theorem Options.Readable.declare {options : Options} (readable : options.Readable) (f : Fact)
    (on : Bool) : (options.declare f.name on).Readable := by
  refine ⟨f.spelled_name, ?_⟩
  cases on with
  | false => exact readable.off
  | true => exact readable.on

/-- What the rule of a fact declares on a bag are flags of facts that read the same properties. -/
theorem Rule.exists_fact_of_mem_declarations {f : Fact} (proper : f.Proper) {options : Options}
    {bag : Bag} {d : Declaration} (member : d ∈ (ofFact f).declarations options bag) :
    ∃ g : Fact, g.Proper ∧ g.property = f.property ∧ g.dependency? = f.dependency? ∧
      d = options.declare g.name (g.condition.satisfied bag) := by
  obtain ⟨g, inFamily, _, rfl⟩ := (mem_declarations proper).mp member
  obtain ⟨sameProperty, sameDependency, keepsProper⟩ := Fact.mem_family inFamily
  exact ⟨g, keepsProper proper, sameProperty, sameDependency, rfl⟩

/-- Rules are silent about a flag only where it is off, as in the base block. -/
theorem Rule.unsatisfied_of_silent {f : Fact} (proper : f.Proper) {options : Options} {bag : Bag}
    {rules : List Rule} (rule : ofFact f ∈ rules)
    (silent : ∀ d ∈ rules.flatMap (Rule.declarations options bag), d.name ≠ f.name) :
    f.condition.satisfied Table.empty = false ∧ f.condition.satisfied bag = false := by
  have hidden : ¬(f.condition.satisfied bag = true ∨ (ofFact f).isSparse = false) := by
    intro shown
    have declared : options.declare f.name (f.condition.satisfied bag) ∈
        (ofFact f).declarations options bag :=
      (mem_declarations proper).mpr ⟨f, f.self_mem_family, shown, rfl⟩
    exact silent _ (List.mem_flatMap.mpr ⟨_, rule, declared⟩) rfl
  simp only [not_or, Bool.not_eq_true, Bool.not_eq_false] at hidden
  exact ⟨not_satisfied_of_isSparse proper hidden.2 rfl, hidden.1⟩

namespace Sheet

/-! ## The base block -/

section Base

variable {r : Registry} {options : Options} (sound : r.Sound options)

include sound

theorem readable_baseOf (readable : options.Readable) : ∀ d ∈ baseOf r, d.Readable := by
  intro d member
  rcases List.mem_append.mp member with prepared | default
  · obtain ⟨e, listed, rfl⟩ := List.mem_map.mp prepared
    exact ⟨sound.names e listed, sound.values readable e listed⟩
  · obtain ⟨f, registered, declared⟩ := mem_baseDefaults.mp default
    obtain ⟨g, _, rfl⟩ := (Rule.mem_defaults (sound.proper f registered)).mp declared
    rw [sound.written]
    exact readable.declare g _

/-- In the base block, a flag is on when its fact holds with every property unset. -/
theorem inForce?_baseOf {f : Fact} (registered : f ∈ r.facts) :
    StyleFlags.inForce? (baseOf r) f.name =
      some (options.declare f.name (f.condition.satisfied Table.empty)).value := by
  have proper := sound.proper f registered
  have default : StyleFlags.inForce? (ofRegistry r).baseDefaults f.name =
      some (options.declare f.name (f.condition.satisfied Table.empty)).value := by
    rw [← sound.written]
    refine inForce?_eq_some ⟨_, mem_baseDefaults.mpr ⟨f, registered,
      (Rule.mem_defaults proper).mpr ⟨f, f.self_mem_family, rfl⟩⟩, rfl⟩ ?_
    intro d member named
    obtain ⟨other, registered', declared⟩ := mem_baseDefaults.mp member
    have proper' := sound.proper other registered'
    obtain ⟨g, inFamily, rfl⟩ := (Rule.mem_defaults proper').mp declared
    rw [Fact.name_injective ((Fact.mem_family inFamily).2.2 proper') proper named]
  rw [baseOf, inForce?_append, default, Option.some_or]

/-- Declarations after the base block decide about a flag if they agree on it, and if the default is
right where they are silent. -/
theorem inForce?_baseOf_append {f : Fact} (registered : f ∈ r.facts) {later : List Declaration}
    {on : Bool} (agree : ∀ d ∈ later, d.name = f.name → d = options.declare f.name on)
    (silent : (∀ d ∈ later, d.name ≠ f.name) → f.condition.satisfied Table.empty = on) :
    StyleFlags.inForce? (baseOf r ++ later) f.name = some (options.declare f.name on).value := by
  rw [inForce?_append]
  by_cases declared : ∃ d ∈ later, d.name = f.name
  · rw [inForce?_eq_some declared fun d member named => by rw [agree d member named],
      Option.some_or]
  · have undeclared : ∀ d ∈ later, d.name ≠ f.name :=
      fun d member named => declared ⟨d, member, named⟩
    rw [inForce?_eq_none undeclared, Option.none_or, inForce?_baseOf sound registered,
      silent undeclared]

end Base

/-! ## Blocks that apply -/

/-- What the blocks under some keys declare. -/
def declaredUnder (s : Sheet) (keys : List String) : List Declaration :=
  (keys.filterMap s.block?).flatMap fun b => declared b.declarations

/-- The value of a flag for a bag that was answered with some keys. Of its declarations in the base
block, followed by the blocks under the keys, the last one is in force. -/
def inForce? (s : Sheet) (selection : Selection) (flag : String) : Option String :=
  StyleFlags.inForce? ((s.base?.toList.flatMap fun b => declared b.declarations) ++
    s.declaredUnder (selection.values ++ selection.dependencies)) flag

theorem mem_declaredUnder {s : Sheet} {keys : List String} {d : Declaration} :
    d ∈ s.declaredUnder keys ↔
      ∃ key ∈ keys, ∃ b, s.block? key = some b ∧ d ∈ declared b.declarations := by
  simp only [declaredUnder, List.mem_flatMap, List.mem_filterMap]
  constructor
  · rintro ⟨b, ⟨key, listed, found⟩, member⟩
    exact ⟨key, listed, b, found, member⟩
  · rintro ⟨key, listed, b, found, member⟩
    exact ⟨b, ⟨key, listed, found⟩, member⟩

section Applied

variable {r : Registry} {options : Options} {bags : List Bag} {bag : Bag} (sound : r.Sound options)

include sound

/-- The independent rules of a property declare flags of its facts that read no other property. -/
theorem exists_fact_of_mem_rules {property : String} {rules : List Rule}
    (found : (ofRegistry r).rules.get? property = some rules) {d : Declaration}
    (member : d ∈ rules.flatMap (Rule.declarations options bag)) :
    ∃ g : Fact, g.Proper ∧ g.property = property ∧ g.dependency?.isNone = true ∧
      d = options.declare g.name (g.condition.satisfied bag) := by
  obtain ⟨rule, listed, declared⟩ := List.mem_flatMap.mp member
  obtain ⟨f, registered, rfl, single, rfl⟩ := (mem_rules found).mp listed
  obtain ⟨g, proper, sameProperty, sameDependency, rfl⟩ :=
    Rule.exists_fact_of_mem_declarations (sound.proper f registered) declared
  exact ⟨g, proper, sameProperty, sameDependency ▸ single, rfl⟩

/-- The dependent rules of a property declare flags of its facts that read another property. -/
theorem exists_fact_of_mem_dependents {property : String} {e : Dependents}
    (found : (ofRegistry r).dependents.get? property = some e) {d : Declaration}
    (member : d ∈ e.rules.flatMap (Rule.declarations options bag)) :
    ∃ g : Fact, g.Proper ∧ g.property = property ∧ g.dependency?.isSome = true ∧
      d = options.declare g.name (g.condition.satisfied bag) := by
  obtain ⟨rule, listed, declared⟩ := List.mem_flatMap.mp member
  obtain ⟨f, registered, rfl, reads, rfl⟩ := (mem_dependents found).mp listed
  obtain ⟨g, proper, sameProperty, sameDependency, rfl⟩ :=
    Rule.exists_fact_of_mem_declarations (sound.proper f registered) declared
  exact ⟨g, proper, sameProperty, sameDependency ▸ reads, rfl⟩

/-- The value in force is read from the base block, the blocks of values and those of dependent
rules. -/
theorem inForce?_serializeAll (readable : options.Readable) (flag : String) :
    ((ofRegistry r).serializeAll bags).inForce? (select ((ofRegistry r).requests bag)) flag =
      StyleFlags.inForce? (baseOf r ++
        (((ofRegistry r).serializeAll bags).declaredUnder
            (select ((ofRegistry r).requests bag)).values ++
          ((ofRegistry r).serializeAll bags).declaredUnder
            (select ((ofRegistry r).requests bag)).dependencies)) flag := by
  rw [inForce?, base?_serializeAll (fresh_ofRegistry r).base?_eq]
  simp only [Option.toList_some, List.flatMap_singleton,
    declared_declarationsText (readable_baseOf sound readable), declaredUnder,
    List.filterMap_append, List.flatMap_append]

variable (readable : options.Readable)
  (collisionless : Key.Collisionless ((ofRegistry r).hashedInputs bags)) (inRun : bag ∈ bags)
  (accepted : (ofRegistry r).accepts bag = true)

include readable collisionless inRun accepted

/-- The keys of values find what the rules of the properties that are set declare on the bag. -/
theorem mem_declaredUnder_values {d : Declaration} :
    d ∈ ((ofRegistry r).serializeAll bags).declaredUnder
        (select ((ofRegistry r).requests bag)).values ↔
      ∃ property value rules, bag.normalized.get? property = some value ∧
        (ofRegistry r).rules.get? property = some rules ∧
        d ∈ rules.flatMap (Rule.declarations options bag.normalized) := by
  obtain rfl : r.options = options := sound.written
  have reads {property : String} {rules : List Rule}
      (found : (ofRegistry r).rules.get? property = some rules) :
      declared (declarationsText (rules.flatMap (Rule.declarations r.options bag.normalized))) =
        rules.flatMap (Rule.declarations r.options bag.normalized) := by
    refine declared_declarationsText fun d member => ?_
    obtain ⟨g, _, _, _, rfl⟩ := exists_fact_of_mem_rules sound found member
    exact readable.declare g _
  rw [mem_declaredUnder]
  constructor
  · rintro ⟨key, listed, b, block, member⟩
    obtain ⟨a, asked, isValue, rfl⟩ := (mem_selection .value).mp listed
    cases asked with
    | @value property value rules set found =>
      cases (block?_value sound collisionless inRun accepted set found).symm.trans block
      exact ⟨property, value, rules, set, found, reads found ▸ member⟩
    | dependency _ _ => cases isValue
  · rintro ⟨property, value, rules, set, found, member⟩
    refine ⟨_, (mem_selection .value).mpr ⟨_, .value set found, rfl, rfl⟩, _,
      block?_value sound collisionless inRun accepted set found, ?_⟩
    rw [reads found]
    exact member

/-- The keys of dependent rules find what the first owners declare that asked with the same input. -/
theorem mem_declaredUnder_dependencies {d : Declaration} :
    d ∈ ((ofRegistry r).serializeAll bags).declaredUnder
        (select ((ofRegistry r).requests bag)).dependencies ↔
      ∃ property value e first, bag.normalized.get? property = some value ∧
        (ofRegistry r).dependents.get? property = some e ∧
        ((ofRegistry r).runAsks bags).find?
          (·.input == Key.dependencyInput e.properties bag.normalized) = some first ∧
        d ∈ first.rules.flatMap (Rule.declarations options first.bag) := by
  obtain rfl : r.options = options := sound.written
  have reads {property : String} {e : Dependents}
      (found : (ofRegistry r).dependents.get? property = some e) {first : Ask}
      (isFirst : ((ofRegistry r).runAsks bags).find?
        (·.input == Key.dependencyInput e.properties bag.normalized) = some first) :
      declared (declarationsText (first.rules.flatMap (Rule.declarations r.options first.bag))) =
        first.rules.flatMap (Rule.declarations r.options first.bag) := by
    obtain ⟨_, _, _, _, owned, rules, _⟩ := owner_of_first sound found isFirst
    refine declared_declarationsText fun d member => ?_
    rw [rules] at member
    obtain ⟨g, _, _, _, rfl⟩ := exists_fact_of_mem_dependents sound owned member
    exact readable.declare g _
  rw [mem_declaredUnder]
  constructor
  · rintro ⟨key, listed, b, block, member⟩
    obtain ⟨a, asked, isDependency, rfl⟩ := (mem_selection .dependency).mp listed
    cases asked with
    | value _ _ => cases isDependency
    | @dependency property value e set found =>
      obtain ⟨first, isFirst, stored⟩ :=
        block?_dependency sound collisionless inRun accepted set found
      cases stored.symm.trans block
      exact ⟨property, value, e, first, set, found, isFirst, reads found isFirst ▸ member⟩
  · rintro ⟨property, value, e, first, set, found, isFirst, member⟩
    obtain ⟨first', isFirst', stored⟩ :=
      block?_dependency sound collisionless inRun accepted set found
    cases isFirst.symm.trans isFirst'
    refine ⟨_, (mem_selection .dependency).mpr ⟨_, .dependency set found, rfl, rfl⟩, _, stored, ?_⟩
    rw [reads found isFirst]
    exact member

/-- The flag of a fact that reads one property is on when the fact holds. -/
theorem inForce?_independent {f : Fact} (registered : f ∈ r.facts)
    (single : f.dependency?.isNone = true) :
    ((ofRegistry r).serializeAll bags).inForce? (select ((ofRegistry r).requests bag)) f.name =
      some (options.declare f.name (f.condition.satisfied bag.normalized)).value := by
  have proper := sound.proper f registered
  rw [inForce?_serializeAll sound readable]
  refine inForce?_baseOf_append sound registered ?_ ?_
  · intro d member named
    rcases List.mem_append.mp member with inValues | inDependencies
    · obtain ⟨_, _, _, _, found, member⟩ := (mem_declaredUnder_values sound readable collisionless
        inRun accepted).mp inValues
      obtain ⟨g, proper', _, _, rfl⟩ := exists_fact_of_mem_rules sound found member
      rw [Fact.name_injective proper' proper named]
    · -- Blocks of dependent rules hold no flag of a fact like this one.
      obtain ⟨_, _, _, first, _, found, isFirst, member⟩ := (mem_declaredUnder_dependencies sound
        readable collisionless inRun accepted).mp inDependencies
      obtain ⟨_, _, _, _, owned, rules, _⟩ := owner_of_first sound found isFirst
      rw [rules] at member
      obtain ⟨g, proper', _, reads, rfl⟩ := exists_fact_of_mem_dependents sound owned member
      rw [Fact.name_injective proper' proper named, Option.isNone_iff_eq_none.mp single] at reads
      cases reads
  · intro silent
    cases set : bag.normalized.get? f.property with
    | none =>
      refine Fact.satisfied_congr ?_ fun q reads => ?_
      · rw [get_of_get?_eq_none set]
        rfl
      · rw [reads] at single
        cases single
    | some value =>
      obtain ⟨rules, found⟩ := exists_rules registered single
      have rule := (mem_rules found).mpr ⟨f, registered, rfl, single, rfl⟩
      obtain ⟨unset, unsatisfied⟩ := Rule.unsatisfied_of_silent proper rule fun d member =>
        silent d (List.mem_append_left _ ((mem_declaredUnder_values sound readable collisionless
          inRun accepted).mpr ⟨_, _, _, set, found, member⟩))
      rw [unset, unsatisfied]

end Applied

/-! ## Facts of one property -/

/-- The sheet of some sources. -/
def ofSources (name : String) (options : Options) (sources : List String) : Sheet :=
  ofRegistry (Registry.ofSources name options sources)

/-- The flag of a fact that reads one property is on exactly when the fact holds, whatever was
serialized before, and whether or not its property is set. -/
theorem flag_follows_fact (name : String) (sources : List String) (history : List Bag) (bag : Bag)
    (selection : Selection) (fact : Fact)
    (registered : fact ∈ (Registry.ofSources name {} sources).facts)
    (single : fact.dependency? = none)
    (collisionless : Key.Collisionless ((ofSources name {} sources).hashedInputs (history ++ [bag])))
    (answered : (((ofSources name {} sources).serializeAll history).serialize bag).1 =
      .ok selection) :
    (((ofSources name {} sources).serializeAll history).serialize bag).2.inForce? selection
        fact.name =
      some (if fact.condition.satisfied bag.normalized then "initial" else " ") := by
  obtain ⟨accepted, rfl, after⟩ := serialize_serializeAll answered
  rw [after]
  exact inForce?_independent (Registry.sound_ofSources name {} sources) Options.readable_default
    collisionless (List.mem_append_right history (List.mem_singleton_self bag)) accepted registered
    (Option.isNone_iff_eq_none.mpr single)

/-- A threshold, and next to it a fact about two properties. -/
def exThreshold : List String := ["if(n > 3, x, y) if(n == k, x, y)"]

/-- The fact of the threshold. -/
def exAboveThree : Fact := ⟨"n", .compare .gt (.literal ⟨.number, "3"⟩)⟩

/-- A bag above the threshold. -/
def exFive : Bag := .ofList [("n", .number ⟨0x4014000000000000⟩)]

/-- A bag below the threshold. -/
def exOne : Bag := .ofList [("k", .string "s"), ("n", .number ⟨0x3ff0000000000000⟩)]

/-- The flag of the threshold is off below it, after it was on above it. -/
theorem flag_follows_fact_exThreshold :
    ∃ selection,
      (((ofSources "scheme" {} exThreshold).serializeAll [exFive]).serialize exOne).1 =
        .ok selection ∧
      (((ofSources "scheme" {} exThreshold).serializeAll [exFive]).serialize exOne).2.inForce?
        selection "n⋗3" = some " " := by
  have accepted : ((ofSources "scheme" {} exThreshold).serializeAll [exFive]).accepts exOne = true := by
    decide +kernel
  have answered := serialize_eq_ok.mpr ⟨accepted, rfl⟩
  have inForce := flag_follows_fact "scheme" exThreshold [exFive] exOne _ exAboveThree
    (by decide +kernel) rfl (by decide +kernel) answered
  have named : exAboveThree.name = "n⋗3" := by decide +kernel
  have off : exAboveThree.condition.satisfied exOne.normalized = false := by decide +kernel
  rw [named, off] at inForce
  exact ⟨_, answered, inForce⟩

end Sheet

end StyleFlags
