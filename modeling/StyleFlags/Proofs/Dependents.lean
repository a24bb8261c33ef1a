import StyleFlags.Proofs.Flags

/-!
# Blocks of dependent rules

The key of dependent rules is made from the properties that they read and from
their values, but not from the property that owns the rules. Two owners that
read the same properties share the key, and the first of them to ask decides
what stands under it.

Results:
1. `dependency_block_of_first_owner`: which block the key of an owner finds after any
   run, and when it is the owner's own one.
2. `flag_of_dependent_fact`: which value the flag of a dependent fact has on a fresh
   sheet with one owner.
-/

namespace StyleFlags

/-- Normalizing makes no strings. -/
theorem Value.eq_string_of_normalized {v : Value} {text : String}
    (isString : v.normalized = .string text) : v = .string text := by
  cases v with
  | string s =>
    unfold Value.normalized at isString
    split at isString
    · cases isString
    · next function => cases function
    · exact isString
  | _ => cases isString

/-- No string of the bag holds a NUL. -/
def Bag.isNulFree (bag : Bag) : Bool :=
  bag.entries.all fun e =>
    match e.2 with
    | .string s => !s.toList.contains Key.nul
    | _ => true

theorem Bag.nulFree_get {bag : Bag} (free : bag.isNulFree = true) (property : String) :
    Key.NulFree (bag.normalized.get property) := by
  refine Key.nulFree_of_strings fun text isString => ?_
  cases set : bag.normalized.get? property with
  | none =>
    rw [Sheet.get_of_get?_eq_none set] at isString
    cases isString
  | some value =>
    rw [Sheet.get_of_get? set] at isString
    subst isString
    rw [Bag.normalized, Table.get?_map, Option.map_eq_some_iff] at set
    obtain ⟨held, found, isString⟩ := set
    have same := Value.eq_string_of_normalized isString
    have clean := List.all_eq_true.mp free _ (Table.get?_eq_some_iff.mp found)
    simpa [same] using clean

theorem Bag.normalized_get (bag : Bag) (property : String) :
    (bag.normalized.get property).normalized = bag.normalized.get property := by
  cases set : bag.normalized.get? property with
  | none =>
    rw [Sheet.get_of_get?_eq_none set]
    rfl
  | some value =>
    rw [Sheet.get_of_get? set]
    exact Sheet.normalized_of_get? set

namespace Sheet

variable {r : Registry} {options : Options} {bag other : Bag}

/-- Dependent rules declare the same on bags with the same input for their key. -/
theorem flatMap_dependents_congr {property : String} {e : Dependents}
    (found : (ofRegistry r).dependents.get? property = some e)
    (same : ∀ q ∈ e.properties, (bag.normalized.get q).keyText = (other.normalized.get q).keyText) :
    e.rules.flatMap (Rule.declarations options bag.normalized) =
      e.rules.flatMap (Rule.declarations options other.normalized) :=
  flatMap_dependentRules_congr found fun q member =>
    Value.canonical_eq_of_keyText_eq (bag.normalized_get q) (other.normalized_get q) (same q member)

section Owners

variable (sound : r.Sound options)

include sound

/-- Two owners have the same text only if it is one owner, or the text is empty. -/
theorem declarationsText_dependents_eq_iff {first property : String} {e d : Dependents}
    (hfirst : (ofRegistry r).dependents.get? first = some e)
    (hproperty : (ofRegistry r).dependents.get? property = some d) :
    declarationsText (e.rules.flatMap (Rule.declarations options bag)) =
        declarationsText (d.rules.flatMap (Rule.declarations options bag)) ↔
      first = property ∨ (e.rules.flatMap (Rule.declarations options bag) = [] ∧
        d.rules.flatMap (Rule.declarations options bag) = []) := by
  have spelled {p : String} {d : Dependents} (found : (ofRegistry r).dependents.get? p = some d) :
      ∀ x ∈ d.rules.flatMap (Rule.declarations options bag), Spelled x.name.toList := by
    intro x member
    obtain ⟨g, _, _, _, rfl⟩ := exists_fact_of_mem_dependents sound found member
    exact g.spelled_name
  constructor
  · intro sameText
    have heads := head?_name_of_text_eq (spelled hfirst) (spelled hproperty) sameText
    cases firsts : e.rules.flatMap (Rule.declarations options bag) with
    | nil =>
      cases seconds : d.rules.flatMap (Rule.declarations options bag) with
      | nil => exact .inr ⟨rfl, rfl⟩
      | cons y rest =>
        rw [firsts, seconds] at heads
        cases heads
    | cons x rest =>
      cases seconds : d.rules.flatMap (Rule.declarations options bag) with
      | nil =>
        rw [firsts, seconds] at heads
        cases heads
      | cons y rest' =>
        -- One flag belongs to one fact, and a fact has one owner.
        rw [firsts, seconds] at heads
        obtain ⟨g, proper, rfl, _, rfl⟩ :=
          exists_fact_of_mem_dependents sound hfirst (firsts ▸ List.mem_cons_self)
        obtain ⟨g', proper', rfl, _, rfl⟩ :=
          exists_fact_of_mem_dependents sound hproperty (seconds ▸ List.mem_cons_self)
        have sameName : g.name = g'.name := Option.some.inj heads
        exact .inl (by rw [Fact.name_injective proper proper' sameName])
  · rintro (rfl | ⟨none, none'⟩)
    · rw [Option.some.inj (hfirst.symm.trans hproperty)]
    · rw [none, none']

/-- The dependent rules of the first owner that asked with an input read the same properties, and
declare on its bag what they declare on this one. -/
theorem dependents_of_first {bags : List Bag} {property : String} {d : Dependents} {first : Ask}
    (nulFree : ∀ b ∈ bags, b.isNulFree = true) (inRun : bag ∈ bags)
    (found : (ofRegistry r).dependents.get? property = some d)
    (isFirst : ((ofRegistry r).runAsks bags).find?
      (·.input == Key.dependencyInput d.properties bag.normalized) = some first) :
    ∃ e, (ofRegistry r).dependents.get? first.owner = some e ∧ e.properties = d.properties ∧
      first.rules.flatMap (Rule.declarations options first.bag) =
        e.rules.flatMap (Rule.declarations options bag.normalized) := by
  obtain ⟨other, inBags, e, ofBag, owned, rules, sameInput⟩ := owner_of_first sound found isFirst
  obtain ⟨sameProperties, sameTexts⟩ := Key.dependencyInput_injective
    (fun q member => ⟨isIdentifier_of_dependents sound owned q member,
      Bag.nulFree_get (nulFree other inBags) q⟩)
    (fun q member => ⟨isIdentifier_of_dependents sound found q member,
      Bag.nulFree_get (nulFree bag inRun) q⟩) sameInput
  refine ⟨e, owned, sameProperties, ?_⟩
  rw [ofBag, rules]
  exact flatMap_dependents_congr owned sameTexts

end Owners

/-! ## The owner of a block -/

/-- The key of the values that dependent rules read from a bag. -/
def dependencyKey (s : Sheet) (d : Dependents) (bag : Bag) : String :=
  Key.ofInput s.options.keyPrefix (Key.dependencyInput d.properties bag.normalized)

/-- What dependent rules declare on a bag. -/
def dependencyDeclarations (s : Sheet) (d : Dependents) (bag : Bag) : List Declaration :=
  d.rules.flatMap (Rule.declarations s.options bag.normalized)

/-- The first property in a run that asked for the block of the values that dependent rules read from
a bag. -/
def firstOwner? (s : Sheet) (bags : List Bag) (d : Dependents) (bag : Bag) : Option String :=
  ((s.runAsks bags).find? (·.input == Key.dependencyInput d.properties bag.normalized)).map (·.owner)

/-- The key that an owner is answered with finds what the first owner declares on the bag that asked
with the same properties and values. This is the block of the owner itself exactly if it was the
first, or if neither declares anything. -/
theorem dependency_block_of_first_owner (name : String) (options : Options) (sources : List String)
    (history : List Bag) (bag : Bag) (selection : Selection) (property : String) (own : Dependents)
    (set : (bag.get? property).isSome = true)
    (owns : (ofSources name options sources).dependents.get? property = some own)
    (nulFree : ∀ b ∈ history ++ [bag], b.isNulFree = true)
    (collisionless :
      Key.Collisionless ((ofSources name options sources).hashedInputs (history ++ [bag])))
    (answered : (((ofSources name options sources).serializeAll history).serialize bag).1 =
      .ok selection) :
    (ofSources name options sources).dependencyKey own bag ∈ selection.dependencies ∧
    ∃ first other,
      (ofSources name options sources).firstOwner? (history ++ [bag]) own bag = some first ∧
      (ofSources name options sources).dependents.get? first = some other ∧
      other.properties = own.properties ∧
      (((ofSources name options sources).serializeAll history).serialize bag).2.block?
          ((ofSources name options sources).dependencyKey own bag) =
        some ⟨(ofSources name options sources).dependencyKey own bag,
          declarationsText ((ofSources name options sources).dependencyDeclarations other bag)⟩ ∧
      (declarationsText ((ofSources name options sources).dependencyDeclarations other bag) =
          declarationsText ((ofSources name options sources).dependencyDeclarations own bag) ↔
        first = property ∨
          ((ofSources name options sources).dependencyDeclarations other bag = [] ∧
            (ofSources name options sources).dependencyDeclarations own bag = [])) := by
  obtain ⟨accepted, rfl, after⟩ := serialize_serializeAll answered
  have sound := Registry.sound_ofSources name options sources
  have inRun : bag ∈ history ++ [bag] := List.mem_append_right history (List.mem_singleton_self bag)
  obtain ⟨value, held⟩ := Option.isSome_iff_exists.mp set
  have set : bag.normalized.get? property = some value.normalized := by
    rw [Bag.normalized, Table.get?_map, held, Option.map_some]
  have written : (ofSources name options sources).options = options := sound.written
  refine ⟨(mem_selection .dependency).mpr ⟨_, .dependency set owns, rfl, rfl⟩, ?_⟩
  obtain ⟨first, isFirst, stored⟩ :=
    block?_dependency sound collisionless inRun accepted set owns
  obtain ⟨other, owned, sameProperties, sameDeclarations⟩ :=
    dependents_of_first sound nulFree inRun owns isFirst
  refine ⟨first.owner, other, ?_, owned, sameProperties, ?_, ?_⟩
  · rw [firstOwner?, ofSources, isFirst, Option.map_some]
  · rw [after, dependencyKey, dependencyDeclarations, written, ← sameDeclarations]
    exact stored
  · rw [dependencyDeclarations, dependencyDeclarations, written]
    exact declarationsText_dependents_eq_iff sound owned owns

/-- Two facts that mirror each other. -/
def exMirrored : List String := ["if(a == b, x, y) if(b == a, x, y)"]

/-- A bag with different values of both properties. -/
def exOneTwo : Bag :=
  .ofList [("a", .number ⟨0x3ff0000000000000⟩), ("b", .number ⟨0x4000000000000000⟩)]

/-- Of two facts that mirror each other, the block of the second property declares the flags of the
first one. -/
theorem dependency_block_of_first_owner_exMirrored :
    ∃ selection own block,
      ((ofSources "scheme" {} exMirrored).serialize exOneTwo).1 = .ok selection ∧
      (ofSources "scheme" {} exMirrored).dependents.get? "b" = some own ∧
      (ofSources "scheme" {} exMirrored).dependencyKey own exOneTwo ∈ selection.dependencies ∧
      ((ofSources "scheme" {} exMirrored).serialize exOneTwo).2.block?
        ((ofSources "scheme" {} exMirrored).dependencyKey own exOneTwo) = some block ∧
      block.declarations = "--a≡b: ;\n--a≠b:initial;" ∧
      block.declarations ≠ declarationsText
        ((ofSources "scheme" {} exMirrored).dependencyDeclarations own exOneTwo) := by
  have accepted : ((ofSources "scheme" {} exMirrored).serializeAll []).accepts exOneTwo = true := by
    decide +kernel
  have answered := serialize_eq_ok.mpr ⟨accepted, rfl⟩
  obtain ⟨own, owns⟩ : ∃ own, (ofSources "scheme" {} exMirrored).dependents.get? "b" = some own :=
    Option.isSome_iff_exists.mp (by decide +kernel)
  obtain ⟨listed, first, other, isFirst, owned, _, block, same⟩ :=
    dependency_block_of_first_owner "scheme" {} exMirrored [] exOneTwo _ "b" own
      (by decide +kernel) owns (by decide +kernel) (by decide +kernel) answered
  have byA : ((ofSources "scheme" {} exMirrored).dependents.get? "b").map
      ((ofSources "scheme" {} exMirrored).firstOwner? [exOneTwo] · exOneTwo) = some (some "a") := by
    decide +kernel
  have ofA : ((ofSources "scheme" {} exMirrored).dependents.get? "a").map (fun other =>
      declarationsText ((ofSources "scheme" {} exMirrored).dependencyDeclarations other exOneTwo)) =
        some "--a≡b: ;\n--a≠b:initial;" := by
    decide +kernel
  rw [owns, Option.map_some, Option.some_inj] at byA
  obtain rfl : first = "a" := Option.some.inj (isFirst.symm.trans byA)
  rw [owned, Option.map_some, Option.some_inj] at ofA
  refine ⟨_, own, _, answered, owns, listed, block, ofA, fun sameText => ?_⟩
  rcases same.mp sameText with isOwner | ⟨empty, _⟩
  · exact absurd isOwner (by decide)
  · rw [empty] at ofA
    exact absurd ofA (by decide)

end Sheet

/-! ## Flags of dependent facts -/

/-- Undefined compares with every value as with itself, but equality tells it apart from all values
except null. -/
theorem Value.undefined_holds (op : Comparison) (v : Value) :
    Value.undefined.holds op .undefined =
      (Value.undefined.holds op v ^^ (op.isEquality && decide (v ≠ .undefined ∧ v ≠ .null))) := by
  have equal : Value.undefined.looseEq v = !decide (v ≠ .undefined ∧ v ≠ .null) := by
    cases v <;> simp [looseEq, same]
  cases op with
  | eq =>
    rw [holds, holds, equal]
    cases decide (v ≠ .undefined ∧ v ≠ .null) <;> rfl
  | ne =>
    rw [holds, holds, equal]
    cases decide (v ≠ .undefined ∧ v ≠ .null) <;> rfl
  | _ => rfl

namespace Fact

/-- Whether the default of the flag of a dependent fact is wrong for a bag that does not set the
property of the fact: an equality with a property that holds something. -/
def isStale (f : Fact) (bag : Bag) : Bool :=
  match f.test with
  | .compare op (.property name false) =>
    op.isEquality && (bag.get? f.property).isNone &&
      decide (bag.get name ≠ .undefined ∧ bag.get name ≠ .null)
  | _ => false

theorem isStale_eq_false {f : Fact} {bag : Bag} (set : (bag.get? f.property).isSome = true) :
    f.isStale bag = false := by
  unfold isStale
  split
  · rw [Option.isNone_eq_false_iff.mpr set, Bool.and_false, Bool.false_and]
  · rfl

/-- While its property is unset, a dependent fact differs from its default where that is stale. -/
theorem satisfied_empty_eq {f : Fact} (reads : f.dependency?.isSome = true) {bag : Bag}
    (unset : bag.get? f.property = none) :
    f.condition.satisfied Table.empty = (f.condition.satisfied bag ^^ f.isStale bag) := by
  obtain ⟨property, test⟩ := f
  cases test with
  | truthy negated => cases reads
  | compare op operand =>
    cases operand with
    | literal l => cases reads
    | property name negated =>
      have undefined : bag.get property = .undefined := Sheet.get_of_get?_eq_none unset
      rw [satisfied_compare, satisfied_compare, undefined]
      cases negated with
      | true =>
        -- A negated operand is a boolean on every bag, and undefined compares with none of them.
        cases op <;> rfl
      | false =>
        simp only [isStale, unset, Option.isNone_none, Bool.and_true]
        exact Value.undefined_holds op (bag.get name)

end Fact

namespace Sheet

section OneOwner

variable {r : Registry} {options : Options} {bag : Bag} {f : Fact} (sound : r.Sound options)
  (oneOwner : ∀ g ∈ r.facts, g.dependency?.isSome = true → g.property = f.property)

include oneOwner

theorem owner_eq {property : String} {d : Dependents}
    (found : (ofRegistry r).dependents.get? property = some d) : property = f.property := by
  obtain ⟨_, _, _, _, nonempty⟩ := get?_dependents_eq_some found
  obtain ⟨rule, member⟩ := List.exists_mem_of_ne_nil _ nonempty
  obtain ⟨g, registered, rfl, reads, _⟩ := (mem_dependents found).mp member
  exact oneOwner g registered reads

include sound

/-- With one owner, its key finds on a fresh sheet what its own rules declare. -/
theorem mem_declaredUnder_owner (readable : options.Readable)
    (collisionless : Key.Collisionless ((ofRegistry r).hashedInputs [bag]))
    (accepted : (ofRegistry r).accepts bag = true) {d : Declaration} :
    d ∈ ((ofRegistry r).serializeAll [bag]).declaredUnder
        (select ((ofRegistry r).requests bag)).dependencies ↔
      ∃ e, (bag.normalized.get? f.property).isSome = true ∧
        (ofRegistry r).dependents.get? f.property = some e ∧
        d ∈ e.rules.flatMap (Rule.declarations options bag.normalized) := by
  have inRun : bag ∈ [bag] := List.mem_singleton_self bag
  have ownRules {e : Dependents} {first : Ask}
      (found : (ofRegistry r).dependents.get? f.property = some e)
      (isFirst : ((ofRegistry r).runAsks [bag]).find?
        (·.input == Key.dependencyInput e.properties bag.normalized) = some first) :
      first.rules = e.rules ∧ first.bag = bag.normalized := by
    obtain ⟨other, inBags, e', ofBag, owned, rules, _⟩ := owner_of_first sound found isFirst
    obtain rfl := List.mem_singleton.mp inBags
    rw [owner_eq oneOwner owned] at owned
    cases found.symm.trans owned
    exact ⟨rules, ofBag⟩
  rw [mem_declaredUnder_dependencies sound readable collisionless inRun accepted]
  constructor
  · rintro ⟨property, value, e, first, set, found, isFirst, member⟩
    obtain rfl := owner_eq oneOwner found
    obtain ⟨rules, ofBag⟩ := ownRules found isFirst
    rw [rules, ofBag] at member
    exact ⟨e, by rw [set, Option.isSome_some], found, member⟩
  · rintro ⟨e, set, found, member⟩
    obtain ⟨value, set⟩ := Option.isSome_iff_exists.mp set
    obtain ⟨first, isFirst, _⟩ := block?_dependency sound collisionless inRun accepted set found
    obtain ⟨rules, ofBag⟩ := ownRules found isFirst
    exact ⟨_, value, e, first, set, found, isFirst, by rwa [rules, ofBag]⟩

/-- With one owner, the flag of a dependent fact is right on a fresh sheet, unless the owner is unset
and the default stale. -/
theorem inForce?_dependent (readable : options.Readable)
    (collisionless : Key.Collisionless ((ofRegistry r).hashedInputs [bag]))
    (accepted : (ofRegistry r).accepts bag = true) (registered : f ∈ r.facts)
    (reads : f.dependency?.isSome = true) :
    ((ofRegistry r).serializeAll [bag]).inForce? (select ((ofRegistry r).requests bag)) f.name =
      some (options.declare f.name
        (f.condition.satisfied bag.normalized ^^ f.isStale bag.normalized)).value := by
  have proper := sound.proper f registered
  have byOwner (d : Declaration) := mem_declaredUnder_owner sound oneOwner readable
    collisionless accepted (d := d)
  rw [inForce?_serializeAll sound readable]
  refine inForce?_baseOf_append sound registered ?_ ?_
  · intro d member named
    rcases List.mem_append.mp member with inValues | inDependencies
    · -- Blocks of values hold no flag of a dependent fact.
      obtain ⟨_, _, _, _, found, member⟩ := (mem_declaredUnder_values sound readable collisionless
        (List.mem_singleton_self bag) accepted).mp inValues
      obtain ⟨g, proper', _, single, rfl⟩ := exists_fact_of_mem_rules sound found member
      rw [Fact.name_injective proper' proper named] at single
      cases Option.isNone_iff_eq_none.mp single ▸ reads
    · obtain ⟨e, set, found, member⟩ := (byOwner d).mp inDependencies
      obtain ⟨g, proper', _, _, rfl⟩ := exists_fact_of_mem_dependents sound found member
      rw [Fact.name_injective proper' proper named, Fact.isStale_eq_false set, Bool.xor_false]
  · intro silent
    cases set : bag.normalized.get? f.property with
    | none => exact Fact.satisfied_empty_eq reads set
    | some value =>
      have set : (bag.normalized.get? f.property).isSome = true := by rw [set, Option.isSome_some]
      obtain ⟨e, found⟩ := exists_dependents registered reads
      have rule := (mem_dependents found).mpr ⟨f, registered, rfl, reads, rfl⟩
      obtain ⟨unset, unsatisfied⟩ := Rule.unsatisfied_of_silent proper rule fun d member =>
        silent d (List.mem_append_right _ ((byOwner d).mpr ⟨e, set, found, member⟩))
      rw [unset, unsatisfied, Fact.isStale_eq_false set, Bool.xor_false]

end OneOwner

/-- On a fresh sheet whose dependent facts have one owner, the flag of such a fact is on exactly when
the fact holds, unless the bag does not set the owner and the default is stale. Then it is the
opposite. -/
theorem flag_of_dependent_fact (name : String) (options : Options) (sources : List String)
    (bag : Bag) (selection : Selection) (fact : Fact) (owner : String)
    (readable : options.Readable)
    (registered : fact ∈ (Registry.ofSources name options sources).facts)
    (reads : fact.dependency? ≠ none)
    (oneOwner : ∀ g ∈ (Registry.ofSources name options sources).facts,
      g.dependency? ≠ none → g.property = owner)
    (collisionless : Key.Collisionless ((ofSources name options sources).hashedInputs [bag]))
    (answered : ((ofSources name options sources).serialize bag).1 = .ok selection) :
    ((ofSources name options sources).serialize bag).2.inForce? selection fact.name =
      some (if fact.condition.satisfied bag.normalized ^^ fact.isStale bag.normalized
        then options.on else options.off) := by
  -- A fresh sheet is the sheet after no bags.
  have answered : (((ofSources name options sources).serializeAll []).serialize bag).1 =
      .ok selection := answered
  obtain ⟨accepted, rfl, after⟩ := serialize_serializeAll answered
  show (((ofSources name options sources).serializeAll []).serialize bag).2.inForce? _ _ = _
  rw [after]
  refine inForce?_dependent (Registry.sound_ofSources name options sources) ?_ readable collisionless
    accepted registered (Option.isSome_iff_ne_none.mpr reads)
  intro g registered' reads'
  rw [oneOwner g registered' (Option.isSome_iff_ne_none.mp reads'), oneOwner fact registered reads]

/-- An equality of two properties. -/
def exEquality : List String := ["if(a == b, x, y)"]

/-- The fact of the equality. -/
def exEqual : Fact := ⟨"a", .compare .eq (.property "b" false)⟩

/-- A bag that sets the property that is compared with, and not the owner. -/
def exOtherOne : Bag := .ofList [("b", .number ⟨0x3ff0000000000000⟩)]

/-- The flag of the equality is on for an owner that is unset, though the other property is one. -/
theorem flag_of_dependent_fact_exEquality :
    ∃ selection,
      ((ofSources "scheme" {} exEquality).serialize exOtherOne).1 = .ok selection ∧
      exEqual.condition.satisfied exOtherOne.normalized = false ∧
      ((ofSources "scheme" {} exEquality).serialize exOtherOne).2.inForce? selection "a≡b" =
        some "initial" := by
  have accepted : (ofSources "scheme" {} exEquality).accepts exOtherOne = true := by
    decide +kernel
  have answered := serialize_eq_ok.mpr ⟨accepted, rfl⟩
  have inForce := flag_of_dependent_fact "scheme" {} exEquality exOtherOne _ exEqual "a"
    Options.readable_default (by decide +kernel) (by decide) (by decide +kernel) (by decide +kernel)
    answered
  have named : exEqual.name = "a≡b" := by decide +kernel
  have unsatisfied : exEqual.condition.satisfied exOtherOne.normalized = false := by decide +kernel
  have stale : exEqual.isStale exOtherOne.normalized = true := by decide +kernel
  rw [named, unsatisfied, stale] at inForce
  exact ⟨_, answered, unsatisfied, inForce⟩

end Sheet

end StyleFlags
