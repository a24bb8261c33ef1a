import StyleFlags.Proofs.Compiled
import StyleFlags.Proofs.Declared
import StyleFlags.Proofs.Runs

/-!
# Blocks of a compiled registry

After any run without collisions, the key of a value finds exactly what the
rules of its property declare on the bag, whatever was asked before. The key of
the values that dependent rules read finds what the first owner declares that
asked with the same input, and this need not be the owner itself.

Results:
1. `block?_value`: the block under the key of a value.
2. `block?_dependency`: the block under a key of dependent rules.
-/

namespace StyleFlags.Sheet

variable {r : Registry} {options : Options} {bags : List Bag} {bag : Bag}

theorem options_ofRegistry (r : Registry) : (ofRegistry r).options = r.options := rfl

theorem fresh_ofRegistry (r : Registry) : (ofRegistry r).Fresh (declarationsText (baseOf r)) := by
  rw [baseOf_eq]
  rfl

/-- The values of a normalized bag are normalized. -/
theorem normalized_of_get? {property : String} {value : Value}
    (set : bag.normalized.get? property = some value) : value.normalized = value := by
  rw [Bag.normalized, Table.get?_map, Option.map_eq_some_iff] at set
  obtain ⟨held, _, rfl⟩ := set
  exact held.normalized_normalized

theorem get_of_get? {property : String} {value : Value} (set : bag.get? property = some value) :
    bag.get property = value := by
  rw [Bag.get, set]
  rfl

theorem get_of_get?_eq_none {property : String} (unset : bag.get? property = none) :
    bag.get property = .undefined := by
  rw [Bag.get, unset]
  rfl

/-- The first to ask with an input of dependent rules owns dependent rules itself. -/
theorem owner_of_first (sound : r.Sound options) {property : String} {d : Dependents}
    (found : (ofRegistry r).dependents.get? property = some d) {first : Ask}
    (isFirst : ((ofRegistry r).runAsks bags).find?
      (·.input == Key.dependencyInput d.properties bag) = some first) :
    ∃ other ∈ bags, ∃ e, first.bag = other.normalized ∧
      (ofRegistry r).dependents.get? first.owner = some e ∧ first.rules = e.rules ∧
      Key.dependencyInput e.properties other.normalized = Key.dependencyInput d.properties bag := by
  have sameInput := List.find?_some isFirst
  rw [beq_iff_eq] at sameInput
  obtain ⟨other, inBags, _, asked⟩ := mem_runAsks.mp (List.mem_of_find?_eq_some isFirst)
  cases asked with
  | value set' found' =>
    have different := Key.valueInput_ne_dependencyInput (isIdentifier_of_rules sound found')
      (normalized_of_get? set') (ne_nil_of_dependents found)
      (isIdentifier_of_dependents sound found) bag
    exact absurd sameInput different
  | @dependency _ _ e _ found' => exact ⟨other, inBags, e, rfl, found', rfl, sameInput⟩

section Stored

variable (sound : r.Sound options)
  (collisionless : Key.Collisionless ((ofRegistry r).hashedInputs bags)) (inRun : bag ∈ bags)
  (accepted : (ofRegistry r).accepts bag = true)

include sound collisionless inRun accepted

/-- The key of a value finds what the rules of its property declare on the bag. -/
theorem block?_value {property : String} {value : Value} {rules : List Rule}
    (set : bag.normalized.get? property = some value)
    (found : (ofRegistry r).rules.get? property = some rules) :
    ((ofRegistry r).serializeAll bags).block?
        (Key.ofInput options.keyPrefix (Key.valueInput property value)) =
      some ⟨Key.ofInput options.keyPrefix (Key.valueInput property value),
        declarationsText (rules.flatMap (Rule.declarations options bag.normalized))⟩ := by
  obtain rfl : r.options = options := sound.written
  have identifier := isIdentifier_of_rules sound found
  obtain ⟨first, _, inAsks, sameInput, block⟩ := block?_of_ask (fresh_ofRegistry r) collisionless
    (mem_runAsks.mpr ⟨bag, inRun, accepted, .value set found⟩)
    (Key.contentInput_ne_valueInput (head?_declarationsText _) identifier value)
  obtain ⟨other, _, _, asked⟩ := mem_runAsks.mp inAsks
  have declarations : first.rules.flatMap (Rule.declarations r.options first.bag) =
      rules.flatMap (Rule.declarations r.options bag.normalized) := by
    cases asked with
    | @value property' value' rules' set' found' =>
      obtain ⟨rfl, sameText⟩ :=
        Key.valueInput_injective (isIdentifier_of_rules sound found') identifier sameInput
      cases found.symm.trans found'
      refine flatMap_rules_congr found ?_
      rw [get_of_get? set', get_of_get? set]
      exact Value.canonical_eq_of_keyText_eq (normalized_of_get? set') (normalized_of_get? set)
        sameText
    | @dependency property' value' d set' found' =>
      have different := Key.valueInput_ne_dependencyInput identifier (normalized_of_get? set)
        (ne_nil_of_dependents found') (isIdentifier_of_dependents sound found') other.normalized
      exact absurd sameInput.symm different
  refine block.trans ?_
  rw [Ask.block_eq, sameInput, options_ofRegistry, declarations]

/-- The key of the values that dependent rules read finds what the owner declares that was the first
to ask with this input. -/
theorem block?_dependency {property : String} {value : Value} {d : Dependents}
    (set : bag.normalized.get? property = some value)
    (found : (ofRegistry r).dependents.get? property = some d) :
    ∃ first, ((ofRegistry r).runAsks bags).find?
        (·.input == Key.dependencyInput d.properties bag.normalized) = some first ∧
      ((ofRegistry r).serializeAll bags).block?
          (Key.ofInput options.keyPrefix (Key.dependencyInput d.properties bag.normalized)) =
        some ⟨Key.ofInput options.keyPrefix (Key.dependencyInput d.properties bag.normalized),
          declarationsText (first.rules.flatMap (Rule.declarations options first.bag))⟩ := by
  obtain rfl : r.options = options := sound.written
  obtain ⟨first, isFirst, _, sameInput, block⟩ := block?_of_ask (fresh_ofRegistry r) collisionless
    (mem_runAsks.mpr ⟨bag, inRun, accepted, .dependency set found⟩)
    (Key.contentInput_ne_dependencyInput (head?_declarationsText _) d.properties bag.normalized)
  refine ⟨first, isFirst, block.trans ?_⟩
  rw [Ask.block_eq, sameInput, options_ofRegistry]

end Stored

end StyleFlags.Sheet
