import StyleFlags.Proofs.Compiled
import StyleFlags.Proofs.Runs
import StyleFlags.Snapshot.Valid

/-!
# Well-formed sheets

Every sheet keeps its blocks under distinct keys that begin alike, the base
block first, and files its rules under properties that are registered. A
snapshot is checked for the same, so the check says nothing more than that the
sheet is well formed and the counts are right.

Results:
1. `validate_eq_ok`: exactly the consistent snapshots pass the check.
2. `WellFormed.consistent`, `Consistent.wellFormed`: the snapshot of a well-formed
   sheet is consistent, and the sheet of a consistent snapshot is well formed.
3. `wellFormed_ofRegistry`: the sheet of a registry is well formed, if the registry
   knows all properties that its facts read, and `Registry.closed_ofNeeds`: it does,
   whatever was added to it.
4. `WellFormed.serialize`, `WellFormed.flush`: serializing and flushing keep a sheet well
   formed.
-/

namespace StyleFlags

/-! ## Blocks and rules in order -/

/-- Blocks under distinct keys that begin alike, the base block first. -/
structure Keyed (keyPrefix baseKey : String) (blocks : List Block) : Prop where
  base : blocks.head?.map Block.key = some baseKey
  begins : ∀ b ∈ blocks, keyPrefix.toList <+: b.key.toList
  distinct : (blocks.map Block.key).Nodup

/-- The rules of a known property: all its own, and reading known properties only. -/
structure Filed (known : List String) (property : String) (rules : List Rule) : Prop where
  owner : property ∈ known
  own : ∀ rule ∈ rules, rule.property = property
  reads : ∀ rule ∈ rules, ∀ other, rule.dependency? = some other → other ∈ known

/-- Dependent rules that are filed, with known properties in increasing order. -/
structure Dependents.Filed (known : List String) (property : String) (d : Dependents) : Prop where
  rules : StyleFlags.Filed known property d.rules
  sorted : d.properties.Pairwise (· < ·)
  known : ∀ name ∈ d.properties, name ∈ known

/-! ## Consistent snapshots -/

namespace Snapshot

/-- A snapshot with the right counts, distinct properties, and blocks and rules in order. -/
structure Consistent (s : Snapshot) : Prop where
  propertyCount : s.propertyCount = s.properties.length
  distinct : s.properties.Nodup
  ruleCount : s.ruleCount = s.rules.values.foldl (fun n rules => n + rules.length) 0
  blockCount : s.blockCount = s.blocks.length
  keyed : Keyed s.options.keyPrefix s.baseKey s.blocks
  rules : ∀ e ∈ s.rules.entries, Filed s.properties e.1 e.2
  dependents : ∀ e ∈ s.dependents.entries, e.2.Filed s.properties e.1

theorem require_eq_ok {holds : Bool} {violation : Violation} :
    require holds violation = .ok () ↔ holds = true := by
  cases holds <;> simp [require]

theorem both_eq_ok {first second : Except Violation Unit} :
    (first >>= fun _ => second) = .ok () ↔ first = .ok () ∧ second = .ok () := by
  cases first with
  | error violation => simp [bind, Except.bind]
  | ok _ => simp [bind, Except.bind]

theorem requireAll_eq_ok {α : Type} {check : α → Except Violation Unit} {l : List α} :
    requireAll check l = .ok () ↔ ∀ a ∈ l, check a = .ok () := by
  induction l with
  | nil => simp [requireAll]
  | cons a rest ih => rw [requireAll, both_eq_ok, ih, List.forall_mem_cons]

theorem checkBase_eq_ok {baseKey : String} {blocks : List Block} :
    checkBase baseKey blocks = .ok () ↔ blocks.head?.map Block.key = some baseKey := by
  cases blocks with
  | nil => simp [checkBase]
  | cons first rest => simp [checkBase, require_eq_ok]

theorem checkKeys_eq_ok {keyPrefix : String} {seen : List String} {blocks : List Block} :
    checkKeys keyPrefix seen blocks = .ok () ↔
      (∀ b ∈ blocks, keyPrefix.toList <+: b.key.toList) ∧ (∀ b ∈ blocks, b.key ∉ seen) ∧
        (blocks.map Block.key).Nodup := by
  induction blocks generalizing seen with
  | nil => simp [checkKeys]
  | cons block rest ih =>
    -- Later blocks are looked for among the seen keys and this one.
    have apart : (∀ b ∈ rest, b.key ∉ block.key :: seen) ↔
        block.key ∉ rest.map Block.key ∧ ∀ b ∈ rest, b.key ∉ seen := by
      simp only [List.mem_cons, not_or, List.mem_map, not_exists, not_and, forall_and]
    simp only [checkKeys, both_eq_ok, require_eq_ok, ih, apart, List.forall_mem_cons, List.map_cons,
      List.nodup_cons, List.isPrefixOf_iff_prefix, Bool.not_eq_true', List.contains_eq_mem,
      decide_eq_false_iff_not]
    constructor
    · rintro ⟨first, new, begins, ⟨once, unseen⟩, distinct⟩
      exact ⟨⟨first, begins⟩, ⟨new, unseen⟩, once, distinct⟩
    · rintro ⟨⟨first, begins⟩, ⟨new, unseen⟩, once, distinct⟩
      exact ⟨first, new, begins, ⟨once, unseen⟩, distinct⟩

theorem checkRule_eq_ok {known : List String} {property : String} {rule : Rule} :
    checkRule known property rule = .ok () ↔
      rule.property = property ∧ ∀ other, rule.dependency? = some other → other ∈ known := by
  rw [checkRule, both_eq_ok, require_eq_ok, beq_iff_eq]
  cases rule.dependency? with
  | none => simp [pure, Except.pure]
  | some other => simp [require_eq_ok]

theorem checkRules_eq_ok {known : List String} {property : String} {rules : List Rule} :
    checkRules known property rules = .ok () ↔ Filed known property rules := by
  simp only [checkRules, both_eq_ok, require_eq_ok, List.contains_iff_mem, requireAll_eq_ok,
    checkRule_eq_ok]
  constructor
  · rintro ⟨owner, each⟩
    exact ⟨owner, fun rule member => (each rule member).1, fun rule member => (each rule member).2⟩
  · rintro ⟨owner, own, reads⟩
    exact ⟨owner, fun rule member => ⟨own rule member, reads rule member⟩⟩

theorem checkDependents_eq_ok {known : List String} {property : String} {d : Dependents} :
    checkDependents known property d = .ok () ↔ d.Filed known property := by
  rw [checkDependents, both_eq_ok, both_eq_ok, checkRules_eq_ok, require_eq_ok, decide_eq_true_iff,
    requireAll_eq_ok]
  simp only [require_eq_ok, List.contains_iff_mem]
  exact ⟨fun ⟨rules, sorted, known⟩ => ⟨rules, sorted, known⟩,
    fun ⟨rules, sorted, known⟩ => ⟨rules, sorted, known⟩⟩

/-- Exactly the consistent snapshots pass the check. -/
theorem validate_eq_ok {s : Snapshot} : s.validate = .ok () ↔ s.Consistent := by
  simp only [validate, both_eq_ok, require_eq_ok, requireAll_eq_ok, checkBase_eq_ok, checkKeys_eq_ok,
    checkRules_eq_ok, checkDependents_eq_ok, beq_iff_eq, decide_eq_true_iff]
  constructor
  · rintro ⟨properties, distinct, rules, blocks, base, ⟨begins, _, apart⟩, filed, dependents⟩
    exact ⟨properties, distinct, rules, blocks, ⟨base, begins, apart⟩, filed, dependents⟩
  · rintro ⟨properties, distinct, rules, blocks, ⟨base, begins, apart⟩, filed, dependents⟩
    exact ⟨properties, distinct, rules, blocks, base, ⟨begins, by simp, apart⟩, filed, dependents⟩

end Snapshot

/-! ## Well-formed sheets -/

/-- A sheet with its blocks and rules in order. -/
structure Sheet.WellFormed (s : Sheet) : Prop where
  keyed : Keyed s.options.keyPrefix s.baseKey s.blocks
  rules : ∀ e ∈ s.rules.entries, Filed s.properties.toList e.1 e.2
  dependents : ∀ e ∈ s.dependents.entries, e.2.Filed s.properties.toList e.1
  flushed : s.flushed ≤ s.blocks.length

theorem Filed.mono {known more : List String} {property : String} {rules : List Rule}
    (filed : Filed known property rules) (subset : ∀ name ∈ known, name ∈ more) :
    Filed more property rules where
  owner := subset property filed.owner
  own := filed.own
  reads rule member other read := subset other (filed.reads rule member other read)

theorem Sheet.WellFormed.consistent {s : Sheet} (wellFormed : s.WellFormed) :
    (Snapshot.ofSheet s).Consistent where
  propertyCount := rfl
  distinct := s.properties.nodup_toList
  ruleCount := rfl
  blockCount := rfl
  keyed := wellFormed.keyed
  rules := wellFormed.rules
  dependents := wellFormed.dependents

theorem Snapshot.Consistent.wellFormed {s : Snapshot} (consistent : s.Consistent) :
    s.toSheet.WellFormed where
  keyed := consistent.keyed
  rules e member :=
    (consistent.rules e member).mono fun _ known => SortedSet.mem_ofList.mpr known
  dependents e member :=
    have filed := consistent.dependents e member
    ⟨filed.rules.mono fun _ known => SortedSet.mem_ofList.mpr known, filed.sorted,
      fun name listed => SortedSet.mem_ofList.mpr (filed.known name listed)⟩
  flushed := Nat.le_refl _

/-! ## Sheets of registries -/

namespace Registry

/-- Whether all properties that facts read are registered. -/
def Closed (r : Registry) : Prop :=
  ∀ f ∈ r.facts, f.property ∈ r.properties.toList ∧
    ∀ other, f.dependency? = some other → other ∈ r.properties.toList

theorem mem_properties_addFact {r : Registry} {f : Fact} {name : String} :
    name ∈ (r.addFact f).properties.toList ↔
      name = f.property ∨ f.dependency? = some name ∨ name ∈ r.properties.toList := by
  unfold addFact
  cases f.dependency? with
  | none => simp
  | some other => simp [eq_comm]

theorem Closed.addNeed {r : Registry} (closed : r.Closed) (need : Need) : (r.addNeed need).Closed := by
  cases need with
  | prepared name value => exact closed
  | fact f =>
    intro g member
    simp only [Registry.addNeed, mem_properties_addFact]
    rcases mem_facts_addFact.mp member with rfl | member
    · exact ⟨.inl rfl, fun other read => .inr (.inl read)⟩
    · obtain ⟨own, reads⟩ := closed g member
      exact ⟨.inr (.inr own), fun other read => .inr (.inr (reads other read))⟩

/-- The registry of some facts and prepared values. -/
def ofNeeds (name : String) (options : Options) (needs : List Need) : Registry :=
  needs.foldl addNeed ⟨name, options, .empty, .empty, .empty⟩

theorem closed_ofNeeds (name : String) (options : Options) (needs : List Need) :
    (ofNeeds name options needs).Closed :=
  List.foldlRecOn _ _ (fun _ member => by cases member) fun _ closed need _ => closed.addNeed need

end Registry

namespace Sheet

variable {r : Registry} {property : String}

/-- Rules that are those of some facts of a property are filed with it, if there are any. -/
theorem filed_of_facts (closed : r.Closed) {rules : List Rule} (nonempty : rules ≠ [])
    (facts : ∀ rule ∈ rules, ∃ f ∈ r.facts, f.property = property ∧ rule = Rule.ofFact f) :
    Filed r.properties.toList property rules where
  owner := by
    obtain ⟨rule, member⟩ := List.exists_mem_of_ne_nil rules nonempty
    obtain ⟨f, registered, rfl, _⟩ := facts rule member
    exact (closed f registered).1
  own rule member := by
    obtain ⟨f, _, rfl, rfl⟩ := facts rule member
    exact Rule.property_ofFact f
  reads rule member other read := by
    obtain ⟨f, registered, _, rfl⟩ := facts rule member
    rw [Rule.dependency?_ofFact] at read
    exact (closed f registered).2 other read

theorem filed_rules (closed : r.Closed) {rules : List Rule}
    (found : (ofRegistry r).rules.get? property = some rules) :
    Filed r.properties.toList property rules := by
  obtain ⟨_, _, _, nonempty⟩ := get?_rules_eq_some found
  refine filed_of_facts closed nonempty fun rule member => ?_
  obtain ⟨f, registered, own, _, isRule⟩ := (mem_rules found).mp member
  exact ⟨f, registered, own, isRule⟩

theorem filed_dependents (closed : r.Closed) {d : Dependents}
    (found : (ofRegistry r).dependents.get? property = some d) :
    d.Filed r.properties.toList property := by
  obtain ⟨_, _, _, _, nonempty⟩ := get?_dependents_eq_some found
  have filed : Filed r.properties.toList property d.rules := by
    refine filed_of_facts closed nonempty fun rule member => ?_
    obtain ⟨f, registered, own, _, isRule⟩ := (mem_dependents found).mp member
    exact ⟨f, registered, own, isRule⟩
  refine ⟨filed, properties_increasing found, fun name listed => ?_⟩
  rcases (mem_properties found).mp listed with rfl | ⟨rule, member, read⟩
  · exact filed.owner
  · exact filed.reads rule member name read

theorem begins_ofInput (keyPrefix : String) (input : List UInt8) :
    keyPrefix.toList <+: (Key.ofInput keyPrefix input).toList := by
  rw [Key.ofInput, String.toList_append]
  exact List.prefix_append _ _

theorem wellFormed_ofRegistry (closed : r.Closed) : (ofRegistry r).WellFormed where
  keyed := by
    refine ⟨rfl, fun b member => ?_, List.pairwise_singleton _ _⟩
    rw [List.mem_singleton.mp member]
    exact begins_ofInput _ _
  rules e member := filed_rules closed (Table.get?_eq_some_iff.mpr member)
  dependents e member := filed_dependents closed (Table.get?_eq_some_iff.mpr member)
  flushed := Nat.zero_le _

end Sheet

/-! ## Steps -/

theorem Sheet.distinct_store {blocks : List Block} {block : Block}
    (distinct : (blocks.map Block.key).Nodup) : ((store blocks block).map Block.key).Nodup := by
  unfold store
  split
  · exact distinct
  · next new =>
    have unknown : block.key ∉ blocks.map Block.key := by simpa using new
    rw [List.map_append, List.nodup_append]
    refine ⟨distinct, by simp, ?_⟩
    rintro key known other isNew rfl
    rw [List.map_singleton, List.mem_singleton] at isNew
    exact unknown (isNew ▸ known)

theorem Keyed.store {keyPrefix baseKey : String} {blocks : List Block} {block : Block}
    (keyed : Keyed keyPrefix baseKey blocks) (begins : keyPrefix.toList <+: block.key.toList) :
    Keyed keyPrefix baseKey (Sheet.store blocks block) := by
  refine ⟨?_, ?_, Sheet.distinct_store keyed.distinct⟩
  · unfold Sheet.store
    split
    · exact keyed.base
    · rw [List.head?_append, Option.map_or, keyed.base]
      rfl
  · unfold Sheet.store
    split
    · exact keyed.begins
    · rw [List.forall_mem_append, List.forall_mem_singleton]
      exact ⟨keyed.begins, begins⟩

theorem Sheet.length_le_store (blocks : List Block) (block : Block) :
    blocks.length ≤ (store blocks block).length := by
  unfold store
  split <;> simp

namespace Sheet

variable {s : Sheet}

theorem WellFormed.serialize (wellFormed : s.WellFormed) (bag : Bag) :
    (s.serialize bag).2.WellFormed := by
  rw [serialize_eq]
  refine ⟨?_, wellFormed.rules, wellFormed.dependents, ?_⟩
  · refine List.foldlRecOn _ _ wellFormed.keyed fun _ keyed block asked => keyed.store ?_
    obtain ⟨ask, _, rfl⟩ := List.mem_map.mp asked
    exact begins_ofInput _ _
  · refine Nat.le_trans wellFormed.flushed ?_
    exact List.foldlRecOn (motive := fun blocks => s.blocks.length ≤ blocks.length) _ _
      (Nat.le_refl _) fun blocks sofar block _ => Nat.le_trans sofar (length_le_store blocks block)

theorem WellFormed.flush (wellFormed : s.WellFormed) : s.flush.2.WellFormed where
  keyed := wellFormed.keyed
  rules := wellFormed.rules
  dependents := wellFormed.dependents
  flushed := Nat.le_refl _

end Sheet

end StyleFlags
