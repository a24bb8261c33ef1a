import StyleFlags.Proofs.Keys
import StyleFlags.Sheet

/-!
# Runs of a sheet

A sheet keeps the first block of every key. So what it finds under a key after
any run is the first block with that key that the run asked for. Without
collisions, this is the first block asked for with the same input of the digest.

Results:
1. `serializeAll_eq`: a run changes nothing but the blocks, and stores those that
   the accepted bags ask for.
2. `block?_serializeAll`: a key finds the first block that was asked for under it.
3. `block?_of_ask`: without collisions, the first one asked for with its input.
4. `mem_selection`: the keys that a bag is answered with are those it asks for.
-/

namespace StyleFlags.Sheet

/-! ## Asks -/

/-- A block that a bag asks for: who owns its rules, and what its key is made from. -/
structure Ask where
  kind : RequestKind
  owner : String
  input : List UInt8
  rules : List Rule
  bag : Bag

/-- What one property of a bag asks for. -/
def propertyAsks (s : Sheet) (bag : Bag) (property : String) (value : Value) : List Ask :=
  ((s.rules.get? property).toList.map fun rules =>
      ⟨.value, property, Key.valueInput property value, rules, bag⟩) ++
    ((s.dependents.get? property).toList.map fun d =>
      ⟨.dependency, property, Key.dependencyInput d.properties bag, d.rules, bag⟩)

/-- What a bag asks for. -/
def asks (s : Sheet) (bag : Bag) : List Ask :=
  bag.normalized.entries.flatMap fun (property, value) =>
    s.propertyAsks bag.normalized property value

/-- The request that an ask becomes. -/
def Ask.request (s : Sheet) (a : Ask) : Request := s.request a.kind a.input a.rules a.bag

/-- The block that is asked for. -/
def Ask.block (s : Sheet) (a : Ask) : Block := (a.request s).block

theorem Ask.block_eq (s : Sheet) (a : Ask) :
    a.block s = ⟨Key.ofInput s.options.keyPrefix a.input,
      declarationsText (a.rules.flatMap (Rule.declarations s.options a.bag))⟩ := rfl

/-- Whether a bag is not refused. -/
def accepts (s : Sheet) (bag : Bag) : Bool := (s.unregistered? bag).isNone

/-- What the bags of a run ask for, one after the other. -/
def runAsks (s : Sheet) (bags : List Bag) : List Ask := (bags.filter s.accepts).flatMap s.asks

/-- The sheet after some bags. -/
def serializeAll (s : Sheet) (bags : List Bag) : Sheet :=
  bags.foldl (fun s bag => (s.serialize bag).2) s

/-- What a bag asks for, by kind: a property that is set asks for the block of its value, and for the
block of its dependent rules. -/
inductive Asked (s : Sheet) (bag : Bag) : Ask → Prop
  | value {property : String} {value : Value} {rules : List Rule} :
      bag.normalized.get? property = some value → s.rules.get? property = some rules →
      Asked s bag ⟨.value, property, Key.valueInput property value, rules, bag.normalized⟩
  | dependency {property : String} {value : Value} {d : Dependents} :
      bag.normalized.get? property = some value → s.dependents.get? property = some d →
      Asked s bag ⟨.dependency, property, Key.dependencyInput d.properties bag.normalized, d.rules,
        bag.normalized⟩

theorem mem_asks {s : Sheet} {bag : Bag} {a : Ask} : a ∈ s.asks bag ↔ s.Asked bag a := by
  simp only [asks, propertyAsks, List.mem_flatMap, List.mem_append, List.mem_map, Option.mem_toList]
  constructor
  · rintro ⟨⟨property, value⟩, listed, ⟨rules, found, rfl⟩ | ⟨d, found, rfl⟩⟩
    · exact .value (Table.get?_eq_some_iff.mpr listed) found
    · exact .dependency (Table.get?_eq_some_iff.mpr listed) found
  · rintro (⟨set, found⟩ | ⟨set, found⟩)
    · exact ⟨(_, _), Table.get?_eq_some_iff.mp set, .inl ⟨_, found, rfl⟩⟩
    · exact ⟨(_, _), Table.get?_eq_some_iff.mp set, .inr ⟨_, found, rfl⟩⟩

theorem mem_runAsks {s : Sheet} {bags : List Bag} {a : Ask} :
    a ∈ s.runAsks bags ↔ ∃ bag ∈ bags, s.accepts bag = true ∧ s.Asked bag a := by
  simp only [runAsks, List.mem_flatMap, List.mem_filter, mem_asks, and_assoc]

/-! ## Runs -/

theorem requests_eq (s : Sheet) (bag : Bag) :
    s.requests bag = (s.asks bag).map (Ask.request s) := by
  simp only [requests, asks, List.map_flatMap]
  congr 1
  funext entry
  rw [propertyAsks, List.map_append, List.map_map, List.map_map]
  rfl

theorem serialize_eq (s : Sheet) (bag : Bag) :
    (s.serialize bag).2 =
      { s with blocks := ((s.runAsks [bag]).map (Ask.block s)).foldl store s.blocks } := by
  unfold serialize
  split
  · next property refused =>
    simp [runAsks, accepts, refused]
  · next accepted =>
    have blocks : (s.requests bag).map (·.block) = (s.asks bag).map (Ask.block s) := by
      rw [requests_eq, List.map_map]
      rfl
    simp [runAsks, accepts, accepted, blocks]

theorem serializeAll_eq (s : Sheet) (bags : List Bag) :
    s.serializeAll bags =
      { s with blocks := ((s.runAsks bags).map (Ask.block s)).foldl store s.blocks } := by
  induction bags generalizing s with
  | nil => rfl
  | cons bag rest ih =>
    have first : s.serializeAll (bag :: rest) = (s.serialize bag).2.serializeAll rest := rfl
    have asked : s.runAsks (bag :: rest) = s.runAsks [bag] ++ s.runAsks rest := by
      simp only [runAsks, ← List.flatMap_append, ← List.filter_append, List.singleton_append]
    rw [first, ih, serialize_eq, asked, List.map_append, List.foldl_append]
    rfl

/-! ## Blocks after a run -/

theorem find?_store (blocks : List Block) (block : Block) (key : String) :
    (store blocks block).find? (·.key == key) = (blocks ++ [block]).find? (·.key == key) := by
  unfold store
  split
  · next known =>
    rw [List.find?_append]
    cases found : blocks.find? (·.key == key) with
    | some held => rfl
    | none =>
      -- The key of the new block is held already, and no held key is this one.
      obtain ⟨held, member, same⟩ := List.any_eq_true.mp known
      have different := List.find?_eq_none.mp found held member
      rw [beq_iff_eq] at same
      rw [same] at different
      simp [different]
  · rfl

theorem find?_foldl_store (blocks new : List Block) (key : String) :
    (new.foldl store blocks).find? (·.key == key) = (blocks ++ new).find? (·.key == key) := by
  induction new generalizing blocks with
  | nil => rw [List.foldl_nil, List.append_nil]
  | cons block rest ih =>
    rw [List.foldl_cons, ih, List.find?_append, find?_store, ← List.find?_append, List.append_assoc,
      List.singleton_append]

theorem block?_serializeAll (s : Sheet) (bags : List Bag) (key : String) :
    (s.serializeAll bags).block? key =
      (s.blocks ++ (s.runAsks bags).map (Ask.block s)).find? (·.key == key) := by
  rw [serializeAll_eq, block?, find?_foldl_store]

theorem base?_serializeAll {s : Sheet} {base : Block} (first : s.base? = some base)
    (bags : List Bag) : (s.serializeAll bags).base? = some base := by
  have kept {blocks : List Block} {block : Block} (first : blocks.head? = some base) :
      (store blocks block).head? = some base := by
    unfold store
    split
    · exact first
    · rw [List.head?_append, first]
      rfl
  rw [serializeAll_eq]
  exact List.foldlRecOn (motive := fun blocks : List Block => blocks.head? = some base) _ _ first
    fun _ sofar _ _ => kept sofar

/-- What is hashed for the keys of a sheet with its base block only, and for those of a run. -/
def hashedInputs (s : Sheet) (bags : List Bag) : List (List UInt8) :=
  (s.blocks.map fun b => Key.contentInput b.declarations) ++ (s.runAsks bags).map (·.input)

/-- The base block is the only one, and its text makes its key. -/
def Fresh (s : Sheet) (base : String) : Prop :=
  s.blocks = [⟨Key.ofInput s.options.keyPrefix (Key.contentInput base), base⟩]

theorem Fresh.base?_eq {s : Sheet} {base : String} (fresh : s.Fresh base) :
    s.base? = some ⟨Key.ofInput s.options.keyPrefix (Key.contentInput base), base⟩ := by
  rw [base?, fresh]
  rfl

section Run

variable {s : Sheet} {base : String} {bags : List Bag}

/-- Without collisions, a key finds the first block that was asked for with the same input. -/
theorem block?_of_ask (fresh : s.Fresh base) (collisionless : Key.Collisionless (s.hashedInputs bags))
    {a : Ask} (asked : a ∈ s.runAsks bags) (notBase : Key.contentInput base ≠ a.input) :
    ∃ first, (s.runAsks bags).find? (·.input == a.input) = some first ∧
      first ∈ s.runAsks bags ∧ first.input = a.input ∧
      (s.serializeAll bags).block? (Key.ofInput s.options.keyPrefix a.input) =
        some (first.block s) := by
  have hashed {b : Ask} (member : b ∈ s.runAsks bags) : b.input ∈ s.hashedInputs bags :=
    List.mem_append_right _ (List.mem_map_of_mem member)
  have hashedBase : Key.contentInput base ∈ s.hashedInputs bags := by
    refine List.mem_append_left _ ?_
    rw [fresh]
    exact List.mem_singleton_self _
  have exists_first : ((s.runAsks bags).find? (·.input == a.input)).isSome = true :=
    List.find?_isSome.mpr ⟨a, asked, beq_self_eq_true _⟩
  obtain ⟨first, found⟩ := Option.isSome_iff_exists.mp exists_first
  have sameInput := List.find?_some found
  rw [beq_iff_eq] at sameInput
  refine ⟨first, found, List.mem_of_find?_eq_some found, sameInput, ?_⟩
  have byKey : (s.runAsks bags).find?
      (fun b => (b.block s).key == Key.ofInput s.options.keyPrefix a.input) = some first := by
    obtain ⟨_, before, after, split, others⟩ := List.find?_eq_some_iff_append.mp found
    refine List.find?_eq_some_iff_append.mpr ⟨?_, before, after, split, fun b inBefore => ?_⟩
    · rw [← sameInput]
      exact beq_self_eq_true _
    · have different := others b inBefore
      simp only [Bool.not_eq_true', beq_eq_false_iff_ne, ne_eq] at different ⊢
      intro sameKey
      have inRun : b ∈ s.runAsks bags := split ▸ List.mem_append_left _ inBefore
      exact different (collisionless.ofInput_injective (hashed inRun) (hashed asked) sameKey)
  have passesBase : ¬(Key.ofInput s.options.keyPrefix (Key.contentInput base) ==
      Key.ofInput s.options.keyPrefix a.input) = true := by
    intro sameKey
    exact notBase (collisionless.ofInput_injective hashedBase (hashed asked) (beq_iff_eq.mp sameKey))
  rw [block?_serializeAll, fresh, List.singleton_append]
  refine (List.find?_cons_of_neg (by exact passesBase)).trans ?_
  rw [List.find?_map, Function.comp_def, byKey]
  rfl

/-! ## Answers -/

theorem serialize_eq_ok {bag : Bag} {selection : Selection} :
    (s.serialize bag).1 = .ok selection ↔
      s.accepts bag = true ∧ selection = select (s.requests bag) := by
  unfold serialize
  split
  · next property refused => simp [accepts, refused]
  · next accepted => simp [accepts, accepted, eq_comm]

/-- The answer to a bag depends on nothing that a run changes. -/
theorem serialize_serializeAll {history : List Bag} {bag : Bag} {selection : Selection}
    (answered : ((s.serializeAll history).serialize bag).1 = .ok selection) :
    s.accepts bag = true ∧ selection = select (s.requests bag) ∧
      ((s.serializeAll history).serialize bag).2 = s.serializeAll (history ++ [bag]) := by
  have answer := serialize_eq_ok.mp answered
  rw [serializeAll_eq] at answer
  refine ⟨answer.1, answer.2, ?_⟩
  rw [serializeAll, serializeAll, List.foldl_append]
  rfl

/-- The keys of one kind of block that a bag is answered with. -/
def Selection.keys (selection : Selection) : RequestKind → List String
  | .value => selection.values
  | .dependency => selection.dependencies

theorem mem_selection (kind : RequestKind) {bag : Bag} {key : String} :
    key ∈ (select (s.requests bag)).keys kind ↔
      ∃ a, s.Asked bag a ∧ a.kind = kind ∧ key = Key.ofInput s.options.keyPrefix a.input := by
  have keys : (select (s.requests bag)).keys kind =
      ((s.requests bag).filter (·.kind == kind)).map (·.block.key) := by
    cases kind <;> rfl
  rw [keys, requests_eq]
  simp only [List.mem_map, List.mem_filter, mem_asks]
  constructor
  · rintro ⟨_, ⟨⟨a, asked, rfl⟩, isKind⟩, rfl⟩
    exact ⟨a, asked, beq_iff_eq.mp isKind, rfl⟩
  · rintro ⟨a, asked, rfl, rfl⟩
    exact ⟨a.request s, ⟨⟨a, asked, rfl⟩, beq_self_eq_true _⟩, rfl⟩

end Run

end StyleFlags.Sheet
