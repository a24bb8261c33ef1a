import StyleFlags.Proofs.Restored

/-!
# The places of keys

A key finds its block by its place among the blocks. The keys of every sheet that
can be reached are distinct, so a search from the front, an index in which the
places are entered one after the other, and an index that is kept up while blocks
are stored find the same: the block of that key.

Results:
1. `findIdx?_eq_some_iff`: a place is found for exactly the key of the block there.
2. `get?_entered`: the index has the places that a search finds.
3. `foldl_storeAt`: entering each new block keeps the index right.
4. `Indexed.eq_entered`: so the index that is kept along any run is that of the blocks.
5. `reachable_sheet_restored`: a sheet comes back from its bytes, and its index with it.
6. `loaded_sheet_in_order`: whatever the bytes were, a sheet that was read from them is
   and stays in order.
-/

namespace StyleFlags.Sheet

variable {blocks : List Block} {key : String}

/-! ## Searching -/

theorem findIdx?_eq_some_iff (distinct : (blocks.map Block.key).Nodup) {i : Nat} :
    blocks.findIdx? (·.key == key) = some i ↔ (blocks[i]?).map Block.key = some key := by
  rw [List.findIdx?_eq_some_iff_getElem, ← List.getElem?_map, List.getElem?_eq_some_iff]
  simp only [beq_iff_eq, List.length_map, List.getElem_map]
  constructor
  · rintro ⟨inside, found, _⟩
    exact ⟨inside, found⟩
  · rintro ⟨inside, found⟩
    refine ⟨inside, found, fun j before same => ?_⟩
    -- The same key at an earlier place would not be distinct.
    have apart := List.pairwise_iff_getElem.mp distinct j i
      (by rw [List.length_map]; exact Nat.lt_trans before inside)
      (by rw [List.length_map]; exact inside) before
    rw [List.getElem_map, List.getElem_map] at apart
    exact apart (same.trans found.symm)

/-! ## Entering -/

/-- The index of some blocks: the place of each key, entered one block after the other. -/
def entered (blocks : List Block) : Table Nat :=
  blocks.zipIdx.foldl (fun index e => index.insert e.1.key e.2) .empty

/-- Adds a block to the blocks and its place to their index, unless its key has a place. -/
def storeAt (state : List Block × Table Nat) (block : Block) : List Block × Table Nat :=
  if state.2.contains block.key then state
  else (state.1 ++ [block], state.2.insert block.key state.1.length)

theorem get?_foldl_insert (distinct : (blocks.map Block.key).Nodup) (first : Nat) (index : Table Nat) :
    ((blocks.zipIdx first).foldl (fun index e => index.insert e.1.key e.2) index).get? key =
      ((blocks.findIdx? (·.key == key)).map (· + first)).or (index.get? key) := by
  induction blocks generalizing first index with
  | nil => simp
  | cons block rest ih =>
    rw [List.map_cons, List.nodup_cons] at distinct
    rw [List.zipIdx_cons, List.foldl_cons, ih distinct.2, Table.get?_insert, List.findIdx?_cons]
    by_cases same : block.key = key
    · have later : rest.findIdx? (·.key == key) = none := by
        rw [List.findIdx?_eq_none_iff]
        intro other member
        rw [beq_eq_false_iff_ne]
        rintro again
        exact distinct.1 (List.mem_map.mpr ⟨other, member, again.trans same.symm⟩)
      simp [later, same]
    · rw [if_neg (Ne.symm same), if_neg (by simpa using same), Option.map_map]
      congr 2
      funext i
      simp only [Function.comp_apply]
      omega

/-- The index has the places that a search finds. -/
theorem get?_entered (distinct : (blocks.map Block.key).Nodup) :
    (entered blocks).get? key = blocks.findIdx? (·.key == key) := by
  rw [entered, get?_foldl_insert distinct]
  cases blocks.findIdx? (·.key == key) <;> rfl

theorem storeAt_entered (distinct : (blocks.map Block.key).Nodup) (block : Block) :
    storeAt (blocks, entered blocks) block = (store blocks block, entered (store blocks block)) := by
  have known : (entered blocks).contains block.key = blocks.any (·.key == block.key) := by
    rw [Table.contains, get?_entered distinct, List.findIdx?_isSome]
  rw [storeAt, store, known]
  split
  · rfl
  · rw [entered, entered, List.zipIdx_append, List.foldl_append, Nat.zero_add]
    rfl

/-- An index in which each new block is entered stays the index of the blocks. -/
theorem foldl_storeAt (new : List Block) (distinct : (blocks.map Block.key).Nodup) :
    new.foldl storeAt (blocks, entered blocks) =
      (new.foldl store blocks, entered (new.foldl store blocks)) := by
  induction new generalizing blocks with
  | nil => rfl
  | cons block rest ih =>
    rw [List.foldl_cons, List.foldl_cons, storeAt_entered distinct]
    exact ih (distinct_store distinct)

/-! ## The index along a run -/

/-- The index after a step. Each block that a bag adds is entered; what is read from bytes has an
index made from its blocks. -/
def indexAfter (s : Sheet) (index : Table Nat) : Step → Table Nat
  | .serialize bag =>
    match s.unregistered? bag with
    | some _ => index
    | none => (((s.requests bag).map (·.block)).foldl storeAt (s.blocks, index)).2
  | .flush => index
  | .reload =>
    match ofBytes s.toBytes with
    | .ok restored => entered restored.blocks
    | .error _ => index

/-- A sheet that can be reached, with the index that was kept up on the way there. -/
inductive Indexed : Sheet → Table Nat → Prop
  | compiled (name : String) (options : Options) (needs : List Need) :
      Indexed (ofRegistry (.ofNeeds name options needs))
        ((ofRegistry (.ofNeeds name options needs)).blocks.foldl storeAt ([], .empty)).2
  | loaded {bytes : List UInt8} {s : Sheet} : ofBytes bytes = .ok s → Indexed s (entered s.blocks)
  | after {s : Sheet} {index : Table Nat} (step : Step) :
      Indexed s index → Indexed (s.after step) (s.indexAfter index step)

theorem Indexed.reachable {s : Sheet} {index : Table Nat} (indexed : s.Indexed index) :
    s.Reachable := by
  induction indexed with
  | compiled name options needs => exact .compiled name options needs
  | loaded read => exact .loaded read
  | after step _ reachable => exact reachable.after step

theorem Reachable.exists_indexed {s : Sheet} (reachable : s.Reachable) :
    ∃ index, s.Indexed index := by
  induction reachable with
  | compiled name options needs => exact ⟨_, .compiled name options needs⟩
  | loaded read => exact ⟨_, .loaded read⟩
  | after step _ indexed =>
    obtain ⟨index, indexed⟩ := indexed
    exact ⟨_, indexed.after step⟩

theorem indexAfter_entered {s : Sheet} (distinct : (s.blocks.map Block.key).Nodup) (step : Step) :
    s.indexAfter (entered s.blocks) step = entered (s.after step).blocks := by
  cases step with
  | serialize bag =>
    rw [indexAfter, after, serialize]
    cases s.unregistered? bag with
    | some property => rfl
    | none => exact congrArg Prod.snd (foldl_storeAt _ distinct)
  | flush => rfl
  | reload =>
    rw [indexAfter, after]
    cases ofBytes s.toBytes <;> rfl

/-- The index that is kept up is the one that would be made from the blocks. -/
theorem Indexed.eq_entered {s : Sheet} {index : Table Nat} (indexed : s.Indexed index) :
    index = entered s.blocks := by
  induction indexed with
  | compiled name options needs =>
    -- The base block is the only one, and the first that is stored.
    exact congrArg Prod.snd (@foldl_storeAt [] _ List.nodup_nil)
  | loaded _ => rfl
  | @after s index step before same =>
    obtain ⟨⟨_, _, distinct⟩, _⟩ := before.reachable.wellFormed
    rw [same, indexAfter_entered distinct]

/-- Every reachable sheet whose payload is shorter than 4 GiB comes back from its bytes: the same in
all but that its blocks count as flushed. However the sheet was reached, the index that was kept up
on the way is the one that is made from the restored blocks, and has each key at its place. -/
theorem reachable_sheet_restored {s : Sheet} (reachable : s.Reachable)
    (short : s.payload.length < 0x100000000) :
    ∃ restored, ofBytes s.toBytes = .ok restored ∧
      restored = { s with flushed := s.blocks.length } ∧
      (∃ index, s.Indexed index) ∧
      ∀ index, s.Indexed index →
        entered restored.blocks = index ∧ ∀ key, index.get? key = s.index? key := by
  have wellFormed := reachable.wellFormed
  refine ⟨_, wellFormed.ofBytes_toBytes short, rfl, reachable.exists_indexed, ?_⟩
  intro index indexed
  obtain rfl := indexed.eq_entered
  obtain ⟨⟨_, _, distinct⟩, _⟩ := wellFormed
  exact ⟨rfl, fun key => get?_entered distinct⟩

/-- The block of a value was stored behind the base block, and the dependency block behind that. -/
theorem reachable_sheet_restored_exUsed :
    (exUsed.blocks.length, exUsed.flushed) = (3, 0) ∧
      ∃ restored index, ofBytes exUsed.toBytes = .ok restored ∧ exUsed.Indexed index ∧
        (restored.blocks.length, restored.flushed) = (3, 3) ∧ entered restored.blocks = index ∧
        index.get? exUsed.baseKey = some 0 := by
  have indexed : exUsed.Indexed _ := .after (.serialize exBoth) (.compiled "scheme" {} exNeeds)
  obtain ⟨restored, read, rfl, _, places⟩ :=
    reachable_sheet_restored reachable_exUsed (by rw [length_payload_exUsed]; decide)
  obtain ⟨same, found⟩ := places _ indexed
  obtain ⟨blocks, base⟩ : exUsed.blocks.length = 3 ∧ exUsed.index? exUsed.baseKey = some 0 := by
    decide +kernel
  exact ⟨by rw [blocks]; rfl, _, _, read, indexed, by rw [blocks], same, (found _).trans base⟩

/-! ## Sheets from bytes -/

/-- The sheets read from any bytes, and those that steps lead to from there. -/
inductive Loaded : Sheet → Prop
  | read {bytes : List UInt8} {s : Sheet} : ofBytes bytes = .ok s → Loaded s
  | after {s : Sheet} (step : Step) : Loaded s → Loaded (s.after step)

theorem Loaded.reachable {s : Sheet} (loaded : s.Loaded) : s.Reachable := by
  induction loaded with
  | read accepted => exact .loaded accepted
  | after step _ reachable => exact reachable.after step

/-- Whatever bytes a sheet was read from, and whatever was done with it since: the base block is the
first one, keys are distinct and begin as they should, a place is found for exactly the key of the block
there, also by an index that is kept up while blocks are stored, no more blocks count as flushed
than there are, and rules and lists of dependencies name registered properties only. -/
theorem loaded_sheet_in_order {s : Sheet} (loaded : s.Loaded) :
    (∃ base, s.base? = some base ∧ base.key = s.baseKey) ∧
    (s.blocks.map Block.key).Nodup ∧
    (∀ b ∈ s.blocks, s.options.keyPrefix.toList <+: b.key.toList) ∧
    (∀ key i, s.index? key = some i ↔ (s.blocks[i]?).map Block.key = some key) ∧
    (∀ key, s.block? key = (s.index? key).bind fun i => s.blocks[i]?) ∧
    (∀ key, (entered s.blocks).get? key = s.index? key) ∧
    (∀ new : List Block, new.foldl storeAt (s.blocks, entered s.blocks) =
      (new.foldl store s.blocks, entered (new.foldl store s.blocks))) ∧
    s.flushed ≤ s.blocks.length ∧
    (∀ e ∈ s.rules.entries, Filed s.properties.toList e.1 e.2) ∧
    (∀ e ∈ s.dependents.entries, e.2.Filed s.properties.toList e.1) := by
  obtain ⟨⟨base, begins, distinct⟩, rules, dependents, flushed⟩ := loaded.reachable.wellFormed
  exact ⟨Option.map_eq_some_iff.mp base, distinct, begins, fun _ _ => findIdx?_eq_some_iff distinct,
    fun _ => List.find?_eq_bind_findIdx?_getElem?, fun _ => get?_entered distinct,
    fun new => foldl_storeAt new distinct, flushed, rules, dependents⟩

/-- A sheet that was read from bytes, after a bag that none of its blocks is for. -/
def exReused : Sheet :=
  { exUsed with flushed := exUsed.blocks.length }.after (.serialize (.ofList [("n", .null)]))

theorem loaded_sheet_in_order_exReused :
    (exReused.blocks.length, exReused.flushed) = (4, 3) ∧
      (entered exReused.blocks).get? (Key.ofInput "c" (Key.valueInput "n" .null)) = some 3 := by
  have read := reachable_exUsed.wellFormed.ofBytes_toBytes (by rw [length_payload_exUsed]; decide)
  obtain ⟨_, _, _, places, _, index, _⟩ :=
    loaded_sheet_in_order (.after (.serialize (.ofList [("n", .null)])) (.read read))
  have last : (exReused.blocks.length, exReused.flushed) = (4, 3) ∧ (exReused.blocks[3]?).map Block.key =
      some (Key.ofInput "c" (Key.valueInput "n" .null)) := by decide +kernel
  exact ⟨last.1, (index _).trans ((places _ 3).mpr last.2)⟩

end StyleFlags.Sheet
