import StyleFlags.Proofs.Runs

/-!
# The ledger of a sheet

A sheet answers two calls: it serializes a bag, and it flushes. Serializing adds
blocks at the end, flushing moves the mark behind the last block, and neither
touches the rules. So the blocks are a ledger: they tell which keys were used
and in which order, and every block is handed out once.

Results:
1. `afterCall_eq`: what a call does to a sheet.
2. `answer_congr`, `answer_eq_ok`: the answer to a bag is read off the frame of the sheet,
   and lists the keys that the bag uses.
3. `keys_run`: the keys of the blocks are the keys that were used, each at its first
   use.
4. `prefix_run`: a run keeps the blocks before it at their places.
5. `handedOut_run`: what was flushed and what is still to be flushed are the blocks.
6. `run_keeps_ledger`: all of this for the runs of a sheet made from a registry.
-/

namespace StyleFlags.Sheet

/-! ## Calls -/

/-- What a sheet is asked to do. -/
inductive Call where
  | serialize (bag : Bag)
  | flush

/-- The sheet after a call. -/
def afterCall (s : Sheet) : Call → Sheet
  | .serialize bag => (s.serialize bag).2
  | .flush => s.flush.2

/-- The blocks that a call hands out. -/
def flushedBy (s : Sheet) : Call → List Block
  | .serialize _ => []
  | .flush => s.flush.1

/-- The sheet after some calls. -/
def run (s : Sheet) (calls : List Call) : Sheet := calls.foldl afterCall s

/-- All that is handed out in a run, one flush after the other. -/
def handedOut : Sheet → List Call → List Block
  | _, [] => []
  | s, call :: rest => s.flushedBy call ++ (s.afterCall call).handedOut rest

/-- The same rules for the same properties, whatever the blocks are. -/
structure SameFrame (s t : Sheet) : Prop where
  name : s.name = t.name
  options : s.options = t.options
  properties : s.properties = t.properties
  rules : s.rules = t.rules
  dependents : s.dependents = t.dependents

/-- The keys that a bag uses. The properties come in the order of their names, each with the key of
its value and then with the key of the values that its dependent rules read. -/
def uses (s : Sheet) (bag : Bag) : List (RequestKind × String) :=
  bag.normalized.entries.flatMap fun (property, value) =>
    ((s.rules.get? property).toList.map fun _ =>
        (.value, Key.ofInput s.options.keyPrefix (Key.valueInput property value))) ++
      ((s.dependents.get? property).toList.map fun d =>
        (.dependency,
          Key.ofInput s.options.keyPrefix (Key.dependencyInput d.properties bag.normalized)))

/-- The keys that a call uses. A bag that is refused uses none. -/
def keysUsedBy (s : Sheet) : Call → List String
  | .serialize bag => if s.accepts bag then (s.uses bag).map (·.2) else []
  | .flush => []

/-- The keys that a run uses, one call after the other. -/
def keysUsed (s : Sheet) (calls : List Call) : List String := calls.flatMap s.keysUsedBy

/-! ## What a call does -/

/-- The blocks that a call asks for. -/
def askedBy (s : Sheet) : Call → List Block
  | .serialize bag => (s.runAsks [bag]).map (Ask.block s)
  | .flush => []

/-- The number of blocks that count as flushed after a call. -/
def flushedAfter (s : Sheet) : Call → Nat
  | .serialize _ => s.flushed
  | .flush => s.blocks.length

theorem afterCall_eq (s : Sheet) (call : Call) :
    s.afterCall call =
      { s with
        blocks := (s.askedBy call).foldl store s.blocks
        flushed := s.flushedAfter call } := by
  cases call with
  | serialize bag => exact serialize_eq s bag
  | flush => rfl

theorem sameFrame_run (s : Sheet) (calls : List Call) : (s.run calls).SameFrame s := by
  refine List.foldlRecOn (motive := fun t : Sheet => t.SameFrame s) calls afterCall
    ⟨rfl, rfl, rfl, rfl, rfl⟩ fun t same call _ => ?_
  rw [afterCall_eq]
  exact ⟨same.name, same.options, same.properties, same.rules, same.dependents⟩

/-! ## Answers -/

section Frame

variable {s t : Sheet} {bag : Bag}

theorem SameFrame.uses (same : s.SameFrame t) (bag : Bag) : s.uses bag = t.uses bag := by
  rw [Sheet.uses, Sheet.uses, same.rules, same.dependents, same.options]

theorem SameFrame.unregistered? (same : s.SameFrame t) (bag : Bag) :
    s.unregistered? bag = t.unregistered? bag := by
  rw [Sheet.unregistered?, Sheet.unregistered?, same.properties]

theorem SameFrame.keysUsedBy (same : s.SameFrame t) (call : Call) :
    s.keysUsedBy call = t.keysUsedBy call := by
  cases call with
  | serialize bag =>
    rw [Sheet.keysUsedBy, Sheet.keysUsedBy, accepts, accepts, same.unregistered?, same.uses]
  | flush => rfl

theorem uses_eq (s : Sheet) (bag : Bag) :
    s.uses bag = (s.requests bag).map fun r => (r.kind, r.block.key) := by
  simp only [Sheet.uses, requests, propertyRequests, List.map_flatMap, List.map_append, List.map_map]
  rfl

theorem keys_select (kind : RequestKind) :
    (select (s.requests bag)).keys kind = ((s.uses bag).filter (·.1 == kind)).map (·.2) := by
  have chosen : (select (s.requests bag)).keys kind =
      ((s.requests bag).filter (·.kind == kind)).map (·.block.key) := by
    cases kind <;> rfl
  rw [chosen, uses_eq, List.filter_map, List.map_map]
  rfl

theorem Selection.ext_keys {a b : Selection} (same : ∀ kind, a.keys kind = b.keys kind) : a = b := by
  have values : a.values = b.values := same .value
  have dependencies : a.dependencies = b.dependencies := same .dependency
  cases a
  cases b
  rw [Selection.mk.injEq]
  exact ⟨values, dependencies⟩

/-- A bag that is not refused is answered with the keys that it uses, by kind. -/
theorem answer_eq_ok {selection : Selection} :
    (s.serialize bag).1 = .ok selection ↔ s.accepts bag = true ∧
      ∀ kind, selection.keys kind = ((s.uses bag).filter (·.1 == kind)).map (·.2) := by
  rw [serialize_eq_ok]
  constructor
  · rintro ⟨accepted, rfl⟩
    exact ⟨accepted, keys_select⟩
  · rintro ⟨accepted, keys⟩
    exact ⟨accepted, Selection.ext_keys fun kind => (keys kind).trans (keys_select kind).symm⟩

theorem answer_eq (s : Sheet) (bag : Bag) :
    (s.serialize bag).1 =
      match s.unregistered? bag with
      | some property => .error (.unregistered s.name property)
      | none => .ok (select (s.requests bag)) := by
  unfold serialize
  cases s.unregistered? bag <;> rfl

theorem answer_congr (same : s.SameFrame t) (bag : Bag) : (s.serialize bag).1 = (t.serialize bag).1 := by
  have requests : s.requests bag = t.requests bag := by
    simp only [Sheet.requests, propertyRequests, request, same.rules, same.dependents, same.options]
  rw [answer_eq, answer_eq, same.unregistered?, same.name, requests]

theorem serialize_of_error {e : CompileError} (refused : (s.serialize bag).1 = .error e) :
    (s.serialize bag).2 = s := by
  unfold serialize at refused ⊢
  split
  · rfl
  · next accepted => simp [accepted] at refused

end Frame

/-! ## Keys -/

theorem keys_store {blocks : List Block} {used : List String}
    (listed : blocks.map Block.key = used.eraseDups) (block : Block) :
    (store blocks block).map Block.key = (used ++ [block.key]).eraseDups := by
  have known : blocks.any (·.key == block.key) = used.contains block.key := by
    rw [Bool.eq_iff_iff, List.contains_iff_mem, ← List.mem_eraseDups, ← listed]
    simp
  rw [store, known, List.eraseDups_append, ← listed, List.removeAll, List.filter_cons,
    List.filter_nil, List.elem_eq_contains]
  cases used.contains block.key with
  | true => simp
  | false => simp [List.eraseDups_cons]

theorem keys_foldl_store (new : List Block) {blocks : List Block} {used : List String}
    (listed : blocks.map Block.key = used.eraseDups) :
    (new.foldl store blocks).map Block.key = (used ++ new.map Block.key).eraseDups := by
  induction new generalizing blocks used with
  | nil => rw [List.foldl_nil, List.map_nil, List.append_nil, listed]
  | cons block rest ih =>
    rw [List.foldl_cons, ih (keys_store listed block), List.map_cons, List.append_assoc]
    rfl

theorem keys_askedBy (s : Sheet) (call : Call) :
    (s.askedBy call).map Block.key = s.keysUsedBy call := by
  cases call with
  | flush => rfl
  | serialize bag =>
    rw [askedBy, keysUsedBy, runAsks, List.filter_cons, List.filter_nil, uses_eq, requests_eq]
    cases s.accepts bag with
    | true =>
      rw [if_pos rfl, if_pos rfl, List.flatMap_singleton, List.map_map, List.map_map, List.map_map]
      rfl
    | false => rfl

/-- The keys of the blocks are the keys that were used, each at its first use. -/
theorem keys_run (calls : List Call) {s : Sheet} {used : List String}
    (listed : s.blocks.map Block.key = used.eraseDups) :
    (s.run calls).blocks.map Block.key = (used ++ s.keysUsed calls).eraseDups := by
  induction calls generalizing s used with
  | nil => simpa [run, keysUsed] using listed
  | cons call rest ih =>
    have first : (s.afterCall call).blocks.map Block.key =
        (used ++ s.keysUsedBy call).eraseDups := by
      rw [afterCall_eq, ← keys_askedBy]
      exact keys_foldl_store _ listed
    have later : (s.afterCall call).keysUsed rest = s.keysUsed rest := by
      have same : (s.afterCall call).SameFrame s := sameFrame_run s [call]
      exact congrArg (List.flatMap · rest) (funext same.keysUsedBy)
    have step : s.run (call :: rest) = (s.afterCall call).run rest := rfl
    rw [step, ih first, later, List.append_assoc]
    rfl

/-! ## Places -/

theorem prefix_foldl_store (new blocks : List Block) : blocks <+: new.foldl store blocks := by
  refine List.foldlRecOn (motive := fun l : List Block => blocks <+: l) new store
    (List.prefix_refl _) fun sofar kept block _ => ?_
  unfold store
  split
  · exact kept
  · exact kept.trans (List.prefix_append _ _)

theorem prefix_afterCall (s : Sheet) (call : Call) : s.blocks <+: (s.afterCall call).blocks := by
  rw [afterCall_eq]
  exact prefix_foldl_store _ _

/-- A run keeps the blocks before it at their places. -/
theorem prefix_run (s : Sheet) (calls : List Call) : s.blocks <+: (s.run calls).blocks :=
  List.foldlRecOn (motive := fun t : Sheet => s.blocks <+: t.blocks) calls afterCall
    (List.prefix_refl _) fun t kept call _ => kept.trans (prefix_afterCall t call)

/-! ## Flushes -/

/-- One call hands out what it moves the mark over. -/
theorem take_flushed_afterCall {s : Sheet} (within : s.flushed ≤ s.blocks.length) (call : Call) :
    (s.afterCall call).blocks.take (s.afterCall call).flushed =
      s.blocks.take s.flushed ++ s.flushedBy call := by
  cases call with
  | flush =>
    have taken : s.flush.2.blocks.take s.flush.2.flushed = s.blocks := List.take_length
    have split : s.blocks.take s.flushed ++ s.flush.1 = s.blocks := List.take_append_drop _ _
    rw [afterCall, flushedBy, taken, split]
  | serialize bag =>
    obtain ⟨new, grown⟩ := prefix_afterCall s (.serialize bag)
    have mark : (s.afterCall (.serialize bag)).flushed = s.flushed := by
      rw [afterCall_eq]
      rfl
    rw [mark, ← grown, List.take_append_of_le_length within, flushedBy, List.append_nil]

theorem flushed_afterCall_le {s : Sheet} (within : s.flushed ≤ s.blocks.length) (call : Call) :
    (s.afterCall call).flushed ≤ (s.afterCall call).blocks.length := by
  have grown := (prefix_afterCall s call).length_le
  cases call with
  | flush => exact Nat.le_refl _
  | serialize bag =>
    rw [afterCall_eq] at grown ⊢
    exact Nat.le_trans within grown

/-- What was handed out before and in a run, and what is left to hand out, are the blocks. -/
theorem handedOut_run (calls : List Call) {s : Sheet} (within : s.flushed ≤ s.blocks.length) :
    s.blocks.take s.flushed ++ s.handedOut calls ++ (s.run calls).blocks.drop (s.run calls).flushed =
      (s.run calls).blocks := by
  induction calls generalizing s with
  | nil =>
    rw [handedOut, List.append_nil]
    exact List.take_append_drop _ _
  | cons call rest ih =>
    rw [handedOut, ← List.append_assoc, ← take_flushed_afterCall within call]
    exact ih (flushed_afterCall_le within call)

/-! ## Sheets of registries -/

/-- A sheet that is made from a registry is a ledger of its calls. The frame stays, and the answer to a
bag is read off it: the keys that the bag uses, by kind. The base block and one block for each
further key that was used stand in the order of the first uses; they stay where they are,
a bag that is refused changes nothing, and the flushes hand out each block once. -/
theorem run_keeps_ledger (r : Registry) (calls : List Call) :
    ((ofRegistry r).run calls).SameFrame (ofRegistry r) ∧
    (∀ (s : Sheet) (bag : Bag), s.SameFrame (ofRegistry r) →
      (s.serialize bag).1 = (((ofRegistry r).run calls).serialize bag).1) ∧
    (∀ bag selection, (((ofRegistry r).run calls).serialize bag).1 = .ok selection ↔
      (ofRegistry r).accepts bag = true ∧
        ∀ kind, selection.keys kind = (((ofRegistry r).uses bag).filter (·.1 == kind)).map (·.2)) ∧
    ((ofRegistry r).run calls).blocks.map Block.key =
      ((ofRegistry r).baseKey :: (ofRegistry r).keysUsed calls).eraseDups ∧
    (∀ before after, calls = before ++ after →
      ((ofRegistry r).run before).blocks <+: ((ofRegistry r).run calls).blocks) ∧
    (∀ bag e, (((ofRegistry r).run calls).serialize bag).1 = .error e →
      (((ofRegistry r).run calls).serialize bag).2 = (ofRegistry r).run calls) ∧
    (ofRegistry r).handedOut calls ++
        ((ofRegistry r).run calls).blocks.drop ((ofRegistry r).run calls).flushed =
      ((ofRegistry r).run calls).blocks := by
  have frame := sameFrame_run (ofRegistry r) calls
  have base : (ofRegistry r).blocks.map Block.key = [(ofRegistry r).baseKey].eraseDups := rfl
  refine ⟨frame, fun s bag same => ?_, fun bag selection => ?_, keys_run calls base, ?_,
    fun bag e refused => serialize_of_error refused, ?_⟩
  · rw [answer_congr same, answer_congr frame]
  · rw [answer_congr frame, answer_eq_ok]
  · rintro before after rfl
    rw [run, run, List.foldl_append]
    exact prefix_run _ after
  · exact handedOut_run (s := ofRegistry r) calls (Nat.zero_le _)

/-- Two facts about `a`, of which one reads `b` too. -/
def exPair : Registry :=
  (Registry.addFact ⟨"scheme", {}, .empty, .empty, .empty⟩ ⟨"a", .truthy false⟩).addFact
    ⟨"a", .compare .eq (.property "b" false)⟩

/-- A bag that nothing is registered for. -/
def exUnknown : Bag := .ofList [("z", .null)]

/-- New keys, a flush, a bag that is refused, keys that are known, and new ones again. -/
def exCalls : List Call :=
  [.serialize (.ofList [("a", .bool true)]), .flush, .serialize exUnknown,
    .serialize (.ofList [("a", .bool true)]), .serialize (.ofList [("a", .bool false)])]

theorem run_keeps_ledger_exCalls :
    ((ofRegistry exPair).keysUsed exCalls).length = 6 ∧
      ((ofRegistry exPair).run exCalls).blocks.length = 5 ∧
      ((ofRegistry exPair).handedOut exCalls).length = 3 ∧
      (((ofRegistry exPair).run exCalls).blocks.drop
        ((ofRegistry exPair).run exCalls).flushed).length = 2 ∧
      (((ofRegistry exPair).run exCalls).serialize exUnknown).2 = (ofRegistry exPair).run exCalls := by
  obtain ⟨_, answers, _, keys, _, unchanged, whole⟩ := run_keeps_ledger exPair exCalls
  have used : ((ofRegistry exPair).baseKey :: (ofRegistry exPair).keysUsed exCalls).eraseDups.length =
      5 := by decide +kernel
  have blocks : ((ofRegistry exPair).run exCalls).blocks.length = 5 := by
    rw [← used, ← keys, List.length_map]
  have handed : ((ofRegistry exPair).handedOut exCalls).length = 3 := by decide +kernel
  have left := congrArg List.length whole
  rw [List.length_append, handed, blocks] at left
  have unknown : (ofRegistry exPair).unregistered? exUnknown = some "z" := by decide +kernel
  have refused := answers (ofRegistry exPair) exUnknown ⟨rfl, rfl, rfl, rfl, rfl⟩
  rw [answer_eq, unknown] at refused
  exact ⟨by decide +kernel, blocks, handed, by omega, unchanged exUnknown _ refused.symm⟩

end StyleFlags.Sheet
