import StyleFlags.Proofs.Codecs
import StyleFlags.Proofs.WellFormed
import StyleFlags.Snapshot.Bytes

/-!
# Sheets survive being written and read back

A sheet is written with a header that says how long the payload is and holds a
part of its digest. Reading the bytes back checks the header, decodes the
payload and checks the snapshot; each of the three undoes or accepts what
writing a well-formed sheet made, as long as the length fits into its field.

Results:
1. `Snapshot.readPayload_front`, `Snapshot.readPayload_header`: what is read behind the front of a
   header, and that the payload behind its own header is accepted.
2. `Snapshot.restores_ofSheet`: the payload of a sheet decodes to its snapshot.
3. `WellFormed.ofBytes_toBytes`: a well-formed sheet comes back from its bytes, with all
   its blocks counted as flushed.
4. `Reachable.wellFormed`: every sheet that can be reached is well formed, also from
   bytes that were not written by a sheet.
-/

namespace StyleFlags

namespace Snapshot

/-! ## Headers -/

/-- What stands behind `before` is the field that begins there. -/
theorem field_eq {bytes : List UInt8} {start length : Nat} (before inside after : List UInt8)
    (whole : bytes = before ++ (inside ++ after)) (starts : before.length = start)
    (fills : inside.length = length) : field bytes start length = inside := by
  rw [field, whole, ← starts, ← fills, List.drop_left, List.take_left]

@[simp] theorem length_checksum (payload : List UInt8) : (checksum payload).length = 16 := by
  simp [checksum]

/-- What stands before the checksum in the header of a payload of this length. -/
def front (length : Nat) : List UInt8 :=
  magic ++ Codec.littleEndian 2 formatVersion ++ Codec.littleEndian 2 writerVersion ++
    Codec.littleEndian 4 0 ++ Codec.littleEndian 4 length

@[simp] theorem length_front (length : Nat) : (front length).length = 16 := by
  simp [front, magic]

theorem header_eq (payload : List UInt8) :
    header payload = front payload.length ++ checksum payload := rfl

theorem length_header (payload : List UInt8) : (header payload).length = headerSize := by
  simp [header_eq, headerSize]

/-- Behind the front of a header comes a checksum, and then the payload, cut to the length that the
front says. -/
theorem readPayload_front {length : Nat} (fits : length < Codec.capacity 4) {sum : List UInt8}
    (full : sum.length = 16) (rest : List UInt8) :
    readPayload (front length ++ (sum ++ rest)) =
      if rest.length < length then .error (.lengthMismatch length rest.length)
      else if checksum (rest.take length) ≠ sum then .error .checksumMismatch
      else .ok (rest.take length) := by
  generalize whole : front length ++ (sum ++ rest) = bytes
  have total : bytes.length = headerSize + rest.length := by
    rw [← whole, List.length_append, List.length_append, length_front, full, ← Nat.add_assoc]
    rfl
  have magicField : field bytes 0 4 = magic :=
    field_eq [] magic _ (by rw [← whole]; simp only [front, List.append_assoc]; rfl) rfl rfl
  have versionField : field bytes 4 2 = Codec.littleEndian 2 formatVersion :=
    field_eq magic _ _ (by rw [← whole]; simp only [front, List.append_assoc]; rfl) rfl (by simp)
  have lengthField : field bytes 12 4 = Codec.littleEndian 4 length :=
    field_eq (magic ++ Codec.littleEndian 2 formatVersion ++ Codec.littleEndian 2 writerVersion ++
      Codec.littleEndian 4 0) _ (sum ++ rest) (by rw [← whole]; simp only [front, List.append_assoc])
      (by simp [magic]) (by simp)
  have checksumField : field bytes 16 16 = sum :=
    field_eq (front length) sum rest whole.symm (length_front length) full
  have payloadField : field bytes headerSize length = rest.take length := by
    rw [field, ← whole, ← List.append_assoc, List.drop_left' (by simp [full, headerSize])]
  have version : Codec.ofLittleEndian (Codec.littleEndian 2 formatVersion) = formatVersion := rfl
  have long : ¬headerSize + rest.length < headerSize := Nat.not_lt.mpr (Nat.le_add_right _ _)
  simp only [readPayload, total, magicField, versionField, version, lengthField,
    Codec.ofLittleEndian_littleEndian fits, payloadField, checksumField, if_neg long, if_false,
    ne_eq, not_true_eq_false, Nat.add_lt_add_iff_left, Nat.add_sub_cancel_left]

/-- The payload behind its own header is accepted, if its length fits into the header. -/
theorem readPayload_header {payload : List UInt8} (short : payload.length < Codec.capacity 4) :
    readPayload (header payload ++ payload) = .ok payload := by
  rw [header_eq, List.append_assoc, readPayload_front short (length_checksum payload),
    if_neg (Nat.lt_irrefl _), List.take_length, if_neg (not_not_intro rfl)]

/-! ## Payloads -/

/-- The lists that are counted stand in the payload beside each other. -/
theorem length_le_snapshot (s : Snapshot) :
    ((Codec.list Codec.string).encode s.properties).length +
      ((Codec.table (Codec.list Codec.rule)).encode s.rules).length +
      ((Codec.list Codec.block).encode s.blocks).length ≤ (Codec.snapshot.encode s).length := by
  simp only [Codec.snapshot, Codec.map, Codec.pair, List.length_append]
  omega

theorem ruleCount_le (s : Sheet) :
    s.ruleCount ≤ ((Codec.table (Codec.list Codec.rule)).encode s.rules).length := by
  have counted : ∀ (l : List (String × List Rule)) (n : Nat),
      (l.map (·.2)).foldl (fun n rules => n + rules.length) n ≤
        n + (l.flatMap (Codec.pair Codec.string (Codec.list Codec.rule)).encode).length := by
    intro l
    induction l with
    | nil => simp
    | cons e rest ih =>
      intro n
      have here := Codec.lossless_rule.length_le_list e.2
      have later := ih (n + e.2.length)
      simp only [List.map_cons, List.foldl_cons, List.flatMap_cons, List.length_append, Codec.pair]
        at later ⊢
      omega
  have all := counted s.rules.entries 0
  rw [Nat.zero_add] at all
  exact Nat.le_trans all (List.sublist_append_right _ _).length_le

/-- The payload of a sheet decodes to its snapshot: it counts nothing that it does not hold. -/
theorem restores_ofSheet {s : Sheet}
    (short : (Codec.snapshot.encode (ofSheet s)).length < Codec.capacity 8) :
    Codec.snapshot.Restores (ofSheet s) := by
  have parts := length_le_snapshot (ofSheet s)
  have properties : (ofSheet s).propertyCount ≤ _ :=
    Codec.lossless_string.length_le_list (ofSheet s).properties
  have rules : (ofSheet s).ruleCount ≤ _ := ruleCount_le s
  have blocks : (ofSheet s).blockCount ≤ _ := Codec.lossless_block.length_le_list (ofSheet s).blocks
  have sameRules : (ofSheet s).rules = s.rules := rfl
  rw [← sameRules] at rules
  exact Codec.restores_snapshot short (by omega) (by omega) (by omega)

end Snapshot

namespace Sheet

/-- The bytes of the snapshot of a sheet, without the header. -/
def payload (s : Sheet) : List UInt8 := Codec.snapshot.encode (Snapshot.ofSheet s)

/-- A well-formed sheet comes back from its bytes, with all its blocks counted as flushed. -/
theorem WellFormed.ofBytes_toBytes {s : Sheet} (wellFormed : s.WellFormed)
    (short : s.payload.length < Codec.capacity 4) :
    ofBytes s.toBytes = .ok { s with flushed := s.blocks.length } := by
  have accepted := Snapshot.readPayload_header short
  have decoded : Codec.snapshot.decode s.payload = some (Snapshot.ofSheet s, []) := by
    have below : Codec.capacity 4 < Codec.capacity 8 := by decide
    have restored := Snapshot.restores_ofSheet (Nat.lt_trans short below) []
    rwa [List.append_nil] at restored
  have valid : (Snapshot.ofSheet s).validate = .ok () :=
    Snapshot.validate_eq_ok.mpr wellFormed.consistent
  have sheet : (Snapshot.ofSheet s).toSheet = { s with flushed := s.blocks.length } := by
    simp only [Snapshot.toSheet, Snapshot.ofSheet, SortedSet.ofList_toList]
  have bytes : s.toBytes = Snapshot.header s.payload ++ s.payload := rfl
  rw [ofBytes, bytes, accepted]
  simp only [bind, Except.bind, decoded, valid, sheet]
  rfl

/-- Bytes are read as a well-formed sheet, if at all. -/
theorem wellFormed_of_ofBytes {bytes : List UInt8} {s : Sheet} (read : ofBytes bytes = .ok s) :
    s.WellFormed := by
  rw [ofBytes] at read
  obtain ⟨payload, _, read⟩ := bind_eq_ok read
  split at read
  · cases read
  · next snapshot rest decoded =>
    split at read
    · cases read
    · next valid =>
      cases read
      exact (Snapshot.validate_eq_ok.mp valid).wellFormed

/-! ## Reachable sheets -/

/-- What can be done with a sheet. -/
inductive Step where
  | serialize (bag : Bag)
  | flush
  | reload

/-- The sheet after a step. A sheet that does not come back from its bytes stays. -/
def after (s : Sheet) : Step → Sheet
  | .serialize bag => (s.serialize bag).2
  | .flush => s.flush.2
  | .reload => (ofBytes s.toBytes).toOption.getD s

/-- The sheets made from facts and prepared values, or read from bytes, and those that steps lead to
from there. -/
inductive Reachable : Sheet → Prop
  | compiled (name : String) (options : Options) (needs : List Need) :
      Reachable (ofRegistry (.ofNeeds name options needs))
  | loaded {bytes : List UInt8} {s : Sheet} : ofBytes bytes = .ok s → Reachable s
  | after {s : Sheet} (step : Step) : Reachable s → Reachable (s.after step)

theorem WellFormed.after {s : Sheet} (wellFormed : s.WellFormed) (step : Step) :
    (s.after step).WellFormed := by
  cases step with
  | serialize bag => exact wellFormed.serialize bag
  | flush => exact wellFormed.flush
  | reload =>
    rw [Sheet.after]
    cases read : ofBytes s.toBytes with
    | error _ => exact wellFormed
    | ok restored => exact wellFormed_of_ofBytes read

theorem Reachable.wellFormed {s : Sheet} (reachable : s.Reachable) : s.WellFormed := by
  induction reachable with
  | compiled name options needs =>
    exact wellFormed_ofRegistry (Registry.closed_ofNeeds name options needs)
  | loaded read => exact wellFormed_of_ofBytes read
  | after step _ wellFormed => exact wellFormed.after step

/-- `n < 2` and `a == !b`, and a prepared value with a character outside ASCII. -/
def exNeeds : List Need :=
  [.fact ⟨"n", .compare .lt (.literal ⟨.number, "2"⟩)⟩,
    .fact ⟨"a", .compare .eq (.property "b" true)⟩, .prepared "if-é" "var(--é)"]

/-- A value for each of the owners. -/
def exBoth : Bag := .ofList [("a", .bool true), ("n", .number ⟨0x3ff0000000000000⟩)]

/-- A sheet with a base block, a block of a value and a dependency block, none flushed. -/
def exUsed : Sheet := (ofRegistry (.ofNeeds "scheme" {} exNeeds)).after (.serialize exBoth)

theorem reachable_exUsed : exUsed.Reachable :=
  .after (.serialize exBoth) (.compiled "scheme" {} exNeeds)

theorem length_payload_exUsed : exUsed.payload.length = 263 := by decide +kernel

end Sheet

end StyleFlags
