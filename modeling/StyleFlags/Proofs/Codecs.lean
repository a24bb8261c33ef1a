import StyleFlags.Proofs.Table
import StyleFlags.Snapshot.Layout

/-!
# Codecs read back what they write

A codec reads from the front of a sequence of bytes, so reading back is stated
with any bytes behind what was written. Lengths and counts take eight bytes at
most; what is longer could not be read back, so a codec is lossless up to that
length. As every value takes at least one byte, a list is never longer than
its bytes, and the bound on the bytes covers all counts inside.

Results:
1. `decodeNat_encodeNat`: a number is read back if the reader takes as many bytes.
2. `Lossless.pair`, `Lossless.map`, `Lossless.list`, `Lossless.table`: layouts of
   lossless parts are lossless.
3. `lossless_rule`, `lossless_dependents`, `lossless_block`: so are the parts of a
   snapshot.
4. `restores_snapshot`: a snapshot is read back if its counts fit.
-/

namespace StyleFlags

namespace Codec

variable {α β : Type}

/-! ## Numbers -/

/-- The number of values that `width` bytes can hold. -/
def capacity : Nat → Nat
  | 0 => 1
  | width + 1 => 256 * capacity width

@[simp] theorem length_littleEndian (width n : Nat) : (littleEndian width n).length = width := by
  induction width generalizing n with
  | zero => rfl
  | succ width ih => rw [littleEndian, List.length_cons, ih]

theorem ofLittleEndian_littleEndian {width n : Nat} (fits : n < capacity width) :
    ofLittleEndian (littleEndian width n) = n := by
  induction width generalizing n with
  | zero =>
    have : n = 0 := Nat.lt_one_iff.mp fits
    rw [this]
    rfl
  | succ width ih =>
    have lowest : n.toUInt8.toNat = n % 256 := UInt8.toNat_ofNat'
    have others : ofLittleEndian (littleEndian width (n / 256)) = n / 256 :=
      ih (Nat.div_lt_of_lt_mul fits)
    rw [littleEndian, ofLittleEndian, List.foldr_cons, lowest]
    change n % 256 + 256 * ofLittleEndian (littleEndian width (n / 256)) = n
    rw [others]
    exact Nat.mod_add_div n 256

theorem split?_append (taken rest : List UInt8) :
    split? taken.length (taken ++ rest) = some (taken, rest) := by
  simp [split?]

theorem decodeNat_marked {widest width n : Nat} {mark : UInt8} (large : ¬mark < 251)
    (marked : width? mark = some width) (narrow : width ≤ widest) (fits : n < capacity width)
    (rest : List UInt8) :
    decodeNat widest (mark :: littleEndian width n ++ rest) = some (n, rest) := by
  have taken := split?_append (littleEndian width n) rest
  rw [length_littleEndian] at taken
  simp only [List.cons_append, decodeNat, if_neg large, marked, Option.bind_eq_bind,
    Option.bind_some, if_pos narrow, taken, ofLittleEndian_littleEndian fits]
  rfl

/-- A number is read back where the reader takes as many bytes as it needs. -/
theorem decodeNat_encodeNat {widest n : Nat} (two : 2 ≤ widest) (four : 0x10000 ≤ n → 4 ≤ widest)
    (eight : 0x100000000 ≤ n → 8 ≤ widest) (fits : n < capacity 8) (rest : List UInt8) :
    decodeNat widest (encodeNat n ++ rest) = some (n, rest) := by
  unfold encodeNat
  split
  · next small =>
    have value : n.toUInt8.toNat = n := by
      rw [UInt8.toNat_ofNat']
      omega
    have isSmall : n.toUInt8 < 251 := UInt8.lt_iff_toNat_lt.mpr (by rwa [value])
    rw [List.singleton_append, decodeNat, if_pos isSmall, value]
  · split
    · next small => exact decodeNat_marked (by decide) rfl two small rest
    · next large =>
      split
      · next small =>
        exact decodeNat_marked (by decide) rfl (four (Nat.le_of_not_lt large)) small rest
      · next large =>
        exact decodeNat_marked (by decide) rfl (eight (Nat.le_of_not_lt large)) fits rest

/-! ## Lossless codecs -/

/-- Whether the codec reads a value back from its bytes, whatever stands behind them. -/
def Restores (c : Codec α) (a : α) : Prop := ∀ rest, c.decode (c.encode a ++ rest) = some (a, rest)

/-- A codec that reads back all values whose bytes can be counted, and writes some byte for each. -/
structure Lossless (c : Codec α) : Prop where
  restores : ∀ {a}, (c.encode a).length < capacity 8 → c.Restores a
  nonempty : ∀ a, 0 < (c.encode a).length

theorem restores_nat {n : Nat} (fits : n < capacity 8) : nat.Restores n :=
  decodeNat_encodeNat (by decide) (fun _ => by decide) (fun _ => by decide) fits

theorem restores_tag {n : Nat} (fits : n < capacity 4) : tag.Restores n := by
  have below : capacity 4 < capacity 8 := by decide
  refine decodeNat_encodeNat (by decide) (fun _ => by decide) (fun large => ?_)
    (Nat.lt_trans fits below)
  exact (Nat.not_lt.mpr large fits).elim

theorem length_encodeNat_pos (n : Nat) : 0 < (encodeNat n).length := by
  unfold encodeNat
  repeat' split
  all_goals simp

theorem restores_pair {a : Codec α} {b : Codec β} {x : α} {y : β} (first : a.Restores x)
    (second : b.Restores y) : (pair a b).Restores (x, y) := by
  intro rest
  simp only [pair, List.append_assoc, first (b.encode y ++ rest), second rest, Option.bind_eq_bind,
    Option.bind_some]
  rfl

theorem restores_map {c : Codec α} {ofα : α → β} {toα : β → α} {b : β} (inner : c.Restores (toα b))
    (inverse : ofα (toα b) = b) : (c.map ofα toα).Restores b := by
  intro rest
  simp only [map, inner rest, Option.bind_eq_bind, Option.bind_some, inverse]
  rfl

theorem Lossless.pair {a : Codec α} {b : Codec β} (ha : a.Lossless) (hb : b.Lossless) :
    (pair a b).Lossless where
  restores {p} short := by
    simp only [Codec.pair, List.length_append] at short
    exact restores_pair (ha.restores (by omega)) (hb.restores (by omega))
  nonempty p := by
    have := ha.nonempty p.1
    simp only [Codec.pair, List.length_append]
    omega

theorem Lossless.map {c : Codec α} (hc : c.Lossless) {ofα : α → β} {toα : β → α}
    (inverse : ∀ b, ofα (toα b) = b) : (c.map ofα toα).Lossless where
  restores short := restores_map (hc.restores short) (inverse _)
  nonempty b := hc.nonempty (toα b)

theorem lossless_choice {members : List α} {rank : α → Nat}
    (ranked : ∀ a, members[rank a]? = some a) (few : members.length ≤ capacity 4) :
    (choice members rank).Lossless where
  restores {a} _ rest := by
    have fits : rank a < capacity 4 :=
      Nat.lt_of_lt_of_le (List.getElem?_eq_some_iff.mp (ranked a)).1 few
    simp only [choice, restores_tag fits rest, Option.bind_eq_bind, Option.bind_some, ranked]
    rfl
  nonempty a := length_encodeNat_pos (rank a)

theorem lossless_bool : bool.Lossless where
  restores {b} _ rest := by cases b <;> rfl
  nonempty _ := Nat.one_pos

theorem fromUTF8?_bytes (s : String) : String.fromUTF8? ⟨(Key.bytes s).toArray⟩ = some s := by
  have encoded : s.toByteArray = s.toList.utf8Encode := by
    rw [← String.toByteArray_ofList, String.ofList_toList]
  have bytes : (⟨(Key.bytes s).toArray⟩ : ByteArray) = s.toByteArray := by
    rw [encoded]
    exact ByteArray.ext List.data_toByteArray.symm
  rw [bytes, String.fromUTF8?, dif_pos s.isValidUTF8]
  rfl

theorem lossless_string : string.Lossless where
  restores {s} short rest := by
    simp only [string, List.length_append] at short
    have counted := restores_nat (n := (Key.bytes s).length) (by omega) (Key.bytes s ++ rest)
    simp only [string, List.append_assoc, counted, Option.bind_eq_bind, Option.bind_some,
      split?_append, fromUTF8?_bytes]
    rfl
  nonempty s := by
    have := length_encodeNat_pos (Key.bytes s).length
    simp only [string, List.length_append, nat]
    omega

theorem Lossless.length_le {c : Codec α} (hc : c.Lossless) (l : List α) :
    l.length ≤ (l.flatMap c.encode).length := by
  induction l with
  | nil => exact Nat.le_refl 0
  | cons a rest ih =>
    have := hc.nonempty a
    simp only [List.flatMap_cons, List.length_append, List.length_cons]
    omega

theorem Lossless.length_le_list {c : Codec α} (hc : c.Lossless) (l : List α) :
    l.length ≤ ((list c).encode l).length :=
  Nat.le_trans (hc.length_le l) (List.sublist_append_right _ _).length_le

theorem decodeItems_flatMap {c : Codec α} {l : List α} (items : ∀ a ∈ l, c.Restores a)
    (rest : List UInt8) :
    decodeItems c l.length (l.flatMap c.encode ++ rest) = some (l, rest) := by
  induction l with
  | nil => rfl
  | cons a l ih =>
    obtain ⟨first, others⟩ := List.forall_mem_cons.mp items
    simp only [List.length_cons, decodeItems, List.flatMap_cons, List.append_assoc,
      first (l.flatMap c.encode ++ rest), ih others, Option.bind_eq_bind, Option.bind_some]
    rfl

theorem Lossless.list {c : Codec α} (hc : c.Lossless) : (list c).Lossless where
  restores {l} short rest := by
    simp only [Codec.list, List.length_append] at short
    -- An item takes a byte at least, so the count is below the bound as well as every item.
    have shorter := hc.length_le l
    have counted := restores_nat (n := l.length) (by omega) (l.flatMap c.encode ++ rest)
    have items : ∀ a ∈ l, c.Restores a := by
      intro a member
      have part := (List.sublist_flatten_of_mem (List.mem_map_of_mem (f := c.encode) member)).length_le
      rw [← List.flatMap_def] at part
      exact hc.restores (by omega)
    simp only [Codec.list, List.append_assoc, counted, Option.bind_eq_bind, Option.bind_some,
      decodeItems_flatMap items]
  nonempty l := by
    have := length_encodeNat_pos l.length
    simp only [Codec.list, List.length_append, nat]
    omega

theorem Lossless.table {c : Codec β} (hc : c.Lossless) : (table c).Lossless :=
  (lossless_string.pair hc).list.map Table.ofList_entries

/-! ## The parts of a snapshot -/

theorem lossless_comparison : comparison.Lossless :=
  lossless_choice (fun op => by cases op <;> rfl) (by decide)

theorem lossless_literal : literal.Lossless :=
  ((lossless_choice (fun kind => by cases kind <;> rfl) (by decide)).pair lossless_string).map
    fun _ => rfl

/-- The number of an alternative is read back, and then what stands behind it. -/
theorem decode_alternative {c : Codec α} {a : α} {n : Nat} (hc : c.Lossless) (small : n < capacity 4)
    (short : (tag.encode n ++ c.encode a).length < capacity 8) (rest : List UInt8) :
    tag.decode (tag.encode n ++ (c.encode a ++ rest)) = some (n, c.encode a ++ rest) ∧
      c.decode (c.encode a ++ rest) = some (a, rest) :=
  ⟨restores_tag small _, hc.restores (Nat.lt_of_le_of_lt (by simp) short) rest⟩

theorem length_alternative_pos (c : Codec α) (n : Nat) (a : α) :
    0 < (tag.encode n ++ c.encode a).length := by
  have := length_encodeNat_pos n
  simp only [List.length_append, tag]
  omega

theorem lossless_operand : operand.Lossless where
  restores {a} short rest := by
    cases a with
    | literal l =>
      obtain ⟨number, inner⟩ := decode_alternative lossless_literal (by decide) short rest
      simp only [operand, List.append_assoc, number, inner, Option.bind_eq_bind, Option.bind_some]
      rfl
    | property name negated =>
      obtain ⟨number, inner⟩ :=
        decode_alternative (lossless_string.pair lossless_bool) (by decide) short rest
      simp only [operand, List.append_assoc, number, inner, Option.bind_eq_bind, Option.bind_some]
      rfl
  nonempty a := by cases a <;> exact length_alternative_pos _ _ _

theorem lossless_single : single.Lossless := lossless_string.pair lossless_string

theorem lossless_equality : equality.Lossless :=
  lossless_string.pair (lossless_operand.pair lossless_single)

theorem lossless_typed : typed.Lossless := lossless_string.pair (lossless_string.pair lossless_single)

theorem lossless_relational : relational.Lossless :=
  lossless_string.pair (lossless_comparison.pair (lossless_operand.pair lossless_string))

theorem lossless_rule : rule.Lossless where
  restores {r} short rest := by
    cases r with
    | truthy property flag =>
      obtain ⟨number, inner⟩ := decode_alternative lossless_single (by decide) short rest
      simp only [rule, List.append_assoc, number, inner, Option.bind_eq_bind, Option.bind_some]
      rfl
    | falsy property flag =>
      obtain ⟨number, inner⟩ := decode_alternative lossless_single (by decide) short rest
      simp only [rule, List.append_assoc, number, inner, Option.bind_eq_bind, Option.bind_some]
      rfl
    | equality property operand positive complement =>
      obtain ⟨number, inner⟩ := decode_alternative lossless_equality (by decide) short rest
      simp only [rule, List.append_assoc, number, inner, Option.bind_eq_bind, Option.bind_some]
      rfl
    | typeOf property typeName positive complement =>
      obtain ⟨number, inner⟩ := decode_alternative lossless_typed (by decide) short rest
      simp only [rule, List.append_assoc, number, inner, Option.bind_eq_bind, Option.bind_some]
      rfl
    | relational property op operand flag =>
      obtain ⟨number, inner⟩ := decode_alternative lossless_relational (by decide) short rest
      simp only [rule, List.append_assoc, number, inner, Option.bind_eq_bind, Option.bind_some]
      rfl
  nonempty r := by cases r <;> exact length_alternative_pos _ _ _

theorem lossless_options : options.Lossless :=
  (lossless_string.pair lossless_single).map fun _ => rfl

theorem lossless_dependents : dependents.Lossless :=
  (lossless_string.list.pair lossless_rule.list).map fun _ => rfl

theorem lossless_block : block.Lossless := lossless_single.map fun _ => rfl

/-- A snapshot is read back if its counts fit: the rest of it is lossless. -/
theorem restores_snapshot {s : Snapshot} (short : (snapshot.encode s).length < capacity 8)
    (properties : s.propertyCount < capacity 8) (rules : s.ruleCount < capacity 8)
    (blocks : s.blockCount < capacity 8) : snapshot.Restores s := by
  have data := lossless_string.pair (lossless_options.pair (lossless_string.list.pair
    (lossless_rule.list.table.pair (lossless_dependents.table.pair
      (lossless_string.pair lossless_block.list)))))
  refine restores_map (restores_pair ?_ ?_) rfl
  · exact restores_pair (restores_nat properties) (restores_pair (restores_nat rules) (restores_nat blocks))
  · refine data.restores (Nat.lt_of_le_of_lt ?_ short)
    exact (List.sublist_append_right _ _).length_le

end Codec

end StyleFlags
