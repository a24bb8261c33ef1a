import StyleFlags.Proofs.Restored

/-!
# Damaged bytes

Bytes of a sheet can be cut short, can have other bytes behind them, or can be
changed. The header says how long the payload is, so whatever is cut off is
missed before the payload is looked at, and whatever follows is passed over. The
checksum in the header is compared byte by byte.

Results:
1. `Snapshot.readPayload_cut`, `Snapshot.readPayload_append`, `Snapshot.readPayload_altered`: what is
   read when the payload behind its own header is cut short, is followed by more, or has a
   checksum that is not its own.
2. `Sheet.damage_detected`: so a sheet is read back from all of its bytes, with or without
   others behind them, and from nothing less.
-/

namespace StyleFlags

namespace Snapshot

variable {payload : List UInt8} (short : payload.length < Codec.capacity 4)

/-! ## Payloads behind their own header -/

/-- Within the header only the header is missed. -/
theorem readPayload_of_lt {bytes : List UInt8} (cut : bytes.length < headerSize) :
    readPayload bytes = .error (.lengthMismatch headerSize bytes.length) := by
  rw [readPayload, if_pos cut]

include short

/-- Cut anywhere, the bytes are refused for their length: within the header for that of the header, and
behind it for that of the payload. -/
theorem readPayload_cut {n : Nat} (cut : n < headerSize + payload.length) :
    readPayload ((header payload ++ payload).take n) =
      .error (if n < headerSize then .lengthMismatch headerSize n
        else .lengthMismatch payload.length (n - headerSize)) := by
  have left : ((header payload ++ payload).take n).length = n := by
    rw [List.length_take, List.length_append, length_header, Nat.min_eq_left (Nat.le_of_lt cut)]
  split
  · next inside => rw [readPayload_of_lt (left.symm ▸ inside), left]
  · next behind =>
    have whole : (header payload).take n = header payload := by
      refine List.take_of_length_le ?_
      rw [length_header]
      exact Nat.le_of_not_lt behind
    have missing : (payload.take (n - headerSize)).length = n - headerSize := by
      rw [List.length_take]
      omega
    rw [List.take_append, whole, length_header, header_eq, List.append_assoc,
      readPayload_front short (length_checksum payload), missing, if_pos (by omega)]

/-- What stands behind the payload is passed over. -/
theorem readPayload_append (tail : List UInt8) :
    readPayload (header payload ++ payload ++ tail) = .ok payload := by
  have long : ¬(payload ++ tail).length < payload.length := by simp
  rw [header_eq, List.append_assoc, List.append_assoc,
    readPayload_front short (length_checksum payload), if_neg long, List.take_left,
    if_neg (not_not_intro rfl)]

/-- A checksum that is not that of the payload is refused. -/
theorem readPayload_altered {sum : List UInt8} (full : sum.length = 16)
    (other : sum ≠ checksum payload) :
    readPayload (front payload.length ++ (sum ++ payload)) = .error .checksumMismatch := by
  rw [readPayload_front short full, if_neg (Nat.lt_irrefl _), List.take_length, if_pos other.symm]

end Snapshot

namespace Sheet

variable {s : Sheet}

/-! ## Sheets -/

theorem toBytes_eq (s : Sheet) :
    s.toBytes = Snapshot.front s.payload.length ++ (Snapshot.checksum s.payload ++ s.payload) :=
  List.append_assoc _ _ _

theorem ofBytes_of_error {bytes : List UInt8} {fault : SnapshotError}
    (refused : Snapshot.readPayload bytes = .error fault) : ofBytes bytes = .error fault := by
  rw [ofBytes, refused]
  rfl

/-- Changing a byte of the checksum changes nothing else, and leaves another checksum. -/
theorem set_toBytes {i : Nat} {byte : UInt8} (lower : 16 ≤ i) (upper : i < 32)
    (changed : s.toBytes[i]? ≠ some byte) :
    ∃ sum, sum.length = 16 ∧ sum ≠ Snapshot.checksum s.payload ∧
      s.toBytes.set i byte = Snapshot.front s.payload.length ++ (sum ++ s.payload) := by
  have place : i - 16 < (Snapshot.checksum s.payload).length := by
    rw [Snapshot.length_checksum]
    omega
  refine ⟨(Snapshot.checksum s.payload).set (i - 16) byte, by simp, fun same => changed ?_, ?_⟩
  · have there : ((Snapshot.checksum s.payload).set (i - 16) byte)[i - 16]? = some byte :=
      List.getElem?_set_self place
    rw [toBytes_eq, List.getElem?_append_right (by simpa using lower), Snapshot.length_front,
      List.getElem?_append_left place, ← same, there]
  · rw [toBytes_eq, List.set_append_right i byte (by simpa using lower), Snapshot.length_front,
      List.set_append_left (i - 16) byte place]

/-- Of a reachable sheet whose payload is shorter than 4 GiB, every strict prefix of its bytes is refused
for its length. The sheet is read back from its bytes whatever follows them. With one byte of the
checksum changed, they are refused. -/
theorem damage_detected (reachable : s.Reachable) (short : s.payload.length < 0x100000000) :
    (∀ n < s.toBytes.length, ofBytes (s.toBytes.take n) =
      .error (if n < Snapshot.headerSize then .lengthMismatch Snapshot.headerSize n
        else .lengthMismatch s.payload.length (n - Snapshot.headerSize))) ∧
    (∃ restored, ofBytes s.toBytes = .ok restored ∧
      ∀ tail, ofBytes (s.toBytes ++ tail) = .ok restored) ∧
    ∀ i byte, 16 ≤ i → i < 32 → s.toBytes[i]? ≠ some byte →
      ofBytes (s.toBytes.set i byte) = .error .checksumMismatch := by
  have bytes : s.toBytes = Snapshot.header s.payload ++ s.payload := rfl
  refine ⟨fun n cut => ?_, ?_, fun i byte lower upper changed => ?_⟩
  · rw [bytes, List.length_append, Snapshot.length_header] at cut
    exact ofBytes_of_error (Snapshot.readPayload_cut short cut)
  · have read := reachable.wellFormed.ofBytes_toBytes short
    refine ⟨_, read, fun tail => ?_⟩
    rw [← read, ofBytes, ofBytes, bytes, Snapshot.readPayload_append short,
      Snapshot.readPayload_header short]
  · obtain ⟨sum, full, other, spelled⟩ := set_toBytes lower upper changed
    rw [spelled]
    exact ofBytes_of_error (Snapshot.readPayload_altered short full other)

/-- The payload has 263 bytes, so its length takes two bytes of its field. The byte that is changed is
the last of the checksum. -/
theorem damage_detected_exUsed :
    ofBytes (exUsed.toBytes.take 31) = .error (.lengthMismatch 32 31) ∧
      ofBytes (exUsed.toBytes.take 294) = .error (.lengthMismatch 263 262) ∧
      (∃ restored, ofBytes exUsed.toBytes = .ok restored ∧
        ofBytes (exUsed.toBytes ++ [0, 255]) = .ok restored) ∧
      ofBytes (exUsed.toBytes.set 31 (exUsed.toBytes.getD 31 0 + 1)) = .error .checksumMismatch := by
  have total : exUsed.toBytes.length = 295 := by
    rw [toBytes_eq, List.length_append, List.length_append, Snapshot.length_front,
      Snapshot.length_checksum, length_payload_exUsed]
  have changed : exUsed.toBytes[31]? ≠ some (exUsed.toBytes.getD 31 0 + 1) := by
    have there : 31 < exUsed.toBytes.length := by rw [total]; decide
    rw [List.getD_eq_getElem?_getD, List.getElem?_eq_getElem there]
    simp
  obtain ⟨cut, ⟨restored, read, followed⟩, altered⟩ :=
    damage_detected reachable_exUsed (by rw [length_payload_exUsed]; decide)
  refine ⟨cut 31 (by rw [total]; decide), ?_, ⟨restored, read, followed _⟩, ?_⟩
  · rw [cut 294 (by rw [total]; decide), length_payload_exUsed]
    rfl
  · exact altered 31 _ (by decide) (by decide) changed

end Sheet

end StyleFlags
