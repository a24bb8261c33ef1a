import StyleFlags.Snapshot.Valid

/-!
# Snapshots as bytes

A snapshot is a header of 32 bytes and a payload. The header holds a mark, the
version of the format, the length of the payload and sixteen bytes of its
digest. Bytes behind the payload are passed over.
-/

namespace StyleFlags

/-- Why bytes are not read as a sheet. -/
inductive SnapshotError where
  | badMagic
  | incompatibleVersion (found : Nat)
  | checksumMismatch
  | lengthMismatch (expected actual : Nat)
  | decode
  | invalid (violation : Violation)
deriving DecidableEq, Repr

namespace Snapshot

/-- What every snapshot begins with. -/
def magic : List UInt8 := [0x43, 0x53, 0x54, 0x59]

/-- The version of the format. -/
def formatVersion : Nat := 1

/-- The version of the writer, which readers pass over. -/
def writerVersion : Nat := 1

/-- The number of bytes of a header. -/
def headerSize : Nat := 32

/-- The part of the digest of a payload that stands in the header. -/
def checksum (payload : List UInt8) : List UInt8 := (Digest.digest payload).take 16

/-- The header of a payload. Four bytes after the versions are kept free. -/
def header (payload : List UInt8) : List UInt8 :=
  magic ++ Codec.littleEndian 2 formatVersion ++ Codec.littleEndian 2 writerVersion ++
    Codec.littleEndian 4 0 ++ Codec.littleEndian 4 payload.length ++ checksum payload

end Snapshot

def SnapshotError.message : SnapshotError → String
  | badMagic => "not a condstyle snapshot: invalid magic bytes"
  | incompatibleVersion found =>
    "incompatible format version: blob is v" ++ toString found ++ ", engine supports v" ++
      toString Snapshot.formatVersion
  | checksumMismatch => "integrity check failed: BLAKE3 checksum mismatch"
  | lengthMismatch expected actual =>
    "payload length mismatch: expected " ++ toString expected ++ " bytes, got " ++ toString actual
  | decode => "failed to decode payload"
  | invalid violation => "validation failed: " ++ violation.message

namespace Snapshot

/-- A field of a header. -/
def field (bytes : List UInt8) (start length : Nat) : List UInt8 := (bytes.drop start).take length

/-- The payload of a snapshot, once its header agrees with it. -/
def readPayload (bytes : List UInt8) : Except SnapshotError (List UInt8) :=
  if bytes.length < headerSize then .error (.lengthMismatch headerSize bytes.length)
  else if field bytes 0 4 ≠ magic then .error .badMagic
  else
    let version := Codec.ofLittleEndian (field bytes 4 2)
    if version ≠ formatVersion then .error (.incompatibleVersion version)
    else
      let length := Codec.ofLittleEndian (field bytes 12 4)
      if bytes.length < headerSize + length then
        .error (.lengthMismatch length (bytes.length - headerSize))
      else
        let payload := field bytes headerSize length
        if checksum payload ≠ field bytes 16 16 then .error .checksumMismatch else .ok payload

end Snapshot

namespace Sheet

/-- A sheet with its blocks, as bytes. -/
def toBytes (s : Sheet) : List UInt8 :=
  let payload := Codec.snapshot.encode (Snapshot.ofSheet s)
  Snapshot.header payload ++ payload

/-- Reads a sheet back from bytes. -/
def ofBytes (bytes : List UInt8) : Except SnapshotError Sheet := do
  let payload ← Snapshot.readPayload bytes
  match Codec.snapshot.decode payload with
  | none => throw .decode
  | some (snapshot, _) =>
    match snapshot.validate with
    | .error violation => throw (.invalid violation)
    | .ok () => return snapshot.toSheet

end Sheet

end StyleFlags
