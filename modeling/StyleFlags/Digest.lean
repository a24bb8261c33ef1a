/-!
# Digests

The BLAKE3 hash of a sequence of bytes, 32 bytes long. The input is cut into
chunks of 1024 bytes, each hashed block by block, and the chunks are joined
pairwise into a binary tree whose left side is always as large as a power of
two allows.
-/

namespace StyleFlags.Digest

/-- Eight words that carry the hash from one block to the next. -/
abbrev Chaining := Vector UInt32 8

/-- The sixteen words of a block of 64 bytes. -/
abbrev Words := Vector UInt32 16

/-- The chaining value that everything starts from. -/
def initial : Chaining :=
  #v[0x6a09e667, 0xbb67ae85, 0x3c6ef372, 0xa54ff53a, 0x510e527f, 0x9b05688c, 0x1f83d9ab,
    0x5be0cd19]

/-- The order in which the next round takes the words of a block. -/
def permutation : Vector (Fin 16) 16 := #v[2, 6, 3, 10, 7, 0, 4, 13, 1, 11, 12, 5, 9, 14, 15, 8]

def chunkStart : UInt32 := 1
def chunkEnd : UInt32 := 2
def parentFlag : UInt32 := 4
def rootFlag : UInt32 := 8

def rotate (x n : UInt32) : UInt32 := (x >>> n) ||| (x <<< (32 - n))

/-- Mixes two words of a block into four words of the state. -/
def mix (v : Words) (a b c d : Fin 16) (x y : UInt32) : Words :=
  let va := v[a] + v[b] + x
  let vd := rotate (v[d] ^^^ va) 16
  let vc := v[c] + vd
  let vb := rotate (v[b] ^^^ vc) 12
  let va := va + vb + y
  let vd := rotate (vd ^^^ va) 8
  let vc := vc + vd
  let vb := rotate (vb ^^^ vc) 7
  (((v.set a va).set b vb).set c vc).set d vd

/-- One round: the columns of the state, then its diagonals. -/
def round (v m : Words) : Words :=
  let v := mix v 0 4 8 12 m[0] m[1]
  let v := mix v 1 5 9 13 m[2] m[3]
  let v := mix v 2 6 10 14 m[4] m[5]
  let v := mix v 3 7 11 15 m[6] m[7]
  let v := mix v 0 5 10 15 m[8] m[9]
  let v := mix v 1 6 11 12 m[10] m[11]
  let v := mix v 2 7 8 13 m[12] m[13]
  mix v 3 4 9 14 m[14] m[15]

/-- `n` rounds, with the words of the block permuted between them. -/
def rounds (v m : Words) : Nat → Words
  | 0 => v
  | n + 1 => rounds (round v m) (permutation.map (m[·])) n

/-- A block about to be compressed. -/
structure Node where
  chaining : Chaining
  block : Words
  counter : Nat
  length : Nat
  flags : UInt32

namespace Node

/-- The chaining value after the block. -/
def chain (n : Node) : Chaining :=
  let low := n.counter.toUInt32
  let high := (n.counter >>> 32).toUInt32
  let h := n.chaining
  let state : Words :=
    #v[h[0], h[1], h[2], h[3], h[4], h[5], h[6], h[7], initial[0], initial[1], initial[2],
      initial[3], low, high, n.length.toUInt32, n.flags]
  let v := rounds state n.block 7
  #v[v[0] ^^^ v[8], v[1] ^^^ v[9], v[2] ^^^ v[10], v[3] ^^^ v[11], v[4] ^^^ v[12], v[5] ^^^ v[13],
    v[6] ^^^ v[14], v[7] ^^^ v[15]]

end Node

/-- A word of up to four bytes, the lowest first. -/
def wordOfBytes (bytes : List UInt8) : UInt32 :=
  bytes.foldr (fun byte word => word <<< 8 ||| byte.toUInt32) 0

/-- The four bytes of a word, the lowest first. -/
def bytesOfWord (word : UInt32) : List UInt8 :=
  [word.toUInt8, (word >>> 8).toUInt8, (word >>> 16).toUInt8, (word >>> 24).toUInt8]

/-- The words of a block of up to 64 bytes, filled up with zeros. -/
def words (bytes : List UInt8) : Words :=
  Vector.ofFn fun i => wordOfBytes ((bytes.drop (4 * i.val)).take 4)

/-- The last block of a chunk, after all blocks before it. -/
def chunk (counter : Nat) (chaining : Chaining) (flags : UInt32) (bytes : List UInt8) : Node :=
  if bytes.length ≤ 64 then ⟨chaining, words bytes, counter, bytes.length, flags ||| chunkEnd⟩
  else
    let block : Node := ⟨chaining, words (bytes.take 64), counter, 64, flags⟩
    chunk counter block.chain 0 (bytes.drop 64)
termination_by bytes.length
decreasing_by
  rw [List.length_drop]
  omega

/-- The number of bytes on the left of a tree: as many chunks as the largest power of two that
leaves something on the right. -/
def leftLength (length : Nat) : Nat := 1024 <<< ((length - 1) / 1024).log2

theorem leftLength_lt {length : Nat} (large : 1024 < length) : leftLength length < length := by
  have nonzero : (length - 1) / 1024 ≠ 0 := by omega
  have bound := Nat.log2_self_le nonzero
  unfold leftLength
  omega

theorem leftLength_pos (length : Nat) : 0 < leftLength length := by
  have := Nat.two_pow_pos ((length - 1) / 1024).log2
  unfold leftLength
  omega

/-- The top of the tree over the bytes, whose first chunk has the number `counter`. -/
def tree (counter : Nat) (bytes : List UInt8) : Node :=
  if bytes.length ≤ 1024 then chunk counter initial chunkStart bytes
  else
    let left := leftLength bytes.length
    let first := (tree counter (bytes.take left)).chain
    let second := (tree (counter + left / 1024) (bytes.drop left)).chain
    ⟨initial, first ++ second, 0, 64, parentFlag⟩
termination_by bytes.length
decreasing_by
  · have := @leftLength_lt bytes.length (by omega)
    rw [List.length_take]
    omega
  · have := leftLength_pos bytes.length
    rw [List.length_drop]
    omega

/-- The digest of a sequence of bytes. -/
def digest (bytes : List UInt8) : List UInt8 :=
  let top := tree 0 bytes
  let root : Node := { top with counter := 0, flags := top.flags ||| rootFlag }
  root.chain.toList.flatMap bytesOfWord

theorem length_flatMap_bytesOfWord (l : List UInt32) :
    (l.flatMap bytesOfWord).length = 4 * l.length := by
  induction l with
  | nil => rfl
  | cons word rest ih =>
    rw [List.flatMap_cons, List.length_append, ih, List.length_cons]
    simp only [bytesOfWord, List.length_cons, List.length_nil]
    omega

@[simp] theorem length_digest (bytes : List UInt8) : (digest bytes).length = 32 := by
  rw [digest, length_flatMap_bytesOfWord, Vector.length_toList]

/-- Bytes in lower-case hexadecimal digits. -/
def hex (bytes : List UInt8) : List Char :=
  bytes.flatMap fun byte => [Nat.digitChar (byte.toNat / 16), Nat.digitChar (byte.toNat % 16)]

end StyleFlags.Digest
