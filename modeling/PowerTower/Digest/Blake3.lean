/-!
# BLAKE3

The unkeyed BLAKE3 hash of a byte string, with 32 bytes of output. The input is cut into chunks of 1024 bytes and
these into blocks of 64. A chunk is compressed block by block into a chaining value of eight words; the chunks
are the leaves of a binary tree whose left subtrees are as large as a power of two allows, and a parent
compresses the chaining values of its children. The last compression of the root is the output.
-/

namespace PowerTower.Blake3

/-- A chaining value. -/
abbrev Chain := Vector UInt32 8

/-- A block of input, and the state of the compression. -/
abbrev Block := Vector UInt32 16

/-- The initial chaining value. -/
def iv : Chain :=
  #v[0x6A09E667, 0xBB67AE85, 0x3C6EF372, 0xA54FF53A, 0x510E527F, 0x9B05688C, 0x1F83D9AB, 0x5BE0CD19]

/-- The order in which a round takes the words of the round before. -/
def permutation : Vector (Fin 16) 16 := #v[2, 6, 3, 10, 7, 0, 4, 13, 1, 11, 12, 5, 9, 14, 15, 8]

/-- The first block of a chunk. -/
def chunkStart : UInt32 := 1

/-- The last block of a chunk. -/
def chunkEnd : UInt32 := 2

/-- An inner node of the tree. -/
def parent : UInt32 := 4

/-- The last compression of all. -/
def root : UInt32 := 8

/-- Turns a word to the right. -/
def rotateRight (w : UInt32) (k : UInt32) : UInt32 := (w >>> k) ||| (w <<< (32 - k))

/-- The quarter round, on four words of the state with two words of the block. -/
def quarter (v : Block) (a b c d : Fin 16) (x y : UInt32) : Block :=
  let v := v.set a (v[a] + v[b] + x)
  let v := v.set d (rotateRight (v[d] ^^^ v[a]) 16)
  let v := v.set c (v[c] + v[d])
  let v := v.set b (rotateRight (v[b] ^^^ v[c]) 12)
  let v := v.set a (v[a] + v[b] + y)
  let v := v.set d (rotateRight (v[d] ^^^ v[a]) 8)
  let v := v.set c (v[c] + v[d])
  v.set b (rotateRight (v[b] ^^^ v[c]) 7)

/-- One round: the columns of the state, then its diagonals. -/
def round (v m : Block) : Block :=
  let v := quarter v 0 4 8 12 m[0] m[1]
  let v := quarter v 1 5 9 13 m[2] m[3]
  let v := quarter v 2 6 10 14 m[4] m[5]
  let v := quarter v 3 7 11 15 m[6] m[7]
  let v := quarter v 0 5 10 15 m[8] m[9]
  let v := quarter v 1 6 11 12 m[10] m[11]
  let v := quarter v 2 7 8 13 m[12] m[13]
  quarter v 3 4 9 14 m[14] m[15]

/-- The words of the block as the next round takes them. -/
def permute (m : Block) : Block := permutation.map fun i => m[i]

/-- Some rounds, with the words of the block in a new order each time. -/
def rounds : Nat → Block → Block → Block
  | 0, v, _ => v
  | k + 1, v, m => rounds k (round v m) (permute m)

/-- A compression that is yet to be made. -/
structure Pending where
  chain : Chain
  block : Block
  /-- The number of the chunk. -/
  counter : UInt64
  /-- The number of bytes in the block. -/
  length : UInt32
  flags : UInt32

/-- Compresses a block into a chaining value. -/
def Pending.compress (p : Pending) (flags : UInt32) : Chain :=
  let h := p.chain
  let start : Block :=
    #v[h[0], h[1], h[2], h[3], h[4], h[5], h[6], h[7], iv[0], iv[1], iv[2], iv[3],
      p.counter.toUInt32, (p.counter >>> 32).toUInt32, p.length, p.flags ||| flags]
  let v := rounds 7 start p.block
  #v[v[0] ^^^ v[8], v[1] ^^^ v[9], v[2] ^^^ v[10], v[3] ^^^ v[11],
    v[4] ^^^ v[12], v[5] ^^^ v[13], v[6] ^^^ v[14], v[7] ^^^ v[15]]

/-- Four bytes as a word, the lowest first. -/
def word (bytes : List UInt8) : UInt32 := bytes.foldr (fun b w => (w <<< 8) ||| b.toUInt32) 0

/-- Up to 64 bytes as a block, filled up with zeros. -/
def blockOf (bytes : List UInt8) : Block := Vector.ofFn fun i => word ((bytes.drop (4 * i.val)).take 4)

/-- Compresses all blocks of a chunk but the last. -/
def chunk (counter : UInt64) (chain : Chain) (flags : UInt32) (bytes : List UInt8) : Pending :=
  if bytes.length ≤ 64 then
    { chain, block := blockOf bytes, counter, length := bytes.length.toUInt32, flags := flags ||| chunkEnd }
  else
    let p : Pending := { chain, block := blockOf (bytes.take 64), counter, length := 64, flags }
    chunk counter (p.compress 0) 0 (bytes.drop 64)
termination_by bytes.length
decreasing_by simp only [List.length_drop]; omega

/-- The number of bytes in the left subtree over more than one chunk: the largest power of two of chunks that
leaves something on the right. -/
def leftLength (size : Nat) : Nat := 1 <<< (size - 1).log2

theorem leftLength_lt {size : Nat} (h : 1024 < size) : leftLength size < size := by
  have := Nat.log2_self_le (n := size - 1) (by omega)
  rw [leftLength, Nat.one_shiftLeft]
  omega

theorem leftLength_pos (size : Nat) : 0 < leftLength size := by
  rw [leftLength, Nat.one_shiftLeft]
  exact Nat.two_pow_pos _

/-- The tree over some bytes, of which the first chunk has the number `counter`, up to its last compression. -/
def tree (counter : Nat) (bytes : List UInt8) : Pending :=
  if bytes.length ≤ 1024 then chunk counter.toUInt64 iv chunkStart bytes
  else
    let k := leftLength bytes.length
    let left := (tree counter (bytes.take k)).compress 0
    let right := (tree (counter + k / 1024) (bytes.drop k)).compress 0
    { chain := iv, block := left ++ right, counter := 0, length := 64, flags := parent }
termination_by bytes.length
decreasing_by
  · have : leftLength bytes.length < bytes.length := leftLength_lt (by omega)
    simp only [List.length_take]
    omega
  · have := leftLength_pos bytes.length
    simp only [List.length_drop]
    omega

/-- The bytes of a word, the lowest first. -/
def bytesOf (w : UInt32) : List UInt8 :=
  [w.toUInt8, (w >>> 8).toUInt8, (w >>> 16).toUInt8, (w >>> 24).toUInt8]

/-- The hash of a byte string. -/
def hash (bytes : List UInt8) : List UInt8 := ((tree 0 bytes).compress root).toList.flatMap bytesOf

end PowerTower.Blake3
