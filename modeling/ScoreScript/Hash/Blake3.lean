import ScoreScript.Numeric.LittleEndian

/-!
# The BLAKE3 hash

The input is cut into chunks of 1024 bytes and each chunk into blocks of 64.  The blocks of a chunk
are compressed one after another, and the results of the chunks are joined pairwise in a binary
tree, in which the left part is as large a power of two as leaves something for the right.  The last
compression gives the hash.

* `Blake3.compress` — seven rounds over a chaining value and a block;
* `Blake3.chunkNode`, `Blake3.treeNode` — the last compression of a chunk and of a list of chunks;
* `Blake3.hash` — thirty-two bytes; `Blake3.hash_length` says so.
-/

namespace ScoreScript.Blake3

/-- Eight words that one compression hands to the next. -/
abbrev Chaining := Vector UInt32 8

/-- Sixteen words of input or of working state. -/
abbrev Words := Vector UInt32 16

/-- The initial chaining value. -/
def initial : Chaining :=
  #v[0x6A09E667, 0xBB67AE85, 0x3C6EF372, 0xA54FF53A, 0x510E527F, 0x9B05688C, 0x1F83D9AB, 0x5BE0CD19]

/-- Flag of the first block of a chunk. -/
def chunkStart : UInt32 := 1

/-- Flag of the last block of a chunk. -/
def chunkEnd : UInt32 := 2

/-- Flag of a join of two results. -/
def parent : UInt32 := 4

/-- Flag of the last compression of all. -/
def rootFlag : UInt32 := 8

/-! ### Compression -/

/-- Rotation to the right. -/
def rotateRight (x n : UInt32) : UInt32 :=
  (x >>> n) ||| (x <<< (32 - n))

/-- Mixes two words of input into four words of state. -/
def mix (v : Words) (a b c d : Fin 16) (x y : UInt32) : Words :=
  let v := v.set a (v[a] + v[b] + x)
  let v := v.set d (rotateRight (v[d] ^^^ v[a]) 16)
  let v := v.set c (v[c] + v[d])
  let v := v.set b (rotateRight (v[b] ^^^ v[c]) 12)
  let v := v.set a (v[a] + v[b] + y)
  let v := v.set d (rotateRight (v[d] ^^^ v[a]) 8)
  let v := v.set c (v[c] + v[d])
  v.set b (rotateRight (v[b] ^^^ v[c]) 7)

/-- One round: the columns, then the diagonals. -/
def round (v m : Words) : Words :=
  let v := mix v 0 4 8 12 m[0] m[1]
  let v := mix v 1 5 9 13 m[2] m[3]
  let v := mix v 2 6 10 14 m[4] m[5]
  let v := mix v 3 7 11 15 m[6] m[7]
  let v := mix v 0 5 10 15 m[8] m[9]
  let v := mix v 1 6 11 12 m[10] m[11]
  let v := mix v 2 7 8 13 m[12] m[13]
  mix v 3 4 9 14 m[14] m[15]

/-- The order of the input words in the next round. -/
def permute (m : Words) : Words :=
  #v[m[2], m[6], m[3], m[10], m[7], m[0], m[4], m[13],
    m[1], m[11], m[12], m[5], m[9], m[14], m[15], m[8]]

/-- As many rounds as asked for, the input permuted between them. -/
def rounds : Nat → Words → Words → Words
  | 0, v, _ => v
  | n + 1, v, m => rounds n (round v m) (permute m)

/-- What one compression works on. -/
structure Node where
  chaining : Chaining
  words : Words
  counter : Nat
  length : Nat
  flags : UInt32

/-- The state before the first round. -/
def Node.start (n : Node) : Words :=
  let head : Vector UInt32 4 := #v[initial[0], initial[1], initial[2], initial[3]]
  let tail : Vector UInt32 4 := #v[UInt32.ofNat n.counter, UInt32.ofNat (n.counter / 2 ^ (32 : Nat)),
    UInt32.ofNat n.length, n.flags]
  n.chaining ++ (head ++ tail)

/-- The chaining value after seven rounds: the lower half of the state combined with the upper. -/
def compress (n : Node) : Chaining :=
  let v := rounds 7 n.start n.words
  #v[v[0] ^^^ v[8], v[1] ^^^ v[9], v[2] ^^^ v[10], v[3] ^^^ v[11],
    v[4] ^^^ v[12], v[5] ^^^ v[13], v[6] ^^^ v[14], v[7] ^^^ v[15]]

/-! ### Chunks -/

/-- The word of four bytes at a position; bytes that are missing count as zero. -/
def wordAt (bytes : List UInt8) (index : Nat) : UInt32 :=
  UInt32.ofNat (LittleEndian.decode ((bytes.drop (4 * index)).take 4))

/-- The sixteen words of a block. -/
def blockWords (bytes : List UInt8) : Words :=
  Vector.ofFn fun i => wordAt bytes i

/-- The pieces of a list, `size + 1` long but for the last; the empty list is one empty piece. -/
def pieces (size : Nat) (bytes : List UInt8) : List (List UInt8) :=
  if bytes.length ≤ size + 1 then [bytes]
  else bytes.take (size + 1) :: pieces size (bytes.drop (size + 1))
termination_by bytes.length
decreasing_by rw [List.length_drop]; omega

/-- The last compression of the blocks of a chunk; `flag` marks the first block. -/
def chunkFrom (counter : Nat) (flag : UInt32) (chaining : Chaining) : List (List UInt8) → Node
  | [] => ⟨chaining, blockWords [], counter, 0, flag ||| chunkEnd⟩
  | [last] => ⟨chaining, blockWords last, counter, last.length, flag ||| chunkEnd⟩
  | block :: rest =>
    chunkFrom counter 0 (compress ⟨chaining, blockWords block, counter, block.length, flag⟩) rest

/-- The last compression of a chunk at a position. -/
def chunkNode (counter : Nat) (chunk : List UInt8) : Node :=
  chunkFrom counter chunkStart initial (pieces 63 chunk)

/-! ### The tree of chunks -/

/-- The number of chunks on the left of `n`, when there are at least two: the greatest power of two
below `n`. -/
def leftCount (n : Nat) : Nat :=
  2 ^ (n - 1).log2

theorem leftCount_pos (n : Nat) : 0 < leftCount n :=
  Nat.two_pow_pos _

theorem leftCount_lt {n : Nat} (h : 2 ≤ n) : leftCount n < n := by
  have := Nat.log2_self_le (n := n - 1) (by omega)
  unfold leftCount
  omega

/-- The compression that joins two results. -/
def join (left right : Node) : Node :=
  ⟨initial, compress left ++ compress right, 0, 64, parent⟩

/-- The last compression of the chunks from a position on. -/
def treeNode (counter : Nat) (chunks : List (List UInt8)) : Node :=
  match _hchunks : chunks with
  | [] => chunkNode counter []
  | [chunk] => chunkNode counter chunk
  | first :: second :: rest =>
    let count := leftCount (rest.length + 2)
    join (treeNode counter ((first :: second :: rest).take count))
      (treeNode (counter + count) ((first :: second :: rest).drop count))
termination_by chunks.length
decreasing_by
  · have := leftCount_lt (n := rest.length + 2) (by omega)
    rw [List.length_take]
    simp only [List.length_cons]
    omega
  · have := leftCount_pos (rest.length + 2)
    rw [List.length_drop]
    simp only [List.length_cons]
    omega

/-- The bytes of a chaining value. -/
def chainingBytes (c : Chaining) : List UInt8 :=
  c.toList.flatMap fun word => LittleEndian.encode 4 word.toNat

/-- The hash of a list of bytes. -/
def hash (bytes : List UInt8) : List UInt8 :=
  let last := treeNode 0 (pieces 1023 bytes)
  chainingBytes (compress { last with flags := last.flags ||| rootFlag })

theorem wordBytes_length (words : List UInt32) :
    (words.flatMap fun word => LittleEndian.encode 4 word.toNat).length = 4 * words.length := by
  induction words with
  | nil => rfl
  | cons word rest ih =>
    rw [List.flatMap_cons, List.length_append, LittleEndian.encode_length, ih, List.length_cons]
    omega

theorem chainingBytes_length (c : Chaining) : (chainingBytes c).length = 32 := by
  rw [chainingBytes, wordBytes_length, Vector.length_toList]

theorem hash_length (bytes : List UInt8) : (hash bytes).length = 32 :=
  chainingBytes_length _

end ScoreScript.Blake3
