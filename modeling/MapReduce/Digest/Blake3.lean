/-
# The BLAKE3 hash function

A byte string is cut into chunks of 1024 bytes and each chunk into blocks of 64.
The blocks of a chunk are compressed one after the other into a chaining value
of eight words; chaining values are joined in pairs up a binary tree whose left
subtrees are complete. The last compression, at the root, carries a flag of its
own, so a `Node` is kept uncompressed until it is known whether it is the root.

Key definitions: `Blake3.compress`, `Blake3.chunk`, `Blake3.tree`,
`Blake3.hash`.
-/
import MapReduce.Text.Bytes

namespace MapReduce

namespace Blake3

/-- A chaining value. -/
structure Chain where
  (c0 c1 c2 c3 c4 c5 c6 c7 : UInt32)

/-- A message block, or the state of a compression. -/
structure Block where
  (w0 w1 w2 w3 w4 w5 w6 w7 w8 w9 w10 w11 w12 w13 w14 w15 : UInt32)

/-- The initial chaining value. -/
def start : Chain :=
  ⟨0x6a09e667, 0xbb67ae85, 0x3c6ef372, 0xa54ff53a, 0x510e527f, 0x9b05688c, 0x1f83d9ab, 0x5be0cd19⟩

/-- Marks the first block of a chunk. -/
def chunkStart : UInt32 := 1

/-- Marks the last block of a chunk. -/
def chunkEnd : UInt32 := 2

/-- Marks the joining of two chaining values. -/
def parent : UInt32 := 4

/-- Marks the last compression. -/
def root : UInt32 := 8

/-- The words of a message in the order of the next round. -/
def Block.permute (m : Block) : Block :=
  ⟨m.w2, m.w6, m.w3, m.w10, m.w7, m.w0, m.w4, m.w13, m.w1, m.w11, m.w12, m.w5, m.w9, m.w14, m.w15,
    m.w8⟩

/-- The word turned right by `n` places. -/
@[inline] def rotateRight (x n : UInt32) : UInt32 := (x >>> n) ||| (x <<< (32 - n))

/-- Mixes two message words into four words of the state, and goes on with
them. -/
@[inline] def mix {α : Type} (a b c d x y : UInt32)
    (next : UInt32 → UInt32 → UInt32 → UInt32 → α) : α :=
  let a := a + b + x
  let d := rotateRight (d ^^^ a) 16
  let c := c + d
  let b := rotateRight (b ^^^ c) 12
  let a := a + b + y
  let d := rotateRight (d ^^^ a) 8
  let c := c + d
  let b := rotateRight (b ^^^ c) 7
  next a b c d

/-- One round: the columns of the state, then its diagonals. -/
def round (s m : Block) : Block :=
  mix s.w0 s.w4 s.w8 s.w12 m.w0 m.w1 fun w0 w4 w8 w12 =>
  mix s.w1 s.w5 s.w9 s.w13 m.w2 m.w3 fun w1 w5 w9 w13 =>
  mix s.w2 s.w6 s.w10 s.w14 m.w4 m.w5 fun w2 w6 w10 w14 =>
  mix s.w3 s.w7 s.w11 s.w15 m.w6 m.w7 fun w3 w7 w11 w15 =>
  mix w0 w5 w10 w15 m.w8 m.w9 fun w0 w5 w10 w15 =>
  mix w1 w6 w11 w12 m.w10 m.w11 fun w1 w6 w11 w12 =>
  mix w2 w7 w8 w13 m.w12 m.w13 fun w2 w7 w8 w13 =>
  mix w3 w4 w9 w14 m.w14 m.w15 fun w3 w4 w9 w14 =>
  ⟨w0, w1, w2, w3, w4, w5, w6, w7, w8, w9, w10, w11, w12, w13, w14, w15⟩

/-- `n` rounds, the message permuted between them. -/
def rounds : Nat → Block → Block → Block
  | 0, s, _ => s
  | n + 1, s, m => rounds n (round s m) m.permute

/-- The compression of a block into a chaining value. -/
def compress (cv : Chain) (m : Block) (counter length : Nat) (flags : UInt32) : Chain :=
  let s := rounds 7
    ⟨cv.c0, cv.c1, cv.c2, cv.c3, cv.c4, cv.c5, cv.c6, cv.c7, start.c0, start.c1, start.c2, start.c3,
      UInt32.ofNat counter, UInt32.ofNat (counter / Nat.pow 2 32), UInt32.ofNat length, flags⟩ m
  ⟨s.w0 ^^^ s.w8, s.w1 ^^^ s.w9, s.w2 ^^^ s.w10, s.w3 ^^^ s.w11, s.w4 ^^^ s.w12, s.w5 ^^^ s.w13,
    s.w6 ^^^ s.w14, s.w7 ^^^ s.w15⟩

/-- The words of a byte string, lowest byte first; missing bytes are zero. -/
def words : Bytes → List UInt32
  | [] => []
  | a :: b :: c :: d :: rest =>
    (a.toUInt32 ||| (b.toUInt32 <<< 8) ||| (c.toUInt32 <<< 16) ||| (d.toUInt32 <<< 24)) :: words rest
  | rest => [UInt32.ofNat (ofLittleEndian rest)]

/-- The block with the given bytes, filled up with zeros. -/
def block (bs : Bytes) : Block :=
  let ws := (words bs).toArray
  let w (i : Nat) : UInt32 := ws.getD i 0
  ⟨w 0, w 1, w 2, w 3, w 4, w 5, w 6, w 7, w 8, w 9, w 10, w 11, w 12, w 13, w 14, w 15⟩

/-- The block of two chaining values. -/
def Block.ofChains (a b : Chain) : Block :=
  ⟨a.c0, a.c1, a.c2, a.c3, a.c4, a.c5, a.c6, a.c7, b.c0, b.c1, b.c2, b.c3, b.c4, b.c5, b.c6, b.c7⟩

/-- The words of a chaining value. -/
def Chain.words (c : Chain) : Vector UInt32 8 := #v[c.c0, c.c1, c.c2, c.c3, c.c4, c.c5, c.c6, c.c7]

/-- A compression that still waits for its flags. -/
structure Node where
  chain : Chain
  block : Block
  counter : Nat
  length : Nat
  flags : UInt32

/-- The chaining value of a node inside the tree. -/
def Node.value (n : Node) : Chain := compress n.chain n.block n.counter n.length n.flags

/-- The chaining value of the root. -/
def Node.rootValue (n : Node) : Chain := compress n.chain n.block 0 n.length (n.flags ||| root)

/-- The last node of a chunk whose remaining bytes are `bs`. -/
def chunkFrom (counter : Nat) (cv : Chain) (flags : UInt32) (bs : Bytes) : Node :=
  if bs.drop 64 = [] then ⟨cv, block bs, counter, bs.length, flags ||| chunkEnd⟩
  else chunkFrom counter (compress cv (block (bs.take 64)) counter 64 flags) 0 (bs.drop 64)
termination_by bs.length
decreasing_by
  rename_i h
  simp only [List.drop_eq_nil_iff] at h
  simp only [List.length_drop]
  omega

/-- The node of chunk number `counter`. -/
def chunk (counter : Nat) (bs : Bytes) : Node := chunkFrom counter start chunkStart bs

/-- The node that joins two subtrees. -/
def join (left right : Node) : Node :=
  ⟨start, .ofChains left.value right.value, 0, 64, parent⟩

/-- The length of the left subtree: the largest power of two of chunks that
leaves something to the right. -/
def leftLength (n : Nat) : Nat := 1024 * Nat.pow 2 (Nat.log2 ((n - 1) / 1024))

/-- A left subtree is shorter than the whole. -/
theorem leftLength_lt {n : Nat} (h : 1024 < n) : leftLength n < n := by
  have h0 : (n - 1) / 1024 ≠ 0 := by omega
  have : Nat.pow 2 (Nat.log2 ((n - 1) / 1024)) ≤ (n - 1) / 1024 := Nat.log2_self_le h0
  unfold leftLength
  omega

/-- A left subtree holds at least a chunk. -/
theorem leftLength_pos (n : Nat) : 0 < leftLength n :=
  Nat.mul_pos (by decide) (Nat.two_pow_pos _)

/-- The tree over the first `n` bytes, whose first chunk has the number
`counter`, and the bytes after them. -/
def tree (counter n : Nat) (bs : Bytes) : Node × Bytes :=
  if n ≤ 1024 then (chunk counter (bs.take n), bs.drop n)
  else
    let k := leftLength n
    let (left, rest) := tree counter k bs
    let (right, rest) := tree (counter + k / 1024) (n - k) rest
    (join left right, rest)
termination_by n
decreasing_by
  · rename_i h
    exact leftLength_lt (Nat.lt_of_not_le h)
  · have := leftLength_pos n
    omega

/-- The 32 bytes of the hash of a byte string: the words of the root, lowest
byte first. -/
def hash (bs : Bytes) : Vector UInt8 32 :=
  let cv := (tree 0 bs.length bs).1.rootValue.words
  Vector.ofFn (fun i : Fin 32 => UInt8.ofNat (cv[i.val / 4].toNat / Nat.pow 256 (i.val % 4)))

end Blake3

end MapReduce
