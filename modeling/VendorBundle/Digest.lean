/-!
# BLAKE3 digests

The input is cut into chunks of 1024 bytes. Each chunk is compressed block by block, and the chunk
values are joined pairwise as the leaves of a binary tree whose left subtrees are full.
-/

namespace VendorBundle.Digest

/-- The chaining value that one compression hands to the next. -/
abbrev Chain := Vector UInt32 8

/-- A message block, and the working state of a compression. -/
abbrev Block := Vector UInt32 16

def initialChain : Chain :=
  #v[0x6A09E667, 0xBB67AE85, 0x3C6EF372, 0xA54FF53A, 0x510E527F, 0x9B05688C, 0x1F83D9AB, 0x5BE0CD19]

/-- Where each word of the next round's message stands in this round's. -/
def schedule : Vector (Fin 16) 16 := #v[2, 6, 3, 10, 7, 0, 4, 13, 1, 11, 12, 5, 9, 14, 15, 8]

def chunkStart : UInt32 := 1
def chunkEnd : UInt32 := 2
def parentNode : UInt32 := 4
def rootNode : UInt32 := 8

def rotateRight (word count : UInt32) : UInt32 := word >>> count ||| word <<< (32 - count)

/-- Mixes two message words into four words of the state. -/
def mix (state : Block) (a b c d : Fin 16) (x y : UInt32) : Block :=
  let va := state[a] + state[b] + x
  let vd := rotateRight (state[d] ^^^ va) 16
  let vc := state[c] + vd
  let vb := rotateRight (state[b] ^^^ vc) 12
  let va := va + vb + y
  let vd := rotateRight (vd ^^^ va) 8
  let vc := vc + vd
  let vb := rotateRight (vb ^^^ vc) 7
  (((state.set a va).set b vb).set c vc).set d vd

/-- Mixes the columns of the state, then its diagonals. -/
def round (state message : Block) : Block :=
  let state := mix state 0 4 8 12 message[0] message[1]
  let state := mix state 1 5 9 13 message[2] message[3]
  let state := mix state 2 6 10 14 message[4] message[5]
  let state := mix state 3 7 11 15 message[6] message[7]
  let state := mix state 0 5 10 15 message[8] message[9]
  let state := mix state 1 6 11 12 message[10] message[11]
  let state := mix state 2 7 8 13 message[12] message[13]
  mix state 3 4 9 14 message[14] message[15]

/-- The given number of rounds, with the message rearranged between them. -/
def rounds : Nat → Block → Block → Block
  | 0, state, _ => state
  | n + 1, state, message => rounds n (round state message) (schedule.map (message[·]))

/-- A compression that is ready to run. -/
structure Compression where
  chain : Chain
  block : Block
  counter : UInt64
  length : UInt32
  flags : UInt32

def Compression.run (c : Compression) : Chain :=
  let state : Block := #v[
    c.chain[0], c.chain[1], c.chain[2], c.chain[3], c.chain[4], c.chain[5], c.chain[6], c.chain[7],
    initialChain[0], initialChain[1], initialChain[2], initialChain[3],
    c.counter.toUInt32, (c.counter >>> 32).toUInt32, c.length, c.flags]
  let state := rounds 7 state c.block
  Vector.ofFn fun (i : Fin 8) => state[i.val] ^^^ state[i.val + 8]

/-- The byte at `index`, or zero past the end of the input. -/
def byteAt (bytes : ByteArray) (stop index : Nat) : UInt32 :=
  if index < stop then (bytes[index]?.getD 0).toUInt32 else 0

def wordAt (bytes : ByteArray) (stop index : Nat) : UInt32 :=
  byteAt bytes stop index ||| byteAt bytes stop (index + 1) <<< 8
    ||| byteAt bytes stop (index + 2) <<< 16 ||| byteAt bytes stop (index + 3) <<< 24

/-- The sixteen little-endian words from `start`, zero from `stop` on. -/
def blockAt (bytes : ByteArray) (start stop : Nat) : Block :=
  Vector.ofFn fun (i : Fin 16) => wordAt bytes stop (start + 4 * i.val)

/-- Compresses all blocks of a chunk but the last, and prepares that one. -/
def chunkBlocks (bytes : ByteArray) (counter : UInt64) (start stop : Nat) (flags : UInt32)
    (chain : Chain) : Compression :=
  if start + 64 < stop then
    let next : Compression := ⟨chain, blockAt bytes start stop, counter, 64, flags⟩
    chunkBlocks bytes counter (start + 64) stop 0 next.run
  else
    ⟨chain, blockAt bytes start stop, counter, (stop - start).toUInt32, flags ||| chunkEnd⟩
  termination_by stop - start

def chunk (bytes : ByteArray) (index : Nat) : Compression :=
  chunkBlocks bytes index.toUInt64 (1024 * index) (min bytes.size (1024 * (index + 1))) chunkStart
    initialChain

def parent (left right : Chain) : Compression :=
  ⟨initialChain, Vector.ofFn fun (i : Fin 16) => (left ++ right)[i.val], 0, 64, parentNode⟩

/-- The largest power of two below `n`, for `n` at least two. -/
def leftSize (n : Nat) : Nat := 1 <<< Nat.log2 (n - 1)

theorem leftSize_lt {n : Nat} (h : 2 ≤ n) : leftSize n < n := by
  have := Nat.log2_self_le (n := n - 1) (by omega)
  rw [leftSize, Nat.one_shiftLeft]
  omega

theorem leftSize_pos (n : Nat) : 0 < leftSize n := by
  rw [leftSize, Nat.one_shiftLeft]
  exact Nat.two_pow_pos _

/-- The compression at the top of the tree over `count` chunks from `first`. -/
def tree (bytes : ByteArray) (first count : Nat) : Compression :=
  if 2 ≤ count then
    parent (tree bytes first (leftSize count)).run
      (tree bytes (first + leftSize count) (count - leftSize count)).run
  else chunk bytes first
  termination_by count
  decreasing_by
    · exact leftSize_lt ‹2 ≤ count›
    · have := leftSize_pos count
      omega

/-- The eight words of the digest. -/
def words (bytes : ByteArray) : Chain :=
  let top := tree bytes 0 ((bytes.size + 1023) / 1024)
  ({ top with flags := top.flags ||| rootNode } : Compression).run

def hexDigit (n : Nat) : Char :=
  if n < 10 then Char.ofNat (48 + n) else Char.ofNat (87 + n)

def hexByte (b : Nat) : List Char := [hexDigit (b / 16 % 16), hexDigit (b % 16)]

/-- The bytes of a word, the lowest first. -/
def hexWord (word : UInt32) : List Char :=
  [0, 8, 16, 24].flatMap fun (shift : UInt32) => hexByte ((word >>> shift).toNat % 256)

/-- The digest as 64 lower-case hexadecimal digits. -/
def hex (bytes : ByteArray) : String :=
  String.ofList ((words bytes).toList.flatMap hexWord)

end VendorBundle.Digest
