/-!
# BLAKE3

The hash function BLAKE3 with a digest of 256 bits. The input is cut into chunks of 1024 bytes,
each chunk is folded block by block into a chaining value, and chaining values are joined in pairs
by a binary tree whose left parts are as large as a power of two allows.

## Main definitions

* `Blake3.compress` — the compression function.
* `Blake3.chunk`, `Blake3.tree` — the last compression of a chunk and of a whole input.
* `Blake3.digest` — the 32 bytes of the digest, and `Blake3.hex` their hexadecimal text.
-/

namespace Injection.Blake3

/-- Sixteen words: a block of a message, or the state of a compression. -/
abbrev Block := Vector UInt32 16

/-- Eight words that carry the state from one compression to the next. -/
abbrev Chain := Vector UInt32 8

/-- The chaining value at the start of every chunk and of every inner node of the tree. -/
def initial : Chain :=
  #v[0x6A09E667, 0xBB67AE85, 0x3C6EF372, 0xA54FF53A, 0x510E527F, 0x9B05688C, 0x1F83D9AB, 0x5BE0CD19]

/-- Where each word of a block comes from in the next round. -/
def schedule : Vector (Fin 16) 16 :=
  #v[2, 6, 3, 10, 7, 0, 4, 13, 1, 11, 12, 5, 9, 14, 15, 8]

/-! ## Domain flags -/

def chunkStart : UInt32 := 1

def chunkEnd : UInt32 := 2

def parentNode : UInt32 := 4

def rootNode : UInt32 := 8

/-! ## Compression -/

/-- Rotates a word to the right by fewer than 32 places. -/
def rotateRight (word amount : UInt32) : UInt32 := (word >>> amount) ||| (word <<< (32 - amount))

/-- Mixes two words of a message into four words of the state. -/
def mix (state : Block) (a b c d : Fin 16) (x y : UInt32) : Block :=
  let va := state[a] + state[b] + x
  let vd := rotateRight (state[d] ^^^ va) 16
  let vc := state[c] + vd
  let vb := rotateRight (state[b] ^^^ vc) 12
  let va := va + vb + y
  let vd := rotateRight (vd ^^^ va) 8
  let vc := vc + vd
  let vb := rotateRight (vb ^^^ vc) 7
  (((state.set a va).set b vb).set c vc).set d vd

/-- Mixes a whole message into the columns and then the diagonals of the state. -/
def round (state message : Block) : Block :=
  let state := mix state 0 4 8 12 message[0] message[1]
  let state := mix state 1 5 9 13 message[2] message[3]
  let state := mix state 2 6 10 14 message[4] message[5]
  let state := mix state 3 7 11 15 message[6] message[7]
  let state := mix state 0 5 10 15 message[8] message[9]
  let state := mix state 1 6 11 12 message[10] message[11]
  let state := mix state 2 7 8 13 message[12] message[13]
  mix state 3 4 9 14 message[14] message[15]

/-- The words of a message as the next round takes them. -/
def permuted (message : Block) : Block := Vector.ofFn fun i => message[schedule[i]]

/-- The state after some rounds. -/
def rounds : Nat → Block → Block → Block
  | 0, state, _ => state
  | count + 1, state, message => rounds count (round state message) (permuted message)

/-- The compression that is still to be done, so that its flags can depend on where it stands. -/
structure Pending where
  chain : Chain
  message : Block
  counter : UInt64
  /-- The number of bytes of the message that count. -/
  length : UInt32
  flags : UInt32

/-- The chaining value that results from a compression. -/
def compress (pending : Pending) (flags : UInt32) : Chain :=
  let chain := pending.chain
  let state : Block :=
    #v[chain[0], chain[1], chain[2], chain[3], chain[4], chain[5], chain[6], chain[7],
      initial[0], initial[1], initial[2], initial[3],
      pending.counter.toUInt32, (pending.counter >>> 32).toUInt32,
      pending.length, pending.flags ||| flags]
  let final := rounds 7 state pending.message
  Vector.ofFn fun i => final[i.val] ^^^ final[i.val + 8]

/-! ## Chunks and the tree -/

/-- The word whose bytes stand at `start`, the least significant first; absent bytes are zero. -/
def wordAt (bytes : Array UInt8) (start : Nat) : UInt32 :=
  let byte (i : Nat) : UInt32 := (bytes[start + i]?.getD 0).toUInt32
  byte 0 ||| (byte 1 <<< 8) ||| (byte 2 <<< 16) ||| (byte 3 <<< 24)

/-- A block of at most 64 bytes. -/
def blockOf (bytes : List UInt8) : Block :=
  let bytes := bytes.toArray
  Vector.ofFn fun i => wordAt bytes (4 * i.val)

/-- The last compression of a chunk, of which `chain` holds what came before `bytes`. -/
def chunkFrom (counter : UInt64) (chain : Chain) (flags : UInt32) (bytes : List UInt8) : Pending :=
  if _h : bytes.length ≤ 64 then
    ⟨chain, blockOf bytes, counter, UInt32.ofNat bytes.length, flags ||| chunkEnd⟩
  else
    chunkFrom counter (compress ⟨chain, blockOf (bytes.take 64), counter, 64, flags⟩ 0) 0
      (bytes.drop 64)
termination_by bytes.length
decreasing_by simp only [List.length_drop]; omega

/-- The last compression of the chunk with a number. -/
def chunk (index : Nat) (bytes : List UInt8) : Pending :=
  chunkFrom (UInt64.ofNat index) initial chunkStart bytes

/-- The compression that joins two parts of the tree. -/
def join (left right : Pending) : Pending :=
  let l := compress left 0
  let r := compress right 0
  ⟨initial, (l ++ r).cast rfl, 0, 64, parentNode⟩

/-- The number of bytes in the left part of more than one chunk: whole chunks, as many as the
greatest power of two that leaves something for the right part. -/
def leftLength (length : Nat) : Nat := 1024 <<< Nat.log2 ((length - 1) / 1024)

theorem leftLength_pos (length : Nat) : 0 < leftLength length := by
  rw [leftLength, Nat.shiftLeft_eq]
  exact Nat.mul_pos (by decide) (Nat.two_pow_pos _)

theorem leftLength_lt {length : Nat} (h : 1024 < length) : leftLength length < length := by
  have hk : (length - 1) / 1024 ≠ 0 := by omega
  have := Nat.log2_self_le hk
  rw [leftLength, Nat.shiftLeft_eq]
  omega

/-- The last compression of an input whose first chunk has the number `index`. -/
def tree (index : Nat) (bytes : List UInt8) : Pending :=
  if h : bytes.length ≤ 1024 then chunk index bytes
  else
    let left := leftLength bytes.length
    join (tree index (bytes.take left)) (tree (index + left / 1024) (bytes.drop left))
termination_by bytes.length
decreasing_by
  · have := leftLength_lt (Nat.lt_of_not_le h)
    simp only [List.length_take]; omega
  · have := leftLength_pos bytes.length
    simp only [List.length_drop]; omega

/-! ## The digest -/

/-- The bytes of a word, the least significant first. -/
def wordBytes (word : UInt32) : List UInt8 :=
  [word.toUInt8, (word >>> 8).toUInt8, (word >>> 16).toUInt8, (word >>> 24).toUInt8]

/-- The 32 bytes of the digest. -/
def digest (bytes : List UInt8) : List UInt8 :=
  (compress (tree 0 bytes) rootNode).toList.flatMap wordBytes

/-- A byte as two lower-case hexadecimal digits. -/
def hexByte (byte : UInt8) : List Char :=
  [Nat.digitChar (byte.toNat / 16), Nat.digitChar (byte.toNat % 16)]

/-- The digest as 64 lower-case hexadecimal digits. -/
def hex (bytes : List UInt8) : String := String.ofList ((digest bytes).flatMap hexByte)

end Injection.Blake3
