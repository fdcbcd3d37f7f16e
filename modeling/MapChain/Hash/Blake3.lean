/-!
# The BLAKE3 hash

BLAKE3 cuts its input into chunks of 1024 bytes and a chunk into blocks of 64. The blocks of a chunk
are compressed one after another, each with the chaining value of the one before. Above the chunks
stands a binary tree: the left part of a node has the greatest number of chunks that is a power of
two and leaves some for the right part. The last compression, at the root, is marked and yields the
hash.
-/

namespace MapChain.Blake3

/-! ## Words -/

/-- A state or a message block of sixteen words. -/
abbrev Words := Vector UInt32 16

/-- The chaining value between two compressions. -/
abbrev Chain := Vector UInt32 8

/-- The chaining value everything starts from. -/
def initial : Chain :=
  #v[0x6A09E667, 0xBB67AE85, 0x3C6EF372, 0xA54FF53A, 0x510E527F, 0x9B05688C, 0x1F83D9AB, 0x5BE0CD19]

/-- Where each word of a message goes between two rounds. -/
def permutation : Vector (Fin 16) 16 := #v[2, 6, 3, 10, 7, 0, 4, 13, 1, 11, 12, 5, 9, 14, 15, 8]

/-- Rotates a word to the right. -/
def rotateRight (x n : UInt32) : UInt32 := (x >>> n) ||| (x <<< (32 - n))

/-! ## Compression -/

/-- Mixes two message words into four words of a state. -/
def mix (s : Words) (a b c d : Fin 16) (x y : UInt32) : Words :=
  let s := s.set a (s[a] + s[b] + x)
  let s := s.set d (rotateRight (s[d] ^^^ s[a]) 16)
  let s := s.set c (s[c] + s[d])
  let s := s.set b (rotateRight (s[b] ^^^ s[c]) 12)
  let s := s.set a (s[a] + s[b] + y)
  let s := s.set d (rotateRight (s[d] ^^^ s[a]) 8)
  let s := s.set c (s[c] + s[d])
  s.set b (rotateRight (s[b] ^^^ s[c]) 7)

/-- Mixes a whole message into a state: the columns, then the diagonals. -/
def round (s m : Words) : Words :=
  let s := mix s 0 4 8 12 m[0] m[1]
  let s := mix s 1 5 9 13 m[2] m[3]
  let s := mix s 2 6 10 14 m[4] m[5]
  let s := mix s 3 7 11 15 m[6] m[7]
  let s := mix s 0 5 10 15 m[8] m[9]
  let s := mix s 1 6 11 12 m[10] m[11]
  let s := mix s 2 7 8 13 m[12] m[13]
  mix s 3 4 9 14 m[14] m[15]

/-- Runs rounds, with the message permuted between them. -/
def rounds : Nat → Words → Words → Words
  | 0, s, _ => s
  | n + 1, s, m => rounds n (round s m) (permutation.map (m[·]))

/-- What one compression takes besides the chaining value. -/
structure Input where
  block : Words
  /-- The number of the chunk; zero above the chunks. -/
  counter : UInt64
  /-- The number of bytes in the block. -/
  length : UInt32
  flags : UInt32

/-- The flags of a compression. -/
def chunkStart : UInt32 := 1
@[inherit_doc chunkStart] def chunkEnd : UInt32 := 2
@[inherit_doc chunkStart] def parentNode : UInt32 := 4
@[inherit_doc chunkStart] def rootNode : UInt32 := 8

/-- Compresses one block. -/
def compress (chain : Chain) (i : Input) : Chain :=
  let s : Words := chain ++ #v[initial[0], initial[1], initial[2], initial[3],
    i.counter.toUInt32, (i.counter >>> 32).toUInt32, i.length, i.flags]
  let s := rounds 7 s i.block
  Vector.ofFn fun (k : Fin 8) => s[k] ^^^ s[k.val + 8]

/-! ## Bytes and words -/

/-- A word from bytes, the lowest first; missing ones are zero. -/
def wordAt (bytes : List UInt8) (i : Nat) : UInt32 :=
  let byte (k : Nat) : UInt32 := (bytes.getD (4 * i + k) 0).toUInt32
  byte 0 ||| byte 1 <<< 8 ||| byte 2 <<< 16 ||| byte 3 <<< 24

/-- The words of a block. -/
def blockWords (bytes : List UInt8) : Words := Vector.ofFn fun i => wordAt bytes i

/-- The bytes of a word, the lowest first. -/
def wordBytes (w : UInt32) : List UInt8 :=
  [w.toUInt8, (w >>> 8).toUInt8, (w >>> 16).toUInt8, (w >>> 24).toUInt8]

/-- Pieces of a fixed size, the last one perhaps shorter; there is always one. -/
def pieces (size : Nat) (bytes : List UInt8) : List (List UInt8) :=
  if _h : bytes.length ≤ size ∨ size = 0 then [bytes]
  else bytes.take size :: pieces size (bytes.drop size)
termination_by bytes.length
decreasing_by simp only [List.length_drop]; omega

/-! ## Chunks and the tree -/

/-- A compression that is still to be done, so that it can be marked as the root. -/
structure Node where
  chain : Chain
  input : Input

/-- The chaining value of a node. -/
def Node.value (n : Node) : Chain := compress n.chain n.input

/-- The hash of a node that is the root. -/
def Node.hash (n : Node) : Chain :=
  compress n.chain { n.input with flags := n.input.flags ||| rootNode }

/-- The node of a chunk's blocks from some block on. -/
def chunkFrom (counter : UInt64) (flags : UInt32) (chain : Chain) : List (List UInt8) → Node
  | [] => ⟨chain, ⟨blockWords [], counter, 0, flags ||| chunkEnd⟩⟩
  | [block] => ⟨chain, ⟨blockWords block, counter, block.length.toUInt32, flags ||| chunkEnd⟩⟩
  | block :: blocks =>
    let input := ⟨blockWords block, counter, block.length.toUInt32, flags⟩
    chunkFrom counter 0 (compress chain input) blocks

/-- The node of a chunk. -/
def chunk (counter : Nat) (bytes : List UInt8) : Node :=
  chunkFrom counter.toUInt64 chunkStart initial (pieces 64 bytes)

/-- The node above two others. -/
def parent (left right : Node) : Node := ⟨initial, ⟨left.value ++ right.value, 0, 64, parentNode⟩⟩

/-- The node of some chunks in a row, the first of which has the given number. -/
def tree (counter : Nat) (chunks : List (List UInt8)) : Node :=
  if h : chunks.length ≤ 1 then chunk counter (chunks.headD [])
  else
    -- The greatest power of two below the number of chunks
    let left := Nat.pow 2 (chunks.length - 1).log2
    have hl : left ≤ chunks.length - 1 := Nat.log2_self_le (by omega)
    have hp : 0 < left := Nat.two_pow_pos _
    parent (tree counter (chunks.take left)) (tree (counter + left) (chunks.drop left))
termination_by chunks.length
decreasing_by
  · simp only [List.length_take]; omega
  · simp only [List.length_drop]; omega

/-! ## The hash -/

/-- The 32 bytes of the hash. -/
def hash (bytes : List UInt8) : List UInt8 :=
  (tree 0 (pieces 1024 bytes)).hash.toList.flatMap wordBytes

/-- The hash in hexadecimal, in lower case. -/
def hexHash (bytes : List UInt8) : String :=
  String.ofList ((hash bytes).flatMap fun b =>
    [Nat.digitChar (b.toNat / 16), Nat.digitChar (b.toNat % 16)])

end MapChain.Blake3
