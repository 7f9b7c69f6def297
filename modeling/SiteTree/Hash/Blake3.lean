import SiteTree.Text.Hex

/-!
# BLAKE3

The unkeyed hash with a digest of 32 bytes. The input is cut into chunks of 1024 bytes, each
chunk into blocks of 64 bytes; the chunks are the leaves of a binary tree whose left
subtrees are full and as large as possible, and the digest comes from its root.
-/

namespace SiteTree.Hash.Blake3

/-- The eight words that the first block of every chunk starts from. -/
def initial : Vector UInt32 8 :=
  #v[0x6A09E667, 0xBB67AE85, 0x3C6EF372, 0xA54FF53A,
     0x510E527F, 0x9B05688C, 0x1F83D9AB, 0x5BE0CD19]

/-- The place each message word comes from when the words are permuted between rounds. -/
def permutation : Vector (Fin 16) 16 :=
  #v[2, 6, 3, 10, 7, 0, 4, 13, 1, 11, 12, 5, 9, 14, 15, 8]

def flagChunkStart : UInt32 := 1
def flagChunkEnd : UInt32 := 2
def flagParent : UInt32 := 4
def flagRoot : UInt32 := 8

/-! ### Compression -/

def rotateRight (word count : UInt32) : UInt32 :=
  (word >>> count) ||| (word <<< (32 - count))

/-- Mixes two message words into four words of the state. -/
def mix (state : Vector UInt32 16) (a b c d : Fin 16) (x y : UInt32) : Vector UInt32 16 :=
  let state := state.set a (state[a] + state[b] + x)
  let state := state.set d (rotateRight (state[d] ^^^ state[a]) 16)
  let state := state.set c (state[c] + state[d])
  let state := state.set b (rotateRight (state[b] ^^^ state[c]) 12)
  let state := state.set a (state[a] + state[b] + y)
  let state := state.set d (rotateRight (state[d] ^^^ state[a]) 8)
  let state := state.set c (state[c] + state[d])
  state.set b (rotateRight (state[b] ^^^ state[c]) 7)

/-- Mixes the columns and then the diagonals of the state. -/
def round (state message : Vector UInt32 16) : Vector UInt32 16 :=
  let state := mix state 0 4 8 12 message[0] message[1]
  let state := mix state 1 5 9 13 message[2] message[3]
  let state := mix state 2 6 10 14 message[4] message[5]
  let state := mix state 3 7 11 15 message[6] message[7]
  let state := mix state 0 5 10 15 message[8] message[9]
  let state := mix state 1 6 11 12 message[10] message[11]
  let state := mix state 2 7 8 13 message[12] message[13]
  mix state 3 4 9 14 message[14] message[15]

def permute (message : Vector UInt32 16) : Vector UInt32 16 :=
  permutation.map fun place => message[place]

/-- The given number of rounds, the message being permuted after each. -/
def rounds : Nat → Vector UInt32 16 → Vector UInt32 16 → Vector UInt32 16
  | 0, state, _ => state
  | n + 1, state, message => rounds n (round state message) (permute message)

/-- All that goes into one compression. -/
structure Node where
  chain : Vector UInt32 8
  block : Vector UInt32 16
  counter : UInt64
  length : UInt32
  flags : UInt32

/-- The first eight words that compressing a node gives, with extra flags. -/
def Node.compress (node : Node) (extra : UInt32) : Vector UInt32 8 :=
  let ends : Vector UInt32 4 :=
    #v[node.counter.toUInt32, (node.counter >>> 32).toUInt32, node.length, node.flags ||| extra]
  let start : Vector UInt32 16 := node.chain ++ initial.extract 0 4 ++ ends
  let state := rounds 7 start node.block
  Vector.ofFn fun i : Fin 8 => state[i.val] ^^^ state[i.val + 8]

/-! ### Chunks -/

/-- Four bytes as a word, the first byte lowest. -/
def word (bytes : List UInt8) : UInt32 :=
  (bytes.take 4).foldr (fun b word => (word <<< 8) ||| b.toUInt32) 0

/-- A block of at most 64 bytes, filled up with zeros, as sixteen words. -/
def blockWords (bytes : List UInt8) : Vector UInt32 16 :=
  Vector.ofFn fun i : Fin 16 => word (bytes.drop (4 * i))

/-- The bytes in stretches of `size`, the last one shorter; no bytes are one empty stretch. -/
def stretches (size : Nat) (positive : 0 < size) (bytes : List UInt8) : List (List UInt8) :=
  if bytes.length ≤ size then [bytes]
  else bytes.take size :: stretches size positive (bytes.drop size)
termination_by bytes.length
decreasing_by simp only [List.length_drop]; omega

/-- The node of the last block of a chunk, once the blocks before it are compressed. -/
def chunkNode (counter : UInt64) (chain : Vector UInt32 8) (start : UInt32) :
    List (List UInt8) → Node
  | [] => ⟨chain, blockWords [], counter, 0, start ||| flagChunkEnd⟩
  | [last] => ⟨chain, blockWords last, counter, last.length.toUInt32, start ||| flagChunkEnd⟩
  | block :: rest =>
    let node : Node := ⟨chain, blockWords block, counter, block.length.toUInt32, start⟩
    chunkNode counter (node.compress 0) 0 rest

/-- The node of a chunk of at most 1024 bytes. -/
def leaf (bytes : List UInt8) (index : Nat) : Node :=
  chunkNode index.toUInt64 initial flagChunkStart (stretches 64 (by decide) bytes)

/-! ### The tree -/

/-- The node above two subtrees. -/
def parent (left right : Node) : Node :=
  ⟨initial, left.compress 0 ++ right.compress 0, 0, 64, flagParent⟩

/-- The largest power of two below `n`, for `n` at least two. -/
def leftSize (n : Nat) : Nat :=
  1 <<< (n - 1).log2

theorem leftSize_lt {n : Nat} (h : 2 ≤ n) : leftSize n < n := by
  have := Nat.log2_self_le (n := n - 1) (by omega)
  rw [leftSize, Nat.one_shiftLeft]
  omega

theorem leftSize_pos (n : Nat) : 0 < leftSize n := by
  rw [leftSize, Nat.one_shiftLeft]
  exact Nat.two_pow_pos _

/-- The node above the given leaves. -/
def tree (leaves : List Node) : Node :=
  match h : leaves with
  | [] => leaf [] 0
  | [node] => node
  | _ :: _ :: _ =>
    have hlt : leftSize leaves.length < leaves.length := leftSize_lt (by simp [h])
    have hpos := leftSize_pos leaves.length
    parent (tree (leaves.take (leftSize leaves.length)))
      (tree (leaves.drop (leftSize leaves.length)))
termination_by leaves.length
decreasing_by
  · simp only [List.length_take, ← h]; omega
  · simp only [List.length_drop, ← h]; omega

/-- A word as four bytes, the lowest first. -/
def wordBytes (word : UInt32) : List UInt8 :=
  [word.toUInt8, (word >>> 8).toUInt8, (word >>> 16).toUInt8, (word >>> 24).toUInt8]

/-- The digest of some bytes. -/
def hash (bytes : List UInt8) : List UInt8 :=
  let leaves := (stretches 1024 (by decide) bytes).zipIdx.map fun (chunk, i) => leaf chunk i
  ((tree leaves).compress flagRoot).toList.flatMap wordBytes

/-- The digest of a text's UTF-8 bytes as hexadecimal text. -/
def hexDigest (bytes : List UInt8) : String :=
  String.ofList (Text.encodeHex (hash bytes))

end SiteTree.Hash.Blake3
