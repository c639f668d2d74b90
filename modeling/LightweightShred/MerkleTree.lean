import LightweightShred.Header
import LightweightShred.Lib.HashScheme

/-!
# The Merkle tree over an erasure batch

The nodes of all levels stand one after another in a single vector.
-/
namespace LightweightShred
open ByteString Rust

/-- Defense against second preimage attack. -/
def merkleHashPrefixLeaf : Bytes :=
  0 :: "SOLANA_MERKLE_SHREDS_LEAF".toList.map fun ch => UInt8.ofNat ch.toNat

def merkleHashPrefixNode : Bytes :=
  1 :: "SOLANA_MERKLE_SHREDS_NODE".toList.map fun ch => UInt8.ofNat ch.toNat

/-- The hash function behind `hashv`, which hashes the concatenation of its parts. That `hashv`
returns, as it does where the feature `sha2` of its crate is on, is assumed with it. -/
structure Hasher where
  sha256 : Bytes → Hash

/-- The first twenty bytes of a hash, which are all a parent depends on. -/
def Hash.truncate (h : Hash) : MerkleProofEntry :=
  ⟨h.1.take sizeOfMerkleProofEntry, by rw [List.length_take, h.2]; rfl⟩

/-- What `join_nodes` hashes. -/
def joinPreimage (node other : Bytes) : Bytes :=
  merkleHashPrefixNode ++ node.take sizeOfMerkleProofEntry ++ other.take sizeOfMerkleProofEntry

/-- What `get_merkle_node` hashes. -/
def leafPreimage (node : Bytes) : Bytes := merkleHashPrefixLeaf ++ node

section
variable (H : Hasher)

def joinNodes (node other : Bytes) : Hash := H.sha256 (joinPreimage node other)

/-- `successors(first, f)`, for an `f` that decreases its argument. -/
def successors (f : Nat → Option Nat) : (fuel : Nat) → Option Nat → List Nat
  | fuel + 1, some k => k :: successors f fuel (f k)
  | _, _ => []

structure MerkleTree where
  nodes : List Hash
  deriving DecidableEq

namespace MerkleTree

/-- One turn of the inner loop: join the nodes at `index` and beside it. -/
def pushParent (offset size : Nat) (nodes : List Hash) (index : Nat) : Result (List Hash) := do
  let node ← unwrap nodes[index]?
  let other ← unwrap nodes[min (index + 1) (offset + size - 1)]?
  pure (nodes ++ [joinNodes H node.1 other.1])

/-- One turn of the outer loop: append the parents of the last `size` nodes. -/
def pushLevel (nodes : List Hash) (size : Nat) : Result (List Hash) := do
  let offset ← unwrap (checkedSubSize nodes.length size)
  ((List.range ((size + 1) / 2)).map fun k => offset + 2 * k).foldlM (pushParent H offset size) nodes

/-- The level sizes the outer loop runs over. -/
def levelSizes (numShreds : Nat) : List Nat :=
  successors (fun k => if k > 2 then some ((k + 1) / 2) else none) numShreds
    (if numShreds > 1 then some numShreds else none)

def tryNew (shreds : List (Result Hash)) : Result MerkleTree := do
  if shreds.length = 0 then
    fail .emptyIterator
  let numShreds := shreds.length
  let nodes ← shreds.mapM id
  let nodes ← (levelSizes numShreds).foldlM (pushLevel H) nodes
  pure { nodes }

def root (t : MerkleTree) : Result Hash := unwrap t.nodes.getLast?

/-- The state of the iterator that `make_merkle_proof` returns. -/
structure ProofIter where
  index : Nat
  size : Nat
  offset : Nat
  deriving DecidableEq, Repr

def ProofIter.init (t : MerkleTree) (index size : Nat) : ProofIter :=
  if index ≥ size then ⟨index, 0, t.nodes.length⟩ else ⟨index, size, 0⟩

/-- One call of the iterator's `next`. -/
def ProofIter.next (t : MerkleTree) (it : ProofIter) :
    Option (Result MerkleProofEntry) × ProofIter :=
  if it.size > 1 then
    match t.nodes[it.offset + min (it.index ^^^ 1) (it.size - 1)]? with
    | none => (some (fail .invalidMerkleProof), it)
    | some node =>
      (some (.ok (Hash.truncate node)), ⟨it.index / 2, (it.size + 1) / 2, it.offset + it.size⟩)
  else if it.offset + 1 = t.nodes.length then (none, it)
  else (some (fail .invalidMerkleProof), it)

/-- The state of the iterator behind one call of `next`. -/
def ProofIter.step (t : MerkleTree) (it : ProofIter) : ProofIter := (it.next t).2

/-- The items up to the end of the iterator or its first error, after which it only
repeats that error; no caller looks further. -/
def ProofIter.items (t : MerkleTree) : (fuel : Nat) → ProofIter → List (Result MerkleProofEntry)
  | 0, _ => []
  | fuel + 1, it =>
    match it.next t with
    | (none, _) => []
    | (some (.error e), _) => [.error e]
    | (some (.ok entry), it) => .ok entry :: items t fuel it

/-- The size shrinks with every entry, so `size + 1` calls see the end or an error. -/
def makeMerkleProof (t : MerkleTree) (index size : Nat) : List (Result MerkleProofEntry) :=
  ProofIter.items t (size + 1) (ProofIter.init t index size)

end MerkleTree

/-- The fold of `get_merkle_root` over the proof entries. -/
def foldProof (index : Nat) (node : Hash) (proof : List MerkleProofEntry) : Nat × Hash :=
  proof.foldl (fun (st : Nat × Hash) other =>
    (st.1 / 2, if st.1 % 2 = 0 then joinNodes H st.2.1 other.1 else joinNodes H other.1 st.2.1))
    (index, node)

def getMerkleRoot (index : Nat) (node : Hash) (proof : List MerkleProofEntry) : Result Hash :=
  let (index, root) := foldProof H index node proof
  okOr (if index = 0 then some root else none) .invalidMerkleProof

def getMerkleTreeSize (numShreds : Nat) : Nat :=
  (successors (fun k => if k > 1 then some ((k + 1) / 2) else none) (numShreds + 1)
    (some numShreds)).sum

/-- `usize::BITS - n.leading_zeros()` is the bit length of `n`. -/
def getProofSize (numShreds : Nat) : UInt8 :=
  let bits := Nat.size numShreds
  UInt8.ofNat (if numShreds.isPowerOfTwo then bits - 1 else bits)

end

end LightweightShred
