import LightweightShred.Recover
import LightweightShred.Wire

/-!
# A hash function that may panic

`Cargo.toml` asks for `solana-sha256-hasher` without its feature `sha2`. Off chain `hashv` then
panics at every call, unless another crate of the build turns the feature on. The functions that
hash stand here once more, over a `hashv` that returns or panics; where it returns they are the
ones over a `Hasher`.
-/
namespace LightweightShred
open ByteString Rust

/-- `hashv` in some build: the hash of the concatenated parts, or no value where it panics. -/
structure Hashv where
  hash : Bytes → Option Hash

def Hashv.Returns (V : Hashv) (H : Hasher) : Prop := ∀ b, V.hash b = some (H.sha256 b)

def Hashv.Panics (V : Hashv) : Prop := ∀ b, V.hash b = none

/-- `hashv` with and without the feature `sha2`. -/
def Hasher.hashv (H : Hasher) (sha2 : Bool) : Hashv where
  hash b := if sha2 then some (H.sha256 b) else none

theorem Hasher.returns_hashv (H : Hasher) : (H.hashv true).Returns H := fun _ => rfl

theorem Hasher.panics_hashv (H : Hasher) : (H.hashv false).Panics := fun _ => rfl

namespace Hashv
variable (V : Hashv)

def joinNodes (node other : Bytes) : Result Hash := unwrap (V.hash (joinPreimage node other))

def pushParent (offset size : Nat) (nodes : List Hash) (index : Nat) : Result (List Hash) := do
  let node ← unwrap nodes[index]?
  let other ← unwrap nodes[min (index + 1) (offset + size - 1)]?
  let parent ← V.joinNodes node.1 other.1
  pure (nodes ++ [parent])

def pushLevel (nodes : List Hash) (size : Nat) : Result (List Hash) := do
  let offset ← unwrap (checkedSubSize nodes.length size)
  ((List.range ((size + 1) / 2)).map fun k => offset + 2 * k).foldlM (V.pushParent offset size) nodes

/-- `MerkleTree::try_new`. -/
def tryNew (shreds : List (Result Hash)) : Result MerkleTree := do
  if shreds.length = 0 then
    fail .emptyIterator
  let numShreds := shreds.length
  let nodes ← shreds.mapM id
  let nodes ← (MerkleTree.levelSizes numShreds).foldlM V.pushLevel nodes
  pure { nodes }

/-- One turn of the fold in `get_merkle_root`. -/
def foldEntry (st : Nat × Hash) (other : MerkleProofEntry) : Result (Nat × Hash) := do
  let parent ← if st.1 % 2 = 0 then V.joinNodes st.2.1 other.1 else V.joinNodes other.1 st.2.1
  pure (st.1 / 2, parent)

def getMerkleRoot (index : Nat) (node : Hash) (proof : List MerkleProofEntry) : Result Hash := do
  let (index, root) ← proof.foldlM V.foldEntry (index, node)
  okOr (if index = 0 then some root else none) .invalidMerkleProof

def getMerkleNode (shred : Bytes) (lo hi : Nat) : Result Hash := do
  let node ← okOr (slice? shred lo hi) (.invalidPayloadSize shred.length)
  unwrap (V.hash (leafPreimage node))

def merkleRoot (s : Shred) : Result Hash := do
  let proofSize ← s.proofSize
  let index ← s.erasureShardIndex
  let proofOffset ← s.proofOffset
  let proof ← getMerkleProof s.payload.bytes proofOffset proofSize
  let node ← V.getMerkleNode s.payload.bytes sizeOfSignature proofOffset
  V.getMerkleRoot index node proof

def merkleNode (s : Shred) : Result Hash := do
  let proofOffset ← s.proofOffset
  V.getMerkleNode s.payload.bytes sizeOfSignature proofOffset

def recoveredNode (numDataShreds index : Nat) (shred : Shred) (mask : Bool) :
    Result (Shred × Hash) := do
  let shred ← if mask then pure shred else checkRecovered numDataShreds index shred
  let node ← V.merkleNode shred
  pure (shred, node)

def recover (cache : ReedSolomonCache) (srt : ShredSort) (shreds : List Shred) :
    Result (List (Result Shred)) := do
  let shreds := sortShreds srt shreds
  let last ← lastCodingShred shreds
  let headers ← stubHeaders last
  let merkleRoot ← V.merkleRoot (.shredCode last)
  if headers.commonHeader.shredVariant.shredType = .data then
    fail .invalidShredVariant
  let numDataShreds := headers.codingHeader.numDataShreds.toNat
  let numCodingShreds := headers.codingHeader.numCodingShreds.toNat
  let numShards := numDataShreds + numCodingShreds
  let (batch, mask) ← fillBatch (makeStubShred headers) headers.commonHeader.signature numShards
    shreds
  let batch ← reconstructBatch cache numDataShreds numCodingShreds batch mask
  let nodes := (batch.zip mask).mapIdx fun index (shred, mask) =>
    V.recoveredNode numDataShreds index shred mask
  let tree ← V.tryNew (nodes.map fun node => node.map Prod.snd)
  let root ← tree.root
  if root ≠ merkleRoot then
    fail .invalidMerkleRoot
  let batch ← nodes.mapM fun node => node.map Prod.fst
  let items := (batch.zip mask).mapIdx fun index (shred, mask) =>
    insertProof tree numShards index shred mask
  pure (items.filterMap transpose)

/-- `get_merkle_root` on the bytes, once the index is known. -/
def wireMerkleRootAt (ty : ShredType) (shred : Bytes) (proofSize : UInt8) (resigned : Bool)
    (index : Nat) : Result (Option Hash) :=
  andThen (toOption (getProofOffset ty proofSize resigned)) fun proofOffset =>
    andThen (toOption (getMerkleProof shred proofOffset proofSize)) fun proof =>
      andThen (toOption (V.getMerkleNode shred sizeOfSignature proofOffset)) fun node =>
        toOption (V.getMerkleRoot index node proof)

/-- `wire::get_merkle_root`. -/
def wireMerkleRoot (shred : Bytes) : Result (Option Hash) :=
  andThen (toOption (getShredVariant shred)) fun variant =>
    match variant with
    | .merkleCode proofSize resigned =>
      andThen (Wire.codeIndex shred) (V.wireMerkleRootAt .code shred proofSize resigned)
    | .merkleData proofSize resigned =>
      andThen (Wire.dataIndex shred) (V.wireMerkleRootAt .data shred proofSize resigned)

end Hashv

namespace Hashv.Returns
variable {V : Hashv} {H : Hasher} (h : V.Returns H)
include h

theorem joinNodes (node other : Bytes) :
    V.joinNodes node other = .ok (LightweightShred.joinNodes H node other) := by
  rw [Hashv.joinNodes, h]
  rfl

theorem pushParent (offset size : Nat) :
    V.pushParent offset size = MerkleTree.pushParent H offset size := by
  funext nodes index
  unfold Hashv.pushParent MerkleTree.pushParent
  simp only [h.joinNodes]
  rfl

theorem pushLevel : V.pushLevel = MerkleTree.pushLevel H := by
  funext nodes size
  unfold Hashv.pushLevel MerkleTree.pushLevel
  simp only [h.pushParent]

theorem tryNew : V.tryNew = MerkleTree.tryNew H := by
  funext shreds
  unfold Hashv.tryNew MerkleTree.tryNew
  simp only [h.pushLevel]

theorem foldEntry (proof : List MerkleProofEntry) (index : Nat) (node : Hash) :
    proof.foldlM V.foldEntry (index, node) = .ok (foldProof H index node proof) := by
  induction proof generalizing index node with
  | nil => rfl
  | cons other proof ih =>
      have hentry : V.foldEntry (index, node) other = .ok (index / 2,
          if index % 2 = 0 then LightweightShred.joinNodes H node.1 other.1
          else LightweightShred.joinNodes H other.1 node.1) := by
        unfold Hashv.foldEntry
        simp only [h.joinNodes]
        split <;> rfl
      rw [List.foldlM_cons, hentry]
      exact ih _ _

theorem getMerkleRoot : V.getMerkleRoot = LightweightShred.getMerkleRoot H := by
  funext index node proof
  rw [Hashv.getMerkleRoot, h.foldEntry]
  rfl

theorem getMerkleNode : V.getMerkleNode = LightweightShred.getMerkleNode H := by
  funext shred lo hi
  unfold Hashv.getMerkleNode LightweightShred.getMerkleNode
  simp only [h _]
  rfl

theorem merkleRoot (s : Shred) : V.merkleRoot s = s.merkleRoot H := by
  unfold Hashv.merkleRoot Shred.merkleRoot
  rw [h.getMerkleNode, h.getMerkleRoot]

theorem recoveredNode : V.recoveredNode = LightweightShred.recoveredNode H := by
  funext numDataShreds index shred mask
  unfold Hashv.recoveredNode LightweightShred.recoveredNode Hashv.merkleNode Shred.merkleNode
  rw [h.getMerkleNode]

/-- Where `hashv` returns, recovery is what it is over the hashes that it returns. -/
theorem recover (cache : ReedSolomonCache) (srt : ShredSort) (shreds : List Shred) :
    V.recover cache srt shreds = LightweightShred.recover H cache srt shreds := by
  unfold Hashv.recover LightweightShred.recover
  simp only [h.merkleRoot, h.recoveredNode, h.tryNew]

theorem wireMerkleRootAt (ty : ShredType) (shred : Bytes) (proofSize : UInt8) (resigned : Bool) :
    V.wireMerkleRootAt ty shred proofSize resigned =
      Wire.merkleRootAt H ty shred proofSize resigned := by
  funext index
  unfold Hashv.wireMerkleRootAt Wire.merkleRootAt
  rw [h.getMerkleNode, h.getMerkleRoot]

theorem wireMerkleRoot (shred : Bytes) : V.wireMerkleRoot shred = Wire.getMerkleRoot H shred := by
  unfold Hashv.wireMerkleRoot Wire.getMerkleRoot
  refine congrArg _ (funext fun variant => ?_)
  cases variant with
  | merkleCode proofSize resigned => simp only [h.wireMerkleRootAt]
  | merkleData proofSize resigned => simp only [h.wireMerkleRootAt]

end Hashv.Returns

end LightweightShred
