import LightweightShred.Payload
import LightweightShred.MerkleTree

/-!
# Data and coding shreds

The methods that both structs get from one source template are written once, over the
struct's own kind: the layouts differ in three sizes and in the expected variant.
-/
namespace LightweightShred
open ByteString Rust Codec

structure ShredData where
  commonHeader : ShredCommonHeader
  dataHeader : DataShredHeader
  payload : Payload
  deriving DecidableEq

structure ShredCode where
  commonHeader : ShredCommonHeader
  codingHeader : CodingShredHeader
  payload : Payload
  deriving DecidableEq

/-- The two enums `merkle::Shred` and `Shred` have the same constructors. -/
inductive Shred where
  | shredCode (s : ShredCode)
  | shredData (s : ShredData)
  deriving DecidableEq

def sizeOfPayload : ShredType → Nat
  | .code => packetDataSize - sizeOfNonce
  | .data => (packetDataSize - sizeOfNonce) - sizeOfCodingShredHeaders + sizeOfSignature

def sizeOfHeaders : ShredType → Nat
  | .data => sizeOfDataShredHeaders
  | .code => sizeOfCodingShredHeaders

/-- Offset into the payload where the erasure coded slice begins. -/
def erasureShardStartOffset : ShredType → Nat
  | .data => sizeOfSignature
  | .code => sizeOfHeaders .code

section Layout

def capacity (ty : ShredType) (proofSize : UInt8) (resigned : Bool) : Result Nat :=
  okOr (checkedSubSize (sizeOfPayload ty)
    (sizeOfHeaders ty + sizeOfMerkleRoot + proofSize.toNat * sizeOfMerkleProofEntry +
      if resigned then sizeOfSignature else 0)) (.invalidProofSize proofSize)

def getProofOffset (ty : ShredType) (proofSize : UInt8) (resigned : Bool) : Result Nat := do
  let cap ← capacity ty proofSize resigned
  pure (sizeOfHeaders ty + cap + sizeOfMerkleRoot)

def getChainedMerkleRootOffset (ty : ShredType) (proofSize : UInt8) (resigned : Bool) :
    Result Nat := do
  let cap ← capacity ty proofSize resigned
  pure (sizeOfHeaders ty + cap)

def getRetransmitterSignatureOffset (ty : ShredType) (proofSize : UInt8) (resigned : Bool) :
    Result Nat := do
  if !resigned then
    fail .invalidShredVariant
  let proofOffset ← getProofOffset ty proofSize resigned
  pure (proofOffset + proofSize.toNat * sizeOfMerkleProofEntry)

/-- The fields of the variant a struct of this kind expects. -/
def variantFields : ShredType → ShredVariant → Result (UInt8 × Bool)
  | .code, .merkleCode proofSize resigned => .ok (proofSize, resigned)
  | .data, .merkleData proofSize resigned => .ok (proofSize, resigned)
  | _, _ => fail .invalidShredVariant

end Layout

/-- `<[u8; N]>::try_from(slice).unwrap()`. -/
def arrayFromSlice (n : Nat) (b : Bytes) : Result (Fixed n) :=
  if h : b.length = n then .ok ⟨b, h⟩ else .error .panic

def getMerkleProof (shred : Bytes) (proofOffset : Nat) (proofSize : UInt8) :
    Result (List MerkleProofEntry) := do
  let proofSize := proofSize.toNat * sizeOfMerkleProofEntry
  let bytes ← okOr (slice? shred proofOffset (proofOffset + proofSize))
    (.invalidPayloadSize shred.length)
  (chunks sizeOfMerkleProofEntry bytes).mapM (arrayFromSlice 20)

def getMerkleNode (H : Hasher) (shred : Bytes) (lo hi : Nat) : Result Hash := do
  let node ← okOr (slice? shred lo hi) (.invalidPayloadSize shred.length)
  pure (H.sha256 (leafPreimage node))

/-- The closure of `set_merkle_proof`: entry `k` goes through the cursor at `position`. -/
def writeProof (proofSize : Nat) : List (Result MerkleProofEntry) → (k : Nat) → (buffer : Bytes) →
    (position : Nat) → Result (Bytes × Nat)
  | [], _, buffer, position => .ok (buffer, position)
  | entry :: proof, k, buffer, position => do
    if k ≥ proofSize then
      fail .invalidMerkleProof
    let entry ← entry
    if position + entry.1.length > buffer.length then
      fail .io
    writeProof proofSize proof (k + 1) (splice buffer position entry.1) (position + entry.1.length)

namespace Shred

/-- Which of the two structs this is; `shred_type()` reads the header's variant instead. -/
def kind : Shred → ShredType
  | .shredCode _ => .code
  | .shredData _ => .data

def commonHeader : Shred → ShredCommonHeader
  | .shredCode s => s.commonHeader
  | .shredData s => s.commonHeader

def payload : Shred → Payload
  | .shredCode s => s.payload
  | .shredData s => s.payload

def setPayload : Shred → Payload → Shred
  | .shredCode s, p => .shredCode { s with payload := p }
  | .shredData s, p => .shredData { s with payload := p }

def signature (s : Shred) : Signature := s.commonHeader.signature

def fecSetIndex (s : Shred) : UInt32 := s.commonHeader.fecSetIndex

/-- The struct's own copy of the signature. -/
def setHeaderSignature : Shred → Signature → Shred
  | .shredCode s, g => .shredCode { s with commonHeader := { s.commonHeader with signature := g } }
  | .shredData s, g => .shredData { s with commonHeader := { s.commonHeader with signature := g } }

/-- `set_signature`: the front of the payload is written, then the header. -/
def setSignature (s : Shred) (signature : Signature) : Result Shred := do
  let guard := s.payload.asMut
  let bytes ← guard.deref
  let target ← unwrap (slice? bytes 0 sizeOfSignature)
  if signature.1.length = target.length then
    let guard ← guard.copyFromSlice (splice bytes 0 signature.1)
    pure ((s.setPayload guard.drop).setHeaderSignature signature)
  else .error .panic

def proofSize (s : Shred) : Result UInt8 := do
  let (proofSize, _) ← variantFields s.kind s.commonHeader.shredVariant
  pure proofSize

def proofOffset (s : Shred) : Result Nat := do
  let (proofSize, resigned) ← variantFields s.kind s.commonHeader.shredVariant
  getProofOffset s.kind proofSize resigned

def chainedMerkleRootOffset (s : Shred) : Result Nat := do
  let (proofSize, resigned) ← variantFields s.kind s.commonHeader.shredVariant
  getChainedMerkleRootOffset s.kind proofSize resigned

def chainedMerkleRoot (s : Shred) : Result Hash := do
  let offset ← s.chainedMerkleRootOffset
  let bytes ← okOr (s.payload.get offset (offset + sizeOfMerkleRoot))
    (.invalidPayloadSize s.payload.len)
  arrayFromSlice 32 bytes

def setChainedMerkleRoot (s : Shred) (chainedMerkleRoot : Hash) : Result Shred := do
  let offset ← s.chainedMerkleRootOffset
  let buffer ← okOr (s.payload.getMut (.range offset (offset + sizeOfMerkleRoot)))
    (.invalidPayloadSize s.payload.len)
  let buffer ← buffer.copyFromSlice chainedMerkleRoot.1
  pure (s.setPayload buffer.drop)

end Shred

def ShredCode.firstCodingIndex (s : ShredCode) : Option UInt32 :=
  checkedSub s.commonHeader.index s.codingHeader.position.toUInt32

def ShredData.erasureShardIndex (s : ShredData) : Option Nat := do
  let index ← checkedSub s.commonHeader.index s.commonHeader.fecSetIndex
  some index.toNat

/-- `shred_code::erasure_shard_index`; the sums of two `u16` values do not overflow `usize`. -/
def ShredCode.erasureShardIndex (s : ShredCode) : Option Nat := do
  let lastData ← checkedSub16 s.codingHeader.numDataShreds 1
  let lastDataIndex ← checkedAdd s.commonHeader.fecSetIndex lastData.toUInt32
  if lastDataIndex.toNat ≥ maxDataShredsPerSlot then
    none
  let first ← s.firstCodingIndex
  let lastCoding ← checkedSub16 s.codingHeader.numCodingShreds 1
  let lastCodingIndex ← checkedAdd first lastCoding.toUInt32
  if lastCodingIndex.toNat ≥ maxCodeShredsPerSlot then
    none
  let fecSetSize := s.codingHeader.numDataShreds.toNat + s.codingHeader.numCodingShreds.toNat
  let index := s.codingHeader.position.toNat + s.codingHeader.numDataShreds.toNat
  if index < fecSetSize then some index else none

namespace Shred

def erasureShardIndex : Shred → Result Nat
  | .shredCode s => okOr s.erasureShardIndex
      (.invalidErasureShardIndex (s.commonHeader, .inr s.codingHeader))
  | .shredData s => okOr s.erasureShardIndex
      (.invalidErasureShardIndex (s.commonHeader, .inl s.dataHeader))

def merkleRoot (H : Hasher) (s : Shred) : Result Hash := do
  let proofSize ← s.proofSize
  let index ← s.erasureShardIndex
  let proofOffset ← s.proofOffset
  let proof ← getMerkleProof s.payload.bytes proofOffset proofSize
  let node ← getMerkleNode H s.payload.bytes sizeOfSignature proofOffset
  getMerkleRoot H index node proof

def merkleProof (s : Shred) : Result (List MerkleProofEntry) := do
  let proofSize ← s.proofSize
  let proofOffset ← s.proofOffset
  getMerkleProof s.payload.bytes proofOffset proofSize

def merkleNode (H : Hasher) (s : Shred) : Result Hash := do
  let proofOffset ← s.proofOffset
  getMerkleNode H s.payload.bytes sizeOfSignature proofOffset

def setMerkleProof (s : Shred) (proof : List (Result MerkleProofEntry)) : Result Shred := do
  let proofSize ← s.proofSize
  let proofOffset ← s.proofOffset
  let slice ← okOr (s.payload.getMut (.rangeFrom proofOffset)) (.invalidProofSize proofSize)
  let buffer ← slice.deref
  let (buffer, position) ← writeProof proofSize.toNat proof 0 buffer 0
  if position ≠ proofSize.toNat * sizeOfMerkleProofEntry then
    fail .invalidMerkleProof
  let slice ← slice.copyFromSlice buffer
  pure (s.setPayload slice.drop)

def retransmitterSignatureOffset (s : Shred) : Result Nat := do
  let (proofSize, resigned) ← variantFields s.kind s.commonHeader.shredVariant
  getRetransmitterSignatureOffset s.kind proofSize resigned

def retransmitterSignature (s : Shred) : Result Signature := do
  let offset ← s.retransmitterSignatureOffset
  let bytes ← okOr (s.payload.get offset (offset + sizeOfSignature))
    (.invalidPayloadSize s.payload.len)
  arrayFromSlice 64 bytes

def setRetransmitterSignature (s : Shred) (signature : Signature) : Result Shred := do
  let offset ← s.retransmitterSignatureOffset
  let buffer ← okOr (s.payload.getMut (.range offset (offset + sizeOfSignature)))
    (.invalidPayloadSize s.payload.len)
  let buffer ← buffer.copyFromSlice signature.1
  pure (s.setPayload buffer.drop)

def erasureShardOffsets (s : Shred) : Result (Nat × Nat) := do
  if s.payload.len ≠ sizeOfPayload s.kind then
    fail (.invalidPayloadSize s.payload.len)
  let (proofSize, resigned) ← variantFields s.kind s.commonHeader.shredVariant
  let cap ← capacity s.kind proofSize resigned
  pure (erasureShardStartOffset s.kind, sizeOfHeaders s.kind + cap)

def erasureShard (s : Shred) : Result Bytes := do
  let (lo, hi) ← s.erasureShardOffsets
  okOr (s.payload.get lo hi) (.invalidPayloadSize s.payload.len)

def erasureShardMut (s : Shred) : Result PayloadMutGuard := do
  let (lo, hi) ← s.erasureShardOffsets
  okOr (s.payload.getMut (.range lo hi)) (.invalidPayloadSize s.payload.len)

end Shred

namespace ShredData

def getData (shred : Bytes) (proofSize : UInt8) (resigned : Bool) (size : UInt16) :
    Result Bytes := do
  let dataBufferSize ← capacity .data proofSize resigned
  let inRange := sizeOfHeaders .data ≤ size.toNat ∧
    size.toNat ≤ sizeOfHeaders .data + dataBufferSize
  okOr (if inRange then slice? shred (sizeOfHeaders .data) size.toNat else none)
    (.invalidDataSize size shred.length)

def data (s : ShredData) : Result Bytes := do
  let (proofSize, resigned) ← variantFields .data s.commonHeader.shredVariant
  getData s.payload.bytes proofSize resigned s.dataHeader.size

def referenceTick (s : ShredData) : UInt8 :=
  s.dataHeader.flags.bits &&& ShredFlags.shredTickReferenceMask.bits

def parent (s : ShredData) : Result UInt64 := do
  let slot := s.commonHeader.slot
  let parentOffset := s.dataHeader.parentOffset
  if parentOffset = 0 ∧ slot ≠ 0 then
    fail (.invalidParentOffset slot parentOffset)
  okOr (checkedSub64 slot parentOffset.toUInt64) (.invalidParentOffset slot parentOffset)

def sanitize (s : ShredData) : Result Unit := do
  if s.commonHeader.shredVariant.shredType ≠ .data then
    fail .invalidShredVariant
  let _ ← (Shred.shredData s).merkleProof
  if s.payload.len ≠ sizeOfPayload .data then
    fail (.invalidPayloadSize s.payload.len)
  if s.commonHeader.index.toNat ≥ maxDataShredsPerSlot then
    fail (.invalidShredIndex .data s.commonHeader.index)
  let flags := s.dataHeader.flags
  if flags.intersects .lastShredInSlot && !flags.contains .dataCompleteShred then
    fail (.invalidShredFlags flags.bits)
  let _ ← s.data
  let _ ← s.parent
  let _ ← (Shred.shredData s).erasureShardIndex
  let _ ← (Shred.shredData s).erasureShard

def fromPayload (payload : Bytes) : Result ShredData := do
  let payload : Payload := ⟨payload⟩
  if payload.len < sizeOfPayload .data then
    fail (.invalidPayloadSize payload.len)
  let payload := payload.truncate (sizeOfPayload .data)
  let (commonHeader, dataHeader) ← liftErr .wincodeRead
    (deserialize readDataHeaders payload.bytes)
  if commonHeader.shredVariant.shredType ≠ .data then
    fail .invalidShredVariant
  let shred : ShredData := { commonHeader, dataHeader, payload }
  shred.sanitize
  pure shred

end ShredData

namespace ShredCode

def sanitize (s : ShredCode) : Result Unit := do
  if s.commonHeader.shredVariant.shredType ≠ .code then
    fail .invalidShredVariant
  let _ ← (Shred.shredCode s).merkleProof
  if s.payload.len ≠ sizeOfPayload .code then
    fail (.invalidPayloadSize s.payload.len)
  if s.commonHeader.index.toNat ≥ maxCodeShredsPerSlot then
    fail (.invalidShredIndex .code s.commonHeader.index)
  if s.codingHeader.numCodingShreds.toNat > 8 * dataShredsPerFecBlock then
    fail (.invalidNumCodingShreds s.codingHeader.numCodingShreds)
  let _ ← (Shred.shredCode s).erasureShardIndex
  let _ ← (Shred.shredCode s).erasureShard

def fromPayload (payload : Bytes) : Result ShredCode := do
  let payload : Payload := ⟨payload⟩
  let (commonHeader, codingHeader) ← liftErr .wincodeRead
    (deserialize readCodingHeaders payload.bytes)
  if commonHeader.shredVariant.shredType ≠ .code then
    fail .invalidShredVariant
  if payload.len < sizeOfPayload .code then
    fail (.invalidPayloadSize payload.len)
  let payload := payload.truncate (sizeOfPayload .code)
  let shred : ShredCode := { commonHeader, codingHeader, payload }
  shred.sanitize
  pure shred

end ShredCode

/-- `layout::get_shred_variant`. -/
def getShredVariant (shred : Bytes) : Result ShredVariant := do
  let variant ← okOr shred[64]? (.invalidPayloadSize shred.length)
  ShredVariant.tryFrom variant

/-- Tuple which uniquely identifies a shred should it exist. -/
structure ShredId where
  slot : UInt64
  index : UInt32
  shredType : ShredType
  deriving DecidableEq, Repr

namespace Shred

def sanitize : Shred → Result Unit
  | .shredCode s => s.sanitize
  | .shredData s => s.sanitize

/-- `Shred::new_from_serialized_shred`, and `merkle::Shred::from_payload` alike. -/
def newFromSerializedShred (shred : Bytes) : Result Shred := do
  match ← getShredVariant shred with
  | .merkleCode _ _ => return .shredCode (← ShredCode.fromPayload shred)
  | .merkleData _ _ => return .shredData (← ShredData.fromPayload shred)

def id (s : Shred) : ShredId :=
  ⟨s.commonHeader.slot, s.commonHeader.index, s.commonHeader.shredVariant.shredType⟩

/-- `get_payload` of `is_shred_duplicate`: the payload without the retransmitter's signature. -/
def payloadToCompare (s : Shred) : Result Bytes :=
  letElse (toOption s.retransmitterSignatureOffset) (pure s.payload.bytes) fun offset =>
    pure ((s.payload.get 0 offset).getD s.payload.bytes)

/-- True if the other shred has the same `ShredId` but different payload. -/
def isShredDuplicate (s other : Shred) : Result Bool := do
  if s.id ≠ other.id then
    return false
  let mine ← s.payloadToCompare
  let theirs ← other.payloadToCompare
  pure (mine ≠ theirs)

def signedData (H : Hasher) (s : Shred) : Result Hash := s.merkleRoot H

/-- Signature verification is the signature library's own. -/
def verify (H : Hasher) (verifySignature : Signature → Pubkey → Hash → Bool) (s : Shred)
    (pubkey : Pubkey) : Result Bool := do
  match ← toOption (s.signedData H) with
  | some data => pure (verifySignature s.signature pubkey data)
  | none => pure false

end Shred

end LightweightShred
