import LightweightShred.Shred

/-!
# Accessors on raw bytes

Helper methods of the `wire` module, which extract pieces of the shred from the payload
without deserializing all of it. Offsets are written by hand, as in the source.
-/
namespace LightweightShred
open ByteString Rust Codec

/-- `<[u8; N]>::try_from(shred.get(lo..lo + N)?).unwrap()`. -/
def getArray (n : Nat) (shred : Bytes) (lo : Nat) : Result (Option (Fixed n)) :=
  andThen (pure (slice? shred lo (lo + n))) fun bytes => do
    let array ← arrayFromSlice n bytes
    pure (some array)

def u16FromLeBytes (b : Fixed 2) : UInt16 := UInt16.ofNat (leNat b.1)

def u32FromLeBytes (b : Fixed 4) : UInt32 := UInt32.ofNat (leNat b.1)

def u64FromLeBytes (b : Fixed 8) : UInt64 := UInt64.ofNat (leNat b.1)

/-- All bits that a flag has. -/
def ShredFlags.all : ShredFlags :=
  ⟨shredTickReferenceMask.bits ||| dataCompleteShred.bits ||| lastShredInSlot.bits⟩

/-- Nothing if a bit is set that no flag has. -/
def ShredFlags.fromBits (bits : UInt8) : Option ShredFlags :=
  if bits &&& ~~~ShredFlags.all.bits = 0 then some ⟨bits⟩ else none

structure ErasureConfig where
  numData : Nat
  numCoding : Nat
  deriving DecidableEq, Repr

def ErasureConfig.isFixed (c : ErasureConfig) : Bool :=
  c.numData == dataShredsPerFecBlock && c.numCoding == dataShredsPerFecBlock

namespace Wire

def getShredSize (shred : Bytes) : Result (Option Nat) :=
  andThen (toOption (getShredVariant shred)) fun variant =>
    match variant with
    | .merkleCode _ _ => pure (some (sizeOfPayload .code))
    | .merkleData _ _ => pure (some (sizeOfPayload .data))

/-- The shred at the front of a raw buffer. -/
def getShredFromBuf (buf : Bytes) : Result (Option Bytes) :=
  andThen (getShredSize buf) fun size => pure (slice? buf 0 size)

/-- The same shred, to be written in place, and the bytes behind it. -/
def getShredMut (buffer : Bytes) : Result (Option (Bytes × Bytes)) :=
  andThen (getShredSize buffer) fun size => pure
    (if size ≤ buffer.length then some (buffer.take size, buffer.drop size) else none)

def getCommonHeaderBytes (shred : Bytes) : Result (Option Bytes) :=
  pure (slice? shred 0 sizeOfCommonShredHeader)

def getSignature (shred : Bytes) : Result (Option Signature) := getArray 64 shred 0

def getShredType (shred : Bytes) : Result ShredType := do
  let variant ← getShredVariant shred
  pure variant.shredType

def getSlot (shred : Bytes) : Result (Option UInt64) :=
  andThen (getArray 8 shred 65) fun bytes => pure (some (u64FromLeBytes bytes))

def getIndex (shred : Bytes) : Result (Option UInt32) :=
  andThen (getArray 4 shred 73) fun bytes => pure (some (u32FromLeBytes bytes))

def getVersion (shred : Bytes) : Result (Option UInt16) :=
  andThen (getArray 2 shred 77) fun bytes => pure (some (u16FromLeBytes bytes))

def getFecSetIndex (shred : Bytes) : Result (Option UInt32) :=
  andThen (getArray 4 shred 79) fun bytes => pure (some (u32FromLeBytes bytes))

/-- The caller should verify first that the shred is data and not code. -/
def getParentOffset (shred : Bytes) : Result (Option UInt16) :=
  andThen (getArray 2 shred 83) fun bytes => pure (some (u16FromLeBytes bytes))

def getFlags (shred : Bytes) : Result ShredFlags := do
  match ← getShredType shred with
  | .code => fail .invalidShredType
  | .data => do
    let flags ← okOr shred[85]? (.invalidPayloadSize shred.length)
    okOr (ShredFlags.fromBits flags) (.invalidShredFlags flags)

def getDataSize (shred : Bytes) : Result UInt16 := do
  let bytes ← okOr (slice? shred 86 88) (.invalidPayloadSize shred.length)
  let bytes ← arrayFromSlice 2 bytes
  pure (u16FromLeBytes bytes)

def getData (shred : Bytes) : Result Bytes := do
  match ← getShredVariant shred with
  | .merkleCode _ _ => fail .invalidShredType
  | .merkleData proofSize resigned => do
    let size ← getDataSize shred
    ShredData.getData shred proofSize resigned size

/-- `<[u8; 2]>::try_from(bytes).map(u16::from_le_bytes).map(usize::from)`. -/
def usizeFromBytes (bytes : Bytes) : Option Nat :=
  if h : bytes.length = 2 then some (u16FromLeBytes ⟨bytes, h⟩).toNat else none

def getErasureConfig (shred : Bytes) : Result ErasureConfig := do
  let shredType ← unwrapResult (getShredType shred)
  if shredType ≠ .code then
    fail .invalidShredType
  let numDataBytes ← okOr (slice? shred 83 85) (.invalidPayloadSize shred.length)
  let numCodingBytes ← okOr (slice? shred 85 87) (.invalidPayloadSize shred.length)
  let numData ← okOr (usizeFromBytes numDataBytes) .invalidErasureConfig
  let numCoding ← okOr (usizeFromBytes numCodingBytes) .invalidErasureConfig
  pure { numData, numCoding }

def getShredId (shred : Bytes) : Result (Option ShredId) :=
  andThen (getSlot shred) fun slot => andThen (getIndex shred) fun index =>
    andThen (toOption (getShredType shred)) fun shredType => pure (some ⟨slot, index, shredType⟩)

def getReferenceTick (shred : Bytes) : Result UInt8 := do
  let shredType ← getShredType shred
  if shredType ≠ .data then
    fail .invalidShredType
  let flags ← okOr shred[85]? (.invalidPayloadSize shred.length)
  pure (flags &&& ShredFlags.shredTickReferenceMask.bits)

/-- The erasure shard index of a data shred, from its bytes. -/
def dataIndex (shred : Bytes) : Result (Option Nat) :=
  andThen (getFecSetIndex shred) fun fecSetIndex => andThen (getIndex shred) fun index =>
    pure ((checkedSub index fecSetIndex).map UInt32.toNat)

/-- The erasure shard index of a coding shred, from its bytes. -/
def codeIndex (shred : Bytes) : Result (Option Nat) :=
  andThen (pure (slice? shred 83 85)) fun numDataBytes =>
    andThen (pure (usizeFromBytes numDataBytes)) fun numDataShreds =>
      andThen (pure (slice? shred 87 89)) fun positionBytes =>
        andThen (pure (usizeFromBytes positionBytes)) fun position =>
          pure (some (numDataShreds + position))

section
variable (H : Hasher)

/-- `get_merkle_root` of both structs, once the index is known. -/
def merkleRootAt (ty : ShredType) (shred : Bytes) (proofSize : UInt8) (resigned : Bool)
    (index : Nat) : Result (Option Hash) :=
  andThen (toOption (getProofOffset ty proofSize resigned)) fun proofOffset =>
    andThen (toOption (getMerkleProof shred proofOffset proofSize)) fun proof =>
      andThen (toOption (getMerkleNode H shred sizeOfSignature proofOffset)) fun node =>
        toOption (LightweightShred.getMerkleRoot H index node proof)

def getMerkleRoot (shred : Bytes) : Result (Option Hash) :=
  andThen (toOption (getShredVariant shred)) fun variant =>
    match variant with
    | .merkleCode proofSize resigned =>
      andThen (codeIndex shred) (merkleRootAt H .code shred proofSize resigned)
    | .merkleData proofSize resigned =>
      andThen (dataIndex shred) (merkleRootAt H .data shred proofSize resigned)

end

def getChainedMerkleRoot (shred : Bytes) : Result (Option Hash) :=
  andThen (toOption (getShredVariant shred)) fun variant =>
    andThen (toOption (getChainedMerkleRootOffset variant.shredType variant.proofSize
        variant.resigned)) fun offset =>
      getArray 32 shred offset

def getRetransmitterSignatureOffset (shred : Bytes) : Result Nat := do
  let variant ← getShredVariant shred
  LightweightShred.getRetransmitterSignatureOffset variant.shredType variant.proofSize
    variant.resigned

def getRetransmitterSignature (shred : Bytes) : Result Signature := do
  let offset ← getRetransmitterSignatureOffset shred
  let bytes ← okOr (slice? shred offset (offset + 64)) (.invalidPayloadSize shred.length)
  arrayFromSlice 64 bytes

def isRetransmitterSignedVariant (shred : Bytes) : Result Bool := do
  let variant ← getShredVariant shred
  pure variant.resigned

/-- The buffer is written in place: the result, and the bytes afterwards. -/
def setRetransmitterSignature (shred : Bytes) (signature : Signature) : Result Unit × Bytes :=
  match getRetransmitterSignatureOffset shred with
  | .error e => (.error e, shred)
  | .ok offset =>
    match slice? shred offset (offset + sizeOfSignature) with
    | none => (fail (.invalidPayloadSize shred.length), shred)
    | some buffer =>
      if signature.1.length = buffer.length then (.ok (), splice shred offset signature.1)
      else (.error .panic, shred)

end Wire

end LightweightShred
