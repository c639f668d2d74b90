import LightweightShred.Lib.Codec

/-!
# Shred headers and their byte format

The common header takes 83 bytes, the data header 5 more and the coding header 6 more,
all fields little-endian and in declaration order.
-/
namespace LightweightShred
open ByteString Rust Codec

abbrev Bytes := List UInt8
abbrev Signature := Fixed 64
abbrev Hash := Fixed 32
abbrev Pubkey := Fixed 32
abbrev MerkleProofEntry := Fixed 20

def packetDataSize : Nat := 1232
def sizeOfNonce : Nat := 4
def sizeOfCommonShredHeader : Nat := 83
def sizeOfDataShredHeaders : Nat := 88
def sizeOfCodingShredHeaders : Nat := 89
def sizeOfSignature : Nat := 64
def sizeOfMerkleRoot : Nat := 32
def sizeOfMerkleProofEntry : Nat := 20
def dataShredsPerFecBlock : Nat := 32
def maxDataShredsPerSlot : Nat := 32768
def maxCodeShredsPerSlot : Nat := maxDataShredsPerSlot

inductive ShredType where
  | data
  | code
  deriving DecidableEq, Repr

def ShredType.toU8 : ShredType → UInt8
  | .data => 0b10100101
  | .code => 0b01011010

inductive ShredVariant where
  | merkleCode (proofSize : UInt8) (resigned : Bool)
  | merkleData (proofSize : UInt8) (resigned : Bool)
  deriving DecidableEq, Repr

namespace ShredVariant

def proofSize : ShredVariant → UInt8
  | .merkleCode p _ | .merkleData p _ => p

def resigned : ShredVariant → Bool
  | .merkleCode _ r | .merkleData _ r => r

/-- `ShredType::from(ShredVariant)`. -/
def shredType : ShredVariant → ShredType
  | .merkleCode _ _ => .code
  | .merkleData _ _ => .data

/-- `u8::from(ShredVariant)`. -/
def toU8 : ShredVariant → UInt8
  | .merkleCode p false => p ||| 0x60
  | .merkleCode p true => p ||| 0x70
  | .merkleData p false => p ||| 0x90
  | .merkleData p true => p ||| 0xb0

end ShredVariant

structure ShredFlags where
  bits : UInt8
  deriving DecidableEq, Repr

namespace ShredFlags

def empty : ShredFlags := ⟨0⟩
def shredTickReferenceMask : ShredFlags := ⟨0b00111111⟩
def dataCompleteShred : ShredFlags := ⟨0b01000000⟩
def lastShredInSlot : ShredFlags := ⟨0b11000000⟩

def contains (f g : ShredFlags) : Bool := f.bits &&& g.bits == g.bits

def intersects (f g : ShredFlags) : Bool := f.bits &&& g.bits != 0

end ShredFlags

@[ext]
structure ShredCommonHeader where
  signature : Signature
  shredVariant : ShredVariant
  slot : UInt64
  index : UInt32
  version : UInt16
  fecSetIndex : UInt32
  deriving DecidableEq

@[ext]
structure DataShredHeader where
  parentOffset : UInt16
  flags : ShredFlags
  size : UInt16
  deriving DecidableEq, Repr

@[ext]
structure CodingShredHeader where
  numDataShreds : UInt16
  numCodingShreds : UInt16
  position : UInt16
  deriving DecidableEq, Repr

/-- The errors of the Reed-Solomon library. -/
inductive ErasureError where
  | tooFewShards
  | tooManyShards
  | tooFewDataShards
  | tooManyDataShards
  | tooFewParityShards
  | tooManyParityShards
  | tooFewBufferShards
  | tooManyBufferShards
  | incorrectShardSize
  | tooFewShardsPresent
  | emptyShard
  | invalidShardFlags
  | invalidIndex
  deriving DecidableEq, Repr

inductive Error where
  | wincodeRead (e : ReadError)
  | wincodeWrite (e : WriteError)
  | erasure (e : ErasureError)
  | invalidDataSize (size : UInt16) (payload : Nat)
  | invalidDeshredSet
  | invalidErasureConfig
  | invalidErasureShardIndex (headers : ShredCommonHeader × (DataShredHeader ⊕ CodingShredHeader))
  | invalidMerkleProof
  | invalidMerkleRoot
  | invalidNumCodingShreds (n : UInt16)
  | invalidParentOffset (slot : UInt64) (parentOffset : UInt16)
  | invalidParentSlot (slot parentSlot : UInt64)
  | invalidPayloadSize (size : Nat)
  | invalidProofSize (proofSize : UInt8)
  | invalidRecoveredShred
  | invalidShardSize (size : Nat)
  | invalidShredFlags (bits : UInt8)
  | invalidShredIndex (type : ShredType) (index : UInt32)
  | invalidShredType
  | invalidShredVariant
  | invalidPacketSize
  | io
  | unknownProofSize
  | emptyIterator
  deriving DecidableEq

/-- `Result<_, Error>`, where the evaluation may also panic. -/
abbrev Result (α : Type) := Fallible Error α

/-- `ShredVariant::try_from(u8)`. -/
def ShredVariant.tryFrom (b : UInt8) : Result ShredVariant :=
  if b = ShredType.code.toU8 ∨ b = ShredType.data.toU8 then fail .invalidShredVariant
  else if b &&& 0xF0 = 0x60 then .ok (.merkleCode (b &&& 0x0F) false)
  else if b &&& 0xF0 = 0x70 then .ok (.merkleCode (b &&& 0x0F) true)
  else if b &&& 0xF0 = 0x90 then .ok (.merkleData (b &&& 0x0F) false)
  else if b &&& 0xF0 = 0xb0 then .ok (.merkleData (b &&& 0x0F) true)
  else fail .invalidShredVariant

/-- The proof size fits the low nibble of the variant byte. -/
def ShredVariant.Valid (v : ShredVariant) : Prop := v.proofSize.toNat < 16

theorem ShredVariant.tryFrom_sound {b : UInt8} {v : ShredVariant} (h : tryFrom b = .ok v) :
    v.Valid ∧ b = v.toU8 := by
  have all : ∀ n < 256, ∀ w, tryFrom (UInt8.ofNat n) = .ok w →
      w.proofSize < 16 ∧ UInt8.ofNat n = w.toU8 := by
    intro n hn w hw
    have check : ∀ n < 256, (tryFrom (UInt8.ofNat n)).toOption.all
        (fun w => decide (w.proofSize < 16 ∧ UInt8.ofNat n = w.toU8)) = true := by
      decide +kernel
    have hn' := check n hn
    rw [hw] at hn'
    exact of_decide_eq_true hn'
  have hb := all b.toNat b.toNat_lt v (by rwa [UInt8.ofNat_toNat])
  rw [UInt8.ofNat_toNat] at hb
  exact ⟨UInt8.lt_iff_toNat_lt.mp hb.1, hb.2⟩

theorem ShredVariant.tryFrom_toU8 {v : ShredVariant} (h : v.Valid) : tryFrom v.toU8 = .ok v := by
  have code : ∀ n < 16, ∀ r : Bool,
      tryFrom (merkleCode (UInt8.ofNat n) r).toU8 = .ok (merkleCode (UInt8.ofNat n) r) := by decide
  have data : ∀ n < 16, ∀ r : Bool,
      tryFrom (merkleData (UInt8.ofNat n) r).toU8 = .ok (merkleData (UInt8.ofNat n) r) := by decide
  cases v with
  | merkleCode p r => simpa only [UInt8.ofNat_toNat] using code p.toNat h r
  | merkleData p r => simpa only [UInt8.ofNat_toNat] using data p.toNat h r

theorem ShredVariant.eq_of_fields {v w : ShredVariant} (ht : v.shredType = w.shredType)
    (hp : v.proofSize = w.proofSize) (hr : v.resigned = w.resigned) : v = w := by
  cases v <;> cases w <;> simp_all [shredType, proofSize, resigned]

section Read

def ShredVariant.read : Reader ShredVariant := fun b => do
  let (repr, b) ← readU8 b
  match tryFrom repr with
  | .ok v => pure (v, b)
  | .error _ => .error (.invalidTagEncoding repr.toNat)

def ShredCommonHeader.read : Reader ShredCommonHeader := fun b => do
  let (signature, b) ← readBytes 64 b
  let (shredVariant, b) ← ShredVariant.read b
  let (slot, b) ← readU64 b
  let (index, b) ← readU32 b
  let (version, b) ← readU16 b
  let (fecSetIndex, b) ← readU32 b
  pure ({ signature, shredVariant, slot, index, version, fecSetIndex }, b)

def DataShredHeader.read : Reader DataShredHeader := fun b => do
  let (parentOffset, b) ← readU16 b
  let (flags, b) ← readU8 b
  let (size, b) ← readU16 b
  pure ({ parentOffset, flags := ⟨flags⟩, size }, b)

def CodingShredHeader.read : Reader CodingShredHeader := fun b => do
  let (numDataShreds, b) ← readU16 b
  let (numCodingShreds, b) ← readU16 b
  let (position, b) ← readU16 b
  pure ({ numDataShreds, numCodingShreds, position }, b)

/-- The tuple `(ShredCommonHeader, DataShredHeader)`. -/
def readDataHeaders : Reader (ShredCommonHeader × DataShredHeader) :=
  readPair ShredCommonHeader.read DataShredHeader.read

/-- The tuple `(ShredCommonHeader, CodingShredHeader)`. -/
def readCodingHeaders : Reader (ShredCommonHeader × CodingShredHeader) :=
  readPair ShredCommonHeader.read CodingShredHeader.read

end Read

section Write

def ShredCommonHeader.write (h : ShredCommonHeader) : Bytes :=
  h.signature.1 ++ leBytes 1 h.shredVariant.toU8.toNat ++ leBytes 8 h.slot.toNat ++
    leBytes 4 h.index.toNat ++ leBytes 2 h.version.toNat ++ leBytes 4 h.fecSetIndex.toNat

def DataShredHeader.write (h : DataShredHeader) : Bytes :=
  leBytes 2 h.parentOffset.toNat ++ leBytes 1 h.flags.bits.toNat ++ leBytes 2 h.size.toNat

def CodingShredHeader.write (h : CodingShredHeader) : Bytes :=
  leBytes 2 h.numDataShreds.toNat ++ leBytes 2 h.numCodingShreds.toNat ++
    leBytes 2 h.position.toNat

def writeDataHeaders (h : ShredCommonHeader × DataShredHeader) : Bytes := h.1.write ++ h.2.write

def writeCodingHeaders (h : ShredCommonHeader × CodingShredHeader) : Bytes := h.1.write ++ h.2.write

end Write

@[simp] theorem ShredCommonHeader.length_write (h : ShredCommonHeader) : h.write.length = 83 := by
  simp only [write, List.length_append, length_leBytes, h.signature.2]

@[simp] theorem DataShredHeader.length_write (h : DataShredHeader) : h.write.length = 5 := by
  simp only [write, List.length_append, length_leBytes]

@[simp] theorem CodingShredHeader.length_write (h : CodingShredHeader) : h.write.length = 6 := by
  simp only [write, List.length_append, length_leBytes]

@[simp] theorem length_writeDataHeaders (h : ShredCommonHeader × DataShredHeader) :
    (writeDataHeaders h).length = 88 := by simp [writeDataHeaders]

@[simp] theorem length_writeCodingHeaders (h : ShredCommonHeader × CodingShredHeader) :
    (writeCodingHeaders h).length = 89 := by simp [writeCodingHeaders]

theorem ShredVariant.read_inverts :
    Inverts ShredVariant.read Valid (fun v => leBytes 1 v.toU8.toNat) := by
  intro b v rest
  simp only [read, bind_eq_ok, Prod.exists]
  constructor
  · rintro ⟨repr, b', hr, h⟩
    cases ht : tryFrom repr with
    | ok w =>
        rw [ht] at h
        cases h
        obtain ⟨hv, rfl⟩ := tryFrom_sound ht
        exact ⟨hv, ((readU8_inverts _ _ _).mp hr).2⟩
    | error e =>
        rw [ht] at h
        cases h
  · rintro ⟨hv, rfl⟩
    refine ⟨v.toU8, rest, (readU8_inverts _ _ _).mpr ⟨trivial, rfl⟩, ?_⟩
    rw [tryFrom_toU8 hv]
    rfl

theorem ShredCommonHeader.read_inverts :
    Inverts ShredCommonHeader.read (fun h => h.shredVariant.Valid) write := by
  intro b h rest
  simp only [read, bind_eq_ok, Prod.exists]
  constructor
  · rintro ⟨signature, b1, h1, variant, b2, h2, slot, b3, h3, index, b4, h4, version, b5, h5,
      fec, b6, h6, he⟩
    cases he
    obtain ⟨-, rfl⟩ := (readBytes_inverts 64 _ _ _).mp h1
    obtain ⟨hv, rfl⟩ := (ShredVariant.read_inverts _ _ _).mp h2
    obtain ⟨-, rfl⟩ := (readU64_inverts _ _ _).mp h3
    obtain ⟨-, rfl⟩ := (readU32_inverts _ _ _).mp h4
    obtain ⟨-, rfl⟩ := (readU16_inverts _ _ _).mp h5
    obtain ⟨-, rfl⟩ := (readU32_inverts _ _ _).mp h6
    exact ⟨hv, by simp only [write, List.append_assoc]⟩
  · rintro ⟨hv, rfl⟩
    simp only [write, List.append_assoc]
    exact ⟨h.signature, _, (readBytes_inverts 64 _ _ _).mpr ⟨trivial, rfl⟩,
      h.shredVariant, _, (ShredVariant.read_inverts _ _ _).mpr ⟨hv, rfl⟩,
      h.slot, _, (readU64_inverts _ _ _).mpr ⟨trivial, rfl⟩,
      h.index, _, (readU32_inverts _ _ _).mpr ⟨trivial, rfl⟩,
      h.version, _, (readU16_inverts _ _ _).mpr ⟨trivial, rfl⟩,
      h.fecSetIndex, _, (readU32_inverts _ _ _).mpr ⟨trivial, rfl⟩, rfl⟩

theorem DataShredHeader.read_inverts : Inverts DataShredHeader.read (fun _ => True) write := by
  intro b h rest
  simp only [read, bind_eq_ok, Prod.exists]
  constructor
  · rintro ⟨parent, b1, h1, flags, b2, h2, size, b3, h3, he⟩
    cases he
    obtain ⟨-, rfl⟩ := (readU16_inverts _ _ _).mp h1
    obtain ⟨-, rfl⟩ := (readU8_inverts _ _ _).mp h2
    obtain ⟨-, rfl⟩ := (readU16_inverts _ _ _).mp h3
    exact ⟨trivial, by simp only [write, List.append_assoc]⟩
  · rintro ⟨-, rfl⟩
    simp only [write, List.append_assoc]
    exact ⟨h.parentOffset, _, (readU16_inverts _ _ _).mpr ⟨trivial, rfl⟩,
      h.flags.bits, _, (readU8_inverts _ _ _).mpr ⟨trivial, rfl⟩,
      h.size, _, (readU16_inverts _ _ _).mpr ⟨trivial, rfl⟩, rfl⟩

theorem CodingShredHeader.read_inverts : Inverts CodingShredHeader.read (fun _ => True) write := by
  intro b h rest
  simp only [read, bind_eq_ok, Prod.exists]
  constructor
  · rintro ⟨data, b1, h1, coding, b2, h2, position, b3, h3, he⟩
    cases he
    obtain ⟨-, rfl⟩ := (readU16_inverts _ _ _).mp h1
    obtain ⟨-, rfl⟩ := (readU16_inverts _ _ _).mp h2
    obtain ⟨-, rfl⟩ := (readU16_inverts _ _ _).mp h3
    exact ⟨trivial, by simp only [write, List.append_assoc]⟩
  · rintro ⟨-, rfl⟩
    simp only [write, List.append_assoc]
    exact ⟨h.numDataShreds, _, (readU16_inverts _ _ _).mpr ⟨trivial, rfl⟩,
      h.numCodingShreds, _, (readU16_inverts _ _ _).mpr ⟨trivial, rfl⟩,
      h.position, _, (readU16_inverts _ _ _).mpr ⟨trivial, rfl⟩, rfl⟩

theorem DataShredHeader.write_injective {d e : DataShredHeader} (h : d.write = e.write) : d = e := by
  have hd := (read_inverts _ d []).mpr ⟨trivial, rfl⟩
  rw [h, (read_inverts _ e []).mpr ⟨trivial, rfl⟩] at hd
  exact (Prod.mk.inj (Except.ok.inj hd)).1.symm

theorem DataShredHeader.exists_write {b : Bytes} (h : b.length = 5) :
    ∃ d : DataShredHeader, d.write = b := by
  have h1 : (b.take 2).length = 2 := List.length_take_of_le (by omega)
  have h2 : ((b.drop 2).take 1).length = 1 :=
    List.length_take_of_le (by rw [List.length_drop]; omega)
  have h3 : (b.drop 3).length = 2 := by rw [List.length_drop, h]
  have hlt1 := leNat_lt (b.take 2)
  have hlt2 := leNat_lt ((b.drop 2).take 1)
  have hlt3 := leNat_lt (b.drop 3)
  rw [h1] at hlt1
  rw [h2] at hlt2
  rw [h3] at hlt3
  refine ⟨⟨UInt16.ofNat (leNat (b.take 2)), ⟨UInt8.ofNat (leNat ((b.drop 2).take 1))⟩,
    UInt16.ofNat (leNat (b.drop 3))⟩, ?_⟩
  rw [write, UInt16.toNat_ofNat_of_lt' hlt1, UInt8.toNat_ofNat_of_lt' hlt2,
    UInt16.toNat_ofNat_of_lt' hlt3, leBytes_leNat h1, leBytes_leNat h2, leBytes_leNat h3,
    List.append_assoc]
  rw [show b.drop 3 = (b.drop 2).drop 1 by rw [List.drop_drop], List.take_append_drop,
    List.take_append_drop]

/-- The data headers are read from exactly the 88 bytes that encode them. -/
theorem deserialize_data_eq_ok {b : Bytes} {h : ShredCommonHeader × DataShredHeader} :
    deserialize readDataHeaders b = .ok h ↔
      h.1.shredVariant.Valid ∧ 88 ≤ b.length ∧ slice b 0 88 = writeDataHeaders h := by
  rw [← length_writeDataHeaders h]
  exact (deserialize_eq_ok (readPair_inverts ShredCommonHeader.read_inverts
    DataShredHeader.read_inverts)).trans (and_congr_left fun _ => and_iff_left trivial)

/-- The coding headers are read from exactly the 89 bytes that encode them. -/
theorem deserialize_coding_eq_ok {b : Bytes} {h : ShredCommonHeader × CodingShredHeader} :
    deserialize readCodingHeaders b = .ok h ↔
      h.1.shredVariant.Valid ∧ 89 ≤ b.length ∧ slice b 0 89 = writeCodingHeaders h := by
  rw [← length_writeCodingHeaders h]
  exact (deserialize_eq_ok (readPair_inverts ShredCommonHeader.read_inverts
    CodingShredHeader.read_inverts)).trans (and_congr_left fun _ => and_iff_left trivial)

end LightweightShred
