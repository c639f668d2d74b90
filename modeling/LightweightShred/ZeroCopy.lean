import LightweightShred.Wire
import LightweightShred.Parsing
import LightweightShred.Replication

/-!
# The zero-copy view

The accessors on raw bytes and the methods of the parsed shred are two decoders of one
format. On every buffer that starts with an accepted shred they agree.
-/
namespace LightweightShred
open ByteString Rust Codec

section Fields
variable {b : Bytes}

theorem getArray_eq {n lo : Nat} (h : lo + n ≤ b.length) :
    getArray n b lo = .ok (some ⟨slice b lo (lo + n), by
      rw [length_slice h, Nat.add_sub_cancel_left]⟩) := by
  have hlen : (slice b lo (lo + n)).length = n := by
    rw [length_slice h, Nat.add_sub_cancel_left]
  rw [getArray, slice?_of_le (Nat.le_add_right _ _) h]
  simp only [pure, Except.pure, andThen_some, arrayFromSlice, dif_pos hlen, bind, Except.bind]

theorem usizeFromBytes_eq {lo : Nat} (h : lo + 2 ≤ b.length) :
    Wire.usizeFromBytes (slice b lo (lo + 2)) = some (numberAt b lo (lo + 2)) := by
  have hlen : (slice b lo (lo + 2)).length = 2 := by
    rw [length_slice h, Nat.add_sub_cancel_left]
  have hlt := @numberAt_lt b lo (lo + 2) h
  rw [Nat.add_sub_cancel_left] at hlt
  rw [Wire.usizeFromBytes, dif_pos hlen, u16FromLeBytes]
  exact congrArg some (toNat_u16 hlt)

theorem getSlot_eq {x : UInt64} (hb : 73 ≤ b.length) (hx : numberAt b 65 73 = x.toNat) :
    Wire.getSlot b = .ok (some x) := by
  rw [Wire.getSlot, @getArray_eq b 8 65 hb, andThen_some]
  exact congrArg (fun n => Except.ok (some n)) ((congrArg UInt64.ofNat hx).trans UInt64.ofNat_toNat)

theorem getIndex_eq {x : UInt32} (hb : 77 ≤ b.length) (hx : numberAt b 73 77 = x.toNat) :
    Wire.getIndex b = .ok (some x) := by
  rw [Wire.getIndex, @getArray_eq b 4 73 hb, andThen_some]
  exact congrArg (fun n => Except.ok (some n)) ((congrArg UInt32.ofNat hx).trans UInt32.ofNat_toNat)

theorem getVersion_eq {x : UInt16} (hb : 79 ≤ b.length) (hx : numberAt b 77 79 = x.toNat) :
    Wire.getVersion b = .ok (some x) := by
  rw [Wire.getVersion, @getArray_eq b 2 77 hb, andThen_some]
  exact congrArg (fun n => Except.ok (some n)) ((congrArg UInt16.ofNat hx).trans UInt16.ofNat_toNat)

theorem getFecSetIndex_eq {x : UInt32} (hb : 83 ≤ b.length) (hx : numberAt b 79 83 = x.toNat) :
    Wire.getFecSetIndex b = .ok (some x) := by
  rw [Wire.getFecSetIndex, @getArray_eq b 4 79 hb, andThen_some]
  exact congrArg (fun n => Except.ok (some n)) ((congrArg UInt32.ofNat hx).trans UInt32.ofNat_toNat)

theorem getParentOffset_eq {x : UInt16} (hb : 85 ≤ b.length) (hx : numberAt b 83 85 = x.toNat) :
    Wire.getParentOffset b = .ok (some x) := by
  rw [Wire.getParentOffset, @getArray_eq b 2 83 hb, andThen_some]
  exact congrArg (fun n => Except.ok (some n)) ((congrArg UInt16.ofNat hx).trans UInt16.ofNat_toNat)

theorem getDataSize_eq {x : UInt16} (hb : 88 ≤ b.length) (hx : numberAt b 86 88 = x.toNat) :
    Wire.getDataSize b = .ok x := by
  have hlen : (slice b 86 88).length = 2 := length_slice hb
  rw [Wire.getDataSize, slice?_of_le (by omega) hb]
  simp only [okOr, bind, Except.bind, arrayFromSlice, dif_pos hlen, u16FromLeBytes]
  exact congrArg Except.ok ((congrArg UInt16.ofNat hx).trans UInt16.ofNat_toNat)

theorem getShredVariant_eq {v : ShredVariant} (hv : v.Valid) (h : b[64]? = some v.toU8) :
    getShredVariant b = .ok v := by
  rw [getShredVariant, h]
  exact ShredVariant.tryFrom_toU8 hv

theorem getShredSize_eq {v : ShredVariant} (hv : getShredVariant b = .ok v) :
    Wire.getShredSize b = .ok (some (sizeOfPayload v.shredType)) := by
  rw [Wire.getShredSize, hv, toOption, andThen_some]
  cases v <;> rfl

theorem getErasureConfig_eq {v : ShredVariant} (hv : getShredVariant b = .ok v)
    (hk : v.shredType = .code) (hb : 87 ≤ b.length) :
    Wire.getErasureConfig b = .ok ⟨numberAt b 83 85, numberAt b 85 87⟩ := by
  have h1 := @usizeFromBytes_eq b 83 (by omega)
  have h2 := @usizeFromBytes_eq b 85 hb
  rw [Wire.getErasureConfig, Wire.getShredType, hv]
  simp only [bind, Except.bind, pure, Except.pure, unwrapResult, hk, ne_eq, not_true_eq_false,
    if_false]
  rw [slice?_of_le (by omega) (show 85 ≤ b.length by omega), slice?_of_le (by omega) hb]
  simp only [okOr, h1, h2]

/-- Every bit of a flags byte belongs to some flag. -/
theorem ShredFlags.fromBits_eq (f : UInt8) : ShredFlags.fromBits f = some ⟨f⟩ :=
  if_pos (by rw [show ~~~ShredFlags.all.bits = 0 by decide, UInt8.and_zero])

end Fields

section Accepted
variable {b : Bytes} {s : Shred}

theorem slice?_payload (h : Shred.newFromSerializedShred b = .ok s) {lo hi : Nat} (hl : lo ≤ hi)
    (hh : hi ≤ sizeOfPayload s.kind) :
    slice? b lo hi = some (slice s.payload.bytes lo hi) ∧
      slice? s.payload.bytes lo hi = some (slice s.payload.bytes lo hi) := by
  obtain ⟨hle, hp, -⟩ := Shred.newFromSerializedShred_eq_ok_iff.mp h
  have hwf := (Shred.newFromSerializedShred_eq_ok.mp h).1
  refine ⟨?_, slice?_of_le hl (by rw [hwf.length]; exact hh)⟩
  rw [slice?_of_le hl (Nat.le_trans hh hle), hp, Shred.slice_take_of_le hh]

theorem slice?_eq_payload (h : Shred.newFromSerializedShred b = .ok s) {lo hi : Nat} (hl : lo ≤ hi)
    (hh : hi ≤ sizeOfPayload s.kind) : slice? b lo hi = slice? s.payload.bytes lo hi :=
  (slice?_payload h hl hh).1.trans (slice?_payload h hl hh).2.symm

theorem commonHeader_at (h : Shred.newFromSerializedShred b = .ok s) : s.commonHeader.At b := by
  obtain ⟨-, -, -, -, hat, -⟩ := Shred.newFromSerializedShred_eq_ok_iff.mp h
  cases s with
  | shredCode c => exact hat.1
  | shredData d => exact hat.1

theorem variant_at (h : Shred.newFromSerializedShred b = .ok s) :
    getShredVariant b = .ok s.variant :=
  getShredVariant_eq (Shred.newFromSerializedShred_eq_ok.mp h).1.valid (commonHeader_at h).shredVariant

theorem getShredFromBuf_eq (h : Shred.newFromSerializedShred b = .ok s) :
    Wire.getShredFromBuf b = .ok (some s.payload.bytes) := by
  have hwf := (Shred.newFromSerializedShred_eq_ok.mp h).1
  have hfront := (slice?_payload h (Nat.zero_le _) (Nat.le_refl _)).1
  rw [slice_full hwf.length] at hfront
  rw [Wire.getShredFromBuf, getShredSize_eq (variant_at h), hwf.kind, andThen_some, hfront]
  rfl

theorem getChainedMerkleRoot_eq (h : Shred.newFromSerializedShred b = .ok s) :
    ∃ root, s.chainedMerkleRoot = .ok root ∧ Wire.getChainedMerkleRoot b = .ok (some root) := by
  have hwf := (Shred.newFromSerializedShred_eq_ok.mp h).1
  obtain ⟨root, hroot⟩ := hwf.exists_chainedMerkleRoot
  refine ⟨root, hroot, ?_⟩
  obtain ⟨hle, -⟩ := Shred.newFromSerializedShred_eq_ok_iff.mp h
  have hin : Region.chainedRoot.hi s.kind s.variant ≤ sizeOfPayload s.kind :=
    Region.hi_le hwf.valid .chainedRoot
  have hbytes := (slice?_payload h
    (Region.lo_le_hi s.kind hwf.valid .chainedRoot) hin).1
  have hslice : slice b (Region.chainedRoot.lo s.kind s.variant)
      (Region.chainedRoot.hi s.kind s.variant) = s.part .chainedRoot := by
    rw [slice?_of_le (Region.lo_le_hi s.kind hwf.valid .chainedRoot) (by omega)] at hbytes
    exact Option.some.inj hbytes
  rw [hwf.chainedMerkleRoot_eq_ok.mp hroot] at hslice
  rw [Wire.getChainedMerkleRoot, variant_at h, toOption, andThen_some, hwf.kind,
    getChainedMerkleRootOffset_eq hwf.valid, toOption, andThen_some,
    @getArray_eq b 32 _ (Nat.le_trans hin hle)]
  exact congrArg (fun r => Except.ok (some r)) (Subtype.ext hslice)

theorem payload_le (h : Shred.newFromSerializedShred b = .ok s) : 1203 ≤ b.length := by
  have hsz := sizes s.kind
  have hle := (Shred.newFromSerializedShred_eq_ok.mp h).2.1
  omega

theorem getSignature_eq (h : Shred.newFromSerializedShred b = .ok s) :
    Wire.getSignature b = .ok (some s.signature) := by
  have hlen := payload_le h
  rw [Wire.getSignature, @getArray_eq b 64 0 (by omega)]
  exact congrArg (fun x => Except.ok (some x)) (Subtype.ext (commonHeader_at h).signature)

theorem getShredType_eq (h : Shred.newFromSerializedShred b = .ok s) :
    Wire.getShredType b = .ok s.kind := by
  rw [Wire.getShredType, variant_at h, ← (Shred.newFromSerializedShred_eq_ok.mp h).1.kind]
  rfl

theorem getShredId_eq (h : Shred.newFromSerializedShred b = .ok s) :
    Wire.getShredId b = .ok (some s.id) := by
  have hlen := payload_le h
  have hat := commonHeader_at h
  rw [Wire.getShredId, getSlot_eq (by omega) hat.slot, andThen_some,
    getIndex_eq (by omega) hat.index, andThen_some, getShredType_eq h, toOption, andThen_some,
    ← (Shred.newFromSerializedShred_eq_ok.mp h).1.kind]
  rfl

theorem getFlags_eq {d : ShredData} (h : Shred.newFromSerializedShred b = .ok (.shredData d)) :
    Wire.getFlags b = .ok d.dataHeader.flags := by
  obtain ⟨-, -, -, -, ⟨-, hat⟩, -⟩ := Shred.newFromSerializedShred_eq_ok_iff.mp h
  rw [Wire.getFlags, getShredType_eq h]
  simp only [bind, Except.bind, Shred.kind, hat.flags, okOr, ShredFlags.fromBits_eq]

theorem getReferenceTick_eq {d : ShredData}
    (h : Shred.newFromSerializedShred b = .ok (.shredData d)) :
    Wire.getReferenceTick b = .ok d.referenceTick := by
  obtain ⟨-, -, -, -, ⟨-, hat⟩, -⟩ := Shred.newFromSerializedShred_eq_ok_iff.mp h
  rw [Wire.getReferenceTick, getShredType_eq h]
  simp only [bind, Except.bind, pure, Except.pure, Shred.kind, hat.flags, okOr, ne_eq,
    not_true_eq_false, if_false]
  rfl

/-- The data is inside the payload, so that the buffer's own length does not matter. -/
theorem getData_eq {d : ShredData} (h : Shred.newFromSerializedShred b = .ok (.shredData d)) :
    ∃ data, Wire.getData b = .ok data ∧ d.data = .ok data := by
  obtain ⟨-, -, hk, hv, ⟨-, hat⟩, hsane⟩ := Shred.newFromSerializedShred_eq_ok_iff.mp h
  have hwf := (Shred.newFromSerializedShred_eq_ok.mp h).1
  have hlen := payload_le h
  have hsize := hsane.2.2.size
  obtain ⟨data, hdata⟩ := (data_eq_ok hwf.toShaped).mpr hsize
  have hfields : variantFields .data d.commonHeader.shredVariant = _ := hwf.variantFields
  have hin : d.dataHeader.size.toNat ≤ sizeOfPayload .data :=
    Nat.le_trans hsize.2 (Region.hi_le hv .shard)
  have hslice : slice? b (sizeOfHeaders .data) d.dataHeader.size.toNat =
      slice? d.payload.bytes (sizeOfHeaders .data) d.dataHeader.size.toNat :=
    slice?_eq_payload h hsize.1 hin
  refine ⟨data, ?_, hdata⟩
  rw [ShredData.data, hfields] at hdata
  change ShredData.getData d.payload.bytes (Shred.shredData d).variant.proofSize
    (Shred.shredData d).variant.resigned d.dataHeader.size = .ok data at hdata
  rw [Wire.getData, variant_at h]
  cases hvar : (Shred.shredData d).variant with
  | merkleCode p r =>
      rw [hvar] at hk
      cases hk
  | merkleData p r =>
      rw [hvar] at hdata
      obtain ⟨cap, hcap, hd⟩ := bind_eq_ok.mp hdata
      rw [okOr_eq_ok, ← hslice] at hd
      simp only [bind, Except.bind, getDataSize_eq (by omega) hat.size, ShredData.getData]
      rw [show capacity .data p r = .ok cap from hcap]
      exact okOr_eq_ok.mpr hd

theorem isRetransmitterSignedVariant_eq (h : Shred.newFromSerializedShred b = .ok s) :
    Wire.isRetransmitterSignedVariant b = .ok s.variant.resigned := by
  rw [Wire.isRetransmitterSignedVariant, variant_at h]
  rfl

theorem getRetransmitterSignature_eq (h : Shred.newFromSerializedShred b = .ok s) :
    Wire.getRetransmitterSignature b = s.retransmitterSignature := by
  have hwf := (Shred.newFromSerializedShred_eq_ok.mp h).1
  have hoffset : Wire.getRetransmitterSignatureOffset b = s.retransmitterSignatureOffset := by
    rw [Wire.getRetransmitterSignatureOffset, variant_at h, Shred.retransmitterSignatureOffset,
      hwf.variantFields, ← hwf.kind]
    rfl
  rw [Wire.getRetransmitterSignature, Shred.retransmitterSignature, hoffset,
    hwf.retransmitterSignatureOffset]
  cases hr : s.variant.resigned with
  | false => rfl
  | true =>
      have hhi : Region.retransmitter.lo s.kind s.variant + 64 =
          Region.retransmitter.hi s.kind s.variant := by
        simp only [Region.lo, Region.hi, ShredVariant.resignedBytes, hr, if_true, sizeOfSignature]
      have hin := @Region.hi_le s.kind _ hwf.valid .retransmitter
      obtain ⟨hs, hp⟩ := slice?_payload h (Nat.le_add_right _ 64) (hhi ▸ hin)
      simp only [bind, Except.bind, if_true, Payload.get, sizeOfSignature, hs, hp, okOr]

theorem getMerkleProof_eq (h : Shred.newFromSerializedShred b = .ok s) :
    ∃ es, getMerkleProof s.payload.bytes (Region.proof.lo s.kind s.variant)
        s.variant.proofSize = .ok es ∧
      getMerkleProof b (Region.proof.lo s.kind s.variant) s.variant.proofSize = .ok es := by
  have hwf := (Shred.newFromSerializedShred_eq_ok.mp h).1
  obtain ⟨es, hes⟩ := hwf.exists_merkleProof
  rw [Shred.merkleProof, hwf.proofSize, hwf.proofOffset] at hes
  change getMerkleProof s.payload.bytes (Region.proof.lo s.kind s.variant) s.variant.proofSize =
    .ok es at hes
  refine ⟨es, hes, ?_⟩
  have hend : Region.proof.lo s.kind s.variant +
      s.variant.proofSize.toNat * sizeOfMerkleProofEntry ≤ sizeOfPayload s.kind :=
    @Region.hi_le s.kind _ hwf.valid .proof
  obtain ⟨bytes, hbytes, hm⟩ := bind_eq_ok.mp hes
  rw [okOr_eq_ok, ← slice?_eq_payload h (Nat.le_add_right _ _) hend] at hbytes
  exact bind_eq_ok.mpr ⟨bytes, okOr_eq_ok.mpr hbytes, hm⟩

theorem slice?_leaf_eq (h : Shred.newFromSerializedShred b = .ok s) :
    slice? b sizeOfSignature (Region.proof.lo s.kind s.variant) = some s.leaf := by
  have hwf := (Shred.newFromSerializedShred_eq_ok.mp h).1
  have hlo := lt_bodyEnd s.kind hwf.valid
  have hmid := Region.lo_le_hi s.kind hwf.valid .proof
  rw [slice?_eq_payload h (by simp only [Region.lo, sizeOfSignature]; omega)
    (Nat.le_trans hmid (Region.hi_le hwf.valid .proof)), hwf.slice?_leaf]

section Root
variable (H : Hasher)

theorem merkleRootAt_eq (h : Shred.newFromSerializedShred b = .ok s) :
    Wire.merkleRootAt H s.kind b s.variant.proofSize s.variant.resigned s.position =
      toOption (s.merkleRoot H) := by
  have hwf := (Shred.newFromSerializedShred_eq_ok.mp h).1
  obtain ⟨es, hes, hproof⟩ := getMerkleProof_eq h
  have hnode : getMerkleNode H b sizeOfSignature (Region.proof.lo s.kind s.variant) =
      .ok (H.sha256 (leafPreimage s.leaf)) := by
    rw [getMerkleNode, slice?_leaf_eq h]
    rfl
  have hroot : s.merkleRoot H =
      getMerkleRoot H s.position (H.sha256 (leafPreimage s.leaf)) es := by
    rw [Shred.merkleRoot, hwf.proofSize, hwf.sane.erasureShardIndex, hwf.proofOffset]
    simp only [bind, Except.bind, hes, hwf.getMerkleNode_leaf H]
  rw [Wire.merkleRootAt, getProofOffset_eq hwf.valid, toOption, andThen_some, hproof, toOption,
    andThen_some, hnode, toOption, andThen_some, hroot]

theorem dataIndex_eq {d : ShredData} (h : Shred.newFromSerializedShred b = .ok (.shredData d)) :
    Wire.dataIndex b = .ok (some (Shred.shredData d).position) := by
  obtain ⟨-, -, -, -, ⟨hat, -⟩, hsane⟩ := Shred.newFromSerializedShred_eq_ok_iff.mp h
  have hlen := payload_le h
  have hindex := okOr_eq_ok.mp hsane.erasureShardIndex
  rw [Wire.dataIndex, getFecSetIndex_eq (by omega) hat.fecSetIndex, andThen_some,
    getIndex_eq (by omega) hat.index, andThen_some, ← hindex, ShredData.erasureShardIndex]
  cases checkedSub d.commonHeader.index d.commonHeader.fecSetIndex with
  | none => rfl
  | some index => rfl

/-- The counts are those of the header, and the index is summed without a check. -/
theorem codeIndex_eq {c : ShredCode} (h : Shred.newFromSerializedShred b = .ok (.shredCode c)) :
    Wire.codeIndex b = .ok (some (Shred.shredCode c).position) := by
  obtain ⟨-, -, -, -, ⟨-, hat⟩, -⟩ := Shred.newFromSerializedShred_eq_ok_iff.mp h
  have hlen := payload_le h
  rw [Wire.codeIndex, slice?_of_le (by omega) (show 85 ≤ b.length by omega),
    slice?_of_le (by omega) (show 89 ≤ b.length by omega)]
  simp only [pure, Except.pure, andThen_some, @usizeFromBytes_eq b 83 (by omega),
    @usizeFromBytes_eq b 87 (by omega), hat.numDataShreds, hat.position]
  rfl

theorem getMerkleRoot_eq (h : Shred.newFromSerializedShred b = .ok s) :
    Wire.getMerkleRoot H b = toOption (s.merkleRoot H) := by
  have hroot := merkleRootAt_eq H h
  have hk := (Shred.newFromSerializedShred_eq_ok.mp h).1.kind
  rw [Wire.getMerkleRoot, variant_at h, toOption, andThen_some]
  cases s with
  | shredCode c =>
      cases hvar : (Shred.shredCode c).variant with
      | merkleCode p r =>
          rw [hvar] at hroot
          simp only [codeIndex_eq h, andThen_some]
          exact hroot
      | merkleData p r =>
          rw [hvar] at hk
          cases hk
  | shredData d =>
      cases hvar : (Shred.shredData d).variant with
      | merkleData p r =>
          rw [hvar] at hroot
          simp only [dataIndex_eq h, andThen_some]
          exact hroot
      | merkleCode p r =>
          rw [hvar] at hk
          cases hk

end Root

end Accepted

/-- The accessors on a data shred's own fields. -/
structure DataWireAgrees (b : Bytes) (s : ShredData) : Prop where
  parentOffset : Wire.getParentOffset b = .ok (some s.dataHeader.parentOffset)
  flags : Wire.getFlags b = .ok s.dataHeader.flags
  referenceTick : Wire.getReferenceTick b = .ok s.referenceTick
  dataSize : Wire.getDataSize b = .ok s.dataHeader.size
  data : ∃ data, Wire.getData b = .ok data ∧ s.data = .ok data

/-- Every accessor on the bytes returns what the parsed shred has. -/
structure WireAgrees (H : Hasher) (b : Bytes) (s : Shred) : Prop where
  shredFromBuf : Wire.getShredFromBuf b = .ok (some s.payload.bytes)
  signature : Wire.getSignature b = .ok (some s.signature)
  slot : Wire.getSlot b = .ok (some s.commonHeader.slot)
  index : Wire.getIndex b = .ok (some s.commonHeader.index)
  version : Wire.getVersion b = .ok (some s.commonHeader.version)
  fecSetIndex : Wire.getFecSetIndex b = .ok (some s.commonHeader.fecSetIndex)
  shredType : Wire.getShredType b = .ok s.commonHeader.shredVariant.shredType
  shredId : Wire.getShredId b = .ok (some s.id)
  resigned : Wire.isRetransmitterSignedVariant b = .ok s.commonHeader.shredVariant.resigned
  dataFields : ∀ d, s = .shredData d → DataWireAgrees b d
  erasureConfig : ∀ c, s = .shredCode c → Wire.getErasureConfig b =
    .ok ⟨c.codingHeader.numDataShreds.toNat, c.codingHeader.numCodingShreds.toNat⟩
  chainedMerkleRoot : ∃ root, s.chainedMerkleRoot = .ok root ∧
    Wire.getChainedMerkleRoot b = .ok (some root)
  merkleRoot : ∀ root, s.merkleRoot H = .ok root → Wire.getMerkleRoot H b = .ok (some root)
  noMerkleRoot : (¬∃ root, s.merkleRoot H = .ok root) → Wire.getMerkleRoot H b = .ok none
  retransmitterSignature : ∀ g, Wire.getRetransmitterSignature b = .ok g ↔
    s.retransmitterSignature = .ok g

/-- Whatever follows the shred in the buffer, the two views of it agree. -/
theorem zero_copy_view_agrees (H : Hasher) (b : Bytes) (s : Shred)
    (h : Shred.newFromSerializedShred b = .ok s) : WireAgrees H b s := by
  have hlen := payload_le h
  have hat := commonHeader_at h
  have hkind := (Shred.newFromSerializedShred_eq_ok.mp h).1.kind
  have hroot := getMerkleRoot_eq H h
  refine
    { shredFromBuf := getShredFromBuf_eq h
      signature := getSignature_eq h
      slot := getSlot_eq (by omega) hat.slot
      index := getIndex_eq (by omega) hat.index
      version := getVersion_eq (by omega) hat.version
      fecSetIndex := getFecSetIndex_eq (by omega) hat.fecSetIndex
      shredType := (getShredType_eq h).trans (congrArg Except.ok hkind.symm)
      shredId := getShredId_eq h
      resigned := isRetransmitterSignedVariant_eq h
      dataFields := ?_
      erasureConfig := ?_
      chainedMerkleRoot := getChainedMerkleRoot_eq h
      merkleRoot := ?_
      noMerkleRoot := ?_
      retransmitterSignature := fun g => by rw [getRetransmitterSignature_eq h] }
  · rintro d rfl
    obtain ⟨-, -, -, -, ⟨-, hd⟩, -⟩ := Shred.newFromSerializedShred_eq_ok_iff.mp h
    exact
      { parentOffset := getParentOffset_eq (by omega) hd.parentOffset
        flags := getFlags_eq h
        referenceTick := getReferenceTick_eq h
        dataSize := getDataSize_eq (by omega) hd.size
        data := getData_eq h }
  · rintro c rfl
    obtain ⟨-, -, -, -, ⟨-, hc⟩, -⟩ := Shred.newFromSerializedShred_eq_ok_iff.mp h
    rw [getErasureConfig_eq (variant_at h) hkind (by omega), hc.numDataShreds, hc.numCodingShreds]
  · intro root hr
    rw [hroot, hr]
    rfl
  · intro hr
    obtain ⟨e, he⟩ := (s.noPanic_merkleRoot H).eq_fail hr
    rw [hroot, he]
    rfl

/-- A plain data shred with one more byte behind it in the buffer. -/
theorem plainData_view_agrees :
    WireAgrees sha256Hasher ((plainData 2 88).payload.bytes ++ [7]) (.shredData (plainData 2 88)) := by
  have hwf : (Shred.shredData (plainData 2 88)).WellFormed :=
    plainData_wellFormed (by decide) (by decide)
  have hlen : (plainData 2 88).payload.bytes.length = sizeOfPayload .data := hwf.length
  refine zero_copy_view_agrees _ _ _ (Shred.newFromSerializedShred_eq_ok.mpr ⟨hwf, ?_, ?_⟩)
  · rw [List.length_append, hlen]
    exact Nat.le_add_right _ _
  · exact (List.take_left' hlen).symm

end LightweightShred
