import LightweightShred.HeaderFields

/-!
# What the parser accepts

The conditions on a byte string are collected from variant decoding, header decoding, the
two `sanitize` functions and the checked arithmetic below them, as plain numbers. The parser
accepts exactly the strings that meet them, and panics on none.
-/
namespace LightweightShred
open ByteString Rust Codec

/-- The conditions on the bytes of a data shred; `t` is the variant byte. -/
structure DataBytes (b : Bytes) (t : UInt8) : Prop where
  nibble : t &&& 0xF0 = 0x90 ∨ t &&& 0xF0 = 0xb0
  length : 1203 ≤ b.length
  index : numberAt b 73 77 < 32768
  fecSetIndex : numberAt b 79 83 ≤ numberAt b 73 77
  flags : ∀ f, b[85]? = some f → ¬(f &&& 0x80 ≠ 0 ∧ f &&& 0x40 = 0)
  size : ∃ cap, capacity .data (t &&& 0x0F) (t &&& 0xF0 = 0xb0) = .ok cap ∧
    88 ≤ numberAt b 86 88 ∧ numberAt b 86 88 ≤ 88 + cap
  parent : numberAt b 83 85 ≤ numberAt b 65 73
  parentZero : numberAt b 83 85 = 0 → numberAt b 65 73 = 0

/-- The conditions on the bytes of a coding shred. -/
structure CodingBytes (b : Bytes) (t : UInt8) : Prop where
  nibble : t &&& 0xF0 = 0x60 ∨ t &&& 0xF0 = 0x70
  length : 1228 ≤ b.length
  index : numberAt b 73 77 < 32768
  numCodingShreds : 1 ≤ numberAt b 85 87 ∧ numberAt b 85 87 ≤ 256
  numDataShreds : 1 ≤ numberAt b 83 85
  lastData : numberAt b 79 83 + numberAt b 83 85 - 1 < 32768
  first : numberAt b 87 89 ≤ numberAt b 73 77
  lastCoding : numberAt b 73 77 - numberAt b 87 89 + numberAt b 85 87 - 1 < 32768
  position : numberAt b 87 89 < numberAt b 85 87

/-- The headers of the struct are the fields of the bytes. -/
def Shred.HeadersAt (b : Bytes) : Shred → Prop
  | .shredData s => s.commonHeader.At b ∧ s.dataHeader.At b
  | .shredCode s => s.commonHeader.At b ∧ s.codingHeader.At b

section Variant

theorem ShredVariant.tryFrom_iff {t : UInt8} {v : ShredVariant} : tryFrom t = .ok v ↔
    ((t &&& 0xF0 = 0x60 ∨ t &&& 0xF0 = 0x70) ∧
      v = .merkleCode (t &&& 0x0F) (t &&& 0xF0 = 0x70)) ∨
    ((t &&& 0xF0 = 0x90 ∨ t &&& 0xF0 = 0xb0) ∧
      v = .merkleData (t &&& 0x0F) (t &&& 0xF0 = 0xb0)) := by
  constructor
  · intro h
    unfold tryFrom at h
    split at h
    · cases h
    split at h
    · rename_i h6
      cases h
      exact .inl ⟨.inl h6, by rw [h6]; rfl⟩
    split at h
    · rename_i h7
      cases h
      exact .inl ⟨.inr h7, by rw [h7]; rfl⟩
    split at h
    · rename_i h9
      cases h
      exact .inr ⟨.inl h9, by rw [h9]; rfl⟩
    split at h
    · rename_i hb
      cases h
      exact .inr ⟨.inr hb, by rw [hb]; rfl⟩
    · cases h
  · -- the reserved type bytes have other high nibbles
    rintro (⟨h, rfl⟩ | ⟨h, rfl⟩)
    all_goals
      have hne : ¬(t = ShredType.code.toU8 ∨ t = ShredType.data.toU8) := by
        rintro (rfl | rfl) <;> revert h <;> decide
      rw [tryFrom, if_neg hne]
      rcases h with h | h <;> rw [h] <;> rfl

theorem ShredVariant.tryFrom_data_iff {t : UInt8} {v : ShredVariant} :
    tryFrom t = .ok v ∧ v.shredType = .data ↔
      (t &&& 0xF0 = 0x90 ∨ t &&& 0xF0 = 0xb0) ∧
        v = .merkleData (t &&& 0x0F) (t &&& 0xF0 = 0xb0) := by
  rw [tryFrom_iff]
  constructor
  · rintro ⟨⟨-, rfl⟩ | h, ht⟩
    · cases ht
    · exact h
  · intro h
    exact ⟨.inr h, by rw [h.2]; rfl⟩

theorem ShredVariant.tryFrom_code_iff {t : UInt8} {v : ShredVariant} :
    tryFrom t = .ok v ∧ v.shredType = .code ↔
      (t &&& 0xF0 = 0x60 ∨ t &&& 0xF0 = 0x70) ∧
        v = .merkleCode (t &&& 0x0F) (t &&& 0xF0 = 0x70) := by
  rw [tryFrom_iff]
  constructor
  · rintro ⟨h | ⟨-, rfl⟩, ht⟩
    · exact h
    · cases ht
  · intro h
    exact ⟨.inl h, by rw [h.2]; rfl⟩

theorem flags_check_iff (f : ShredFlags) :
    (f.intersects .lastShredInSlot = true → f.contains .dataCompleteShred = true) ↔
      ¬(f.bits &&& 0x80 ≠ 0 ∧ f.bits &&& 0x40 = 0) := by
  have all : ∀ n < 256, (((⟨UInt8.ofNat n⟩ : ShredFlags).intersects .lastShredInSlot = true →
      (⟨UInt8.ofNat n⟩ : ShredFlags).contains .dataCompleteShred = true) ↔
      ¬(UInt8.ofNat n &&& 0x80 ≠ 0 ∧ UInt8.ofNat n &&& 0x40 = 0)) := by decide +kernel
  have hf := all f.bits.toNat f.bits.toNat_lt
  rwa [UInt8.ofNat_toNat] at hf

end Variant

namespace Shred
variable {b : Bytes} {s : Shred}

theorem slice_take_of_le {n lo hi : Nat} (h : hi ≤ n) : slice (b.take n) lo hi = slice b lo hi := by
  apply List.ext_getElem?
  intro i
  simp only [getElem?_slice, List.getElem?_take]
  split
  · rw [if_pos (by omega)]
  · rfl

theorem headersAt_iff (hb : sizeOfHeaders s.kind ≤ b.length) :
    s.HeadersAt b ↔ slice b 0 (sizeOfHeaders s.kind) = s.writeHeaders := by
  cases s with
  | shredCode c => exact (@writeCodingHeaders_at b (c.commonHeader, c.codingHeader) hb).symm
  | shredData d => exact (@writeDataHeaders_at b (d.commonHeader, d.dataHeader) hb).symm

theorem newFromSerializedShred_eq_ok_iff : newFromSerializedShred b = .ok s ↔
    sizeOfPayload s.kind ≤ b.length ∧ s.payload.bytes = b.take (sizeOfPayload s.kind) ∧
      s.variant.shredType = s.kind ∧ s.variant.Valid ∧ s.HeadersAt b ∧ s.Sane := by
  rw [newFromSerializedShred_eq_ok]
  have hsz := sizes s.kind
  constructor
  · rintro ⟨hwf, hle, hp⟩
    refine ⟨hle, hp, hwf.kind, hwf.valid, (headersAt_iff (by omega)).mpr ?_, hwf.sane⟩
    rw [← hwf.headers, hp, slice_take_of_le (by omega)]
  · rintro ⟨hle, hp, hk, hv, hat, hsane⟩
    refine ⟨⟨⟨hk, hv, ?_⟩, ?_, hsane⟩, hle, hp⟩
    · rw [hp, List.length_take_of_le hle]
    · rw [hp, slice_take_of_le (by omega)]
      exact (headersAt_iff (by omega)).mp hat

end Shred

section Exactness
variable {b : Bytes} {t : UInt8}

theorem dataBytes_of_parsed {s : ShredData}
    (h : Shred.newFromSerializedShred b = .ok (.shredData s)) : ∃ t, b[64]? = some t ∧ DataBytes b t := by
  obtain ⟨hle, -, hk, hv, ⟨hcom, hdat⟩, hindex, hfec, hflags, hsize, hparent⟩ :=
    Shred.newFromSerializedShred_eq_ok_iff.mp h
  obtain ⟨hnib, hvar⟩ := ShredVariant.tryFrom_data_iff.mp ⟨ShredVariant.tryFrom_toU8 hv, hk⟩
  have hp := congrArg ShredVariant.proofSize hvar
  have hr := congrArg ShredVariant.resigned hvar
  have hcap := @capacity_eq .data _ hv
  rw [hp, hr] at hcap
  have hend := lt_bodyEnd .data hv
  refine ⟨_, hcom.shredVariant, hnib, hle, ?_, ?_, ?_, ⟨_, hcap, ?_⟩, ?_, ?_⟩
  · rw [hcom.index]
    exact hindex
  · rw [hcom.index, hcom.fecSetIndex]
    exact hfec
  · intro f hf
    rw [hdat.flags, Option.some.injEq] at hf
    rw [← hf]
    exact (flags_check_iff _).mp hflags
  · have hsize' : sizeOfHeaders .data = 88 := rfl
    rw [hdat.size, hsize']
    have h1 : 88 ≤ s.dataHeader.size.toNat := hsize.1
    have h2 : s.dataHeader.size.toNat ≤ bodyEnd .data (Shred.shredData s).variant := hsize.2
    omega
  · rw [hdat.parentOffset, hcom.slot]
    exact hparent.2
  · rw [hdat.parentOffset, hcom.slot]
    intro h0
    have hz : s.dataHeader.parentOffset = 0 := UInt16.toNat_inj.mp h0
    rw [hparent.1 hz]
    rfl

theorem DataBytes.exists_parsed (h : DataBytes b t) (ht : b[64]? = some t) :
    ∃ s, Shred.newFromSerializedShred b = .ok (.shredData s) := by
  have h1203 := h.length
  obtain ⟨htry, hk⟩ := ShredVariant.tryFrom_data_iff.mpr ⟨h.nibble, rfl⟩
  obtain ⟨hv, htu⟩ := ShredVariant.tryFrom_sound htry
  obtain ⟨ch, hch, hcom⟩ := ShredCommonHeader.exists_at (by omega) (htu ▸ ht)
  obtain ⟨dh, hdat⟩ := DataShredHeader.exists_at (b := b) (by omega)
  obtain ⟨cap, hcap, hs1, hs2⟩ := h.size
  have hend := lt_bodyEnd .data hv
  have hcap' : capacity .data (t &&& 0x0F) (t &&& 0xF0 = 0xb0) = _ :=
    @capacity_eq .data (.merkleData (t &&& 0x0F) (t &&& 0xF0 = 0xb0)) hv
  rw [hcap', Except.ok.injEq] at hcap
  have hsize' : sizeOfHeaders .data = 88 := rfl
  refine ⟨⟨ch, dh, ⟨b.take (sizeOfPayload .data)⟩⟩, Shred.newFromSerializedShred_eq_ok_iff.mpr ?_⟩
  refine ⟨h1203, rfl, ?_, ?_, ⟨hcom, hdat⟩, ?_, ?_, ?_, ⟨?_, ?_⟩, ?_, ?_⟩
  · rw [Shred.variant, Shred.commonHeader, hch]
    exact hk
  · rw [Shred.variant, Shred.commonHeader, hch]
    exact hv
  · rw [← hcom.index]
    exact h.index
  · rw [← hcom.index, ← hcom.fecSetIndex]
    exact h.fecSetIndex
  · exact (flags_check_iff _).mpr (h.flags _ hdat.flags)
  · rw [← hdat.size]
    exact hs1
  · rw [← hdat.size, hch]
    omega
  · intro hz
    have h0 := h.parentZero (by rw [hdat.parentOffset, hz]; rfl)
    rw [hcom.slot] at h0
    exact UInt64.toNat_inj.mp h0
  · rw [← hdat.parentOffset, ← hcom.slot]
    exact h.parent

theorem dataBytes_iff : (∃ s, Shred.newFromSerializedShred b = .ok (.shredData s)) ↔
    ∃ t, b[64]? = some t ∧ DataBytes b t := by
  constructor
  · rintro ⟨s, h⟩
    exact dataBytes_of_parsed h
  · rintro ⟨t, ht, h⟩
    exact h.exists_parsed ht

theorem codingBytes_of_parsed {s : ShredCode}
    (h : Shred.newFromSerializedShred b = .ok (.shredCode s)) :
    ∃ t, b[64]? = some t ∧ CodingBytes b t := by
  have hmax : maxCodeShredsPerSlot = 32768 := rfl
  have hmax' : maxDataShredsPerSlot = 32768 := rfl
  have h256 : 8 * dataShredsPerFecBlock = 256 := rfl
  obtain ⟨hle, -, hk, hv, ⟨hcom, hcod⟩, ⟨hd1, hd2⟩, ⟨hc1, hc2⟩, hf1, hf2⟩ :=
    Shred.newFromSerializedShred_eq_ok_iff.mp h
  obtain ⟨hnib, -⟩ := ShredVariant.tryFrom_code_iff.mp ⟨ShredVariant.tryFrom_toU8 hv, hk⟩
  refine ⟨_, hcom.shredVariant, hnib, hle, ?_, ?_, ?_, ?_, ?_, ?_, ?_⟩
  all_goals
    simp only [hcom.index, hcom.fecSetIndex, hcod.numDataShreds, hcod.numCodingShreds,
      hcod.position]
    omega

theorem CodingBytes.exists_parsed (h : CodingBytes b t) (ht : b[64]? = some t) :
    ∃ s, Shred.newFromSerializedShred b = .ok (.shredCode s) := by
  have hmax : maxCodeShredsPerSlot = 32768 := rfl
  have hmax' : maxDataShredsPerSlot = 32768 := rfl
  have h256 : 8 * dataShredsPerFecBlock = 256 := rfl
  have h1228 := h.length
  obtain ⟨htry, hk⟩ := ShredVariant.tryFrom_code_iff.mpr ⟨h.nibble, rfl⟩
  obtain ⟨hv, htu⟩ := ShredVariant.tryFrom_sound htry
  obtain ⟨ch, hch, hcom⟩ := ShredCommonHeader.exists_at (by omega) (htu ▸ ht)
  obtain ⟨dh, hcod⟩ := CodingShredHeader.exists_at (b := b) (by omega)
  have hn := h.numCodingShreds
  have hd := h.numDataShreds
  have hl := h.lastData
  have hf := h.first
  have hc := h.lastCoding
  have hp := h.position
  rw [hcom.fecSetIndex, hcod.numDataShreds] at hl
  rw [hcod.position, hcom.index] at hf
  rw [hcom.index, hcod.position, hcod.numCodingShreds] at hc
  rw [hcod.position, hcod.numCodingShreds] at hp
  rw [hcod.numCodingShreds] at hn
  rw [hcod.numDataShreds] at hd
  have hsane : dh.Sane ch.index ch.fecSetIndex :=
    ⟨⟨hd, by omega⟩, ⟨hp, by omega⟩, hf, by omega⟩
  refine ⟨⟨ch, dh, ⟨b.take (sizeOfPayload .code)⟩⟩, Shred.newFromSerializedShred_eq_ok_iff.mpr ?_⟩
  refine ⟨h1228, rfl, ?_, ?_, ⟨hcom, hcod⟩, hsane⟩
  · rw [Shred.variant, Shred.commonHeader, hch]
    exact hk
  · rw [Shred.variant, Shred.commonHeader, hch]
    exact hv

theorem codingBytes_iff : (∃ s, Shred.newFromSerializedShred b = .ok (.shredCode s)) ↔
    ∃ t, b[64]? = some t ∧ CodingBytes b t := by
  constructor
  · rintro ⟨s, h⟩
    exact codingBytes_of_parsed h
  · rintro ⟨t, ht, h⟩
    exact h.exists_parsed ht

end Exactness

section Panics

theorem noPanic_variantFields (ty : ShredType) (v : ShredVariant) : NoPanic (variantFields ty v) := by
  unfold variantFields
  split
  · exact noPanic_ok _
  · exact noPanic_ok _
  · exact noPanic_fail _

theorem noPanic_capacity (ty : ShredType) (p : UInt8) (r : Bool) : NoPanic (capacity ty p r) :=
  noPanic_okOr _ _

theorem noPanic_getProofOffset (ty : ShredType) (p : UInt8) (r : Bool) :
    NoPanic (getProofOffset ty p r) :=
  (noPanic_capacity ty p r).bind fun _ _ => noPanic_pure _

/-- The entries are cut from a slice of the right length, so none of them is short. -/
theorem noPanic_getMerkleProof (shred : Bytes) (offset : Nat) (p : UInt8) :
    NoPanic (getMerkleProof shred offset p) := by
  refine (noPanic_okOr _ _).bind fun bytes hb => noPanic_mapM fun chunk hchunk => ?_
  rw [okOr_eq_ok, slice?, Option.ite_none_right_eq_some] at hb
  obtain ⟨⟨-, hle⟩, hb⟩ := hb
  have hlen : bytes.length = p.toNat * 20 := by
    rw [← Option.some.inj hb, length_slice hle, Nat.add_sub_cancel_left]
    rfl
  rw [sizeOfMerkleProofEntry, chunks_flatten_of_length (by decide) hlen] at hchunk
  obtain ⟨j, hj, rfl⟩ := List.mem_map.mp hchunk
  have hj' := List.mem_range.mp hj
  have hin : (slice bytes (20 * j) (20 * j + 20)).length = 20 := by
    rw [length_slice (by omega), Nat.add_sub_cancel_left]
  rw [arrayFromSlice, dif_pos hin]
  exact noPanic_ok _

theorem Shred.noPanic_proofSize (s : Shred) : NoPanic s.proofSize :=
  (noPanic_variantFields _ _).bind fun _ _ => noPanic_pure _

theorem Shred.noPanic_proofOffset (s : Shred) : NoPanic s.proofOffset :=
  (noPanic_variantFields _ _).bind fun _ _ => noPanic_getProofOffset _ _ _

theorem Shred.noPanic_merkleProof (s : Shred) : NoPanic s.merkleProof :=
  s.noPanic_proofSize.bind fun _ _ => s.noPanic_proofOffset.bind fun _ _ =>
    noPanic_getMerkleProof _ _ _

theorem noPanic_getMerkleNode (H : Hasher) (shred : Bytes) (lo hi : Nat) :
    NoPanic (getMerkleNode H shred lo hi) :=
  (noPanic_okOr _ _).bind fun _ _ => noPanic_pure _

theorem Shred.noPanic_merkleNode (H : Hasher) (s : Shred) : NoPanic (s.merkleNode H) :=
  s.noPanic_proofOffset.bind fun _ _ => noPanic_getMerkleNode H _ _ _

theorem Shred.noPanic_erasureShardIndex (s : Shred) : NoPanic s.erasureShardIndex := by
  cases s with
  | shredCode s => exact noPanic_okOr _ _
  | shredData s => exact noPanic_okOr _ _

theorem Shred.noPanic_merkleRoot (H : Hasher) (s : Shred) : NoPanic (s.merkleRoot H) := by
  refine s.noPanic_proofSize.bind fun p _ => s.noPanic_erasureShardIndex.bind fun i _ => ?_
  refine s.noPanic_proofOffset.bind fun o _ => (noPanic_getMerkleProof _ _ _).bind fun es _ => ?_
  exact (noPanic_getMerkleNode H _ _ _).bind fun _ _ => noPanic_okOr _ _

theorem Shred.noPanic_erasureShardOffsets (s : Shred) : NoPanic s.erasureShardOffsets :=
  NoPanic.guard fun _ => (noPanic_variantFields _ _).bind fun _ _ =>
    (noPanic_capacity _ _ _).bind fun _ _ => noPanic_pure _

theorem Shred.noPanic_erasureShard (s : Shred) : NoPanic s.erasureShard :=
  s.noPanic_erasureShardOffsets.bind fun _ _ => noPanic_okOr _ _

theorem ShredData.noPanic_data (s : ShredData) : NoPanic s.data :=
  (noPanic_variantFields _ _).bind fun _ _ => (noPanic_capacity _ _ _).bind fun _ _ =>
    noPanic_okOr _ _

theorem ShredData.noPanic_parent (s : ShredData) : NoPanic s.parent :=
  NoPanic.guard fun _ => noPanic_okOr _ _

theorem ShredData.noPanic_sanitize (s : ShredData) : NoPanic s.sanitize := by
  refine NoPanic.guard fun _ => (Shred.noPanic_merkleProof _).bind fun _ _ => ?_
  refine NoPanic.guard fun _ => NoPanic.guard fun _ => NoPanic.guard fun _ => ?_
  refine s.noPanic_data.bind fun _ _ => s.noPanic_parent.bind fun _ _ => ?_
  exact (Shred.noPanic_erasureShardIndex _).bind fun _ _ =>
    (Shred.noPanic_erasureShard _).bind fun _ _ => noPanic_pure _

theorem ShredCode.noPanic_sanitize (s : ShredCode) : NoPanic s.sanitize := by
  refine NoPanic.guard fun _ => (Shred.noPanic_merkleProof _).bind fun _ _ => ?_
  refine NoPanic.guard fun _ => NoPanic.guard fun _ => NoPanic.guard fun _ => ?_
  exact (Shred.noPanic_erasureShardIndex _).bind fun _ _ =>
    (Shred.noPanic_erasureShard _).bind fun _ _ => noPanic_pure _

theorem ShredVariant.noPanic_tryFrom (t : UInt8) : NoPanic (tryFrom t) := by
  unfold tryFrom
  split_ifs <;> first | exact noPanic_fail _ | exact noPanic_ok _

theorem noPanic_getShredVariant (b : Bytes) : NoPanic (getShredVariant b) :=
  (noPanic_okOr _ _).bind fun t _ => ShredVariant.noPanic_tryFrom t

theorem Shred.noPanic_newFromSerializedShred (b : Bytes) : NoPanic (newFromSerializedShred b) := by
  refine (noPanic_getShredVariant b).bind fun v _ => ?_
  cases v with
  | merkleCode p r =>
      refine NoPanic.bind ?_ fun _ _ => noPanic_pure _
      refine (noPanic_liftErr _ _).bind fun h _ => NoPanic.guard fun _ => NoPanic.guard fun _ => ?_
      exact (ShredCode.noPanic_sanitize _).bind fun _ _ => noPanic_pure _
  | merkleData p r =>
      refine NoPanic.bind ?_ fun _ _ => noPanic_pure _
      refine NoPanic.guard fun _ => (noPanic_liftErr _ _).bind fun h _ => NoPanic.guard fun _ => ?_
      exact (ShredData.noPanic_sanitize _).bind fun _ _ => noPanic_pure _

end Panics

/-- The parser accepts exactly the strings whose fields meet the conditions, and returns an
error for all others. What it returns has the fields of the string as headers, the front of
the string as payload, and is what that payload parses to. -/
theorem new_from_serialized_shred_exact (b : Bytes) :
    ((∃ s, Shred.newFromSerializedShred b = .ok s) ↔
      ∃ t, b[64]? = some t ∧ (DataBytes b t ∨ CodingBytes b t)) ∧
    ((¬∃ s, Shred.newFromSerializedShred b = .ok s) →
      ∃ e, Shred.newFromSerializedShred b = fail e) ∧
    (∀ s, Shred.newFromSerializedShred b = .ok (.shredData s) →
      (∃ t, b[64]? = some t ∧ DataBytes b t ∧
        ShredVariant.tryFrom t = .ok s.commonHeader.shredVariant) ∧
      s.commonHeader.At b ∧ s.dataHeader.At b ∧ s.payload.bytes = b.take 1203 ∧
        Shred.newFromSerializedShred s.payload.bytes = .ok (.shredData s)) ∧
    ∀ s, Shred.newFromSerializedShred b = .ok (.shredCode s) →
      (∃ t, b[64]? = some t ∧ CodingBytes b t ∧
        ShredVariant.tryFrom t = .ok s.commonHeader.shredVariant) ∧
      s.commonHeader.At b ∧ s.codingHeader.At b ∧ s.payload.bytes = b.take 1228 ∧
        Shred.newFromSerializedShred s.payload.bytes = .ok (.shredCode s) := by
  refine ⟨?_, (Shred.noPanic_newFromSerializedShred b).eq_fail, fun s hs => ?_, fun s hs => ?_⟩
  · constructor
    · rintro ⟨s, hs⟩
      cases s with
      | shredCode s =>
          obtain ⟨t, ht, h⟩ := codingBytes_iff.mp ⟨s, hs⟩
          exact ⟨t, ht, .inr h⟩
      | shredData s =>
          obtain ⟨t, ht, h⟩ := dataBytes_iff.mp ⟨s, hs⟩
          exact ⟨t, ht, .inl h⟩
    · rintro ⟨t, ht, h | h⟩
      · obtain ⟨s, hs⟩ := dataBytes_iff.mpr ⟨t, ht, h⟩
        exact ⟨_, hs⟩
      · obtain ⟨s, hs⟩ := codingBytes_iff.mpr ⟨t, ht, h⟩
        exact ⟨_, hs⟩
  · obtain ⟨-, hp, -, hv, ⟨hcom, hdat⟩, -⟩ := Shred.newFromSerializedShred_eq_ok_iff.mp hs
    obtain ⟨t, ht, h⟩ := dataBytes_iff.mp ⟨s, hs⟩
    have htu := ht.symm.trans hcom.shredVariant
    refine ⟨⟨t, ht, h, ?_⟩, hcom, hdat, hp, ?_⟩
    · rw [Option.some.inj htu]
      exact ShredVariant.tryFrom_toU8 hv
    · exact (Shred.newFromSerializedShred_eq_ok.mp hs).1.reparse
  · obtain ⟨-, hp, -, hv, ⟨hcom, hcod⟩, -⟩ := Shred.newFromSerializedShred_eq_ok_iff.mp hs
    obtain ⟨t, ht, h⟩ := codingBytes_iff.mp ⟨s, hs⟩
    have htu := ht.symm.trans hcom.shredVariant
    refine ⟨⟨t, ht, h, ?_⟩, hcom, hcod, hp, ?_⟩
    · rw [Option.some.inj htu]
      exact ShredVariant.tryFrom_toU8 hv
    · exact (Shred.newFromSerializedShred_eq_ok.mp hs).1.reparse

end LightweightShred
