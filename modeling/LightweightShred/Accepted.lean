import LightweightShred.Layout

/-!
# Accepted shreds

The parser accepts exactly the well-formed shreds: headers that agree with the payload
and pass the checks of `sanitize`, which depend on the headers alone.
-/
namespace LightweightShred
open ByteString Rust Codec

/-- The checks on a data header, in a shred of the slot whose data may reach to `last`. -/
structure DataShredHeader.Sane (h : DataShredHeader) (slot : UInt64) (last : Nat) : Prop where
  flags : h.flags.intersects .lastShredInSlot = true → h.flags.contains .dataCompleteShred = true
  size : sizeOfDataShredHeaders ≤ h.size.toNat ∧ h.size.toNat ≤ last
  parent : (h.parentOffset = 0 → slot = 0) ∧ h.parentOffset.toNat ≤ slot.toNat

/-- The checks on a coding header, for the given header indices. -/
structure CodingShredHeader.Sane (h : CodingShredHeader) (index fecSetIndex : UInt32) : Prop where
  data : 1 ≤ h.numDataShreds.toNat ∧
    fecSetIndex.toNat + h.numDataShreds.toNat ≤ maxDataShredsPerSlot
  coding : h.position.toNat < h.numCodingShreds.toNat ∧
    h.numCodingShreds.toNat ≤ 8 * dataShredsPerFecBlock
  first : h.position.toNat ≤ index.toNat ∧
    index.toNat - h.position.toNat + h.numCodingShreds.toNat ≤ maxCodeShredsPerSlot

namespace Shred

/-- The place in the erasure batch that the headers name. -/
def position : Shred → Nat
  | .shredCode s => s.codingHeader.numDataShreds.toNat + s.codingHeader.position.toNat
  | .shredData s => s.commonHeader.index.toNat - s.commonHeader.fecSetIndex.toNat

def writeHeaders : Shred → Bytes
  | .shredCode s => writeCodingHeaders (s.commonHeader, s.codingHeader)
  | .shredData s => writeDataHeaders (s.commonHeader, s.dataHeader)

/-- The checks of `sanitize` that do not concern the payload. -/
def Sane : Shred → Prop
  | .shredCode s => s.codingHeader.Sane s.commonHeader.index s.commonHeader.fecSetIndex
  | .shredData s => s.commonHeader.index.toNat < maxDataShredsPerSlot ∧
      s.commonHeader.fecSetIndex.toNat ≤ s.commonHeader.index.toNat ∧
      s.dataHeader.Sane s.commonHeader.slot (bodyEnd .data s.commonHeader.shredVariant)

/-- Accepted by the parser. -/
def Accepted (s : Shred) : Prop := ∃ b, newFromSerializedShred b = .ok s

/-- A shred whose headers are those of its payload and pass the checks. -/
structure WellFormed (s : Shred) : Prop extends s.Shaped where
  headers : slice s.payload.bytes 0 (sizeOfHeaders s.kind) = s.writeHeaders
  sane : s.Sane

@[simp] theorem position_withPart (s : Shred) (R : Region) (b : Bytes) :
    (s.withPart R b).position = s.position := by
  cases s <;> rfl

@[simp] theorem writeHeaders_withPart (s : Shred) (R : Region) (b : Bytes) :
    (s.withPart R b).writeHeaders = s.writeHeaders := by
  cases s <;> rfl

@[simp] theorem sane_withPart (s : Shred) (R : Region) (b : Bytes) :
    (s.withPart R b).Sane ↔ s.Sane := by
  cases s <;> rfl

end Shred

section Sanitize

theorem data_eq_ok {s : ShredData} (h : (Shred.shredData s).Shaped) :
    (∃ b, s.data = .ok b) ↔ sizeOfDataShredHeaders ≤ s.dataHeader.size.toNat ∧
      s.dataHeader.size.toNat ≤ bodyEnd .data s.commonHeader.shredVariant := by
  have hfields : variantFields .data s.commonHeader.shredVariant = _ := h.variantFields
  have hcap : capacity .data (Shred.shredData s).variant.proofSize
    (Shred.shredData s).variant.resigned = _ := capacity_eq h.valid
  have hb := lt_bodyEnd .data h.valid
  have ha := bodyEnd_add .data h.valid
  have hlen : s.payload.bytes.length = sizeOfPayload .data := h.length
  have hle : sizeOfHeaders .data + (bodyEnd .data s.commonHeader.shredVariant -
      sizeOfHeaders .data) = bodyEnd .data s.commonHeader.shredVariant :=
    Nat.add_sub_of_le (Nat.le_trans (by decide) (Nat.le_of_lt hb))
  rw [ShredData.data, hfields]
  simp only [bind, Except.bind, ShredData.getData, hcap]
  change (∃ b, okOr (if sizeOfHeaders .data ≤ s.dataHeader.size.toNat ∧
    s.dataHeader.size.toNat ≤ sizeOfHeaders .data + (bodyEnd .data s.commonHeader.shredVariant -
      sizeOfHeaders .data) then _ else none) _ = _) ↔ _
  simp only [okOr_eq_ok, hle]
  constructor
  · rintro ⟨b, hs⟩
    split at hs
    · assumption
    · cases hs
  · intro hs
    have hend : s.dataHeader.size.toNat ≤ s.payload.bytes.length := by
      have : bodyEnd .data s.commonHeader.shredVariant ≤ sizeOfPayload .data := by
        rw [← ha]
        simp only [Shred.variant, Shred.commonHeader]
        omega
      omega
    exact ⟨_, (if_pos hs).trans (slice?_of_le hs.1 hend)⟩

theorem parent_eq_ok {s : ShredData} : (∃ slot, s.parent = .ok slot) ↔
    (s.dataHeader.parentOffset = 0 → s.commonHeader.slot = 0) ∧
      s.dataHeader.parentOffset.toNat ≤ s.commonHeader.slot.toNat := by
  simp only [ShredData.parent, guard_eq_ok, okOr_eq_ok, checkedSub64_eq_some,
    UInt16.toNat_toUInt64]
  constructor
  · rintro ⟨slot, h0, h⟩
    exact ⟨fun hp => by_contra fun hs => h0 ⟨hp, hs⟩, by omega⟩
  · rintro ⟨h0, h⟩
    have hlt := s.commonHeader.slot.toNat_lt
    obtain ⟨d, hd⟩ := exists_u64
      (show s.commonHeader.slot.toNat - s.dataHeader.parentOffset.toNat < 2 ^ 64 by omega)
    exact ⟨d, fun hc => hc.2 (h0 hc.1), by omega⟩

theorem ShredData.erasureShardIndex_eq_some {s : ShredData} {i : Nat} :
    s.erasureShardIndex = some i ↔
      s.commonHeader.fecSetIndex.toNat ≤ s.commonHeader.index.toNat ∧
        i = (Shred.shredData s).position := by
  simp only [erasureShardIndex, Option.bind_eq_bind, Option.bind_eq_some_iff,
    checkedSub_eq_some, Option.some.injEq, Shred.position]
  constructor
  · rintro ⟨d, hd, rfl⟩
    omega
  · rintro ⟨hle, rfl⟩
    have hlt := s.commonHeader.index.toNat_lt
    obtain ⟨d, hd⟩ := exists_u32
      (show s.commonHeader.index.toNat - s.commonHeader.fecSetIndex.toNat < 2 ^ 32 by omega)
    exact ⟨d, by omega, hd⟩

theorem ShredCode.firstCodingIndex_eq_some {s : ShredCode} {i : UInt32} :
    s.firstCodingIndex = some i ↔
      s.codingHeader.position.toNat + i.toNat = s.commonHeader.index.toNat := by
  rw [firstCodingIndex, checkedSub_eq_some, UInt16.toNat_toUInt32]

theorem ShredCode.erasureShardIndex_eq_some {s : ShredCode} {i : Nat}
    (hc : s.codingHeader.numCodingShreds.toNat ≤ 8 * dataShredsPerFecBlock) :
    s.erasureShardIndex = some i ↔
      s.codingHeader.Sane s.commonHeader.index s.commonHeader.fecSetIndex ∧
        i = (Shred.shredCode s).position := by
  have hf := s.commonHeader.fecSetIndex.toNat_lt
  have hi := s.commonHeader.index.toNat_lt
  have hd := s.codingHeader.numDataShreds.toNat_lt
  have hp := s.codingHeader.position.toNat_lt
  simp only [dataShredsPerFecBlock] at hc
  simp only [erasureShardIndex, Option.bind_eq_bind, Option.bind_eq_some_iff, guard_eq_some,
    checkedSub16_eq_some, checkedAdd_eq_some, UInt16.toNat_toUInt32, firstCodingIndex_eq_some,
    Option.ite_none_right_eq_some, Option.some.injEq]
  simp only [maxDataShredsPerSlot, maxCodeShredsPerSlot]
  constructor
  · rintro ⟨lastData, hd1, lastDataIndex, hd2, hd3, first, hf1, lastCoding, hc1, lastCodingIndex,
      hc2, hc3, hlt, rfl⟩
    have h1 : (1 : UInt16).toNat = 1 := rfl
    refine ⟨⟨⟨by omega, ?_⟩, ⟨by omega, hc⟩, ⟨by omega, ?_⟩⟩, Nat.add_comm _ _⟩
    · rw [maxDataShredsPerSlot]
      omega
    · rw [maxCodeShredsPerSlot, maxDataShredsPerSlot]
      omega
  · rintro ⟨⟨⟨hd1, hd2⟩, ⟨hc1, -⟩, ⟨hx1, hx2⟩⟩, rfl⟩
    rw [maxDataShredsPerSlot] at hd2
    rw [maxCodeShredsPerSlot, maxDataShredsPerSlot] at hx2
    obtain ⟨lastData, h1⟩ := exists_u16
      (show s.codingHeader.numDataShreds.toNat - 1 < 2 ^ 16 by omega)
    obtain ⟨lastDataIndex, h2⟩ := exists_u32
      (show s.commonHeader.fecSetIndex.toNat + (s.codingHeader.numDataShreds.toNat - 1) < 2 ^ 32 by
        omega)
    obtain ⟨first, h3⟩ := exists_u32
      (show s.commonHeader.index.toNat - s.codingHeader.position.toNat < 2 ^ 32 by omega)
    obtain ⟨lastCoding, h4⟩ := exists_u16
      (show s.codingHeader.numCodingShreds.toNat - 1 < 2 ^ 16 by omega)
    obtain ⟨lastCodingIndex, h5⟩ := exists_u32
      (show s.commonHeader.index.toNat - s.codingHeader.position.toNat +
        (s.codingHeader.numCodingShreds.toNat - 1) < 2 ^ 32 by omega)
    have h0 : (1 : UInt16).toNat = 1 := rfl
    exact ⟨lastData, by omega, lastDataIndex, by omega, by omega, first, by omega, lastCoding,
      by omega, lastCodingIndex, by omega, by omega, by omega, Nat.add_comm _ _⟩

theorem ShredData.sanitize_eq_ok {s : ShredData} (h : (Shred.shredData s).Shaped) :
    s.sanitize = .ok () ↔ (Shred.shredData s).Sane := by
  obtain ⟨es, hes⟩ := h.exists_merkleProof
  have hlen : s.payload.len = sizeOfPayload .data := h.length
  have hflags : ∀ a b : Bool, ¬(a && !b) = true ↔ (a = true → b = true) := by decide
  simp only [sanitize, guard_eq_ok, bind_eq_ok, hes, h.erasureShard, Except.ok.injEq,
    exists_eq_left', pure, Except.pure, and_true, Shred.erasureShardIndex, okOr_eq_ok,
    erasureShardIndex_eq_some, hflags]
  constructor
  · rintro ⟨-, -, hindex, hf, d, hd, slot, hp, i, ⟨hfec, -⟩, -⟩
    exact ⟨by omega, hfec, hf, (data_eq_ok h).mp ⟨d, hd⟩, parent_eq_ok.mp ⟨slot, hp⟩⟩
  · rintro ⟨hindex, hfec, hf, hsize, hparent⟩
    obtain ⟨d, hd⟩ := (data_eq_ok h).mpr hsize
    obtain ⟨slot, hp⟩ := parent_eq_ok.mpr hparent
    exact ⟨fun hc => hc h.kind, fun hc => hc hlen, by omega, hf, d, hd, slot, hp, _, ⟨hfec, rfl⟩,
      _, rfl⟩

theorem ShredCode.sanitize_eq_ok {s : ShredCode} (h : (Shred.shredCode s).Shaped) :
    s.sanitize = .ok () ↔ (Shred.shredCode s).Sane := by
  obtain ⟨es, hes⟩ := h.exists_merkleProof
  have hlen : s.payload.len = sizeOfPayload .code := h.length
  simp only [sanitize, guard_eq_ok, bind_eq_ok, hes, h.erasureShard, Except.ok.injEq,
    exists_eq_left', pure, Except.pure, and_true, Shred.erasureShardIndex, okOr_eq_ok]
  constructor
  · rintro ⟨-, -, -, hc, i, hi, -⟩
    exact ((erasureShardIndex_eq_some (by omega)).mp hi).1
  · intro hs
    have hc := hs.coding
    have hx := hs.first
    exact ⟨fun hn => hn h.kind, fun hn => hn hlen, by omega, by omega, _,
      (erasureShardIndex_eq_some hc.2).mpr ⟨hs, rfl⟩, _, rfl⟩

end Sanitize

namespace Shred
variable {s : Shred}

theorem Shaped.sanitize_eq_ok (h : s.Shaped) : s.sanitize = .ok () ↔ s.Sane := by
  cases s with
  | shredCode s => exact ShredCode.sanitize_eq_ok h
  | shredData s => exact ShredData.sanitize_eq_ok h

theorem Sane.erasureShardIndex (h : s.Sane) : s.erasureShardIndex = .ok s.position := by
  cases s with
  | shredCode s =>
      exact okOr_eq_ok.mpr ((ShredCode.erasureShardIndex_eq_some h.coding.2).mpr ⟨h, rfl⟩)
  | shredData s => exact okOr_eq_ok.mpr (ShredData.erasureShardIndex_eq_some.mpr ⟨h.2.1, rfl⟩)

theorem writeHeaders_variant (s : Shred) : s.writeHeaders[64]? = some s.variant.toU8 := by
  have common : ∀ (h : ShredCommonHeader) (rest : Bytes),
      (h.write ++ rest)[64]? = some h.shredVariant.toU8 := by
    intro h rest
    have hsig : h.signature.1.length = 64 := h.signature.2
    simp only [ShredCommonHeader.write, leBytes_one, List.append_assoc]
    rw [List.getElem?_append_right (by omega), hsig]
    rfl
  cases s with
  | shredCode s => exact common _ _
  | shredData s => exact common _ _

theorem ShredData.fromPayload_eq_ok {b : Bytes} {s : ShredData} :
    ShredData.fromPayload b = .ok s ↔ (shredData s).WellFormed ∧
      sizeOfPayload .data ≤ b.length ∧ s.payload.bytes = b.take (sizeOfPayload .data) := by
  have hlen : ∀ p : Payload, p.len = p.bytes.length := fun _ => rfl
  simp only [ShredData.fromPayload, guard_eq_ok, bind_eq_ok, liftErr_eq_ok, Payload.truncate,
    deserialize_data_eq_ok, Prod.exists, pure, Except.pure, Except.ok.injEq, hlen]
  constructor
  · rintro ⟨hle, ch, dh, ⟨hv, h88, hw⟩, hk, _, hsane, rfl⟩
    have hle' : sizeOfPayload .data ≤ b.length := by omega
    have hshaped : (shredData ⟨ch, dh, ⟨b.take (sizeOfPayload .data)⟩⟩).Shaped :=
      ⟨not_not.mp hk, hv, List.length_take_of_le hle'⟩
    exact ⟨⟨hshaped, hw, hshaped.sanitize_eq_ok.mp hsane⟩, hle', rfl⟩
  · rintro ⟨hwf, hle, hp⟩
    refine ⟨by omega, s.commonHeader, s.dataHeader, ⟨hwf.valid, ?_, ?_⟩, ?_, (), ?_, ?_⟩
    · rw [List.length_take_of_le hle]
      decide
    · rw [← hp]
      exact hwf.headers
    · exact not_not.mpr hwf.kind
    · rw [← hp]
      exact hwf.sanitize_eq_ok.mpr hwf.sane
    · rw [← hp]

theorem ShredCode.fromPayload_eq_ok {b : Bytes} {s : ShredCode} :
    ShredCode.fromPayload b = .ok s ↔ (shredCode s).WellFormed ∧
      sizeOfPayload .code ≤ b.length ∧ s.payload.bytes = b.take (sizeOfPayload .code) := by
  have hlen : ∀ p : Payload, p.len = p.bytes.length := fun _ => rfl
  have htake : slice (b.take (sizeOfPayload .code)) 0 89 = slice b 0 89 := by
    simp only [slice, List.drop_zero, List.take_take]
    rfl
  simp only [ShredCode.fromPayload, guard_eq_ok, bind_eq_ok, liftErr_eq_ok, Payload.truncate,
    deserialize_coding_eq_ok, Prod.exists, pure, Except.pure, Except.ok.injEq, hlen]
  constructor
  · rintro ⟨ch, dh, ⟨hv, h89, hw⟩, hk, hle, _, hsane, rfl⟩
    have hle' : sizeOfPayload .code ≤ b.length := by omega
    have hshaped : (shredCode ⟨ch, dh, ⟨b.take (sizeOfPayload .code)⟩⟩).Shaped :=
      ⟨not_not.mp hk, hv, List.length_take_of_le hle'⟩
    exact ⟨⟨hshaped, htake.trans hw, hshaped.sanitize_eq_ok.mp hsane⟩, hle', rfl⟩
  · rintro ⟨hwf, hle, hp⟩
    refine ⟨s.commonHeader, s.codingHeader, ⟨hwf.valid, ?_, ?_⟩, ?_, by omega, (), ?_, ?_⟩
    · exact Nat.le_trans (by decide) hle
    · rw [← htake, ← hp]
      exact hwf.headers
    · exact not_not.mpr hwf.kind
    · rw [← hp]
      exact hwf.sanitize_eq_ok.mpr hwf.sane
    · rw [← hp]

theorem WellFormed.getShredVariant (h : s.WellFormed) {b : Bytes}
    (hp : s.payload.bytes = b.take (sizeOfPayload s.kind)) :
    getShredVariant b = .ok s.variant := by
  have hsz := sizes s.kind
  have h1 := congrArg (fun l => l[64]?) h.headers
  simp only [getElem?_slice, writeHeaders_variant, Nat.zero_add] at h1
  rw [if_pos (by omega), hp, List.getElem?_take, if_pos (by omega)] at h1
  rw [LightweightShred.getShredVariant, h1]
  exact ShredVariant.tryFrom_toU8 h.valid

/-- What the parser returns: the well-formed shred whose payload is the front of the input. -/
theorem newFromSerializedShred_eq_ok {b : Bytes} :
    newFromSerializedShred b = .ok s ↔ s.WellFormed ∧ sizeOfPayload s.kind ≤ b.length ∧
      s.payload.bytes = b.take (sizeOfPayload s.kind) := by
  constructor
  · intro h
    obtain ⟨v, hv, h⟩ := bind_eq_ok.mp h
    cases v with
    | merkleCode p r =>
        obtain ⟨c, hc, he⟩ := bind_eq_ok.mp h
        cases he
        exact ShredCode.fromPayload_eq_ok.mp hc
    | merkleData p r =>
        obtain ⟨d, hd, he⟩ := bind_eq_ok.mp h
        cases he
        exact ShredData.fromPayload_eq_ok.mp hd
  · rintro ⟨hwf, hle, hp⟩
    rw [newFromSerializedShred, hwf.getShredVariant hp]
    have hkind := hwf.kind
    cases s with
    | shredCode s =>
        have hs := ShredCode.fromPayload_eq_ok.mpr ⟨hwf, hle, hp⟩
        cases hvar : (shredCode s).variant with
        | merkleCode p r => simp only [bind, Except.bind, hs, pure, Except.pure]
        | merkleData p r =>
            rw [hvar] at hkind
            cases hkind
    | shredData s =>
        have hs := ShredData.fromPayload_eq_ok.mpr ⟨hwf, hle, hp⟩
        cases hvar : (shredData s).variant with
        | merkleData p r => simp only [bind, Except.bind, hs, pure, Except.pure]
        | merkleCode p r =>
            rw [hvar] at hkind
            cases hkind

theorem WellFormed.part_front (hs : s.WellFormed) : s.part .front =
    match s with
    | .shredCode _ => s.writeHeaders
    | .shredData _ => s.signature.1 := by
  cases s with
  | shredCode c => exact hs.headers
  | shredData d =>
      have h64 : slice (slice d.payload.bytes 0 88) 0 64 = slice d.payload.bytes 0 64 := by
        rw [slice_slice _ _ _ _ _ (by omega)]
      have hh : slice d.payload.bytes 0 88 = writeDataHeaders (d.commonHeader, d.dataHeader) :=
        hs.headers
      change slice d.payload.bytes 0 64 = d.commonHeader.signature.1
      rw [← h64, hh]
      simp only [writeDataHeaders, ShredCommonHeader.write, List.append_assoc]
      rw [slice_append_left (by rw [d.commonHeader.signature.2]),
        slice_full d.commonHeader.signature.2]

theorem WellFormed.reparse (h : s.WellFormed) : newFromSerializedShred s.payload.bytes = .ok s :=
  newFromSerializedShred_eq_ok.mpr ⟨h, Nat.le_of_eq h.length.symm,
    (List.take_of_length_le (Nat.le_of_eq h.length)).symm⟩

theorem accepted_iff : s.Accepted ↔ s.WellFormed :=
  ⟨fun ⟨_, h⟩ => (newFromSerializedShred_eq_ok.mp h).1, fun h => ⟨_, h.reparse⟩⟩

end Shred

/-- What `recover` asserts of its input in debug builds. -/
structure Agreeing (l : List Shred) : Prop where
  common : ∀ s ∈ l, ∀ t ∈ l, s.commonHeader.slot = t.commonHeader.slot ∧
    s.commonHeader.version = t.commonHeader.version ∧
    s.commonHeader.fecSetIndex = t.commonHeader.fecSetIndex
  variant : ∀ s ∈ l, ∀ t ∈ l, s.variant.proofSize = t.variant.proofSize ∧
    s.variant.resigned = t.variant.resigned
  coding : ∀ a b : ShredCode, .shredCode a ∈ l → .shredCode b ∈ l →
    a.codingHeader.numDataShreds = b.codingHeader.numDataShreds ∧
    a.codingHeader.numCodingShreds = b.codingHeader.numCodingShreds

theorem agreeing_singleton (s : Shred) : Agreeing [s] := by
  constructor
  · intro a ha b hb
    rw [List.mem_singleton.mp ha, List.mem_singleton.mp hb]
    exact ⟨rfl, rfl, rfl⟩
  · intro a ha b hb
    rw [List.mem_singleton.mp ha, List.mem_singleton.mp hb]
    exact ⟨rfl, rfl⟩
  · intro a b ha hb
    cases (List.mem_singleton.mp ha).trans (List.mem_singleton.mp hb).symm
    exact ⟨rfl, rfl⟩

theorem Agreeing.mono {l l' : List Shred} (h : Agreeing l) (hsub : ∀ s ∈ l', s ∈ l) :
    Agreeing l' where
  common s hs t ht := h.common s (hsub s hs) t (hsub t ht)
  variant s hs t ht := h.variant s (hsub s hs) t (hsub t ht)
  coding a b ha hb := h.coding a b (hsub _ ha) (hsub _ hb)

theorem Agreeing.perm {l l' : List Shred} (h : Agreeing l) (hp : l'.Perm l) : Agreeing l' :=
  h.mono fun _ hs => hp.mem_iff.mp hs

end LightweightShred
