import LightweightShred.Accepted

/-!
# The header fields by their offsets

A byte string starts with a header iff each field stands at its own offset. Every string
that is long enough, with a variant byte that decodes, starts with exactly one header.
-/
namespace LightweightShred
open ByteString Rust Codec

/-- The fields of the common header, at the front of `b`. -/
structure ShredCommonHeader.At (h : ShredCommonHeader) (b : Bytes) : Prop where
  signature : slice b 0 64 = h.signature.1
  shredVariant : b[64]? = some h.shredVariant.toU8
  slot : numberAt b 65 73 = h.slot.toNat
  index : numberAt b 73 77 = h.index.toNat
  version : numberAt b 77 79 = h.version.toNat
  fecSetIndex : numberAt b 79 83 = h.fecSetIndex.toNat

/-- The fields of a data header, behind the common header. -/
structure DataShredHeader.At (h : DataShredHeader) (b : Bytes) : Prop where
  parentOffset : numberAt b 83 85 = h.parentOffset.toNat
  flags : b[85]? = some h.flags.bits
  size : numberAt b 86 88 = h.size.toNat

/-- The fields of a coding header, behind the common header. -/
structure CodingShredHeader.At (h : CodingShredHeader) (b : Bytes) : Prop where
  numDataShreds : numberAt b 83 85 = h.numDataShreds.toNat
  numCodingShreds : numberAt b 85 87 = h.numCodingShreds.toNat
  position : numberAt b 87 89 = h.position.toNat

section Split
variable {b : Bytes}

theorem slice_eq_field_append {lo w hi n : Nat} {rest : Bytes} (hn : n < 256 ^ w)
    (hw : lo + w ≤ hi) (hh : hi ≤ b.length) :
    slice b lo hi = leBytes w n ++ rest ↔
      numberAt b lo (lo + w) = n ∧ slice b (lo + w) hi = rest := by
  rw [slice_eq_append_iff (by rwa [length_leBytes]) hh, length_leBytes,
    slice_eq_leBytes_iff (by omega) hn]

theorem slice_eq_byte_append {lo hi : Nat} {x : UInt8} {rest : Bytes} (hw : lo + 1 ≤ hi)
    (hh : hi ≤ b.length) :
    slice b lo hi = leBytes 1 x.toNat ++ rest ↔ b[lo]? = some x ∧ slice b (lo + 1) hi = rest := by
  rw [slice_eq_append_iff (by rwa [length_leBytes]) hh, length_leBytes, leBytes_one,
    slice_eq_singleton_iff]

theorem ShredCommonHeader.at_iff {h : ShredCommonHeader} (hb : 83 ≤ b.length) :
    slice b 0 83 = h.write ↔ h.At b := by
  have h4 := @slice_eq_leBytes_iff b 79 4 _ hb h.fecSetIndex.toNat_lt
  have hsig : h.signature.1.length = 64 := h.signature.2
  simp only [write, List.append_assoc]
  rw [slice_eq_append_iff (by omega) hb, hsig, slice_eq_byte_append (by omega) hb,
    slice_eq_field_append h.slot.toNat_lt (by omega) hb,
    slice_eq_field_append h.index.toNat_lt (by omega) hb,
    slice_eq_field_append h.version.toNat_lt (by omega) hb, h4]
  constructor
  · rintro ⟨h1, h2, h3, h5, h6, h7⟩
    exact ⟨h1, h2, h3, h5, h6, h7⟩
  · rintro ⟨h1, h2, h3, h5, h6, h7⟩
    exact ⟨h1, h2, h3, h5, h6, h7⟩

theorem DataShredHeader.at_iff {h : DataShredHeader} (hb : 88 ≤ b.length) :
    slice b 83 88 = h.write ↔ h.At b := by
  have h2 := @slice_eq_leBytes_iff b 86 2 _ hb h.size.toNat_lt
  simp only [write, List.append_assoc]
  rw [slice_eq_field_append h.parentOffset.toNat_lt (by omega) hb,
    slice_eq_byte_append (by omega) hb, h2]
  constructor
  · rintro ⟨h1, h2, h3⟩
    exact ⟨h1, h2, h3⟩
  · rintro ⟨h1, h2, h3⟩
    exact ⟨h1, h2, h3⟩

theorem CodingShredHeader.at_iff {h : CodingShredHeader} (hb : 89 ≤ b.length) :
    slice b 83 89 = h.write ↔ h.At b := by
  have h2 := @slice_eq_leBytes_iff b 87 2 _ hb h.position.toNat_lt
  simp only [write, List.append_assoc]
  rw [slice_eq_field_append h.numDataShreds.toNat_lt (by omega) hb,
    slice_eq_field_append h.numCodingShreds.toNat_lt (by omega) hb, h2]
  constructor
  · rintro ⟨h1, h2, h3⟩
    exact ⟨h1, h2, h3⟩
  · rintro ⟨h1, h2, h3⟩
    exact ⟨h1, h2, h3⟩

theorem writeDataHeaders_at {h : ShredCommonHeader × DataShredHeader} (hb : 88 ≤ b.length) :
    slice b 0 88 = writeDataHeaders h ↔ h.1.At b ∧ h.2.At b := by
  rw [writeDataHeaders, slice_eq_append_iff (by simp) hb, ShredCommonHeader.length_write,
    ← DataShredHeader.at_iff hb, ← ShredCommonHeader.at_iff (by omega)]

theorem writeCodingHeaders_at {h : ShredCommonHeader × CodingShredHeader} (hb : 89 ≤ b.length) :
    slice b 0 89 = writeCodingHeaders h ↔ h.1.At b ∧ h.2.At b := by
  rw [writeCodingHeaders, slice_eq_append_iff (by simp) hb, ShredCommonHeader.length_write,
    ← CodingShredHeader.at_iff hb, ← ShredCommonHeader.at_iff (by omega)]

end Split

section Existence
variable {b : Bytes}

theorem exists_u16_at (lo : Nat) (h : lo + 2 ≤ b.length) :
    ∃ x : UInt16, numberAt b lo (lo + 2) = x.toNat := by
  obtain ⟨x, hx⟩ := exists_u16 (n := numberAt b lo (lo + 2))
    (by simpa [Nat.add_sub_cancel_left] using @numberAt_lt b lo _ h)
  exact ⟨x, hx.symm⟩

theorem exists_u32_at (lo : Nat) (h : lo + 4 ≤ b.length) :
    ∃ x : UInt32, numberAt b lo (lo + 4) = x.toNat := by
  obtain ⟨x, hx⟩ := exists_u32 (n := numberAt b lo (lo + 4))
    (by simpa [Nat.add_sub_cancel_left] using @numberAt_lt b lo _ h)
  exact ⟨x, hx.symm⟩

theorem exists_u64_at (lo : Nat) (h : lo + 8 ≤ b.length) :
    ∃ x : UInt64, numberAt b lo (lo + 8) = x.toNat := by
  obtain ⟨x, hx⟩ := exists_u64 (n := numberAt b lo (lo + 8))
    (by simpa [Nat.add_sub_cancel_left] using @numberAt_lt b lo _ h)
  exact ⟨x, hx.symm⟩

theorem ShredCommonHeader.exists_at {v : ShredVariant} (hb : 83 ≤ b.length)
    (hv : b[64]? = some v.toU8) : ∃ h : ShredCommonHeader, h.shredVariant = v ∧ h.At b := by
  obtain ⟨slot, hslot⟩ := exists_u64_at (b := b) 65 (by omega)
  obtain ⟨index, hindex⟩ := exists_u32_at (b := b) 73 (by omega)
  obtain ⟨version, hversion⟩ := exists_u16_at (b := b) 77 (by omega)
  obtain ⟨fec, hfec⟩ := exists_u32_at (b := b) 79 (by omega)
  exact ⟨⟨⟨slice b 0 64, length_slice (by omega)⟩, v, slot, index, version, fec⟩, rfl,
    rfl, hv, hslot, hindex, hversion, hfec⟩

theorem DataShredHeader.exists_at (hb : 88 ≤ b.length) : ∃ h : DataShredHeader, h.At b := by
  obtain ⟨parent, hparent⟩ := exists_u16_at (b := b) 83 (by omega)
  obtain ⟨size, hsize⟩ := exists_u16_at (b := b) 86 hb
  exact ⟨⟨parent, ⟨b[85]⟩, size⟩, hparent, List.getElem?_eq_getElem _, hsize⟩

theorem CodingShredHeader.exists_at (hb : 89 ≤ b.length) : ∃ h : CodingShredHeader, h.At b := by
  obtain ⟨data, hdata⟩ := exists_u16_at (b := b) 83 (by omega)
  obtain ⟨coding, hcoding⟩ := exists_u16_at (b := b) 85 (by omega)
  obtain ⟨position, hposition⟩ := exists_u16_at (b := b) 87 hb
  exact ⟨⟨data, coding, position⟩, hdata, hcoding, hposition⟩

end Existence

section Agreement
variable {b d : Bytes}

theorem numberAt_congr {lo hi n m : Nat} (h : AgreeOn b d n m) (hlo : n ≤ lo) (hhi : hi ≤ m) :
    numberAt b lo hi = numberAt d lo hi := by
  have hsub : AgreeOn b d lo hi := fun i h1 h2 => h i (by omega) (by omega)
  rw [numberAt, numberAt, hsub.slice_eq]

theorem ShredCommonHeader.At.eq_of_agreeOn {h k : ShredCommonHeader} (hb : h.At b) (hd : k.At d)
    (hag : AgreeOn b d 64 83) : h.slot = k.slot ∧ h.index = k.index ∧ h.version = k.version ∧
      h.fecSetIndex = k.fecSetIndex := by
  refine ⟨UInt64.toNat_inj.mp ?_, UInt32.toNat_inj.mp ?_, UInt16.toNat_inj.mp ?_,
    UInt32.toNat_inj.mp ?_⟩
  · rw [← hb.slot, ← hd.slot]
    exact numberAt_congr hag (by decide) (by decide)
  · rw [← hb.index, ← hd.index]
    exact numberAt_congr hag (by decide) (by decide)
  · rw [← hb.version, ← hd.version]
    exact numberAt_congr hag (by decide) (by decide)
  · rw [← hb.fecSetIndex, ← hd.fecSetIndex]
    exact numberAt_congr hag (by decide) (by decide)

theorem DataShredHeader.At.eq_of_agreeOn {h k : DataShredHeader} (hb : h.At b) (hd : k.At d)
    (hag : AgreeOn b d 83 88) : h = k := by
  refine DataShredHeader.ext (UInt16.toNat_inj.mp ?_) (congrArg ShredFlags.mk ?_)
    (UInt16.toNat_inj.mp ?_)
  · rw [← hb.parentOffset, ← hd.parentOffset]
    exact numberAt_congr hag (by decide) (by decide)
  · have hflags := hag 85 (by decide) (by decide)
    rw [hb.flags, hd.flags] at hflags
    exact Option.some.inj hflags
  · rw [← hb.size, ← hd.size]
    exact numberAt_congr hag (by decide) (by decide)

theorem CodingShredHeader.At.eq_of_agreeOn {h k : CodingShredHeader} (hb : h.At b) (hd : k.At d)
    (hag : AgreeOn b d 83 89) : h = k := by
  refine CodingShredHeader.ext (UInt16.toNat_inj.mp ?_) (UInt16.toNat_inj.mp ?_)
    (UInt16.toNat_inj.mp ?_)
  · rw [← hb.numDataShreds, ← hd.numDataShreds]
    exact numberAt_congr hag (by decide) (by decide)
  · rw [← hb.numCodingShreds, ← hd.numCodingShreds]
    exact numberAt_congr hag (by decide) (by decide)
  · rw [← hb.position, ← hd.position]
    exact numberAt_congr hag (by decide) (by decide)

end Agreement

end LightweightShred
