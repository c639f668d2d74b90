import LightweightShred.HeaderFields

/-!
# The header codec is exact

Every header with a proof size of four bits has one encoding, and every string of the right
length with a variant byte that decodes is one. The flags are read as they are.
-/
namespace LightweightShred
open ByteString Rust Codec

/-- Byte 64 is there and decodes to a variant. -/
def HasVariantByte (b : Bytes) : Prop :=
  ∃ t v, b[64]? = some t ∧ ShredVariant.tryFrom t = .ok v

section
variable {b : Bytes}

theorem ShredCommonHeader.At.hasVariantByte {h : ShredCommonHeader} (hat : h.At b)
    (hv : h.shredVariant.Valid) : HasVariantByte b :=
  ⟨_, _, hat.shredVariant, ShredVariant.tryFrom_toU8 hv⟩

theorem HasVariantByte.exists_at (h : HasVariantByte b) (hb : 83 ≤ b.length) :
    ∃ c : ShredCommonHeader, c.shredVariant.Valid ∧ c.At b := by
  obtain ⟨t, v, ht, hv⟩ := h
  obtain ⟨hvalid, rfl⟩ := ShredVariant.tryFrom_sound hv
  obtain ⟨c, rfl, hc⟩ := ShredCommonHeader.exists_at hb ht
  exact ⟨c, hvalid, hc⟩

end

/-- Headers and their bytes determine each other, for data and for coding shreds: a header whose
proof size is at most 15 is read back from its encoding whatever follows, a string with a valid
variant byte is the encoding of what is read from it, and no other string is read. -/
theorem header_codec_exact :
    Exact readDataHeaders writeDataHeaders (fun h => h.1.shredVariant.proofSize.toNat ≤ 15) 88
      HasVariantByte ∧
    Exact readCodingHeaders writeCodingHeaders (fun h => h.1.shredVariant.proofSize.toNat ≤ 15) 89
      HasVariantByte := by
  have hdata := readPair_inverts ShredCommonHeader.read_inverts DataShredHeader.read_inverts
  have hcoding := readPair_inverts ShredCommonHeader.read_inverts CodingShredHeader.read_inverts
  constructor
  · refine Inverts.exact ?_ length_writeDataHeaders ?_ ?_
    · exact fun b h rest => (hdata b h rest).trans
        (and_congr_left fun _ => (and_iff_left trivial).trans Nat.lt_succ_iff)
    · intro b h hv hb hw
      exact ((writeDataHeaders_at hb).mp hw).1.hasVariantByte (Nat.lt_succ_of_le hv)
    · intro b hb hgood
      obtain ⟨c, hv, hc⟩ := hgood.exists_at (by omega)
      obtain ⟨d, hd⟩ := DataShredHeader.exists_at hb
      exact ⟨(c, d), Nat.le_of_lt_succ hv, (writeDataHeaders_at hb).mpr ⟨hc, hd⟩⟩
  · refine Inverts.exact ?_ length_writeCodingHeaders ?_ ?_
    · exact fun b h rest => (hcoding b h rest).trans
        (and_congr_left fun _ => (and_iff_left trivial).trans Nat.lt_succ_iff)
    · intro b h hv hb hw
      exact ((writeCodingHeaders_at hb).mp hw).1.hasVariantByte (Nat.lt_succ_of_le hv)
    · intro b hb hgood
      obtain ⟨c, hv, hc⟩ := hgood.exists_at (by omega)
      obtain ⟨d, hd⟩ := CodingShredHeader.exists_at hb
      exact ⟨(c, d), Nat.le_of_lt_succ hv, (writeCodingHeaders_at hb).mpr ⟨hc, hd⟩⟩

end LightweightShred
