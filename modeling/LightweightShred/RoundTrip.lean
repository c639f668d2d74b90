import LightweightShred.Replication

/-!
# Recovered shreds are shreds

The headers of a recovered shred come from the stub, its bytes from the stub, the codec and
the proof. They still agree: the parser makes of the bytes the shred they were taken from.
-/
namespace LightweightShred
open ByteString Rust Codec Slots HashTree

namespace Shred

/-- The header structs are what the payload decodes to. -/
def HeadersDecoded : Shred → Prop
  | .shredCode s =>
    deserialize readCodingHeaders s.payload.bytes = .ok (s.commonHeader, s.codingHeader)
  | .shredData s =>
    deserialize readDataHeaders s.payload.bytes = .ok (s.commonHeader, s.dataHeader)

/-- The struct and its payload hold the same shred. -/
structure RoundTrips (s : Shred) : Prop where
  shredType : s.commonHeader.shredVariant.shredType = s.kind
  length : s.payload.len = sizeOfPayload s.kind
  headers : s.HeadersDecoded
  sanitize : s.sanitize = .ok ()
  reparse : newFromSerializedShred s.payload.bytes = .ok s

theorem WellFormed.headersDecoded {s : Shred} (h : s.WellFormed) : s.HeadersDecoded := by
  have hlen : s.payload.bytes.length = sizeOfPayload s.kind := h.length
  cases s with
  | shredCode c =>
      refine deserialize_coding_eq_ok.mpr ⟨h.valid, ?_, h.headers⟩
      change 89 ≤ (Shred.shredCode c).payload.bytes.length
      rw [hlen]
      exact (by decide : 89 ≤ sizeOfPayload .code)
  | shredData d => exact deserialize_of_headers h.toShaped h.headers

theorem WellFormed.roundTrips {s : Shred} (h : s.WellFormed) : s.RoundTrips where
  shredType := h.kind
  length := h.length
  headers := h.headersDecoded
  sanitize := h.sanitize_eq_ok.mpr h.sane
  reparse := h.reparse

end Shred

/-- Whatever the codec writes, a shred that recovery yields round-trips through the parser. -/
theorem recovered_round_trips (H : Hasher) (cache : ReedSolomonCache) (srt : ShredSort)
    (l : List Shred) (hl : ∀ s ∈ l, s.Accepted) (items : List (Result Shred))
    (hr : recover H cache srt l = .ok items) (s : Shred) (hs : .ok s ∈ items) :
    s.RoundTrips := by
  have hwf : ∀ t ∈ l, t.WellFormed := fun t ht => Shred.accepted_iff.mp (hl t ht)
  obtain ⟨L, shards, root, hR⟩ := (recover_eq_ok hwf).mp hr
  obtain ⟨k, hk⟩ := List.mem_iff_getElem?.mp hs
  exact (hR.item_wellFormed (wellFormed_sortShreds hwf) hk).roundTrips

/-- The data shred recovered from three copies. -/
theorem recovered_round_trips_copies : ∃ d : ShredData,
    (plainBatch sha256Hasher 0 3)[0]? = some (.shredData d) ∧ (Shred.shredData d).RoundTrips := by
  obtain ⟨d, hd, -⟩ := threeCopies_complete.data 0 (by decide)
  have hnew : Shred.shredData d ∉ threeCopies := by
    intro hmem
    obtain ⟨k, hk⟩ := List.mem_iff_getElem?.mp hmem
    rw [threeCopies, List.getElem?_drop] at hk
    have h0 := threeCopies_complete.position_getElem? hd
    have h1 := threeCopies_complete.position_getElem? hk
    omega
  refine ⟨d, hd, recovered_round_trips sha256Hasher replicationCache stableSort _
    threeCopies_accepted _ recover_threeCopies _ ?_⟩
  exact List.mem_map_of_mem (List.mem_filter.mpr
    ⟨List.mem_of_getElem? hd, decide_eq_true hnew⟩)

end LightweightShred
