import LightweightShred.Placement

/-!
# Stubs

A stub carries the headers of the last coding shred over to a missing position, together
with its chained Merkle root and its retransmitter's signature; the shard is zero.
-/
namespace LightweightShred
open ByteString Rust Codec

namespace ShredCode

def numDataShreds (L : ShredCode) : Nat := L.codingHeader.numDataShreds.toNat

def numShards (L : ShredCode) : Nat :=
  L.codingHeader.numDataShreds.toNat + L.codingHeader.numCodingShreds.toNat

/-- The headers that stubs are made from. -/
def headersOf (L : ShredCode) : StubHeaders where
  commonHeader := { L.commonHeader with
    index := L.commonHeader.index - L.codingHeader.position.toUInt32 }
  codingHeader := { L.codingHeader with position := 0 }
  chainedMerkleRoot := (Shred.shredCode L).chainedMerkleRoot.toOption
  retransmitterSignature := (Shred.shredCode L).retransmitterSignature.toOption

/-- A data stub before its root and its retransmitter's signature are set. -/
def blankData (L : ShredCode) (p : Nat) : Shred :=
  .shredData {
    commonHeader := { L.commonHeader with
      shredVariant := .merkleData L.commonHeader.shredVariant.proofSize
        L.commonHeader.shredVariant.resigned
      index := L.commonHeader.fecSetIndex + UInt32.ofNat p }
    dataHeader := { parentOffset := 0, flags := .empty, size := 0 }
    payload := ⟨splice (List.replicate (sizeOfPayload .data) 0) 0 L.commonHeader.signature.1⟩ }

def stubCodeHeaders (L : ShredCode) (p : Nat) : ShredCommonHeader × CodingShredHeader :=
  ({ L.headersOf.commonHeader with
      index := L.headersOf.commonHeader.index + (UInt16.ofNat (p - L.numDataShreds)).toUInt32 },
    { L.headersOf.codingHeader with position := UInt16.ofNat (p - L.numDataShreds) })

/-- The bytes at the front of a stub: the signature, or the coding headers. -/
def stubFront (L : ShredCode) (p : Nat) : Bytes :=
  if p < L.numDataShreds then L.commonHeader.signature.1 else writeCodingHeaders (L.stubCodeHeaders p)

/-- A coding stub before its root and its retransmitter's signature are set. -/
def blankCode (L : ShredCode) (p : Nat) : Shred :=
  .shredCode {
    commonHeader := (L.stubCodeHeaders p).1
    codingHeader := (L.stubCodeHeaders p).2
    payload := ⟨splice (List.replicate (sizeOfPayload .code) 0) 0
      (writeCodingHeaders (L.stubCodeHeaders p))⟩ }

def blank (L : ShredCode) (p : Nat) : Shred :=
  if p < L.numDataShreds then L.blankData p else L.blankCode p

/-- The stub for a position of the batch. -/
def stubAt (L : ShredCode) (p : Nat) : Shred :=
  ((L.blank p).withPart .chainedRoot ((Shred.shredCode L).part .chainedRoot)).withPart
    .retransmitter ((Shred.shredCode L).part .retransmitter)

end ShredCode

section
variable {L : ShredCode}

theorem addU32_of_lt {a b : UInt32} (h : a.toNat + b.toNat < 2 ^ 32) :
    (addU32 a b : Result UInt32) = .ok (a + b) :=
  addU32_eq_ok.mpr (by rw [UInt32.toNat_add, Nat.mod_eq_of_lt h])

theorem tryU16_of_lt {n : Nat} (h : n < 2 ^ 16) : tryU16 n = some (UInt16.ofNat n) := if_pos h

theorem tryU32_of_lt {n : Nat} (h : n < 2 ^ 32) : tryU32 n = some (UInt32.ofNat n) := if_pos h

theorem shredVariant_of_shaped (h : (Shred.shredCode L).Shaped) :
    L.commonHeader.shredVariant = .merkleCode L.commonHeader.shredVariant.proofSize
      L.commonHeader.shredVariant.resigned := by
  have hk : L.commonHeader.shredVariant.shredType = .code := h.kind
  cases hv : L.commonHeader.shredVariant with
  | merkleCode p r => rfl
  | merkleData p r =>
      rw [hv] at hk
      cases hk

theorem stubHeaders_eq (h : (Shred.shredCode L).WellFormed) : stubHeaders L = .ok L.headersOf := by
  have hfirst : L.codingHeader.position.toNat ≤ L.commonHeader.index.toNat := h.sane.first.1
  have hsub : checkedSub L.commonHeader.index L.codingHeader.position.toUInt32 =
      some (L.commonHeader.index - L.codingHeader.position.toUInt32) :=
    if_pos (UInt32.le_iff_toNat_le.mpr (by rwa [UInt16.toNat_toUInt32]))
  obtain ⟨root, hroot⟩ := h.exists_chainedMerkleRoot
  rw [stubHeaders, hsub, hroot, ShredCode.headersOf, hroot]
  cases hr : (Shred.shredCode L).variant.resigned with
  | false =>
      rw [h.retransmitterSignature_fail hr]
      rfl
  | true =>
      obtain ⟨signature, hsig⟩ := h.exists_retransmitterSignature hr
      rw [hsig]
      rfl

theorem numbers (h : (Shred.shredCode L).Sane) :
    L.commonHeader.fecSetIndex.toNat + L.numDataShreds ≤ 32768 ∧
      (L.commonHeader.index - L.codingHeader.position.toUInt32).toNat +
        L.codingHeader.position.toNat = L.commonHeader.index.toNat ∧
      (L.commonHeader.index - L.codingHeader.position.toUInt32).toNat +
        L.codingHeader.numCodingShreds.toNat ≤ 32768 ∧ 1 ≤ L.numDataShreds ∧
      L.codingHeader.position.toNat < L.codingHeader.numCodingShreds.toNat ∧
      L.numShards = L.numDataShreds + L.codingHeader.numCodingShreds.toNat := by
  obtain ⟨⟨hd1, hd2⟩, ⟨hc, -⟩, ⟨hf1, hf2⟩⟩ := h
  have hsub : (L.commonHeader.index - L.codingHeader.position.toUInt32).toNat =
      L.commonHeader.index.toNat - L.codingHeader.position.toNat := by
    rw [UInt32.toNat_sub_of_le _ _ (UInt32.le_iff_toNat_le.mpr (by rwa [UInt16.toNat_toUInt32])),
      UInt16.toNat_toUInt32]
  rw [maxCodeShredsPerSlot, maxDataShredsPerSlot] at hf2
  rw [maxDataShredsPerSlot] at hd2
  refine ⟨hd2, ?_, ?_, hd1, hc, rfl⟩ <;> omega

theorem shaped_blank (h : (Shred.shredCode L).Shaped) (p : Nat) : (L.blank p).Shaped := by
  have hvalid : L.commonHeader.shredVariant.Valid := h.valid
  unfold ShredCode.blank
  split
  · refine ⟨rfl, hvalid, ?_⟩
    simp only [ShredCode.blankData, Shred.payload, Shred.kind]
    rw [length_splice (by rw [L.commonHeader.signature.2, List.length_replicate]; decide),
      List.length_replicate]
  · refine ⟨h.kind, hvalid, ?_⟩
    simp only [ShredCode.blankCode, Shred.payload, Shred.kind]
    rw [length_splice (by rw [length_writeCodingHeaders, List.length_replicate]; decide),
      List.length_replicate]

theorem resignedBytes_blank (L : ShredCode) (p : Nat) :
    (L.blank p).variant.resignedBytes = L.commonHeader.shredVariant.resignedBytes := by
  unfold ShredCode.blank
  split <;> rfl

theorem chainedRoot_fits (h : (Shred.shredCode L).Shaped) (p : Nat) :
    Region.chainedRoot.lo (L.blank p).kind (L.blank p).variant +
        ((Shred.shredCode L).part .chainedRoot).length =
      Region.chainedRoot.hi (L.blank p).kind (L.blank p).variant := by
  rw [h.length_part]
  simp only [Region.lo, Region.hi]
  omega

theorem retransmitter_fits (h : (Shred.shredCode L).Shaped) (p : Nat) (b : Bytes) :
    Region.retransmitter.lo ((L.blank p).withPart .chainedRoot b).kind
          ((L.blank p).withPart .chainedRoot b).variant +
        ((Shred.shredCode L).part .retransmitter).length =
      Region.retransmitter.hi ((L.blank p).withPart .chainedRoot b).kind
        ((L.blank p).withPart .chainedRoot b).variant := by
  rw [h.length_part]
  simp only [Region.lo, Region.hi, Shred.kind_withPart, Shred.variant_withPart]
  rw [resignedBytes_blank]
  simp only [Shred.variant, Shred.commonHeader]
  omega

theorem shaped_stubAt (h : (Shred.shredCode L).Shaped) (p : Nat) : (L.stubAt p).Shaped :=
  ((shaped_blank h p).withPart (chainedRoot_fits h p)).withPart (retransmitter_fits h p _)

theorem isSome_retransmitterSignature (h : (Shred.shredCode L).Shaped) :
    L.headersOf.retransmitterSignature.isSome = L.commonHeader.shredVariant.resigned := by
  rw [ShredCode.headersOf]
  cases hr : L.commonHeader.shredVariant.resigned with
  | false =>
      rw [h.retransmitterSignature_fail hr]
      rfl
  | true =>
      obtain ⟨signature, hsig⟩ := h.exists_retransmitterSignature hr
      rw [hsig]
      rfl

theorem makeStubData_eq (h : (Shred.shredCode L).WellFormed) {p : Nat} (hp : p < L.numDataShreds) :
    makeStubData L.headersOf p = .ok (L.blankData p) := by
  obtain ⟨hfec, -⟩ := numbers h.sane
  have hvar : L.headersOf.commonHeader.shredVariant = .merkleCode
      L.commonHeader.shredVariant.proofSize L.commonHeader.shredVariant.resigned :=
    shredVariant_of_shaped h.toShaped
  have hp32 : p < 2 ^ 32 := by omega
  have hadd : (addU32 L.headersOf.commonHeader.fecSetIndex (UInt32.ofNat p) : Result UInt32) =
      .ok (L.commonHeader.fecSetIndex + UInt32.ofNat p) :=
    addU32_of_lt (by
      rw [toNat_u32 hp32]
      simp only [ShredCode.headersOf]
      omega)
  have hcopy : copyToFront (List.replicate (sizeOfPayload .data) 0) L.commonHeader.signature.1 =
      .ok (splice (List.replicate (sizeOfPayload .data) 0) 0 L.commonHeader.signature.1) :=
    if_pos (by rw [L.commonHeader.signature.2, List.length_replicate]; decide)
  rw [makeStubData, hvar]
  simp only [tryU32_of_lt hp32, okOr, bind, Except.bind, hadd]
  rw [show L.headersOf.commonHeader.signature = L.commonHeader.signature from rfl, hcopy,
    isSome_retransmitterSignature h.toShaped]
  rfl

theorem makeStubCode_eq (h : (Shred.shredCode L).WellFormed) {q : Nat}
    (hq : q < L.codingHeader.numCodingShreds.toNat) :
    makeStubCode L.headersOf q = .ok (L.blankCode (L.numDataShreds + q)) := by
  obtain ⟨-, -, hcoding, -⟩ := numbers h.sane
  have hq16 : q < 2 ^ 16 := by omega
  have hadd : (addU32 L.headersOf.commonHeader.index (UInt16.ofNat q).toUInt32 : Result UInt32) =
      .ok (L.headersOf.commonHeader.index + (UInt16.ofNat q).toUInt32) :=
    addU32_of_lt (by
      rw [UInt16.toNat_toUInt32, toNat_u16 hq16]
      simp only [ShredCode.headersOf]
      omega)
  rw [makeStubCode, tryU16_of_lt hq16, ShredCode.blankCode, ShredCode.stubCodeHeaders,
    Nat.add_sub_cancel_left]
  simp only [okOr, bind, Except.bind, hadd]
  rw [(serializeInto_eq_ok).mpr ⟨by
    rw [length_writeCodingHeaders, List.length_replicate]
    decide, rfl⟩]
  rfl

/-- The stub with its chained root set, and with its retransmitter's signature if there is one. -/
theorem makeStubShred_eq (h : (Shred.shredCode L).WellFormed) {p : Nat} (hp : p < L.numShards) :
    makeStubShred L.headersOf p = .ok (L.stubAt p) := by
  obtain ⟨-, -, -, -, -, hn⟩ := numbers h.sane
  obtain ⟨root, hroot⟩ := h.exists_chainedMerkleRoot
  have hrootOf : L.headersOf.chainedMerkleRoot = some root := by
    rw [ShredCode.headersOf, hroot]
    rfl
  have hset := (shaped_blank h.toShaped p).setChainedMerkleRoot root
  rw [← h.chainedMerkleRoot_eq_ok.mp hroot] at hset
  have hnd : L.headersOf.codingHeader.numDataShreds.toNat = L.numDataShreds := rfl
  have hsteps : ∀ r, L.headersOf.retransmitterSignature = r →
      makeStubShred L.headersOf p = r.elim
        (pure ((L.blank p).withPart .chainedRoot ((Shred.shredCode L).part .chainedRoot)))
        (((L.blank p).withPart .chainedRoot
          ((Shred.shredCode L).part .chainedRoot)).setRetransmitterSignature ·) := by
    intro r hr
    rw [makeStubShred, hrootOf, hr, hnd, checkedSubSize]
    rw [ShredCode.blank] at hset ⊢
    by_cases hd : p < L.numDataShreds
    · rw [if_pos hd] at hset ⊢
      rw [if_neg (by omega)]
      simp only [makeStubData_eq h hd, bind, Except.bind, hset]
      cases r <;> rfl
    · have hcode := @makeStubCode_eq L h (p - L.numDataShreds) (by omega)
      rw [Nat.add_sub_of_le (by omega)] at hcode
      rw [if_neg hd] at hset ⊢
      rw [if_pos (by omega)]
      simp only [hcode, bind, Except.bind, hset]
      cases r <;> rfl
  have hshaped := (shaped_blank h.toShaped p).withPart (chainedRoot_fits h.toShaped p)
  cases hr : L.commonHeader.shredVariant.resigned with
  | false =>
      have hnone : L.headersOf.retransmitterSignature = none := by
        rw [← Option.not_isSome_iff_eq_none, isSome_retransmitterSignature h.toShaped, hr]
        decide
      have hnil : (Shred.shredCode L).part .retransmitter = [] := by
        apply List.length_eq_zero_iff.mp
        rw [h.length_part]
        simp only [Region.lo, Region.hi, ShredVariant.resignedBytes, Shred.variant,
          Shred.commonHeader, hr, Bool.false_eq_true, if_false]
        omega
      rw [hsteps none hnone, ShredCode.stubAt, hnil, Shred.withPart_nil]
      rfl
  | true =>
      obtain ⟨signature, hsig⟩ := h.exists_retransmitterSignature hr
      have hsome : L.headersOf.retransmitterSignature = some signature := by
        rw [ShredCode.headersOf, hsig]
        rfl
      have hresigned : ((L.blank p).withPart .chainedRoot
          ((Shred.shredCode L).part .chainedRoot)).variant.resigned = true := by
        rw [Shred.variant_withPart, ← hr]
        unfold ShredCode.blank
        split <;> rfl
      rw [hsteps _ hsome, ShredCode.stubAt, (h.retransmitterSignature_eq_ok.mp hsig).2]
      exact hshaped.setRetransmitterSignature hresigned signature

/-- What the shreds of a batch have in common, whatever their kind and position. -/
structure SameBatch (s t : Shred) : Prop where
  signature : s.signature = t.signature
  slot : s.commonHeader.slot = t.commonHeader.slot
  version : s.commonHeader.version = t.commonHeader.version
  fecSetIndex : s.fecSetIndex = t.fecSetIndex
  proofSize : s.variant.proofSize = t.variant.proofSize
  resigned : s.variant.resigned = t.variant.resigned
  chainedRoot : s.part .chainedRoot = t.part .chainedRoot
  retransmitter : s.part .retransmitter = t.part .retransmitter

theorem Shred.Shaped.length_shard_eq {s t : Shred} (hs : s.Shaped) (ht : t.Shaped)
    (hps : s.variant.proofSize = t.variant.proofSize)
    (hr : s.variant.resigned = t.variant.resigned) :
    (s.part .shard).length = (t.part .shard).length := by
  have h1 := hs.length_shard
  have h2 := ht.length_shard
  rw [ShredVariant.proofBytes, ShredVariant.resignedBytes] at h1 h2
  rw [hps, hr] at h1
  omega

theorem SameBatch.length_shard {s t : Shred} (h : SameBatch s t) (hs : s.Shaped) (ht : t.Shaped) :
    (s.part .shard).length = (t.part .shard).length :=
  hs.length_shard_eq ht h.proofSize h.resigned

theorem kind_stubAt (L : ShredCode) (p : Nat) :
    (L.stubAt p).kind = if p < L.numDataShreds then .data else .code := by
  simp only [ShredCode.stubAt, Shred.kind_withPart, ShredCode.blank]
  split <;> rfl

theorem commonHeader_stubAt (L : ShredCode) (p : Nat) :
    (L.stubAt p).commonHeader = (L.blank p).commonHeader := by
  simp only [ShredCode.stubAt, Shred.commonHeader_withPart]

theorem writeHeaders_stubAt (L : ShredCode) (p : Nat) :
    (L.stubAt p).writeHeaders = (L.blank p).writeHeaders := by
  simp only [ShredCode.stubAt, Shred.writeHeaders_withPart]

theorem stubAt_sameBatch (h : (Shred.shredCode L).Shaped) (p : Nat) :
    SameBatch (L.stubAt p) (.shredCode L) := by
  have hroot := chainedRoot_fits h p
  have hretr := retransmitter_fits h p ((Shred.shredCode L).part .chainedRoot)
  have hshaped := (shaped_blank h p).withPart hroot
  have hparts : (L.stubAt p).part .chainedRoot = (Shred.shredCode L).part .chainedRoot ∧
      (L.stubAt p).part .retransmitter = (Shred.shredCode L).part .retransmitter := by
    constructor
    · rw [ShredCode.stubAt, hshaped.part_withPart_ne hretr (by decide),
        (shaped_blank h p).part_withPart hroot]
    · rw [ShredCode.stubAt, hshaped.part_withPart hretr]
  obtain ⟨h1, h2⟩ := hparts
  constructor <;> first
    | assumption
    | (simp only [Shred.signature, Shred.fecSetIndex, Shred.variant, commonHeader_stubAt,
        ShredCode.blank]
       split <;> rfl)

theorem position_stubAt (h : (Shred.shredCode L).Sane) {p : Nat} (hp : p < L.numShards) :
    (L.stubAt p).position = p := by
  obtain ⟨hfec, hidx, hcoding, hd1, hpos, hn⟩ := numbers h
  simp only [ShredCode.stubAt, Shred.position_withPart, ShredCode.blank]
  split
  · simp only [ShredCode.blankData, Shred.position]
    have hp32 : (UInt32.ofNat p).toNat = p := toNat_u32 (by omega)
    rw [UInt32.toNat_add, hp32, Nat.mod_eq_of_lt (by omega), Nat.add_sub_cancel_left]
  · simp only [ShredCode.blankCode, Shred.position, ShredCode.stubCodeHeaders]
    rw [toNat_u16 (by omega)]
    change L.numDataShreds + _ = _
    omega

theorem payload_blank (L : ShredCode) (p : Nat) :
    (L.blank p).payload.bytes =
        splice (List.replicate (sizeOfPayload (L.blank p).kind) 0) 0 (L.stubFront p) ∧
      (L.stubFront p).length = erasureShardStartOffset (L.blank p).kind := by
  unfold ShredCode.blank ShredCode.stubFront
  split
  · exact ⟨rfl, L.commonHeader.signature.2⟩
  · exact ⟨rfl, length_writeCodingHeaders _⟩

theorem part_front_stubAt (h : (Shred.shredCode L).Shaped) (p : Nat) :
    (L.stubAt p).part .front = L.stubFront p := by
  obtain ⟨hbytes, hlen⟩ := payload_blank L p
  have hsz := sizes (L.blank p).kind
  rw [ShredCode.stubAt, ((shaped_blank h p).withPart (chainedRoot_fits h p)).part_withPart_ne
    (retransmitter_fits h p _) (by decide), (shaped_blank h p).part_withPart_ne
    (chainedRoot_fits h p) (by decide), Shred.part, hbytes]
  exact slice_splice (by rw [List.length_replicate]; omega) (by simp only [Region.hi]; omega)

theorem slice_replicate_zero (n lo hi : Nat) (h : hi ≤ n) :
    slice (List.replicate n (0 : UInt8)) lo hi = List.replicate (hi - lo) 0 := by
  rw [slice, List.drop_replicate, List.take_replicate, Nat.min_eq_left (by omega)]

/-- Between its headers and its chained root, and for a proof, a stub holds zeros. -/
theorem part_zero_stubAt (h : (Shred.shredCode L).Shaped) (p : Nat) {R : Region}
    (hR : R = .shard ∨ R = .proof) :
    (L.stubAt p).part R = List.replicate
      (R.hi (L.stubAt p).kind (L.stubAt p).variant - R.lo (L.stubAt p).kind (L.stubAt p).variant)
      0 := by
  obtain ⟨hbytes, hlen⟩ := payload_blank L p
  have hb := shaped_blank h p
  have hsz := sizes (L.blank p).kind
  have hend := lt_bodyEnd (L.blank p).kind hb.valid
  rw [ShredCode.stubAt, (hb.withPart (chainedRoot_fits h p)).part_withPart_ne
    (retransmitter_fits h p _) (by rcases hR with rfl | rfl <;> decide), hb.part_withPart_ne
    (chainedRoot_fits h p) (by rcases hR with rfl | rfl <;> decide), Shred.part, hbytes]
  simp only [Shred.kind_withPart, Shred.variant_withPart]
  rw [← slice_replicate_zero _ _ _ (Region.hi_le hb.valid R)]
  apply AgreeOn.slice_eq
  apply agreeOn_splice (by rw [List.length_replicate]; omega)
  rw [hlen]
  right
  rcases hR with rfl | rfl <;> simp only [Region.lo] <;> omega

end

end LightweightShred
