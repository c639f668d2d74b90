import LightweightShred.Shred

/-!
# The regions of a shred

A payload is five regions one after another. Every accessor reads one of them and every
setter replaces one, so a shred is its headers and its regions.
-/
namespace LightweightShred
open ByteString Rust Codec

inductive Region where
  | front
  | shard
  | chainedRoot
  | proof
  | retransmitter
  deriving DecidableEq, Repr

namespace ShredVariant

def proofBytes (v : ShredVariant) : Nat := v.proofSize.toNat * sizeOfMerkleProofEntry

def resignedBytes (v : ShredVariant) : Nat := if v.resigned then sizeOfSignature else 0

end ShredVariant

/-- Where the headers and the data or parity behind them end. -/
def bodyEnd (ty : ShredType) (v : ShredVariant) : Nat :=
  sizeOfPayload ty - (sizeOfMerkleRoot + v.proofBytes + v.resignedBytes)

namespace Region

def lo (ty : ShredType) (v : ShredVariant) : Region → Nat
  | .front => 0
  | .shard => erasureShardStartOffset ty
  | .chainedRoot => bodyEnd ty v
  | .proof => bodyEnd ty v + sizeOfMerkleRoot
  | .retransmitter => bodyEnd ty v + sizeOfMerkleRoot + v.proofBytes

def hi (ty : ShredType) (v : ShredVariant) : Region → Nat
  | .front => erasureShardStartOffset ty
  | .shard => bodyEnd ty v
  | .chainedRoot => bodyEnd ty v + sizeOfMerkleRoot
  | .proof => bodyEnd ty v + sizeOfMerkleRoot + v.proofBytes
  | .retransmitter => bodyEnd ty v + sizeOfMerkleRoot + v.proofBytes + v.resignedBytes

end Region

section Geometry
variable {ty : ShredType} {v : ShredVariant}

theorem ShredVariant.Valid.proofBytes_le (h : v.Valid) : v.proofBytes ≤ 300 := by
  unfold ShredVariant.Valid at h
  simp only [ShredVariant.proofBytes, sizeOfMerkleProofEntry]
  omega

theorem ShredVariant.resignedBytes_le (v : ShredVariant) : v.resignedBytes ≤ 64 := by
  unfold ShredVariant.resignedBytes sizeOfSignature
  split <;> omega

theorem sizes (ty : ShredType) :
    (sizeOfPayload ty = 1203 ∧ sizeOfHeaders ty = 88 ∧ erasureShardStartOffset ty = 64) ∨
      (sizeOfPayload ty = 1228 ∧ sizeOfHeaders ty = 89 ∧ erasureShardStartOffset ty = 89) := by
  cases ty with
  | data => exact .inl ⟨rfl, rfl, rfl⟩
  | code => exact .inr ⟨rfl, rfl, rfl⟩

theorem bodyEnd_add (ty : ShredType) (h : v.Valid) :
    bodyEnd ty v + sizeOfMerkleRoot + v.proofBytes + v.resignedBytes = sizeOfPayload ty := by
  have hp := h.proofBytes_le
  have hr := v.resignedBytes_le
  unfold bodyEnd sizeOfMerkleRoot
  rcases sizes ty with ⟨ht, -, -⟩ | ⟨ht, -, -⟩ <;> omega

theorem lt_bodyEnd (ty : ShredType) (h : v.Valid) : 700 < bodyEnd ty v := by
  have hp := h.proofBytes_le
  have hr := v.resignedBytes_le
  unfold bodyEnd sizeOfMerkleRoot
  rcases sizes ty with ⟨ht, -, -⟩ | ⟨ht, -, -⟩ <;> omega

theorem headers_le_bodyEnd (ty : ShredType) (h : v.Valid) : sizeOfHeaders ty ≤ bodyEnd ty v := by
  have hb := lt_bodyEnd ty h
  have hs := sizes ty
  omega

/-- The retransmitter's signature ends where the payload ends, in both layouts and for every
proof size. -/
theorem retransmitter_end (ty : ShredType) (h : v.Valid) (hr : v.resigned = true) :
    Region.retransmitter.lo ty v + sizeOfSignature = sizeOfPayload ty := by
  have hadd := bodyEnd_add ty h
  rw [ShredVariant.resignedBytes, hr, if_pos rfl] at hadd
  simpa only [Region.lo] using hadd

theorem Region.signature_le_lo (ty : ShredType) (h : v.Valid) {R : Region} (hR : R ≠ .front) :
    sizeOfSignature ≤ R.lo ty v := by
  have hb := lt_bodyEnd ty h
  have hs := sizes ty
  cases R <;> simp only [Region.lo, sizeOfSignature, ne_eq, not_true_eq_false] at hR ⊢ <;> omega

theorem Region.lo_le_hi (ty : ShredType) (h : v.Valid) (R : Region) : R.lo ty v ≤ R.hi ty v := by
  have hb := lt_bodyEnd ty h
  have hs := sizes ty
  cases R <;> simp only [Region.lo, Region.hi] <;> omega

theorem Region.hi_le (h : v.Valid) (R : Region) : R.hi ty v ≤ sizeOfPayload ty := by
  have hb := lt_bodyEnd ty h
  have ha := bodyEnd_add ty h
  have hs := sizes ty
  cases R <;> simp only [Region.hi] <;> omega

/-- Two regions never overlap. -/
theorem Region.apart (h : v.Valid) {R Q : Region} (hne : R ≠ Q) :
    Q.hi ty v ≤ R.lo ty v ∨ R.hi ty v ≤ Q.lo ty v := by
  have hb := lt_bodyEnd ty h
  have hs := sizes ty
  cases R <;> cases Q <;> simp only [Region.lo, Region.hi, ne_eq, not_true_eq_false] at hne ⊢ <;>
    omega

theorem variantFields_eq_ok {p : UInt8 × Bool} :
    variantFields ty v = .ok p ↔ v.shredType = ty ∧ p = (v.proofSize, v.resigned) := by
  cases ty <;> cases v <;>
    simp [variantFields, ShredVariant.shredType, ShredVariant.proofSize, ShredVariant.resigned,
      fail, eq_comm]

theorem capacity_eq (h : v.Valid) :
    capacity ty v.proofSize v.resigned = .ok (bodyEnd ty v - sizeOfHeaders ty) := by
  have hb := lt_bodyEnd ty h
  have ha := bodyEnd_add ty h
  rw [capacity, okOr_eq_ok, checkedSubSize_eq_some]
  simp only [ShredVariant.proofBytes, ShredVariant.resignedBytes] at ha
  rcases sizes ty with ⟨ht, hh, -⟩ | ⟨ht, hh, -⟩ <;> omega

theorem getChainedMerkleRootOffset_eq (h : v.Valid) :
    getChainedMerkleRootOffset ty v.proofSize v.resigned = .ok (bodyEnd ty v) := by
  have hb := lt_bodyEnd ty h
  have hs := sizes ty
  rw [getChainedMerkleRootOffset, capacity_eq h]
  exact congrArg Except.ok (by omega)

theorem getProofOffset_eq (h : v.Valid) :
    getProofOffset ty v.proofSize v.resigned = .ok (Region.proof.lo ty v) := by
  have hb := lt_bodyEnd ty h
  have hs := sizes ty
  rw [getProofOffset, capacity_eq h]
  exact congrArg Except.ok (by simp only [Region.lo]; omega)

theorem getRetransmitterSignatureOffset_eq (h : v.Valid) :
    getRetransmitterSignatureOffset ty v.proofSize v.resigned =
      if v.resigned then .ok (Region.retransmitter.lo ty v) else fail .invalidShredVariant := by
  rw [getRetransmitterSignatureOffset, getProofOffset_eq h]
  cases v.resigned <;> rfl

end Geometry

namespace Shred

def variant (s : Shred) : ShredVariant := s.commonHeader.shredVariant

/-- The contents of a region. -/
def part (s : Shred) (R : Region) : Bytes :=
  slice s.payload.bytes (R.lo s.kind s.variant) (R.hi s.kind s.variant)

/-- The shred with a region written over. -/
def withPart (s : Shred) (R : Region) (b : Bytes) : Shred :=
  s.setPayload ⟨splice s.payload.bytes (R.lo s.kind s.variant) b⟩

/-- What the Merkle tree has of a shred: all behind the signature and before the proof. -/
def leaf (s : Shred) : Bytes :=
  slice s.payload.bytes sizeOfSignature (Region.proof.lo s.kind s.variant)

@[simp] theorem kind_setPayload (s : Shred) (p : Payload) : (s.setPayload p).kind = s.kind := by
  cases s <;> rfl

@[simp] theorem commonHeader_setPayload (s : Shred) (p : Payload) :
    (s.setPayload p).commonHeader = s.commonHeader := by
  cases s <;> rfl

@[simp] theorem payload_setPayload (s : Shred) (p : Payload) : (s.setPayload p).payload = p := by
  cases s <;> rfl

@[simp] theorem variant_setPayload (s : Shred) (p : Payload) :
    (s.setPayload p).variant = s.variant := by
  cases s <;> rfl

@[simp] theorem setPayload_setPayload (s : Shred) (p q : Payload) :
    (s.setPayload p).setPayload q = s.setPayload q := by
  cases s <;> rfl

@[simp] theorem setPayload_payload (s : Shred) : s.setPayload s.payload = s := by
  cases s <;> rfl

@[simp] theorem kind_withPart (s : Shred) (R : Region) (b : Bytes) :
    (s.withPart R b).kind = s.kind := kind_setPayload _ _

@[simp] theorem commonHeader_withPart (s : Shred) (R : Region) (b : Bytes) :
    (s.withPart R b).commonHeader = s.commonHeader := commonHeader_setPayload _ _

@[simp] theorem variant_withPart (s : Shred) (R : Region) (b : Bytes) :
    (s.withPart R b).variant = s.variant := variant_setPayload _ _

theorem withPart_nil (s : Shred) (R : Region) : s.withPart R [] = s := by
  rw [withPart, splice_nil]
  exact setPayload_payload s

/-- A struct whose variant is of its own kind, with a payload of its own size. -/
structure Shaped (s : Shred) : Prop where
  kind : s.variant.shredType = s.kind
  valid : s.variant.Valid
  length : s.payload.bytes.length = sizeOfPayload s.kind

namespace Shaped
variable {s t : Shred} {R Q : Region} {b : Bytes}

theorem length_part (h : s.Shaped) (R : Region) :
    (s.part R).length = R.hi s.kind s.variant - R.lo s.kind s.variant :=
  length_slice (by rw [h.length]; exact Region.hi_le h.valid R)

theorem fits (h : s.Shaped) (hb : R.lo s.kind s.variant + b.length = R.hi s.kind s.variant) :
    R.lo s.kind s.variant + b.length ≤ s.payload.bytes.length := by
  rw [hb, h.length]
  exact Region.hi_le h.valid R

theorem withPart (h : s.Shaped) (hb : R.lo s.kind s.variant + b.length = R.hi s.kind s.variant) :
    (s.withPart R b).Shaped where
  kind := by simpa using h.kind
  valid := by simpa using h.valid
  length := by
    simp only [Shred.withPart, payload_setPayload, kind_setPayload]
    rw [length_splice (h.fits hb), h.length]

theorem part_withPart (h : s.Shaped)
    (hb : R.lo s.kind s.variant + b.length = R.hi s.kind s.variant) :
    (s.withPart R b).part R = b := by
  simp only [part, kind_withPart, variant_withPart]
  simp only [Shred.withPart, payload_setPayload]
  exact slice_splice (h.fits hb) hb.symm

theorem agreeOn_withPart (h : s.Shaped)
    (hb : R.lo s.kind s.variant + b.length = R.hi s.kind s.variant) {lo hi : Nat}
    (apart : hi ≤ R.lo s.kind s.variant ∨ R.hi s.kind s.variant ≤ lo) :
    AgreeOn (s.withPart R b).payload.bytes s.payload.bytes lo hi := by
  simp only [Shred.withPart, payload_setPayload]
  exact agreeOn_splice (h.fits hb) (by omega)

theorem part_withPart_ne (h : s.Shaped)
    (hb : R.lo s.kind s.variant + b.length = R.hi s.kind s.variant) (hne : R ≠ Q) :
    (s.withPart R b).part Q = s.part Q := by
  simp only [part, kind_withPart, variant_withPart]
  exact (h.agreeOn_withPart hb (Region.apart h.valid hne)).slice_eq

theorem withPart_part (h : s.Shaped) (R : Region) : s.withPart R (s.part R) = s := by
  have hlen : R.lo s.kind s.variant + (s.part R).length = R.hi s.kind s.variant := by
    have hle := Region.lo_le_hi s.kind h.valid R
    rw [h.length_part]
    omega
  rw [Shred.withPart, splice_of_slice (h.fits hlen) hlen.symm rfl]
  exact setPayload_payload s

theorem payload_ext (hs : s.Shaped) (ht : t.Shaped) (hk : s.kind = t.kind)
    (hv : s.variant = t.variant) (h : ∀ R, s.part R = t.part R) : s.payload = t.payload := by
  have agree : ∀ R : Region, AgreeOn s.payload.bytes t.payload.bytes (R.lo s.kind s.variant)
      (R.hi s.kind s.variant) := by
    intro R
    have hR := h R
    simp only [part, ← hk, ← hv] at hR
    exact agreeOn_of_slice_eq hR
  have all : AgreeOn s.payload.bytes t.payload.bytes 0 (sizeOfPayload s.kind) := by
    rw [← bodyEnd_add _ hs.valid]
    exact ((((agree .front).append (agree .shard)).append (agree .chainedRoot)).append
      (agree .proof)).append (agree .retransmitter)
  have hbytes := all.eq hs.length (by rw [ht.length, hk])
  cases hp : s.payload
  cases hq : t.payload
  rw [hp, hq] at hbytes
  exact congrArg Payload.mk hbytes

theorem withPart_withPart (h : s.Shaped) {d : Bytes}
    (hb : R.lo s.kind s.variant + b.length = R.hi s.kind s.variant)
    (hd : R.lo s.kind s.variant + d.length = R.hi s.kind s.variant) :
    (s.withPart R b).withPart R d = s.withPart R d := by
  have hbytes : splice (splice s.payload.bytes (R.lo s.kind s.variant) b)
      (R.lo s.kind s.variant) d = splice s.payload.bytes (R.lo s.kind s.variant) d := by
    have hfb := h.fits hb
    have hfd := h.fits hd
    have hlen := length_splice hfb
    apply List.ext_getElem?
    intro i
    rw [getElem?_splice (by omega), getElem?_splice hfb, getElem?_splice hfd]
    by_cases hi : R.lo s.kind s.variant ≤ i ∧ i < R.lo s.kind s.variant + d.length
    · rw [if_pos hi, if_pos hi]
    · rw [if_neg hi, if_neg (by omega), if_neg hi]
  simp only [Shred.withPart, payload_setPayload, kind_setPayload, variant_setPayload,
    setPayload_setPayload, hbytes]

theorem leaf_withPart_proof (h : s.Shaped)
    (hb : Region.proof.lo s.kind s.variant + b.length = Region.proof.hi s.kind s.variant) :
    (s.withPart .proof b).leaf = s.leaf := by
  simp only [leaf, kind_withPart, variant_withPart]
  exact (h.agreeOn_withPart hb (.inl (Nat.le_refl _))).slice_eq

theorem length_shard (h : s.Shaped) :
    (s.part .shard).length + s.variant.proofBytes + s.variant.resignedBytes = 1107 := by
  have ha := bodyEnd_add s.kind h.valid
  have hb := lt_bodyEnd s.kind h.valid
  rw [h.length_part]
  simp only [Region.lo, Region.hi, sizeOfMerkleRoot] at ha ⊢
  rcases sizes s.kind with ⟨h1, -, h3⟩ | ⟨h1, -, h3⟩ <;> omega

theorem length_leaf (h : s.Shaped) :
    s.leaf.length = Region.proof.lo s.kind s.variant - sizeOfSignature :=
  length_slice (by
    rw [h.length]
    exact Nat.le_trans (Region.lo_le_hi _ h.valid .proof) (Region.hi_le h.valid .proof))

end Shaped

section Methods
variable {s : Shred}

theorem Shaped.variantFields (h : s.Shaped) :
    variantFields s.kind s.commonHeader.shredVariant = .ok (s.variant.proofSize, s.variant.resigned) :=
  variantFields_eq_ok.mpr ⟨h.kind, rfl⟩

theorem Shaped.proofSize (h : s.Shaped) : s.proofSize = .ok s.variant.proofSize := by
  rw [Shred.proofSize, h.variantFields]
  rfl

theorem Shaped.proofOffset (h : s.Shaped) :
    s.proofOffset = .ok (Region.proof.lo s.kind s.variant) := by
  rw [Shred.proofOffset, h.variantFields]
  exact getProofOffset_eq h.valid

theorem Shaped.chainedMerkleRootOffset (h : s.Shaped) :
    s.chainedMerkleRootOffset = .ok (Region.chainedRoot.lo s.kind s.variant) := by
  rw [Shred.chainedMerkleRootOffset, h.variantFields]
  exact getChainedMerkleRootOffset_eq h.valid

theorem Shaped.retransmitterSignatureOffset (h : s.Shaped) :
    s.retransmitterSignatureOffset = if s.variant.resigned then
      .ok (Region.retransmitter.lo s.kind s.variant) else fail .invalidShredVariant := by
  rw [Shred.retransmitterSignatureOffset, h.variantFields]
  exact getRetransmitterSignatureOffset_eq h.valid

theorem arrayFromSlice_eq_ok {n : Nat} {b : Bytes} {x : Fixed n} :
    arrayFromSlice n b = .ok x ↔ b = x.1 := by
  unfold arrayFromSlice
  split
  · rename_i h
    rw [Except.ok.injEq]
    exact ⟨fun he => he ▸ rfl, fun he => Subtype.ext he⟩
  · rename_i h
    constructor
    · intro he
      cases he
    · intro he
      exact (h (he ▸ x.2)).elim

theorem Shaped.slice?_part (h : s.Shaped) (R : Region) :
    slice? s.payload.bytes (R.lo s.kind s.variant) (R.hi s.kind s.variant) = some (s.part R) :=
  slice?_of_le (Region.lo_le_hi _ h.valid R) (by rw [h.length]; exact Region.hi_le h.valid R)

theorem Shaped.chainedMerkleRoot_eq_ok (h : s.Shaped) {root : Hash} :
    s.chainedMerkleRoot = .ok root ↔ s.part .chainedRoot = root.1 := by
  have hs := h.slice?_part .chainedRoot
  rw [Shred.chainedMerkleRoot, h.chainedMerkleRootOffset]
  simp only [Region.lo, Region.hi] at hs ⊢
  simp only [bind, Except.bind, Payload.get, hs, okOr]
  exact arrayFromSlice_eq_ok

theorem Shaped.exists_chainedMerkleRoot (h : s.Shaped) : ∃ root, s.chainedMerkleRoot = .ok root := by
  have hlen : (s.part .chainedRoot).length = 32 := by
    rw [h.length_part]
    simp only [Region.lo, Region.hi, sizeOfMerkleRoot]
    omega
  exact ⟨⟨s.part .chainedRoot, hlen⟩, h.chainedMerkleRoot_eq_ok.mpr rfl⟩

theorem Shaped.retransmitterSignature_eq_ok (h : s.Shaped) {signature : Signature} :
    s.retransmitterSignature = .ok signature ↔
      s.variant.resigned = true ∧ s.part .retransmitter = signature.1 := by
  have hs := h.slice?_part .retransmitter
  rw [Shred.retransmitterSignature, h.retransmitterSignatureOffset]
  cases hr : s.variant.resigned with
  | false => simp [bind, Except.bind, fail]
  | true =>
      simp only [Region.lo, Region.hi, ShredVariant.resignedBytes, hr, if_true] at hs ⊢
      simp only [bind, Except.bind, Payload.get, hs, okOr, true_and]
      exact arrayFromSlice_eq_ok

theorem Shaped.exists_retransmitterSignature (h : s.Shaped) (hr : s.variant.resigned = true) :
    ∃ signature, s.retransmitterSignature = .ok signature := by
  have hlen : (s.part .retransmitter).length = 64 := by
    rw [h.length_part]
    simp only [Region.lo, Region.hi, ShredVariant.resignedBytes, hr, if_true, sizeOfSignature]
    omega
  exact ⟨⟨s.part .retransmitter, hlen⟩, h.retransmitterSignature_eq_ok.mpr ⟨hr, rfl⟩⟩

theorem Shaped.retransmitterSignature_fail (h : s.Shaped) (hr : s.variant.resigned = false) :
    s.retransmitterSignature = fail .invalidShredVariant := by
  rw [Shred.retransmitterSignature, h.retransmitterSignatureOffset, hr]
  rfl

theorem mapM_arrayFromSlice {k : Nat} {b : Bytes} (hb : b.length = k * 20)
    {es : List MerkleProofEntry} :
    (chunks sizeOfMerkleProofEntry b).mapM (arrayFromSlice 20) = .ok es ↔
      es.length = k ∧ (es.map Subtype.val).flatten = b := by
  rw [sizeOfMerkleProofEntry, chunks_flatten_of_length (by decide) hb, mapM_eq_ok]
  simp only [arrayFromSlice_eq_ok]
  induction k generalizing b es with
  | zero =>
      have hnil : b = [] := List.length_eq_zero_iff.mp (by omega)
      subst hnil
      constructor
      · intro h
        cases h
        exact ⟨rfl, rfl⟩
      · rintro ⟨h, -⟩
        rw [List.length_eq_zero_iff.mp h]
        exact .nil
  | succ k ih =>
      have htail : ∀ j, slice b (20 * (j + 1)) (20 * (j + 1) + 20) =
          slice (b.drop 20) (20 * j) (20 * j + 20) := by
        intro j
        simp only [slice, List.drop_drop]
        congr 1
        · omega
        · congr 1
          omega
      have ih' := @ih (b.drop 20) (by rw [List.length_drop]; omega)
      rw [List.range_succ_eq_map, List.map_cons, List.map_map]
      simp only [Function.comp_def, Nat.succ_eq_add_one, htail]
      constructor
      · intro h
        cases h with
        | cons hx hxs =>
            obtain ⟨hlen, hflat⟩ := ih'.mp hxs
            refine ⟨by rw [List.length_cons, hlen], ?_⟩
            rw [List.map_cons, List.flatten_cons, hflat, ← hx]
            simp [slice]
      · rintro ⟨hlen, hflat⟩
        cases es with
        | nil => simp at hlen
        | cons e es =>
            rw [List.map_cons, List.flatten_cons] at hflat
            refine .cons ?_ (ih'.mpr ⟨by simpa using hlen, ?_⟩)
            · rw [← hflat, slice_append_left (by rw [e.2]), slice_full e.2]
            · rw [← hflat, List.drop_left' e.2]

theorem Shaped.merkleProof_eq_ok (h : s.Shaped) {es : List MerkleProofEntry} :
    s.merkleProof = .ok es ↔ es.length = s.variant.proofSize.toNat ∧
      (es.map Subtype.val).flatten = s.part .proof := by
  have hs := h.slice?_part .proof
  have hlen : (s.part .proof).length = s.variant.proofSize.toNat * 20 := by
    rw [h.length_part]
    simp only [Region.lo, Region.hi, ShredVariant.proofBytes, sizeOfMerkleProofEntry]
    omega
  rw [Shred.merkleProof, h.proofSize, h.proofOffset]
  simp only [Region.lo, Region.hi, ShredVariant.proofBytes] at hs ⊢
  simp only [bind, Except.bind, getMerkleProof, hs, okOr]
  exact mapM_arrayFromSlice hlen

theorem Shaped.exists_merkleProof (h : s.Shaped) : ∃ es, s.merkleProof = .ok es := by
  have cut : ∀ k (b : Bytes), b.length = k * 20 →
      ∃ es : List MerkleProofEntry, es.length = k ∧ (es.map Subtype.val).flatten = b := by
    intro k
    induction k with
    | zero => exact fun b hb => ⟨[], rfl, (List.length_eq_zero_iff.mp (by omega)).symm⟩
    | succ k ih =>
        intro b hb
        obtain ⟨es, hlen, hflat⟩ := ih (b.drop 20) (by rw [List.length_drop]; omega)
        refine ⟨⟨b.take 20, List.length_take_of_le (by omega)⟩ :: es, by simp [hlen], ?_⟩
        rw [List.map_cons, List.flatten_cons, hflat, List.take_append_drop]
  obtain ⟨es, hlen, hflat⟩ := cut s.variant.proofSize.toNat (s.part .proof) (by
    rw [h.length_part]
    simp only [Region.lo, Region.hi, ShredVariant.proofBytes, sizeOfMerkleProofEntry]
    omega)
  exact ⟨es, h.merkleProof_eq_ok.mpr ⟨hlen, hflat⟩⟩

theorem Shaped.slice?_leaf (h : s.Shaped) :
    slice? s.payload.bytes sizeOfSignature (Region.proof.lo s.kind s.variant) = some s.leaf := by
  have hb := lt_bodyEnd s.kind h.valid
  have hle : Region.proof.lo s.kind s.variant ≤ s.payload.bytes.length := by
    rw [h.length]
    exact Nat.le_trans (Region.lo_le_hi _ h.valid .proof) (Region.hi_le h.valid .proof)
  exact slice?_of_le (by simp only [Region.lo, sizeOfSignature, sizeOfMerkleRoot]; omega) hle

theorem Shaped.getMerkleNode_leaf (h : s.Shaped) (H : Hasher) :
    getMerkleNode H s.payload.bytes sizeOfSignature (Region.proof.lo s.kind s.variant) =
      .ok (H.sha256 (leafPreimage s.leaf)) := by
  rw [getMerkleNode, h.slice?_leaf]
  rfl

theorem Shaped.merkleNode (h : s.Shaped) (H : Hasher) :
    s.merkleNode H = .ok (H.sha256 (leafPreimage s.leaf)) := by
  rw [Shred.merkleNode, h.proofOffset]
  exact h.getMerkleNode_leaf H

/-- The root a shred vouches for: its leaf, folded with its own proof from its own index. -/
theorem Shaped.merkleRoot_eq_ok (h : s.Shaped) {H : Hasher} {root : Hash} :
    s.merkleRoot H = .ok root ↔ ∃ i es, s.erasureShardIndex = .ok i ∧ s.merkleProof = .ok es ∧
      getMerkleRoot H i (H.sha256 (leafPreimage s.leaf)) es = .ok root := by
  rw [Shred.merkleRoot, h.proofSize, h.proofOffset]
  simp only [Shred.merkleProof, h.proofSize, h.proofOffset, bind_eq_ok, Except.ok.injEq,
    exists_eq_left', h.getMerkleNode_leaf H, exists_and_left]

theorem Shaped.withPart_payload (h : s.Shaped) {R : Region} {b : Bytes}
    (hb : R.lo s.kind s.variant + b.length = R.hi s.kind s.variant) :
    (PayloadMutGuard.new s.payload
        (.range (R.lo s.kind s.variant) (R.hi s.kind s.variant))).copyFromSlice b =
      .ok { bytesMut := splice s.payload.bytes (R.lo s.kind s.variant) b
            sliceIndex := .range (R.lo s.kind s.variant) (R.hi s.kind s.variant) } :=
  PayloadMutGuard.copyFromSlice_new hb (by
    change R.hi s.kind s.variant ≤ s.payload.bytes.length
    rw [h.length]
    exact Region.hi_le h.valid R)

theorem Shaped.getMut (h : s.Shaped) (R : Region) :
    s.payload.getMut (.range (R.lo s.kind s.variant) (R.hi s.kind s.variant)) =
      some (PayloadMutGuard.new s.payload
        (.range (R.lo s.kind s.variant) (R.hi s.kind s.variant))) :=
  Payload.getMut_range (by
    change R.hi s.kind s.variant ≤ s.payload.bytes.length
    rw [h.length]
    exact Region.hi_le h.valid R)

theorem Shaped.setChainedMerkleRoot (h : s.Shaped) (root : Hash) :
    s.setChainedMerkleRoot root = .ok (s.withPart .chainedRoot root.1) := by
  have hm := h.getMut .chainedRoot
  have hw := h.withPart_payload (R := .chainedRoot) (b := root.1) (by rw [root.2]; rfl)
  rw [Shred.setChainedMerkleRoot, h.chainedMerkleRootOffset]
  simp only [Region.lo, Region.hi] at hm hw ⊢
  simp only [bind, Except.bind, hm, okOr, hw]
  rfl

theorem signature_fits (hr : s.variant.resigned = true) (signature : Signature) :
    Region.retransmitter.lo s.kind s.variant + signature.1.length =
      Region.retransmitter.hi s.kind s.variant := by
  simp only [Region.lo, Region.hi, ShredVariant.resignedBytes, hr, if_true, signature.2,
    sizeOfSignature]

theorem Shaped.setRetransmitterSignature (h : s.Shaped) (hr : s.variant.resigned = true)
    (signature : Signature) :
    s.setRetransmitterSignature signature = .ok (s.withPart .retransmitter signature.1) := by
  have hb : ShredVariant.resignedBytes s.variant = sizeOfSignature := by
    rw [ShredVariant.resignedBytes, hr, if_pos rfl]
  have hm := h.getMut .retransmitter
  have hw := h.withPart_payload (signature_fits hr signature)
  rw [Shred.setRetransmitterSignature, h.retransmitterSignatureOffset, if_pos hr]
  simp only [Region.lo, Region.hi, hb] at hm hw ⊢
  simp only [bind, Except.bind, hm, okOr, hw]
  rfl

theorem Shaped.setRetransmitterSignature_eq_ok (h : s.Shaped) {signature : Signature} {t : Shred} :
    s.setRetransmitterSignature signature = .ok t ↔
      s.variant.resigned = true ∧ t = s.withPart .retransmitter signature.1 := by
  cases hr : s.variant.resigned with
  | true =>
      rw [h.setRetransmitterSignature hr, Except.ok.injEq]
      exact ⟨fun he => ⟨rfl, he.symm⟩, fun he => he.2.symm⟩
  | false =>
      rw [Shred.setRetransmitterSignature, h.retransmitterSignatureOffset, hr]
      simp [bind, Except.bind, fail]

theorem length_entries (es : List MerkleProofEntry) :
    (es.map Subtype.val).flatten.length = es.length * 20 := by
  induction es with
  | nil => rfl
  | cons e es ih => rw [List.map_cons, List.flatten_cons, List.length_append, ih, e.2,
      List.length_cons]; omega

theorem writeProof_eq_ok {n k position : Nat} {buffer : Bytes} {es : List MerkleProofEntry}
    (hfit : position + (n - k) * 20 ≤ buffer.length) (hk : k ≤ n) {r : Bytes × Nat} :
    writeProof n (es.map .ok) k buffer position = .ok r ↔ k + es.length ≤ n ∧
      r = (splice buffer position (es.map Subtype.val).flatten, position + es.length * 20) := by
  induction es generalizing k position buffer with
  | nil =>
      simp only [List.map_nil, writeProof, List.flatten_nil, splice_nil, List.length_nil]
      rw [Except.ok.injEq]
      constructor
      · rintro rfl
        exact ⟨by omega, by simp⟩
      · rintro ⟨-, rfl⟩
        simp
  | cons e es ih =>
      rw [List.map_cons, writeProof]
      by_cases hkn : k ≥ n
      · rw [if_pos hkn, List.length_cons]
        constructor
        · intro h
          cases h
        · rintro ⟨h, -⟩
          omega
      · have hlen : (splice buffer position e.1).length = buffer.length :=
          length_splice (by rw [e.2]; omega)
        have hflat := length_entries es
        have ih' := @ih (k + 1) (position + e.1.length) (splice buffer position e.1)
          (by rw [hlen, e.2]; omega) (by omega)
        rw [if_neg hkn]
        simp only [bind, Except.bind]
        rw [if_neg (by rw [e.2]; omega), ih', List.map_cons, List.flatten_cons, List.length_cons, e.2]
        constructor
        · rintro ⟨hle, rfl⟩
          refine ⟨by omega, ?_⟩
          have hs := splice_splice buffer e.1 (es.map Subtype.val).flatten position
            (by rw [e.2, hflat]; omega)
          rw [e.2] at hs
          rw [hs]
          congr 1
          omega
        · rintro ⟨hle, rfl⟩
          refine ⟨by omega, ?_⟩
          have hs := splice_splice buffer e.1 (es.map Subtype.val).flatten position
            (by rw [e.2, hflat]; omega)
          rw [e.2] at hs
          rw [hs]
          congr 1
          omega

theorem Shaped.proof_le_length (h : s.Shaped) :
    Region.proof.lo s.kind s.variant + s.variant.proofBytes ≤ s.payload.bytes.length := by
  have hb := bodyEnd_add s.kind h.valid
  rw [h.length]
  simp only [Region.lo]
  omega

theorem Shaped.deref_proof (h : s.Shaped) :
    (PayloadMutGuard.new s.payload (.rangeFrom (Region.proof.lo s.kind s.variant))).deref =
      .ok (slice s.payload.bytes (Region.proof.lo s.kind s.variant) s.payload.bytes.length) :=
  PayloadMutGuard.deref_new (Nat.le_trans (Nat.le_add_right _ _) h.proof_le_length) (Nat.le_refl _)

/-- A proof is written iff it has as many entries as the header says. -/
theorem Shaped.setMerkleProof_eq_ok (h : s.Shaped) {es : List MerkleProofEntry} {t : Shred} :
    s.setMerkleProof (es.map .ok) = .ok t ↔ es.length = s.variant.proofSize.toNat ∧
      t = s.withPart .proof (es.map Subtype.val).flatten := by
  have hlo := h.proof_le_length
  have hguard := h.deref_proof
  have hlen : (slice s.payload.bytes (Region.proof.lo s.kind s.variant)
      s.payload.bytes.length).length = s.payload.bytes.length - Region.proof.lo s.kind s.variant :=
    length_slice (Nat.le_refl _)
  simp only [ShredVariant.proofBytes, sizeOfMerkleProofEntry] at hlo
  have hwrite := @writeProof_eq_ok s.variant.proofSize.toNat 0 0
    (slice s.payload.bytes (Region.proof.lo s.kind s.variant) s.payload.bytes.length) es (by omega)
    (Nat.zero_le _)
  have hget : s.payload.getMut (.rangeFrom (Region.proof.lo s.kind s.variant)) =
      some (PayloadMutGuard.new s.payload (.rangeFrom (Region.proof.lo s.kind s.variant))) := rfl
  rw [Shred.setMerkleProof, h.proofSize, h.proofOffset]
  simp only [bind, Except.bind, hget, okOr, hguard]
  cases hw : writeProof s.variant.proofSize.toNat (es.map .ok) 0
      (slice s.payload.bytes (Region.proof.lo s.kind s.variant) s.payload.bytes.length) 0 with
  | error e =>
      simp only
      constructor
      · intro he
        cases he
      · rintro ⟨hes, -⟩
        rw [hwrite.mpr ⟨by omega, rfl⟩] at hw
        cases hw
  | ok r =>
      obtain ⟨hle, rfl⟩ := hwrite.mp hw
      simp only [Nat.zero_add, sizeOfMerkleProofEntry, pure, Except.pure]
      by_cases hes : es.length = s.variant.proofSize.toNat
      · have hflat := length_entries es
        have hcopy := @PayloadMutGuard.copyFromSlice_new s.payload
          (.rangeFrom (Region.proof.lo s.kind s.variant))
          (splice (slice s.payload.bytes (Region.proof.lo s.kind s.variant)
            s.payload.bytes.length) 0 (es.map Subtype.val).flatten)
          (by
            rw [length_splice (by omega), hlen]
            change Region.proof.lo s.kind s.variant +
              (s.payload.bytes.length - Region.proof.lo s.kind s.variant) = s.payload.bytes.length
            omega) (Nat.le_refl _)
        rw [if_neg (by rw [hes]; simp), hcopy]
        have htail := splice_tail s.payload.bytes (es.map Subtype.val).flatten
          (Region.proof.lo s.kind s.variant) (by omega)
        simp only [hes, true_and, Except.ok.injEq, PayloadMutGuard.drop, Shred.withPart]
        rw [show (RangeBounds.rangeFrom (Region.proof.lo s.kind s.variant)).lo =
          Region.proof.lo s.kind s.variant from rfl, htail]
        exact eq_comm
      · rw [if_pos (by omega)]
        simp [fail, hes]

theorem Shaped.erasureShardOffsets (h : s.Shaped) :
    s.erasureShardOffsets = .ok (Region.shard.lo s.kind s.variant, Region.shard.hi s.kind s.variant) := by
  have hb := lt_bodyEnd s.kind h.valid
  have hs := sizes s.kind
  have hcap : capacity s.kind s.variant.proofSize s.variant.resigned = _ :=
    capacity_eq h.valid
  rw [Shred.erasureShardOffsets, if_neg (by rw [Payload.len, h.length]; simp), h.variantFields]
  simp only [bind, Except.bind, pure, Except.pure, hcap, Region.lo, Region.hi]
  rw [show sizeOfHeaders s.kind + (bodyEnd s.kind s.variant - sizeOfHeaders s.kind) =
    bodyEnd s.kind s.variant by omega]

theorem Shaped.erasureShard (h : s.Shaped) : s.erasureShard = .ok (s.part .shard) := by
  rw [Shred.erasureShard, h.erasureShardOffsets]
  simp only [bind, Except.bind, Payload.get, h.slice?_part .shard, okOr]

theorem Shaped.erasureShardMut (h : s.Shaped) :
    s.erasureShardMut = .ok (PayloadMutGuard.new s.payload
      (.range (Region.shard.lo s.kind s.variant) (Region.shard.hi s.kind s.variant))) := by
  rw [Shred.erasureShardMut, h.erasureShardOffsets]
  simp only [bind, Except.bind, h.getMut .shard, okOr]

end Methods

end Shred

end LightweightShred
