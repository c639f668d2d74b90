import LightweightShred.Setters
import LightweightShred.ZeroCopy

/-!
# Resigning a shred

The retransmitter's signature is the last region of a payload. No accessor but its own looks
there, so writing it is seen by nothing else, and two shreds that differ only there are one.
-/
namespace LightweightShred
open ByteString Rust Codec

/-- Byte strings of one length that start with the same `n` bytes. -/
structure SameFront (n : Nat) (b d : Bytes) : Prop where
  length : b.length = d.length
  agree : AgreeOn b d 0 n

theorem valid_of_getShredVariant {b : Bytes} {v : ShredVariant} (h : getShredVariant b = .ok v) :
    v.Valid := by
  obtain ⟨t, -, ht⟩ := bind_eq_ok.mp h
  exact (ShredVariant.tryFrom_sound ht).1

namespace SameFront
variable {n : Nat} {b d : Bytes}

theorem symm (h : SameFront n b d) : SameFront n d b := ⟨h.length.symm, h.agree.symm⟩

theorem mono {m : Nat} (h : SameFront n b d) (hm : m ≤ n) : SameFront m b d :=
  ⟨h.length, h.agree.mono (Nat.le_refl _) hm⟩

theorem slice?_eq (h : SameFront n b d) {lo hi : Nat} (hh : hi ≤ n) :
    slice? b lo hi = slice? d lo hi :=
  (h.agree.mono (Nat.zero_le _) hh).slice?_eq h.length

theorem getElem?_eq (h : SameFront n b d) {i : Nat} (hi : i < n) : b[i]? = d[i]? :=
  h.agree i (Nat.zero_le _) hi

theorem getArray_eq (h : SameFront n b d) {k lo : Nat} (hh : lo + k ≤ n) :
    getArray k b lo = getArray k d lo := by
  rw [getArray, getArray, h.slice?_eq hh]

theorem getShredVariant_eq (h : SameFront n b d) (hn : 65 ≤ n) :
    getShredVariant b = getShredVariant d := by
  rw [getShredVariant, getShredVariant, h.getElem?_eq (by omega), h.length]

theorem getShredVariant_ok (h : SameFront n b d) {v : ShredVariant} (hv : getShredVariant b = .ok v)
    (hn : bodyEnd v.shredType v ≤ n) : getShredVariant d = .ok v := by
  have hlt := lt_bodyEnd v.shredType (valid_of_getShredVariant hv)
  rw [← h.getShredVariant_eq (by omega), hv]

theorem getShredId_eq (h : SameFront n b d) (hn : 77 ≤ n) :
    Wire.getShredId b = Wire.getShredId d := by
  rw [Wire.getShredId, Wire.getShredId, Wire.getSlot, Wire.getSlot, Wire.getIndex, Wire.getIndex,
    Wire.getShredType, Wire.getShredType, h.getArray_eq (by omega), h.getArray_eq (by omega),
    h.getShredVariant_eq (by omega)]

/-- The data ends before the chained root, whatever size the header gives. -/
theorem getData_eq (h : SameFront n b d) {v : ShredVariant} (hv : v.Valid)
    (hn : bodyEnd .data v ≤ n) (size : UInt16) :
    ShredData.getData b v.proofSize v.resigned size =
      ShredData.getData d v.proofSize v.resigned size := by
  have hlt := lt_bodyEnd .data hv
  have hh : sizeOfHeaders .data = 88 := rfl
  rw [ShredData.getData, ShredData.getData, capacity_eq hv]
  simp only [bind, Except.bind, h.length]
  by_cases hsize : size.toNat ≤ bodyEnd .data v
  · rw [h.slice?_eq (Nat.le_trans hsize hn)]
  · rw [if_neg (by omega), if_neg (by omega)]

theorem getDataSize_eq (h : SameFront n b d) (hn : 88 ≤ n) :
    Wire.getDataSize b = Wire.getDataSize d := by
  rw [Wire.getDataSize, Wire.getDataSize, h.slice?_eq hn, h.length]

theorem wireGetData_eq (h : SameFront n b d) {v : ShredVariant} (hv : getShredVariant b = .ok v)
    (hn : bodyEnd v.shredType v ≤ n) : Wire.getData b = Wire.getData d := by
  have hvalid := valid_of_getShredVariant hv
  have hlt := lt_bodyEnd v.shredType hvalid
  rw [Wire.getData, Wire.getData, hv, h.getShredVariant_ok hv hn]
  cases v with
  | merkleCode p r => rfl
  | merkleData p r =>
      simp only [bind, Except.bind, h.getDataSize_eq (by omega)]
      cases Wire.getDataSize d with
      | error e => rfl
      | ok size => exact h.getData_eq hvalid hn size

theorem getMerkleProof_eq (h : SameFront n b d) {lo : Nat} {p : UInt8}
    (hn : lo + p.toNat * sizeOfMerkleProofEntry ≤ n) :
    getMerkleProof b lo p = getMerkleProof d lo p := by
  rw [getMerkleProof, getMerkleProof, h.slice?_eq hn, h.length]

theorem getMerkleNode_eq (h : SameFront n b d) (H : Hasher) {lo hi : Nat} (hn : hi ≤ n) :
    getMerkleNode H b lo hi = getMerkleNode H d lo hi := by
  rw [getMerkleNode, getMerkleNode, h.slice?_eq hn, h.length]

theorem merkleRootAt_eq (h : SameFront n b d) (H : Hasher) {ty : ShredType} {v : ShredVariant}
    (hv : v.Valid) (hn : Region.proof.hi ty v ≤ n) (i : Nat) :
    Wire.merkleRootAt H ty b v.proofSize v.resigned i =
      Wire.merkleRootAt H ty d v.proofSize v.resigned i := by
  have hlo := Region.lo_le_hi ty hv .proof
  have hproof : getMerkleProof b (Region.proof.lo ty v) v.proofSize =
      getMerkleProof d (Region.proof.lo ty v) v.proofSize := h.getMerkleProof_eq hn
  rw [Wire.merkleRootAt, Wire.merkleRootAt, getProofOffset_eq hv, toOption, andThen_some,
    andThen_some, hproof, h.getMerkleNode_eq H (Nat.le_trans hlo hn)]

theorem dataIndex_eq (h : SameFront n b d) (hn : 83 ≤ n) : Wire.dataIndex b = Wire.dataIndex d := by
  rw [Wire.dataIndex, Wire.dataIndex, Wire.getFecSetIndex, Wire.getFecSetIndex, Wire.getIndex,
    Wire.getIndex, h.getArray_eq (by omega), h.getArray_eq (by omega)]

theorem codeIndex_eq (h : SameFront n b d) (hn : 89 ≤ n) : Wire.codeIndex b = Wire.codeIndex d := by
  rw [Wire.codeIndex, Wire.codeIndex, h.slice?_eq (by omega), h.slice?_eq (by omega)]

theorem wireGetMerkleRoot_eq (h : SameFront n b d) (H : Hasher) {v : ShredVariant}
    (hv : getShredVariant b = .ok v) (hn : Region.proof.hi v.shredType v ≤ n) :
    Wire.getMerkleRoot H b = Wire.getMerkleRoot H d := by
  have hvalid := valid_of_getShredVariant hv
  have hlt := lt_bodyEnd v.shredType hvalid
  have hle : bodyEnd v.shredType v ≤ n := by
    simp only [Region.hi] at hn
    omega
  rw [Wire.getMerkleRoot, Wire.getMerkleRoot, hv, h.getShredVariant_ok hv hle, toOption,
    andThen_some, andThen_some]
  cases v with
  | merkleCode p r =>
      simp only [h.codeIndex_eq (by omega)]
      exact congrArg _ (funext fun i => h.merkleRootAt_eq H hvalid hn i)
  | merkleData p r =>
      simp only [h.dataIndex_eq (by omega)]
      exact congrArg _ (funext fun i => h.merkleRootAt_eq H hvalid hn i)

theorem getChainedMerkleRoot_eq (h : SameFront n b d) {v : ShredVariant}
    (hv : getShredVariant b = .ok v) (hn : Region.chainedRoot.hi v.shredType v ≤ n) :
    Wire.getChainedMerkleRoot b = Wire.getChainedMerkleRoot d := by
  have hvd := h.getShredVariant_ok hv ((Nat.le_add_right _ _).trans hn)
  rw [Wire.getChainedMerkleRoot, Wire.getChainedMerkleRoot, hv, hvd, toOption, andThen_some,
    andThen_some, getChainedMerkleRootOffset_eq (valid_of_getShredVariant hv), toOption,
    andThen_some, andThen_some]
  exact h.getArray_eq hn

/-- The parser reads headers from the front, and takes what is behind them as it is. -/
theorem newFromSerializedShred (h : SameFront n b d) (hn : 89 ≤ n) {s : Shred}
    (hs : Shred.newFromSerializedShred b = .ok s) :
    Shred.newFromSerializedShred d = .ok (s.setPayload ⟨d.take (sizeOfPayload s.kind)⟩) := by
  obtain ⟨hle, -, hk, hv, hat, hsane⟩ := Shred.newFromSerializedShred_eq_ok_iff.mp hs
  have hsz := sizes s.kind
  have hlen := h.length
  have hheaders := (Shred.headersAt_iff (by omega)).mp hat
  rw [(h.agree.mono (Nat.zero_le _) (show sizeOfHeaders s.kind ≤ n by omega)).slice_eq] at hheaders
  have hatd := (Shred.headersAt_iff (s := s) (by omega)).mpr hheaders
  refine Shred.newFromSerializedShred_eq_ok_iff.mpr ?_
  simp only [Shred.kind_setPayload, Shred.payload_setPayload, Shred.variant_setPayload]
  refine ⟨by omega, trivial, hk, hv, ?_, ?_⟩
  · cases s with
    | shredCode c => exact hatd
    | shredData e => exact hatd
  · cases s with
    | shredCode c => exact hsane
    | shredData e => exact hsane

end SameFront

section Setter
variable {b : Bytes} {g : Signature}

theorem wireOffset_eq_ok {off : Nat} : Wire.getRetransmitterSignatureOffset b = .ok off ↔
    ∃ v, getShredVariant b = .ok v ∧ v.resigned = true ∧
      off = Region.retransmitter.lo v.shredType v := by
  rw [Wire.getRetransmitterSignatureOffset, bind_eq_ok]
  constructor
  · rintro ⟨v, hv, hoff⟩
    rw [getRetransmitterSignatureOffset_eq (valid_of_getShredVariant hv)] at hoff
    split at hoff
    · rename_i hr
      exact ⟨v, hv, hr, (Except.ok.inj hoff).symm⟩
    · cases hoff
  · rintro ⟨v, hv, hr, rfl⟩
    refine ⟨v, hv, ?_⟩
    rw [getRetransmitterSignatureOffset_eq (valid_of_getShredVariant hv), if_pos hr]

theorem setRetransmitterSignature_eq {b : Bytes} {g : Signature} {v : ShredVariant}
    (hv : getShredVariant b = .ok v) (hr : v.resigned = true)
    (hle : sizeOfPayload v.shredType ≤ b.length) : Wire.setRetransmitterSignature b g =
      (.ok (), splice b (Region.retransmitter.lo v.shredType v) g.1) := by
  have hend := retransmitter_end v.shredType (valid_of_getShredVariant hv) hr
  have hfit : Region.retransmitter.lo v.shredType v + sizeOfSignature ≤ b.length :=
    Nat.le_trans (Nat.le_of_eq hend) hle
  have hlen : g.1.length = (slice b (Region.retransmitter.lo v.shredType v)
      (Region.retransmitter.lo v.shredType v + sizeOfSignature)).length := by
    rw [length_slice hfit, g.2, Nat.add_sub_cancel_left]
    rfl
  rw [Wire.setRetransmitterSignature, wireOffset_eq_ok.mpr ⟨v, hv, hr, rfl⟩]
  simp only
  rw [slice?_of_le (Nat.le_add_right _ _) hfit]
  exact if_pos hlen

theorem setRetransmitterSignature_cases (b : Bytes) (g : Signature) :
    (∃ e, Wire.setRetransmitterSignature b g = (fail e, b)) ∨
      ∃ v, getShredVariant b = .ok v ∧ v.resigned = true ∧ sizeOfPayload v.shredType ≤ b.length ∧
        Wire.setRetransmitterSignature b g =
          (.ok (), splice b (Region.retransmitter.lo v.shredType v) g.1) := by
  cases hoff : Wire.getRetransmitterSignatureOffset b with
  | error e =>
      refine .inl ?_
      have hno : NoPanic (Wire.getRetransmitterSignatureOffset b) :=
        (noPanic_getShredVariant b).bind fun v _ =>
          NoPanic.guard fun _ => (noPanic_getProofOffset _ _ _).bind fun _ _ => noPanic_pure _
      cases e with
      | err e => exact ⟨e, by rw [Wire.setRetransmitterSignature, hoff]; rfl⟩
      | panic => exact (hno hoff).elim
  | ok off =>
      obtain ⟨v, hv, hr, rfl⟩ := wireOffset_eq_ok.mp hoff
      have hend := retransmitter_end v.shredType (valid_of_getShredVariant hv) hr
      by_cases hle : sizeOfPayload v.shredType ≤ b.length
      · exact .inr ⟨v, hv, hr, hle, setRetransmitterSignature_eq hv hr hle⟩
      · refine .inl ⟨.invalidPayloadSize b.length, ?_⟩
        rw [Wire.setRetransmitterSignature, hoff]
        simp only
        rw [slice?, if_neg (by omega)]

theorem signature_fits_buffer {v : ShredVariant} (hv : getShredVariant b = .ok v)
    (hr : v.resigned = true) (hle : sizeOfPayload v.shredType ≤ b.length) :
    Region.retransmitter.lo v.shredType v + g.1.length ≤ b.length := by
  have hend := retransmitter_end v.shredType (valid_of_getShredVariant hv) hr
  rw [g.2]
  exact Nat.le_trans (Nat.le_of_eq hend) hle

theorem sameFront_splice {v : ShredVariant} (hv : getShredVariant b = .ok v)
    (hr : v.resigned = true) (hle : sizeOfPayload v.shredType ≤ b.length) :
    SameFront (Region.retransmitter.lo v.shredType v) b
      (splice b (Region.retransmitter.lo v.shredType v) g.1) := by
  have hfit := signature_fits_buffer (g := g) hv hr hle
  exact ⟨(length_splice hfit).symm, (agreeOn_splice hfit (.inl (Nat.le_refl _))).symm⟩

end Setter

/-- `d` is `b` with `g` written where the retransmitter's signature stands, and the accessors
tell the two apart by nothing else. -/
structure Resigned (H : Hasher) (b d : Bytes) (g : Signature) : Prop where
  length : d.length = b.length
  bytes : ∃ offset, Wire.getRetransmitterSignatureOffset b = .ok offset ∧
    offset + sizeOfSignature ≤ b.length ∧
    ∀ i, ¬(offset ≤ i ∧ i < offset + sizeOfSignature) → d[i]? = b[i]?
  signature : Wire.getRetransmitterSignature d = .ok g
  merkleRoot : Wire.getMerkleRoot H d = Wire.getMerkleRoot H b
  chainedMerkleRoot : Wire.getChainedMerkleRoot d = Wire.getChainedMerkleRoot b
  data : Wire.getData d = Wire.getData b
  shredId : Wire.getShredId d = Wire.getShredId b
  accepted : (∃ s, Shred.newFromSerializedShred d = .ok s) ↔
    ∃ s, Shred.newFromSerializedShred b = .ok s

theorem resigned_splice (H : Hasher) {b : Bytes} {g : Signature} {v : ShredVariant}
    (hv : getShredVariant b = .ok v) (hr : v.resigned = true)
    (hle : sizeOfPayload v.shredType ≤ b.length) :
    Resigned H b (splice b (Region.retransmitter.lo v.shredType v) g.1) g := by
  have hvalid := valid_of_getShredVariant hv
  have hlt := lt_bodyEnd v.shredType hvalid
  have hend := retransmitter_end v.shredType hvalid hr
  have hlo : bodyEnd v.shredType v ≤ Region.retransmitter.lo v.shredType v := by
    simp only [Region.lo]
    omega
  have hfit := signature_fits_buffer (g := g) hv hr hle
  have hsame := sameFront_splice (g := g) hv hr hle
  have hvd := hsame.getShredVariant_ok hv hlo
  refine
    { length := hsame.length.symm
      bytes := ⟨_, wireOffset_eq_ok.mpr ⟨v, hv, hr, rfl⟩, by omega, ?_⟩
      signature := ?_
      merkleRoot := (hsame.wireGetMerkleRoot_eq H hv (Nat.le_refl _)).symm
      chainedMerkleRoot := (hsame.getChainedMerkleRoot_eq hv (Nat.le_add_right _ _)).symm
      data := (hsame.wireGetData_eq hv hlo).symm
      shredId := (hsame.getShredId_eq (by omega)).symm
      accepted := ⟨?_, ?_⟩ }
  · intro i hi
    rw [getElem?_splice hfit, g.2]
    exact if_neg hi
  · have hslice := slice_splice hfit
      (show Region.retransmitter.lo v.shredType v + 64 = _ by rw [g.2])
    rw [Wire.getRetransmitterSignature, wireOffset_eq_ok.mpr ⟨v, hvd, hr, rfl⟩]
    simp only [bind, Except.bind]
    rw [slice?_of_le (Nat.le_add_right _ _) (by rw [length_splice hfit]; exact g.2 ▸ hfit), hslice]
    exact Shred.arrayFromSlice_eq_ok.mpr rfl
  · rintro ⟨s, hs⟩
    exact ⟨_, hsame.symm.newFromSerializedShred (by omega) hs⟩
  · rintro ⟨s, hs⟩
    exact ⟨_, hsame.newFromSerializedShred (by omega) hs⟩

section Duplicates

/-- Index `i` is not in the retransmitter's signature, if there is one. -/
def Shred.OutsideRetransmitter (s : Shred) (i : Nat) : Prop :=
  ∀ offset, s.retransmitterSignatureOffset = .ok offset → ¬(offset ≤ i ∧ i < offset + sizeOfSignature)

/-- The variant bytes differ, or some bytes outside the retransmitter's signature do. -/
def Shred.DiffersFrom (x y : Shred) : Prop :=
  x.payload.bytes[64]? ≠ y.payload.bytes[64]? ∨
    ∃ i, x.OutsideRetransmitter i ∧ x.payload.bytes[i]? ≠ y.payload.bytes[i]?

/-- Where the bytes to compare end. -/
def Shred.compareEnd (s : Shred) : Nat :=
  if s.variant.resigned then Region.retransmitter.lo s.kind s.variant else sizeOfPayload s.kind

namespace Shred
variable {x y : Shred} {i : Nat}

theorem Shaped.compareEnd_le (h : x.Shaped) : x.compareEnd ≤ sizeOfPayload x.kind := by
  unfold compareEnd
  split
  · exact Nat.le_trans (Region.lo_le_hi _ h.valid _) (Region.hi_le h.valid _)
  · exact Nat.le_refl _

theorem Shaped.lt_compareEnd (h : x.Shaped) : 88 < x.compareEnd := by
  have hlt := lt_bodyEnd x.kind h.valid
  have hsz := sizes x.kind
  unfold compareEnd
  split
  · simp only [Region.lo]
    omega
  · omega

theorem Shaped.payloadToCompare (h : x.Shaped) :
    x.payloadToCompare = .ok (slice x.payload.bytes 0 x.compareEnd) := by
  rw [Shred.payloadToCompare, h.retransmitterSignatureOffset, compareEnd]
  by_cases hr : x.variant.resigned = true
  · have hle : Region.retransmitter.lo x.kind x.variant ≤ x.payload.bytes.length := by
      rw [h.length]
      exact Nat.le_trans (Region.lo_le_hi _ h.valid _) (Region.hi_le h.valid _)
    rw [if_pos hr, if_pos hr, toOption, letElse_some, Payload.get, slice?_of_le (Nat.zero_le _) hle]
    rfl
  · rw [if_neg hr, if_neg hr, ← h.length, slice_zero_length]
    rfl

theorem Shaped.outsideRetransmitter_iff (h : x.Shaped) (hi : i < sizeOfPayload x.kind) :
    x.OutsideRetransmitter i ↔ i < x.compareEnd := by
  unfold OutsideRetransmitter compareEnd
  rw [h.retransmitterSignatureOffset]
  by_cases hr : x.variant.resigned = true
  · have hend := retransmitter_end x.kind h.valid hr
    rw [if_pos hr, if_pos hr]
    constructor
    · intro ho
      have hout := ho _ rfl
      omega
    · rintro hlt off hoff
      cases hoff
      omega
  · rw [if_neg hr, if_neg hr]
    exact ⟨fun _ => hi, fun _ off hoff => by cases hoff⟩

theorem isShredDuplicate_eq (hx : x.Shaped) (hy : y.Shaped) : x.isShredDuplicate y =
    .ok (decide (x.id = y.id ∧
      slice x.payload.bytes 0 x.compareEnd ≠ slice y.payload.bytes 0 y.compareEnd)) := by
  rw [isShredDuplicate, hx.payloadToCompare, hy.payloadToCompare]
  by_cases hid : x.id = y.id
  · simp [hid, bind, Except.bind, pure, Except.pure]
  · simp [hid, pure, Except.pure]

theorem WellFormed.variant_byte (h : x.WellFormed) : x.payload.bytes[64]? = some x.variant.toU8 := by
  have hat := commonHeader_at h.reparse
  exact hat.shredVariant

theorem WellFormed.variant_inj (hx : x.WellFormed) (hy : y.WellFormed)
    (h : x.payload.bytes[64]? = y.payload.bytes[64]?) : x.variant = y.variant := by
  rw [hx.variant_byte, hy.variant_byte, Option.some.injEq] at h
  have ht := ShredVariant.tryFrom_toU8 hx.valid
  rw [h, ShredVariant.tryFrom_toU8 hy.valid] at ht
  exact (Except.ok.inj ht).symm

theorem Shaped.kind_of_id (hx : x.Shaped) (hy : y.Shaped) (h : x.id = y.id) : x.kind = y.kind := by
  rw [← hx.kind, ← hy.kind]
  exact congrArg ShredId.shredType h

theorem compareEnd_congr (hk : x.kind = y.kind) (hv : x.variant = y.variant) :
    x.compareEnd = y.compareEnd := by
  rw [compareEnd, compareEnd, hk, hv]

/-- Equal front parts are those of shreds that do not differ, also between two variants. -/
theorem WellFormed.front_ne_iff (hx : x.WellFormed) (hy : y.WellFormed) (hk : x.kind = y.kind) :
    slice x.payload.bytes 0 x.compareEnd ≠ slice y.payload.bytes 0 y.compareEnd ↔
      x.DiffersFrom y := by
  have hlx := hx.lt_compareEnd
  have hly := hy.lt_compareEnd
  constructor
  · intro hne
    by_cases h64 : x.payload.bytes[64]? = y.payload.bytes[64]?
    · refine .inr ?_
      have hend := compareEnd_congr hk (hx.variant_inj hy h64)
      by_contra hno
      refine hne (hend ▸ AgreeOn.slice_eq fun i _ hi => ?_)
      by_contra hdiff
      have hin := Nat.lt_of_lt_of_le hi hx.compareEnd_le
      exact hno ⟨i, (hx.outsideRetransmitter_iff hin).mpr hi, hdiff⟩
    · exact .inl h64
  · intro hdiff heq
    have hbyte : ∀ i, i < x.compareEnd → i < y.compareEnd →
        x.payload.bytes[i]? = y.payload.bytes[i]? := by
      intro i hi hi'
      have hget := congrArg (fun l => l[i]?) heq
      simpa only [getElem?_slice, Nat.zero_add, if_pos hi, if_pos hi'] using hget
    have h64 := hbyte 64 (by omega) (by omega)
    have hend := compareEnd_congr hk (hx.variant_inj hy h64)
    rcases hdiff with hne | ⟨i, hout, hne⟩
    · exact hne h64
    · by_cases hi : i < sizeOfPayload x.kind
      · have hlt := (hx.outsideRetransmitter_iff hi).mp hout
        exact hne (hbyte i hlt (hend ▸ hlt))
      · refine hne ?_
        rw [List.getElem?_eq_none (by rw [hx.length]; omega),
          List.getElem?_eq_none (by rw [hy.length, ← hk]; omega)]

theorem WellFormed.isShredDuplicate_iff (hx : x.WellFormed) (hy : y.WellFormed) :
    x.isShredDuplicate y = .ok true ↔ x.id = y.id ∧ x.DiffersFrom y := by
  rw [isShredDuplicate_eq hx.toShaped hy.toShaped, Except.ok.injEq, decide_eq_true_eq]
  refine and_congr_right fun hid => ?_
  exact hx.front_ne_iff hy (hx.toShaped.kind_of_id hy.toShaped hid)

theorem WellFormed.not_duplicate_iff (hx : x.WellFormed) (hy : y.WellFormed) :
    x.isShredDuplicate y = .ok false ↔ ¬(x.id = y.id ∧ x.DiffersFrom y) := by
  rw [← hx.isShredDuplicate_iff hy, isShredDuplicate_eq hx.toShaped hy.toShaped]
  simp

theorem Shaped.not_duplicate_setPayload {p : Payload} (hx : x.Shaped) (hy : (x.setPayload p).Shaped)
    (h : AgreeOn x.payload.bytes p.bytes 0 x.compareEnd) :
    x.isShredDuplicate (x.setPayload p) = .ok false ∧
      (x.setPayload p).isShredDuplicate x = .ok false := by
  have hend : (x.setPayload p).compareEnd = x.compareEnd :=
    compareEnd_congr (kind_setPayload x p) (variant_setPayload x p)
  rw [isShredDuplicate_eq hx hy, isShredDuplicate_eq hy hx, hend, payload_setPayload, h.slice_eq]
  simp

theorem Shaped.proof_le_compareEnd (h : x.Shaped) :
    Region.proof.hi x.kind x.variant ≤ x.compareEnd := by
  unfold compareEnd
  split
  · exact Nat.le_refl _
  · exact Region.hi_le h.valid _

/-- Of two shreds with one identity that do not differ, each is the other but for the payload,
and the payloads have the same front. -/
theorem WellFormed.eq_of_not_differs (hx : x.WellFormed) (hy : y.WellFormed) (hid : x.id = y.id)
    (h : ¬x.DiffersFrom y) : SameFront x.compareEnd x.payload.bytes y.payload.bytes ∧
      y = x.setPayload y.payload := by
  have hk := hx.toShaped.kind_of_id hy.toShaped hid
  have hlen : x.payload.bytes.length = y.payload.bytes.length := by rw [hx.length, hy.length, hk]
  have hsame : SameFront x.compareEnd x.payload.bytes y.payload.bytes := by
    refine ⟨hlen, fun i _ hi => ?_⟩
    by_contra hne
    have hin := Nat.lt_of_lt_of_le hi hx.compareEnd_le
    exact h (.inr ⟨i, (hx.outsideRetransmitter_iff hin).mpr hi, hne⟩)
  refine ⟨hsame, ?_⟩
  have hparsed := hsame.newFromSerializedShred hx.lt_compareEnd hx.reparse
  rw [hk, List.take_of_length_le (Nat.le_of_eq hy.length)] at hparsed
  exact Except.ok.inj (hy.reparse.symm.trans hparsed)

theorem Shaped.merkleRoot_setPayload (h : x.Shaped) (H : Hasher) {p : Payload}
    (hp : SameFront (Region.proof.hi x.kind x.variant) x.payload.bytes p.bytes) :
    (x.setPayload p).merkleRoot H = x.merkleRoot H := by
  have hlo := Region.lo_le_hi x.kind h.valid .proof
  have hproof : getMerkleProof x.payload.bytes (Region.proof.lo x.kind x.variant)
      x.variant.proofSize = getMerkleProof p.bytes (Region.proof.lo x.kind x.variant)
        x.variant.proofSize := hp.getMerkleProof_eq (Nat.le_refl _)
  have hnode : getMerkleNode H x.payload.bytes sizeOfSignature (Region.proof.lo x.kind x.variant) =
      getMerkleNode H p.bytes sizeOfSignature (Region.proof.lo x.kind x.variant) :=
    hp.getMerkleNode_eq H hlo
  have hindex : (x.setPayload p).erasureShardIndex = x.erasureShardIndex := by cases x <;> rfl
  have hoffset : (x.setPayload p).proofOffset = x.proofOffset := by cases x <;> rfl
  have hsize : (x.setPayload p).proofSize = x.proofSize := by cases x <;> rfl
  rw [Shred.merkleRoot, Shred.merkleRoot, hindex, hoffset, hsize, h.proofSize, h.proofOffset,
    payload_setPayload]
  simp only [bind, Except.bind]
  rw [hproof, hnode]

end Shred

end Duplicates

/-- `is_shred_duplicate` on two accepted shreds. -/
structure DuplicateExact (H : Hasher) (x y : Shred) : Prop where
  assertion : ∀ offset, x.retransmitterSignatureOffset = .ok offset →
    offset + sizeOfSignature = x.payload.len
  flagged : x.isShredDuplicate y = .ok true ↔ x.id = y.id ∧ x.DiffersFrom y
  unflagged : x.isShredDuplicate y = .ok false ↔ ¬(x.id = y.id ∧ x.DiffersFrom y)
  same : x.id = y.id → x.isShredDuplicate y = .ok false → x.signature = y.signature ∧
    x.merkleRoot H = y.merkleRoot H ∧
    ∀ d e, x = .shredData d → y = .shredData e → d.data = e.data

theorem Shred.WellFormed.duplicateExact {x y : Shred} (hx : x.WellFormed) (hy : y.WellFormed)
    (H : Hasher) : DuplicateExact H x y where
  assertion := by
    intro offset hoffset
    rw [hx.retransmitterSignatureOffset] at hoffset
    split at hoffset
    · rename_i hr
      cases hoffset
      rw [retransmitter_end x.kind hx.valid hr, ← hx.length]
      rfl
    · cases hoffset
  flagged := hx.isShredDuplicate_iff hy
  unflagged := hx.not_duplicate_iff hy
  same := by
    intro hid hdup
    have hno : ¬x.DiffersFrom y := fun hd => (hx.not_duplicate_iff hy).mp hdup ⟨hid, hd⟩
    obtain ⟨hsame, hy'⟩ := hx.eq_of_not_differs hy hid hno
    refine ⟨?_, ?_, ?_⟩
    · rw [hy', Shred.signature, Shred.signature, Shred.commonHeader_setPayload]
    · rw [hy']
      exact (hx.merkleRoot_setPayload H (hsame.mono hx.proof_le_compareEnd)).symm
    · rintro d e rfl rfl
      have he : e = { d with payload := e.payload } := Shred.shredData.inj hy'
      have hcommon : e.commonHeader = d.commonHeader := by rw [he]
      have hheader : e.dataHeader = d.dataHeader := by rw [he]
      have hfields : variantFields .data d.commonHeader.shredVariant = _ := hx.variantFields
      have hle : bodyEnd .data (Shred.shredData d).variant ≤ (Shred.shredData d).compareEnd :=
        Nat.le_trans (Nat.le_trans (Nat.le_add_right _ _) (Nat.le_add_right _ _))
          hx.proof_le_compareEnd
      rw [ShredData.data, ShredData.data, hcommon, hheader, hfields]
      exact hsame.getData_eq hx.valid hle _

section Resigned
variable {x y : Shred} {b d : Bytes} {g : Signature}

theorem Shred.WellFormed.not_duplicate_resigned (hx : x.WellFormed)
    (hset : x.setRetransmitterSignature g = .ok y) :
    x.isShredDuplicate y = .ok false ∧ y.isShredDuplicate x = .ok false := by
  obtain ⟨hr, rfl⟩ := hx.setRetransmitterSignature_eq_ok.mp hset
  have hfits := Shred.signature_fits hr g
  have hag : AgreeOn (x.withPart .retransmitter g.1).payload.bytes x.payload.bytes 0
      (Region.retransmitter.lo x.kind x.variant) :=
    hx.agreeOn_withPart hfits (.inl (Nat.le_refl _))
  rw [Shred.withPart, Shred.payload_setPayload] at hag
  refine hx.not_duplicate_setPayload (hx.toShaped.withPart hfits) ?_
  rw [Shred.compareEnd, if_pos hr]
  exact hag.symm

theorem not_duplicate_of_parsed (hset : Wire.setRetransmitterSignature b g = (.ok (), d))
    (hx : Shred.newFromSerializedShred b = .ok x) (hy : Shred.newFromSerializedShred d = .ok y) :
    x.isShredDuplicate y = .ok false ∧ y.isShredDuplicate x = .ok false := by
  have hwf := (Shred.newFromSerializedShred_eq_ok.mp hx).1
  have hwfd := (Shred.newFromSerializedShred_eq_ok.mp hy).1
  rcases setRetransmitterSignature_cases b g with ⟨e, hfail⟩ | ⟨v, hv, hr, hle, hok⟩
  · rw [hfail] at hset
    cases hset
  · obtain rfl : x.variant = v := Except.ok.inj ((variant_at hx).symm.trans hv)
    rw [hok] at hset
    obtain rfl : splice b _ g.1 = d := congrArg Prod.snd hset
    have hsame := sameFront_splice (g := g) hv hr hle
    have hend : x.compareEnd = Region.retransmitter.lo x.kind x.variant := if_pos hr
    rw [hwf.kind, ← hend] at hsame hy
    obtain rfl := Except.ok.inj (hy.symm.trans
      (hsame.newFromSerializedShred hwf.lt_compareEnd hx))
    refine hwf.not_duplicate_setPayload hwfd.toShaped ?_
    rw [(Shred.newFromSerializedShred_eq_ok.mp hx).2.2]
    refine agreeOn_of_slice_eq ?_
    rw [Shred.slice_take_of_le hwf.compareEnd_le, Shred.slice_take_of_le hwf.compareEnd_le,
      hsame.agree.slice_eq]

theorem setRetransmitterSignature_eq_ok : (∃ d, Wire.setRetransmitterSignature b g = (.ok (), d)) ↔
    ∃ v, getShredVariant b = .ok v ∧ v.resigned = true ∧ sizeOfPayload v.shredType ≤ b.length := by
  constructor
  · rintro ⟨d, hd⟩
    rcases setRetransmitterSignature_cases b g with ⟨e, hfail⟩ | ⟨v, hv, hr, hle, -⟩
    · rw [hfail] at hd
      cases hd
    · exact ⟨v, hv, hr, hle⟩
  · rintro ⟨v, hv, hr, hle⟩
    exact ⟨_, setRetransmitterSignature_eq hv hr hle⟩

end Resigned

/-- Writing the retransmitter's signature changes nothing else that the accessors or the parser
see, and duplicate detection ignores that signature and no other byte. -/
theorem resigning_is_transparent (H : Hasher) :
    (∀ (b : Bytes) (g : Signature),
      (∃ e, Wire.setRetransmitterSignature b g = (fail e, b)) ∨
        ∃ d, Wire.setRetransmitterSignature b g = (.ok (), d) ∧ Resigned H b d g) ∧
    (∀ (b : Bytes) (g : Signature), (∃ d, Wire.setRetransmitterSignature b g = (.ok (), d)) ↔
      ∃ v, getShredVariant b = .ok v ∧ v.resigned = true ∧ sizeOfPayload v.shredType ≤ b.length) ∧
    (∀ x y : Shred, x.Accepted → y.Accepted → DuplicateExact H x y) ∧
    (∀ (x y : Shred) (g : Signature), x.Accepted → x.setRetransmitterSignature g = .ok y →
      x.isShredDuplicate y = .ok false ∧ y.isShredDuplicate x = .ok false) ∧
    ∀ (b d : Bytes) (g : Signature) (x y : Shred), Wire.setRetransmitterSignature b g = (.ok (), d) →
      Shred.newFromSerializedShred b = .ok x → Shred.newFromSerializedShred d = .ok y →
        x.isShredDuplicate y = .ok false ∧ y.isShredDuplicate x = .ok false := by
  refine ⟨fun b g => ?_, fun b g => setRetransmitterSignature_eq_ok, fun x y hx hy => ?_,
    fun x y g hx hset => ?_, fun b d g x y hset hx hy => not_duplicate_of_parsed hset hx hy⟩
  · rcases setRetransmitterSignature_cases b g with hfail | ⟨v, hv, hr, hle, hset⟩
    · exact .inl hfail
    · exact .inr ⟨_, hset, resigned_splice H hv hr hle⟩
  · exact (Shred.accepted_iff.mp hx).duplicateExact (Shred.accepted_iff.mp hy) H
  · exact (Shred.accepted_iff.mp hx).not_duplicate_resigned hset

/-- The packet of a resigned data shred, with a nonce behind it. -/
def resignedPacket : Bytes := resignedData.payload.bytes ++ [1, 2, 3, 4]

theorem parse_resignedPacket : Shred.newFromSerializedShred resignedPacket =
    .ok (.shredData resignedData) := by
  have hwf := resignedData_wellFormed
  have hlen : resignedData.payload.bytes.length = 1203 := hwf.length
  refine Shred.newFromSerializedShred_eq_ok.mpr ⟨hwf, ?_, ?_⟩
  · rw [resignedPacket, List.length_append, hlen]
    decide
  · exact (List.take_left' hwf.length).symm

theorem resignedPacket_resigned : ∃ v, getShredVariant resignedPacket = .ok v ∧
    v.resigned = true ∧ sizeOfPayload v.shredType ≤ resignedPacket.length :=
  ⟨_, variant_at parse_resignedPacket, rfl,
    (Shred.newFromSerializedShred_eq_ok.mp parse_resignedPacket).2.1⟩

/-- It is signed again, and still parsed. -/
theorem resigning_is_transparent_packet : ∃ d x y,
    Wire.setRetransmitterSignature resignedPacket twosSignature = (.ok (), d) ∧
    Resigned sha256Hasher resignedPacket d twosSignature ∧
    Shred.newFromSerializedShred resignedPacket = .ok x ∧
    Shred.newFromSerializedShred d = .ok y ∧
    x.isShredDuplicate y = .ok false ∧ y.isShredDuplicate x = .ok false := by
  obtain ⟨hall, hwhen, -, -, hdup⟩ := resigning_is_transparent sha256Hasher
  obtain ⟨d, hd⟩ := (hwhen resignedPacket twosSignature).mpr resignedPacket_resigned
  rcases hall resignedPacket twosSignature with ⟨e, he⟩ | ⟨d', hd', hresigned⟩
  · rw [hd] at he
    cases he
  · obtain rfl : d = d' := congrArg Prod.snd (hd.symm.trans hd')
    obtain ⟨y, hy⟩ := hresigned.accepted.mpr ⟨_, parse_resignedPacket⟩
    exact ⟨d, _, y, hd, hresigned, parse_resignedPacket, hy,
      hdup _ d twosSignature _ y hd parse_resignedPacket hy⟩

end LightweightShred
