import LightweightShred.Threshold

/-!
# The data of a batch

`get_data_shred_bytes_per_batch_typical` computes at compile time what thirty-two data shreds can
hold. No batch that comes out of the filter and of `recover` holds more.
-/
namespace LightweightShred
open ByteString Rust Slots

/-- Number of proof entries for the standard 64 shred batch. -/
def proofEntriesFor3232Batch : UInt8 := 6

/-- `capacity` for constants: without an error type. -/
def ShredData.constCapacity (proofSize : UInt8) (resigned : Bool) : Except UInt8 Nat :=
  match checkedSubSize (sizeOfPayload .data)
    (sizeOfHeaders .data + sizeOfMerkleRoot + proofSize.toNat * sizeOfMerkleProofEntry +
      if resigned then sizeOfSignature else 0) with
  | some v => .ok v
  | none => .error proofSize

def getDataShredBytesPerBatchTypical : Result UInt64 :=
  match ShredData.constCapacity proofEntriesFor3232Batch false with
  | .ok capacity => pure (UInt64.ofNat (dataShredsPerFecBlock * capacity))
  | .error _ => .error .panic

theorem capacity_eq_const (proofSize : UInt8) (resigned : Bool) :
    capacity .data proofSize resigned =
      liftErr .invalidProofSize (ShredData.constCapacity proofSize resigned) := by
  rw [capacity, ShredData.constCapacity]
  cases checkedSubSize (sizeOfPayload .data) (sizeOfHeaders .data + sizeOfMerkleRoot +
    proofSize.toNat * sizeOfMerkleProofEntry + if resigned then sizeOfSignature else 0) with
  | some v => rfl
  | none => rfl

/-- The number of data bytes of a shred. -/
def Shred.dataLength : Shred → Nat
  | .shredCode _ => 0
  | .shredData s => (s.data.toOption.getD []).length

section Lengths
variable {s : Shred} {l : List Shred}

theorem length_data {d : ShredData} (h : (Shred.shredData d).WellFormed) :
    (Shred.shredData d).dataLength = d.dataHeader.size.toNat - 88 := by
  have hsize := h.sane.2.2.size
  obtain ⟨b, hb⟩ := (data_eq_ok h.toShaped).mpr hsize
  have hfields : variantFields .data d.commonHeader.shredVariant = _ := h.toShaped.variantFields
  have hend : bodyEnd .data d.commonHeader.shredVariant ≤ sizeOfPayload .data := by
    have hadd := bodyEnd_add .data h.valid
    simp only [Shred.variant, Shred.commonHeader] at hadd
    omega
  have hlen : d.payload.bytes.length = sizeOfPayload .data := h.length
  have hfits : d.dataHeader.size.toNat ≤ d.payload.bytes.length :=
    hlen ▸ Nat.le_trans hsize.2 hend
  have hdata := hb
  rw [ShredData.data, hfields] at hdata
  simp only [bind, Except.bind, ShredData.getData, capacity_eq h.valid, okOr_eq_ok] at hdata
  split at hdata
  · rename_i hin
    rw [slice?_of_le hin.1 hfits, Option.some.injEq] at hdata
    rw [Shred.dataLength, hb, ← hdata]
    exact length_slice hfits
  · cases hdata

theorem Shred.WellFormed.dataLength_le (h : s.WellFormed) (hk : s.kind = .data) :
    88 + s.dataLength + sizeOfMerkleRoot + s.variant.proofBytes + s.variant.resignedBytes ≤ 1203 := by
  cases s with
  | shredCode c => cases hk
  | shredData d =>
      have hsize := h.sane.2.2.size
      have hend := bodyEnd_add .data h.valid
      have hpayload : sizeOfPayload .data = 1203 := rfl
      have hheaders : sizeOfDataShredHeaders = 88 := rfl
      have hlen := length_data h
      simp only [Shred.variant, Shred.commonHeader] at hend ⊢
      omega

theorem sum_dataLength (l : List Shred) : (l.map Shred.dataLength).sum =
    ((l.filter (·.kind = .data)).map Shred.dataLength).sum := by
  induction l with
  | nil => rfl
  | cons s l ih =>
      cases s with
      | shredCode c => exact (Nat.zero_add _).trans ih
      | shredData d => exact congrArg ((Shred.shredData d).dataLength + ·) ih

theorem sum_eq_iff_of_le {l : List Nat} {n : Nat} (h : ∀ x ∈ l, x ≤ n) :
    l.sum = l.length * n ↔ ∀ x ∈ l, x = n := by
  induction l with
  | nil => simp
  | cons x l ih =>
      have hx := h x List.mem_cons_self
      have hl := fun y hy => h y (List.mem_cons_of_mem _ hy)
      have hsum := List.sum_le_card_nsmul l n hl
      rw [smul_eq_mul] at hsum
      rw [List.sum_cons, List.length_cons, Nat.add_mul, Nat.one_mul, List.forall_mem_cons, ← ih hl]
      omega

end Lengths

/-- A completed batch of thirty-two data shreds and as many coding shreds. -/
structure FullBatch (resigned : Bool) (B : List Shred) : Prop where
  wellFormed : ∀ s ∈ B, s.WellFormed
  count : B.countP (·.kind = .data) = dataShredsPerFecBlock
  proofSize : ∀ s ∈ B, s.variant.proofSize = proofEntriesFor3232Batch
  resigned : ∀ s ∈ B, s.variant.resigned = resigned

namespace FullBatch
variable {resigned : Bool} {B : List Shred} {s : Shred} {bound : Nat}

theorem dataLength_le (h : FullBatch resigned B) (hs : s ∈ B) (hk : s.kind = .data) :
    s.dataLength + (if resigned then sizeOfSignature else 0) ≤ 963 := by
  have hle := (h.wellFormed s hs).dataLength_le hk
  rw [ShredVariant.proofBytes, ShredVariant.resignedBytes, h.proofSize s hs, h.resigned s hs] at hle
  change 88 + s.dataLength + 32 + 120 + _ ≤ 1203 at hle
  omega

theorem sum_le (h : FullBatch resigned B)
    (hbound : ∀ s ∈ B, s.kind = .data → s.dataLength ≤ bound) :
    (B.map Shred.dataLength).sum ≤ dataShredsPerFecBlock * bound ∧
      ((B.map Shred.dataLength).sum = dataShredsPerFecBlock * bound ↔
        ∀ s ∈ B, s.kind = .data → s.dataLength = bound) := by
  have hlen : ((B.filter (·.kind = .data)).map Shred.dataLength).length = dataShredsPerFecBlock := by
    rw [List.length_map, ← List.countP_eq_length_filter, h.count]
  have hmem : ∀ {P : Nat → Prop}, (∀ x ∈ (B.filter (·.kind = .data)).map Shred.dataLength, P x) ↔
      ∀ s ∈ B, s.kind = .data → P s.dataLength := by
    intro P
    simp only [List.forall_mem_map, List.mem_filter, decide_eq_true_eq, and_imp]
  have hle := (hmem (P := (· ≤ bound))).mpr hbound
  have hsum := List.sum_le_card_nsmul _ _ hle
  have hiff := sum_eq_iff_of_le hle
  rw [hlen] at hsum hiff
  rw [sum_dataLength]
  exact ⟨hsum, hiff.trans hmem⟩

theorem perm {C : List Shred} (h : FullBatch resigned B) (hp : B.Perm C) : FullBatch resigned C where
  wellFormed s hs := h.wellFormed s (hp.mem_iff.mpr hs)
  count := hp.countP_eq _ ▸ h.count
  proofSize s hs := h.proofSize s (hp.mem_iff.mpr hs)
  resigned s hs := h.resigned s (hp.mem_iff.mpr hs)

end FullBatch

theorem Recovers.fullBatch {H : Hasher} {cache : ReedSolomonCache} {l ys : List Shred} {L : ShredCode}
    {shards : List Bytes} {root : Hash} (h : Recovers H cache l L shards root (ys.map .ok))
    (hl : ∀ s ∈ l, Ingested s) (hag : Agreeing l) (hne : ys ≠ []) :
    FullBatch L.commonHeader.shredVariant.resigned (l ++ ys) := by
  have hwf : ∀ s ∈ l, s.WellFormed := fun s hs => (hl s hs).wellFormed
  have hL : Shred.shredCode L ∈ l := List.mem_of_getLast? h.last
  have hF := h.filled hwf hag
  obtain ⟨hnd, hns⟩ := (hl _ hL).numShards
  -- the proofs have the size of a tree over sixty-four leaves
  have hproof : L.commonHeader.shredVariant.proofSize = proofEntriesFor3232Batch := by
    obtain ⟨y, hy⟩ := List.exists_mem_of_ne_nil ys hne
    rw [h.proofSize_of_yielded hwf hy, hns]
    decide
  have hdata : ∀ s ∈ l ++ ys, s.kind = .data →
      s.position < L.codingHeader.numDataShreds.toNat := by
    intro s hs hk
    rcases List.mem_append.mp hs with hs | hs
    · have hset := (hl s hs).fixedHeaders.fixedSet
      have hindex := (hwf s hs).index_data hk
      have h32 : L.codingHeader.numDataShreds.toNat = 32 := hnd
      have hlt := hset.2.2
      omega
    · exact (h.yielded_index hwf hs).1 hk
  have hvariant := fun s hs => (h.agreeing_completed hwf hag).variant s hs _
    (List.mem_append_left _ hL)
  refine ⟨hF.wellFormed, ?_, fun s hs => (hvariant s hs).1.trans hproof, fun s hs => (hvariant s hs).2⟩
  have hpos := (perm_split hF.split hF.code_ge).mp fun n hn => by
    obtain ⟨s, hs, hk, rfl⟩ := mem_positionsOf.mp hn
    exact hdata s hs hk
  rw [List.countP_eq_length_filter, ← List.length_map (f := Shred.position)]
  exact hpos.length_eq.trans ((List.length_range ..).trans hnd)

/-- What comes out of the filter and of `recover` as a batch has thirty-two data shreds. They hold at
most what `get_data_shred_bytes_per_batch_typical` says, and by a signature less for each shred if
they are resigned; they hold all of it exactly if each is filled to the capacity. -/
theorem batch_data_bytes (H : Hasher) (cache : ReedSolomonCache) (srt : ShredSort) (l : List Shred)
    (hl : ∀ s ∈ l, Ingested s) (hag : Agreeing l) (ys : List Shred) (hne : ys ≠ [])
    (hr : recover H cache srt l = .ok (ys.map .ok)) :
    ∃ bytes, getDataShredBytesPerBatchTypical = .ok bytes ∧
      (l ++ ys).countP (·.kind = .data) = dataShredsPerFecBlock ∧
      ((l ++ ys).map Shred.dataLength).sum ≤ bytes.toNat ∧
      ((∃ s ∈ l, s.variant.resigned = true) → ((l ++ ys).map Shred.dataLength).sum +
        dataShredsPerFecBlock * sizeOfSignature ≤ bytes.toNat) ∧
      (((l ++ ys).map Shred.dataLength).sum = bytes.toNat ↔ ∀ s ∈ l ++ ys, s.kind = .data →
        ShredData.constCapacity proofEntriesFor3232Batch false = .ok s.dataLength) := by
  have hwf : ∀ s ∈ l, s.WellFormed := fun s hs => (hl s hs).wellFormed
  have hperm := sortShreds_perm srt l
  obtain ⟨L, shards, root, hR⟩ := (recover_eq_ok hwf).mp hr
  have hfull := hR.fullBatch (fun s hs => hl s (hperm.mem_iff.mp hs)) (hag.perm hperm) hne
  have hB : FullBatch L.commonHeader.shredVariant.resigned (l ++ ys) :=
    hfull.perm (hperm.append_right ys)
  obtain ⟨hle, hiff⟩ := hB.sum_le fun s hs hk =>
    Nat.le_trans (Nat.le_add_right _ _) (hB.dataLength_le hs hk)
  refine ⟨30816, rfl, hB.count, hle, ?_, hiff.trans ?_⟩
  · rintro ⟨s, hs, hresigned⟩
    rw [hB.resigned s (List.mem_append_left _ hs)] at hresigned
    have h899 : ∀ s ∈ l ++ ys, s.kind = .data → s.dataLength ≤ 899 := by
      intro s hs hk
      have h := hB.dataLength_le hs hk
      rw [hresigned] at h
      change s.dataLength + 64 ≤ 963 at h
      omega
    exact Nat.add_le_add_right (hB.sum_le h899).1 _
  · refine forall₂_congr fun s _ => forall_congr' fun _ => ⟨fun h => ?_, fun h => ?_⟩
    · rw [h]
      rfl
    · exact (Except.ok.inj h).symm

/-- The batch is completed by thirty-one shreds. -/
theorem batch_data_bytes_fixed : ∃ (ys : List Shred) (bytes : UInt64),
    recover sha256Hasher interpolationCache stableSort fixedPart = .ok (ys.map .ok) ∧
    getDataShredBytesPerBatchTypical = .ok bytes ∧
    (fixedPart ++ ys).countP (·.kind = .data) = dataShredsPerFecBlock ∧
    ((fixedPart ++ ys).map Shred.dataLength).sum ≤ bytes.toNat := by
  have hne : fixedBatch.filter (· ∉ fixedPart) ≠ [] := by
    intro hnil
    have hsub : fixedBatch ⊆ fixedPart := fun s hs => by
      simpa using List.filter_eq_nil_iff.mp hnil s hs
    have hle := (fixedBatch_complete.nodup.subperm hsub).length_le
    rw [length_fixedPart, fixedBatch_complete.length] at hle
    omega
  obtain ⟨bytes, hbytes, hcount, hle, -⟩ := batch_data_bytes sha256Hasher interpolationCache
    stableSort fixedPart fixedPart_ingested fixedPart_agreeing _ hne recover_fixedPart
  exact ⟨_, bytes, recover_fixedPart, hbytes, hcount, hle⟩

end LightweightShred
