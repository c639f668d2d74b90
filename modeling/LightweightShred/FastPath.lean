import LightweightShred.EndToEnd

/-!
# The fast path

Where `recover` succeeds, `recover_data_only` returns the same data shreds without their
proofs. Elsewhere it returns whatever data shreds kept their common header, and so may lose
some and may return some that no parser accepts.
-/
namespace LightweightShred
open ByteString Rust Codec Slots

/-- The common header of a missing data shred, from behind the signature on. -/
def ShredCode.dataHeaderTail (L : ShredCode) (i : Nat) : Bytes :=
  (L.blankData i).commonHeader.write.drop sizeOfSignature

section Rebuilt
variable {cache : ReedSolomonCache} {l : List Shred} {L : ShredCode} {shards : List Bytes} {i : Nat}

theorem Shred.WellFormed.headerKept {s : Shred} (h : s.WellFormed) : s.HeaderKept := by
  have key : ∀ (n : Nat) (rest : Bytes), 83 ≤ n →
      slice s.payload.bytes 0 n = s.commonHeader.write ++ rest → s.HeaderKept := by
    intro n rest hn hs
    have h83 : slice (slice s.payload.bytes 0 n) 0 83 = slice s.payload.bytes 0 83 := by
      rw [slice_slice _ _ _ _ _ (by omega)]
    rw [Shred.HeaderKept, sizeOfCommonShredHeader, ← h83, hs, slice_append_left (by simp),
      slice_full (by simp)]
  cases s with
  | shredCode s => exact key 89 _ (by decide) h.headers
  | shredData s => exact key 88 _ (by decide) h.headers

@[simp] theorem headerKept_reparsed {s : Shred} : s.reparsed.HeaderKept ↔ s.HeaderKept := by
  rw [Shred.HeaderKept, Shred.HeaderKept, Shred.payload_reparsed, Shred.commonHeader_reparsed]

theorem kind_rebuilt_missing (hi : i < L.numDataShreds) (hm : present l i = false) :
    (rebuilt L l shards i).kind = .data := by
  rw [rebuilt_of_missing hm, Shred.kind_withPart, kind_stubAt, if_pos hi]

theorem commonHeader_rebuilt_missing (hi : i < L.numDataShreds) (hm : present l i = false) :
    (rebuilt L l shards i).commonHeader = (L.blankData i).commonHeader := by
  rw [rebuilt_of_missing hm, Shred.commonHeader_withPart, commonHeader_stubAt, ShredCode.blank,
    if_pos hi]

/-- The first bytes of a rebuilt data shred are its signature, and then its shard. -/
theorem Reconstructs.front_rebuilt (h : Reconstructs cache l L shards)
    (hl : ∀ s ∈ l, s.WellFormed) (hi : i < L.numDataShreds) (hm : present l i = false) :
    slice (rebuilt L l shards i).payload.bytes 0 64 = L.commonHeader.signature.1 ∧
      ∀ lo hi, lo ≤ hi → hi ≤ 24 → slice (rebuilt L l shards i).payload.bytes (64 + lo) (64 + hi) =
        slice (shards.getD i []) lo hi := by
  have hL := (h.wellFormed_last hl).toShaped
  have hin : i < L.numShards := Nat.lt_of_lt_of_le hi (Nat.le_add_right _ _)
  have hstub := shaped_stubAt hL i
  have hfits := h.shard_fits hl hin
  rw [fillAt_of_missing hm] at hfits
  have hkind : (L.stubAt i).kind = .data := by rw [kind_stubAt, if_pos hi]
  have hfront : ((L.stubAt i).withPart .shard (shards.getD i [])).part .front =
      L.commonHeader.signature.1 := by
    rw [hstub.part_withPart_ne hfits (by decide), part_front_stubAt hL, ShredCode.stubFront,
      if_pos hi]
  have hshard := hstub.part_withPart hfits
  rw [rebuilt_of_missing hm]
  simp only [Shred.part, Shred.kind_withPart, Shred.variant_withPart, hkind, Region.lo,
    Region.hi] at hfront hshard
  refine ⟨hfront, fun lo hi hle h24 => ?_⟩
  have hend := lt_bodyEnd .data hstub.valid
  have hstart : erasureShardStartOffset .data = 64 := rfl
  conv_rhs => rw [← hshard, hstart, slice_slice _ _ _ _ _ (by omega)]

/-- A rebuilt data shred kept its common header iff its shard starts with the rest of it. -/
theorem Reconstructs.headerKept_iff (h : Reconstructs cache l L shards)
    (hl : ∀ s ∈ l, s.WellFormed) (hi : i < L.numDataShreds) (hm : present l i = false) :
    (rebuilt L l shards i).HeaderKept ↔
      slice (shards.getD i []) 0 19 = L.dataHeaderTail i := by
  obtain ⟨hfront, hshard⟩ := h.front_rebuilt hl hi hm
  have hwrite : (rebuilt L l shards i).commonHeader.write =
      L.commonHeader.signature.1 ++ L.dataHeaderTail i := by
    have hsig : (L.blankData i).commonHeader.write.take 64 = L.commonHeader.signature.1 := by
      simp only [ShredCommonHeader.write, List.append_assoc]
      exact List.take_left' L.commonHeader.signature.2
    rw [commonHeader_rebuilt_missing hi hm, ← hsig]
    exact (List.take_append_drop 64 _).symm
  rw [Shred.HeaderKept, hwrite, sizeOfCommonShredHeader,
    ← slice_append_slice _ (Nat.zero_le 64) (by omega : 64 ≤ 83), hfront]
  have h19 := hshard 0 19 (by omega) (by omega)
  rw [← h19]
  exact List.append_right_inj _

theorem Reconstructs.completed_of_kept (h : Reconstructs cache l L shards)
    (hl : ∀ s ∈ l, s.WellFormed) (hi : i < L.numDataShreds) (hm : present l i = false)
    (hkept : (rebuilt L l shards i).HeaderKept) :
    ∃ s, completed L l shards i = .shredData s ∧ s.commonHeader = (L.blankData i).commonHeader ∧
      s.dataHeader.write = slice (shards.getD i []) 19 24 ∧
      slice s.payload.bytes 0 88 = writeDataHeaders (s.commonHeader, s.dataHeader) := by
  have hin : i < L.numShards := Nat.lt_of_lt_of_le hi (Nat.le_add_right _ _)
  have hkind := @kind_rebuilt_missing l L shards i hi hm
  have hch := @commonHeader_rebuilt_missing l L shards i hi hm
  have hshaped := h.shaped_rebuilt hl hin
  have hbytes := (h.front_rebuilt hl hi hm).2 19 24 (by omega) (by omega)
  rw [completed, ← hbytes]
  cases hr : rebuilt L l shards i with
  | shredCode c =>
      rw [hr] at hkind
      cases hkind
  | shredData s =>
      rw [hr] at hkept hch hshaped
      obtain ⟨dh, hd⟩ := deserialize_of_headerKept hshaped hkept
      obtain ⟨-, -, hw⟩ := deserialize_data_eq_ok.mp hd
      refine ⟨{ s with dataHeader := dh }, by rw [Shred.reparsed, hd], hch, ?_, hw⟩
      have h83 := slice_slice s.payload.bytes 0 88 83 88 (by omega)
      rw [hw, writeDataHeaders, slice_append_right (by simp)] at h83
      simpa [slice_full, Shred.payload] using h83

theorem index_blankData (hL : (Shred.shredCode L).Sane) (hi : i < L.numDataShreds) :
    (L.blankData i).commonHeader.index.toNat = L.commonHeader.fecSetIndex.toNat + i := by
  obtain ⟨hfec, -⟩ := numbers hL
  change (L.commonHeader.fecSetIndex + UInt32.ofNat i).toNat = _
  rw [UInt32.toNat_add, toNat_u32 (by omega)]
  omega

theorem Reconstructs.completed_wellFormed_iff (h : Reconstructs cache l L shards)
    (hl : ∀ s ∈ l, s.WellFormed) (hi : i < L.numDataShreds) (hm : present l i = false)
    (hkept : (rebuilt L l shards i).HeaderKept) :
    ((completed L l shards i).WellFormed ↔ (completed L l shards i).Sane) ∧
    ((completed L l shards i).Sane ↔ ∀ d : DataShredHeader,
      d.write = slice (shards.getD i []) 19 24 →
        d.Sane L.commonHeader.slot (bodyEnd .data L.commonHeader.shredVariant)) := by
  have hL := h.wellFormed_last hl
  have hin : i < L.numShards := Nat.lt_of_lt_of_le hi (Nat.le_add_right _ _)
  have hshaped := h.shaped_completed hl hin
  have hindex := index_blankData hL.sane hi
  obtain ⟨hfec, -⟩ := numbers hL.sane
  obtain ⟨s, hs, hch, hdh, hw⟩ := h.completed_of_kept hl hi hm hkept
  rw [hs] at hshaped ⊢
  refine ⟨⟨fun hwf => hwf.sane, fun hsane => ⟨hshaped, hw, hsane⟩⟩, ?_⟩
  rw [← hch] at hindex
  have hfecs : s.commonHeader.fecSetIndex = L.commonHeader.fecSetIndex := by rw [hch]; rfl
  have hslot : s.commonHeader.slot = L.commonHeader.slot := by rw [hch]; rfl
  have hend : bodyEnd .data s.commonHeader.shredVariant =
      bodyEnd .data L.commonHeader.shredVariant := by rw [hch]; rfl
  constructor
  · rintro ⟨-, -, hsane⟩ d hd
    have he : d = s.dataHeader := DataShredHeader.write_injective (hd.trans hdh.symm)
    rw [he, ← hslot, ← hend]
    exact hsane
  · intro hall
    have hsane := hall s.dataHeader hdh
    rw [← hslot, ← hend] at hsane
    have hlt : s.commonHeader.index.toNat < maxDataShredsPerSlot := by
      rw [maxDataShredsPerSlot]
      omega
    have hle : s.commonHeader.fecSetIndex.toNat ≤ s.commonHeader.index.toNat := by
      rw [hindex, hfecs]
      omega
    exact ⟨hlt, hle, hsane⟩

end Rebuilt

section Agreement
variable {H : Hasher} {cache : ReedSolomonCache} {l : List Shred} {L : ShredCode}
  {shards : List Bytes} {root : Hash} {items : List (Result Shred)} {k : Nat} {s : Shred}

theorem mem_missingData {i : Nat} :
    i ∈ missingData L l ↔ i < L.numDataShreds ∧ present l i = false := mem_missing_iff

theorem missingData_subset {i : Nat} (h : i ∈ missingData L l) : i ∈ missingAt L l := by
  obtain ⟨hi, hm⟩ := mem_missingData.mp h
  exact mem_missing_iff.mpr ⟨Nat.lt_of_lt_of_le hi (Nat.le_add_right _ _), hm⟩

theorem Recovers.dataOnly (h : Recovers H cache l L shards root items) :
    ((missingData L l).filterMap fun i =>
        if (rebuilt L l shards i).HeaderKept then some (completed L l shards i) else none) =
      (missingData L l).map (completed L l shards) := by
  rw [← List.filterMap_eq_map]
  apply List.filterMap_congr
  intro i hi
  have hkept : (rebuilt L l shards i).HeaderKept :=
    headerKept_reparsed.mp (h.wellFormed i (missingData_subset hi)).headerKept
  rw [if_pos hkept, Function.comp_apply]

theorem Reconstructs.proof_completed (h : Reconstructs cache l L shards)
    (hl : ∀ s ∈ l, s.WellFormed) {i : Nat} (hi : i ∈ missingAt L l) :
    (completed L l shards i).part .proof =
      List.replicate (completed L l shards i).variant.proofBytes 0 := by
  obtain ⟨hin, hm⟩ := mem_missing_iff.mp hi
  have hL := (h.wellFormed_last hl).toShaped
  have hfits := h.shard_fits hl hin
  rw [fillAt_of_missing hm] at hfits
  rw [completed, Shred.part_reparsed, rebuilt_of_missing hm,
    (shaped_stubAt hL i).part_withPart_ne hfits (by decide), part_zero_stubAt hL i (.inr rfl)]
  simp only [Region.lo, Region.hi, Nat.add_sub_cancel_left, Shred.variant_reparsed,
    Shred.variant_withPart]

theorem Recovers.item_data (h : Recovers H cache l L shards root items)
    (hl : ∀ s ∈ l, s.WellFormed) (hk : items[k]? = some (.ok s)) (hkind : s.kind = .data) :
    ∃ i b, (missingData L l)[k]? = some i ∧
      Region.proof.lo s.kind s.variant + b.length = Region.proof.hi s.kind s.variant ∧
      s = (completed L l shards i).withPart .proof b := by
  obtain ⟨i, hi, hlen, rfl⟩ := h.item hl hk
  obtain ⟨hin, hm⟩ := mem_missing_iff.mp (List.mem_of_getElem? hi)
  have hid : i < L.numDataShreds := by
    by_contra hge
    rw [Shred.kind_withPart, kind_completed_missing hm, if_neg hge] at hkind
    cases hkind
  refine ⟨i, _, ?_, ?_, rfl⟩
  · -- below the parity positions the two lists of missing positions are the same
    obtain ⟨rest, hrest⟩ : missingData L l <+: missingAt L l := missing_prefix (Nat.le_add_right _ _)
    have hnodup : (missingAt L l).Nodup := (missing_sorted l L.numShards).imp Nat.ne_of_lt
    have hkd : k < (missingData L l).length := by
      by_contra hge
      have hmem : i ∈ missingData L l := mem_missingData.mpr ⟨hid, hm⟩
      obtain ⟨j, hj⟩ := List.mem_iff_getElem?.mp hmem
      have hjlt := (List.getElem?_eq_some_iff.mp hj).1
      have hj' : (missingAt L l)[j]? = some i := by
        rw [← hrest, List.getElem?_append_left hjlt]
        exact hj
      have hjk := (List.nodup_iff_getElem?_ne_getElem?.mp hnodup) j k (by omega)
        (List.getElem?_eq_some_iff.mp hi).1
      exact hjk (hj'.trans hi.symm)
    rwa [← hrest, List.getElem?_append_left hkd] at hi
  · rw [Shred.kind_withPart, Shred.variant_withPart]
    exact proof_fits hlen

end Agreement

/-- Equal headers, and equal bytes everywhere but in the Merkle proof, which `t` has zero. -/
structure EqualButProof (s t : ShredData) : Prop where
  commonHeader : s.commonHeader = t.commonHeader
  dataHeader : s.dataHeader = t.dataHeader
  length : s.payload.len = t.payload.len
  proof : ∃ offset size, (Shred.shredData t).proofOffset = .ok offset ∧
    (Shred.shredData t).proofSize = .ok size ∧
    AgreeOn s.payload.bytes t.payload.bytes 0 offset ∧
    AgreeOn s.payload.bytes t.payload.bytes (offset + 20 * size.toNat) t.payload.len ∧
    slice t.payload.bytes offset (offset + 20 * size.toNat) = List.replicate (20 * size.toNat) 0

theorem equalButProof_withPart {s t : ShredData} {b : Bytes} (ht : (Shred.shredData t).Shaped)
    (hzero : (Shred.shredData t).part .proof =
      List.replicate (Shred.shredData t).variant.proofBytes 0)
    (hb : Region.proof.lo .data (Shred.shredData t).variant + b.length =
      Region.proof.hi .data (Shred.shredData t).variant)
    (hs : Shred.shredData s = (Shred.shredData t).withPart .proof b) : EqualButProof s t := by
  have hagree : ∀ lo hi, _ → AgreeOn _ _ lo hi :=
    fun lo hi => @Shred.Shaped.agreeOn_withPart _ .proof b ht hb lo hi
  have hlen := (ht.withPart (R := .proof) hb).length.trans ht.length.symm
  rw [← hs] at hagree hlen
  cases hs
  have hbytes : 20 * (Shred.shredData t).variant.proofSize.toNat =
    (Shred.shredData t).variant.proofBytes := Nat.mul_comm _ _
  refine ⟨rfl, rfl, hlen, Region.proof.lo .data (Shred.shredData t).variant,
    (Shred.shredData t).variant.proofSize, ht.proofOffset, ht.proofSize,
    hagree _ _ (.inl (Nat.le_refl _)), ?_, ?_⟩
  · rw [hbytes]
    exact hagree _ _ (.inr (Nat.le_refl _))
  · rw [hbytes]
    exact hzero

/-- Where `recover` succeeds, the fast path returns one shred for every missing data position,
in order, and the data shreds of `recover` are these with their proofs written in. -/
theorem recover_data_only_agrees (H : Hasher) (cache : ReedSolomonCache) (srt : ShredSort)
    (l : List Shred) (hl : ∀ s ∈ l, s.Accepted) (items : List (Result Shred))
    (hr : recover H cache srt l = .ok items) :
    ∃ (L : ShredCode) (positions : List Nat) (v : List Shred),
      (sortShreds srt l).getLast? = some (.shredCode L) ∧
      recoverDataOnly cache srt l = .ok v ∧
      positions.Pairwise (· < ·) ∧
      (∀ i, i ∈ positions ↔ i < L.codingHeader.numDataShreds.toNat ∧
        ∀ t ∈ l, t.erasureShardIndex ≠ .ok i) ∧
      v.map Shred.erasureShardIndex = positions.map .ok ∧
      ∀ (k : Nat) (s : ShredData), items[k]? = some (.ok (.shredData s)) →
        ∃ t, v[k]? = some (.shredData t) ∧ EqualButProof s t := by
  have hwf : ∀ s ∈ l, s.WellFormed := fun s hs => Shred.accepted_iff.mp (hl s hs)
  have hsl := @wellFormed_sortShreds srt l hwf
  obtain ⟨L, shards, root, hR⟩ := (recover_eq_ok hwf).mp hr
  refine ⟨L, missingData L (sortShreds srt l),
    (missingData L (sortShreds srt l)).map (completed L (sortShreds srt l) shards), hR.last,
    (recoverDataOnly_eq_ok hwf).mpr ⟨L, shards, hR.toReconstructs, hR.dataOnly.symm⟩,
    missing_sorted _ _, ?_, ?_, ?_⟩
  · intro i
    rw [missingData, mem_missing]
    refine and_congr_right fun _ => ?_
    constructor
    · intro hfree t ht hidx
      rw [(hwf t ht).sane.erasureShardIndex] at hidx
      exact hfree t ((sortShreds_perm srt l).mem_iff.mpr ht) (Except.ok.inj hidx)
    · intro hfree t ht hpos
      have htl := (sortShreds_perm srt l).mem_iff.mp ht
      exact hfree t htl (by rw [(hwf t htl).sane.erasureShardIndex, hpos])
  · rw [List.map_map]
    apply List.map_congr_left
    intro i hi
    have hmiss := missingData_subset hi
    rw [Function.comp_apply, (hR.wellFormed i hmiss).sane.erasureShardIndex,
      hR.position_completed hsl (mem_missing_iff.mp hmiss).1]
  · intro k s hk
    obtain ⟨i, b, hi, hb, hs⟩ := hR.item_data hsl hk rfl
    have hmiss := missingData_subset (List.mem_of_getElem? hi)
    have hshaped := hR.shaped_completed hsl (mem_missing_iff.mp hmiss).1
    have hzero := hR.proof_completed hsl hmiss
    have hget : ((missingData L (sortShreds srt l)).map
        (completed L (sortShreds srt l) shards))[k]? =
        some (completed L (sortShreds srt l) shards i) := by rw [List.getElem?_map, hi]; rfl
    have hvar : (Shred.shredData s).variant = (completed L (sortShreds srt l) shards i).variant := by
      rw [hs, Shred.variant_withPart]
    have hkind : (completed L (sortShreds srt l) shards i).kind = .data := by
      rw [← Shred.kind_withPart _ .proof b, ← hs]
      rfl
    rw [hvar] at hb
    cases hc : completed L (sortShreds srt l) shards i with
    | shredCode c =>
        rw [hc] at hkind
        cases hkind
    | shredData t =>
        rw [hc] at hs hb hshaped hzero hget
        exact ⟨t, hget, equalButProof_withPart hshaped hzero hb hs⟩

/-- The data shred of a batch with three copies, by either path. -/
theorem recover_data_only_agrees_copies :
    ∃ (L : ShredCode) (positions : List Nat) (v : List Shred),
    (sortShreds stableSort threeCopies).getLast? = some (.shredCode L) ∧
    recoverDataOnly replicationCache stableSort threeCopies = .ok v ∧
    v.map Shred.erasureShardIndex = positions.map .ok ∧
    ∀ (k : Nat) (s : ShredData),
      ((plainBatch sha256Hasher 0 3).filter (· ∉ threeCopies))[k]? = some (.shredData s) →
        ∃ t, v[k]? = some (.shredData t) ∧ EqualButProof s t := by
  obtain ⟨L, positions, v, hlast, hv, -, -, hmap, hall⟩ := recover_data_only_agrees sha256Hasher
    replicationCache stableSort _ threeCopies_accepted _ recover_threeCopies
  refine ⟨L, positions, v, hlast, hv, hmap, fun k s hk => hall k s ?_⟩
  rw [List.getElem?_map, hk]
  rfl

section Parsing
variable {cache : ReedSolomonCache} {srt : ShredSort} {l : List Shred}

/-- The shards that come back for missing data positions, where they start with the common
header of their position, go on with a data header that passes the checks of `sanitize`. -/
def RebuiltHeadersSane (cache : ReedSolomonCache) (l : List Shred) : Prop :=
  ∀ L shards, Reconstructs cache l L shards → ∀ i ∈ missingData L l,
    slice (shards.getD i []) 0 19 = L.dataHeaderTail i →
      ∀ d : DataShredHeader, d.write = slice (shards.getD i []) 19 24 →
        d.Sane L.commonHeader.slot (bodyEnd .data L.commonHeader.shredVariant)

/-- The shards that come back for missing data positions start with the common header of
their position. -/
def RebuiltHeadersKept (cache : ReedSolomonCache) (l : List Shred) : Prop :=
  ∀ L shards, Reconstructs cache l L shards → ∀ i ∈ missingData L l,
    slice (shards.getD i []) 0 19 = L.dataHeaderTail i

theorem Recovers.rebuiltHeaders {H : Hasher} {L : ShredCode} {shards : List Bytes} {root : Hash}
    {items : List (Result Shred)} (h : Recovers H cache l L shards root items)
    (hl : ∀ s ∈ l, s.WellFormed) : RebuiltHeadersKept cache l ∧ RebuiltHeadersSane cache l := by
  have hkept : ∀ i ∈ missingData L l, (rebuilt L l shards i).HeaderKept := fun i hi =>
    headerKept_reparsed.mp (h.wellFormed i (missingData_subset hi)).headerKept
  constructor
  · intro L' shards' h' i hi
    obtain ⟨rfl, rfl⟩ := h.unique h'
    obtain ⟨hid, hm⟩ := mem_missingData.mp hi
    exact (h.headerKept_iff hl hid hm).mp (hkept i hi)
  · intro L' shards' h' i hi _
    obtain ⟨rfl, rfl⟩ := h.unique h'
    obtain ⟨hid, hm⟩ := mem_missingData.mp hi
    obtain ⟨-, hsane⟩ := h.completed_wellFormed_iff hl hid hm (hkept i hi)
    exact hsane.mp (h.wellFormed i (missingData_subset hi)).sane

theorem rebuiltHeaders_copies :
    RebuiltHeadersKept replicationCache (sortShreds stableSort threeCopies) ∧
    RebuiltHeadersSane replicationCache (sortShreds stableSort threeCopies) ∧
    ∃ L v, .shredCode L ∈ threeCopies ∧
      recoverDataOnly replicationCache stableSort threeCopies = .ok v := by
  have hwf : ∀ s ∈ threeCopies, s.WellFormed := fun s hs =>
    Shred.accepted_iff.mp (threeCopies_accepted s hs)
  have hrun : recover sha256Hasher replicationCache stableSort _ = .ok _ := recover_threeCopies
  obtain ⟨L, shards, root, hR⟩ := (recover_eq_ok hwf).mp hrun
  obtain ⟨hkept, hsane⟩ := hR.rebuiltHeaders (wellFormed_sortShreds hwf)
  exact ⟨hkept, hsane, L, _,
    (sortShreds_perm stableSort _).mem_iff.mp (List.mem_of_getLast? hR.last),
    (recoverDataOnly_eq_ok hwf).mpr ⟨L, shards, hR.toReconstructs, rfl⟩⟩

theorem mem_recoverDataOnly {L : ShredCode} {shards : List Bytes} {s : Shred} :
    s ∈ ((missingData L l).filterMap fun i =>
        if (rebuilt L l shards i).HeaderKept then some (completed L l shards i) else none) ↔
      ∃ i ∈ missingData L l, (rebuilt L l shards i).HeaderKept ∧ s = completed L l shards i := by
  simp only [List.mem_filterMap, Option.ite_none_right_eq_some, Option.some.injEq,
    eq_comm (a := s)]

theorem recoverDataOnly_single {L : ShredCode} (srt : ShredSort)
    (hL : (Shred.shredCode L).WellFormed) (hnd : L.numDataShreds = 1)
    (hnc : L.codingHeader.numCodingShreds.toNat ≤ 255) :
    ∃ shards, Reconstructs replicationCache [.shredCode L] L shards ∧
      shards.getD 0 [] = (Shred.shredCode L).part .shard ∧
      0 ∈ missingData L [.shredCode L] ∧
      recoverDataOnly replicationCache srt [.shredCode L] =
        .ok (if (rebuilt L [.shredCode L] shards 0).HeaderKept then
          [completed L [.shredCode L] shards 0] else []) := by
  have hl : ∀ s ∈ [Shred.shredCode L], s.WellFormed := by
    intro s hs
    rwa [List.mem_singleton.mp hs]
  obtain ⟨-, -, -, -, hpos, hn⟩ := numbers hL.sane
  have hposition : (Shred.shredCode L).position = 1 + L.codingHeader.position.toNat := by
    rw [← hnd]
    rfl
  have hplace : Placeable L.commonHeader.signature L.numShards [.shredCode L] := by
    refine ⟨?_, List.pairwise_singleton .., ?_⟩
    · intro s hs
      rw [List.mem_singleton.mp hs]
      rfl
    · intro s hs
      rw [List.mem_singleton.mp hs, hposition]
      omega
  have hR := reconstructs_copies hl rfl hplace hnd hnc (w := (Shred.shredCode L).part .shard)
    (by intro s hs; rw [List.mem_singleton.mp hs])
  have hfree : present [.shredCode L] 0 = false := by
    rw [← Bool.not_eq_true, present_iff]
    rintro ⟨s, hs, h0⟩
    rw [List.mem_singleton.mp hs, hposition] at h0
    omega
  have hmissing : missingData L [.shredCode L] = [0] := by
    rw [present, Option.isSome_eq_false_iff] at hfree
    rw [missingData, missing, hnd, List.range_one, List.filter_cons, if_pos hfree, List.filter_nil]
  refine ⟨_, hR, ?_, by rw [hmissing]; exact List.mem_singleton_self 0, ?_⟩
  · rw [List.getD_eq_getElem?_getD, List.getElem?_replicate_of_lt (by omega), Option.getD_some]
  · rw [recoverDataOnly_eq_ok hl]
    have hsort : sortShreds srt [.shredCode L] = [.shredCode L] :=
      sortShreds_of_sorted (List.pairwise_singleton ..)
    rw [hsort]
    refine ⟨L, _, hR, ?_⟩
    rw [hmissing]
    split
    · rename_i hk
      simp [hk]
    · rename_i hk
      simp [hk]

/-- Whether the parser accepts all that the fast path returns: exactly if no shard comes back
with the right common header and a bad data header behind it. -/
theorem recover_data_only_parses_iff (cache : ReedSolomonCache) (srt : ShredSort) (l : List Shred)
    (hl : ∀ s ∈ l, s.Accepted) :
    (∀ v, recoverDataOnly cache srt l = .ok v → ∀ s ∈ v, s.sanitize = .ok () ∧
      Shred.newFromSerializedShred s.payload.bytes = .ok s) ↔
    RebuiltHeadersSane cache (sortShreds srt l) := by
  have hwf : ∀ s ∈ l, s.WellFormed := fun s hs => Shred.accepted_iff.mp (hl s hs)
  have hsl := @wellFormed_sortShreds srt l hwf
  constructor
  · intro hall L shards hR i hi htail
    obtain ⟨hid, hm⟩ := mem_missingData.mp hi
    have hkept := (hR.headerKept_iff hsl hid hm).mpr htail
    obtain ⟨hsanitize, -⟩ := hall _ ((recoverDataOnly_eq_ok hwf).mpr ⟨L, shards, hR, rfl⟩) _
      (mem_recoverDataOnly.mpr ⟨i, hi, hkept, rfl⟩)
    have hin : i < L.numShards := Nat.lt_of_lt_of_le hid (Nat.le_add_right _ _)
    exact (hR.completed_wellFormed_iff hsl hid hm hkept).2.mp
      ((hR.shaped_completed hsl hin).sanitize_eq_ok.mp hsanitize)
  · intro hsane v hv s hs
    obtain ⟨L, shards, hR, rfl⟩ := (recoverDataOnly_eq_ok hwf).mp hv
    obtain ⟨i, hi, hkept, rfl⟩ := mem_recoverDataOnly.mp hs
    obtain ⟨hid, hm⟩ := mem_missingData.mp hi
    obtain ⟨hwfiff, hsaneiff⟩ := hR.completed_wellFormed_iff hsl hid hm hkept
    have hc := hsaneiff.mpr (hsane L shards hR i hi ((hR.headerKept_iff hsl hid hm).mp hkept))
    have hcwf := hwfiff.mpr hc
    exact ⟨hcwf.sanitize_eq_ok.mpr hc, hcwf.reparse⟩

/-- The data shred that the fast path rebuilds from three copies passes the parser. -/
theorem recover_data_only_parses_copies : ∃ v,
    recoverDataOnly replicationCache stableSort threeCopies = .ok v ∧
      ∀ s ∈ v, s.sanitize = .ok () ∧ Shred.newFromSerializedShred s.payload.bytes = .ok s := by
  obtain ⟨-, hsane, L, v, -, hv⟩ := rebuiltHeaders_copies
  exact ⟨v, hv, (recover_data_only_parses_iff replicationCache stableSort _
    threeCopies_accepted).mpr hsane v hv⟩

/-- The only copy of a data shred whose header claims a size of 0, less than its headers. -/
def undersizedCopy : ShredCode :=
  copyShred (plainData 1 0) 0 { numDataShreds := 1, numCodingShreds := 1, position := 0 }

theorem undersizedCopy_wellFormed : (Shred.shredCode undersizedCopy).WellFormed :=
  copyShred_wellFormed (plainData_shaped 0 (by decide)) (by constructor <;> decide)

theorem shard_undersizedCopy :
    slice ((Shred.shredCode undersizedCopy).part .shard) 0 19 = undersizedCopy.dataHeaderTail 0 ∧
      slice ((Shred.shredCode undersizedCopy).part .shard) 19 24 =
        (plainData 1 0).dataHeader.write := by
  have hshaped := plainData_shaped 0 (show (1 : UInt8).toNat < 16 by decide)
  have hend : 700 < Region.shard.hi .data (Shred.shredData (plainData 1 0)).variant :=
    lt_bodyEnd .data hshaped.valid
  have hpart : ∀ lo hi, hi ≤ 24 → slice ((Shred.shredCode undersizedCopy).part .shard) lo hi =
      slice (plainData 1 0).payload.bytes (64 + lo) (64 + hi) := by
    intro lo hi h24
    rw [undersizedCopy, part_copyShred hshaped (by decide)]
    exact slice_slice _ _ _ _ _ (Nat.le_trans (show 64 + hi ≤ 700 by omega) (Nat.le_of_lt hend))
  have hbytes : (plainData 1 0).payload.bytes = writeDataHeaders
    ((plainData 1 0).commonHeader, (plainData 1 0).dataHeader) ++ List.replicate 1115 0 := rfl
  constructor
  · rw [hpart 0 19 (by decide), hbytes, slice_append_left (by simp), writeDataHeaders,
      slice_append_left (by simp), ShredCode.dataHeaderTail]
    change slice (plainData 1 0).commonHeader.write 64 83 = (plainData 1 0).commonHeader.write.drop 64
    rw [slice, List.take_of_length_le (by simp)]
  · rw [hpart 19 24 (by decide), hbytes, slice_append_left (by simp), writeDataHeaders,
      slice_append_right (by simp), ShredCommonHeader.length_write]
    exact slice_full (by simp)

/-- The fast path returns a data shred that neither `sanitize` nor the parser accepts. -/
theorem recover_data_only_unparsed :
    (Shred.shredCode undersizedCopy).Accepted ∧ Agreeing [.shredCode undersizedCopy] ∧
    ∃ s, recoverDataOnly replicationCache stableSort [.shredCode undersizedCopy] = .ok [s] ∧
      s.sanitize ≠ .ok () ∧ Shred.newFromSerializedShred s.payload.bytes ≠ .ok s := by
  have hwf := undersizedCopy_wellFormed
  have hl : ∀ s ∈ [Shred.shredCode undersizedCopy], s.WellFormed := by
    intro s hs
    rwa [List.mem_singleton.mp hs]
  obtain ⟨shards, hR, hshard, hmiss, hrun⟩ := recoverDataOnly_single stableSort hwf rfl (by decide)
  obtain ⟨hid, hm⟩ := mem_missingData.mp hmiss
  have hkept := (hR.headerKept_iff hl hid hm).mpr (by rw [hshard]; exact shard_undersizedCopy.1)
  rw [if_pos hkept] at hrun
  obtain ⟨hwfiff, hsaneiff⟩ := hR.completed_wellFormed_iff hl hid hm hkept
  have hbad : ¬(completed undersizedCopy [.shredCode undersizedCopy] shards 0).Sane := by
    intro hsane
    have hsize := (hsaneiff.mp hsane (plainData 1 0).dataHeader
      (by rw [hshard, shard_undersizedCopy.2])).size.1
    exact absurd hsize (by decide)
  refine ⟨Shred.accepted_iff.mpr hwf, agreeing_singleton _, _, hrun, ?_, ?_⟩
  · have hin : 0 < undersizedCopy.numShards := by decide
    exact fun hok => hbad ((hR.shaped_completed hl hin).sanitize_eq_ok.mp hok)
  · exact fun hok => hbad (Shred.newFromSerializedShred_eq_ok.mp hok).1.sane

end Parsing

section Coverage
variable {cache : ReedSolomonCache} {srt : ShredSort} {l v : List Shred} {L : ShredCode}

def dataIndices (l : List Shred) : List Nat :=
  (l.filter (·.kind = .data)).map (·.commonHeader.index.toNat)

/-- Every data index of the batch occurs exactly once. -/
def CoversData (L : ShredCode) (l : List Shred) : Prop :=
  ∀ i < L.codingHeader.numDataShreds.toNat,
    (dataIndices l).count (L.commonHeader.fecSetIndex.toNat + i) = 1

theorem dataIndices_append (l v : List Shred) :
    dataIndices (l ++ v) = dataIndices l ++ dataIndices v := by
  simp only [dataIndices, List.filter_append, List.map_append]

theorem mem_dataIndices {n : Nat} :
    n ∈ dataIndices l ↔ ∃ s ∈ l, s.kind = .data ∧ s.commonHeader.index.toNat = n := by
  simp only [dataIndices, List.mem_map, List.mem_filter, decide_eq_true_eq, and_assoc]

theorem Shred.WellFormed.index_data {s : Shred} (h : s.WellFormed) (hk : s.kind = .data) :
    s.commonHeader.index.toNat = s.commonHeader.fecSetIndex.toNat + s.position := by
  cases s with
  | shredCode s => cases hk
  | shredData s =>
      have hle := h.sane.2.1
      simp only [Shred.commonHeader, Shred.position]
      omega

theorem nodup_dataIndices (hl : ∀ s ∈ l, s.WellFormed) (hag : Agreeing l)
    (hinc : Increasing Shred.position l) : (dataIndices l).Nodup := by
  refine List.pairwise_map.mpr ((hinc.filter _).imp_of_mem ?_)
  intro a b ha hb hlt heq
  obtain ⟨ha, hka⟩ := List.mem_filter.mp ha
  obtain ⟨hb, hkb⟩ := List.mem_filter.mp hb
  have h1 := (hl a ha).index_data (of_decide_eq_true hka)
  have h2 := (hl b hb).index_data (of_decide_eq_true hkb)
  have hfec := congrArg UInt32.toNat (hag.common a ha b hb).2.2
  omega

theorem mem_dataIndices_given (hl : ∀ s ∈ l, s.WellFormed) (hag : Agreeing l)
    (hL : .shredCode L ∈ l) {i : Nat} (hi : i < L.numDataShreds) :
    L.commonHeader.fecSetIndex.toNat + i ∈ dataIndices l ↔ present l i = true := by
  rw [mem_dataIndices, present_iff]
  constructor
  · rintro ⟨s, hs, hk, hidx⟩
    have h1 := (hl s hs).index_data hk
    have hfec := congrArg UInt32.toNat (hag.common s hs _ hL).2.2
    refine ⟨s, hs, ?_⟩
    simp only [Shred.commonHeader] at hfec h1 hidx
    omega
  · rintro ⟨s, hs, hpos⟩
    have hk : s.kind = .data := by
      cases s with
      | shredData s => rfl
      | shredCode s =>
          have hnd := congrArg UInt16.toNat (hag.coding s L hs hL).1
          simp only [Shred.position, ShredCode.numDataShreds] at hpos hi
          omega
    have h1 := (hl s hs).index_data hk
    have hfec := congrArg UInt32.toNat (hag.common s hs _ hL).2.2
    refine ⟨s, hs, hk, ?_⟩
    simp only [Shred.commonHeader] at hfec h1 ⊢
    omega

theorem Reconstructs.index_completed {shards : List Bytes} (h : Reconstructs cache l L shards)
    (hl : ∀ s ∈ l, s.WellFormed) {i : Nat} (hi : i ∈ missingData L l) :
    (completed L l shards i).kind = .data ∧
      (completed L l shards i).commonHeader.index.toNat =
        L.commonHeader.fecSetIndex.toNat + i := by
  obtain ⟨hid, hm⟩ := mem_missingData.mp hi
  constructor
  · rw [kind_completed_missing hm, if_pos hid]
  · rw [completed, Shred.commonHeader_reparsed, commonHeader_rebuilt_missing hid hm,
      index_blankData (h.wellFormed_last hl).sane hid]

theorem Reconstructs.dataIndices_kept {shards : List Bytes} (h : Reconstructs cache l L shards)
    (hl : ∀ s ∈ l, s.WellFormed) :
    dataIndices ((missingData L l).filterMap fun i =>
        if (rebuilt L l shards i).HeaderKept then some (completed L l shards i) else none) =
      ((missingData L l).filter fun i => (rebuilt L l shards i).HeaderKept).map
        (L.commonHeader.fecSetIndex.toNat + ·) := by
  rw [dataIndices, List.filter_filterMap, ← List.filterMap_eq_map, ← List.filterMap_eq_map,
    List.filterMap_filterMap, List.filterMap_filter]
  apply List.filterMap_congr
  intro i hi
  obtain ⟨hk, hidx⟩ := h.index_completed hl hi
  by_cases hkept : (rebuilt L l shards i).HeaderKept
  · simp [hkept, Option.filter_some, hk, hidx]
  · simp [hkept]

/-- Whether the fast path and its input cover each data index once: exactly if every missing
data shard comes back with the common header of its position. -/
theorem recover_data_only_covers_iff (cache : ReedSolomonCache) (srt : ShredSort) (l : List Shred)
    (hl : ∀ s ∈ l, s.Accepted) (hag : Agreeing l) :
    (∀ L v, .shredCode L ∈ l → recoverDataOnly cache srt l = .ok v → CoversData L (l ++ v)) ↔
    RebuiltHeadersKept cache (sortShreds srt l) := by
  have hwf : ∀ s ∈ l, s.WellFormed := fun s hs => Shred.accepted_iff.mp (hl s hs)
  have hperm := sortShreds_perm srt l
  have hsl := @wellFormed_sortShreds srt l hwf
  have hagl := hag.perm hperm
  -- counting in the input is counting in the sorted list
  have hcount : ∀ v n, (dataIndices (l ++ v)).count n =
      (dataIndices (sortShreds srt l ++ v)).count n := by
    intro v n
    exact (((hperm.symm.append_right v).filter _).map _).count_eq n
  constructor
  · intro hall L shards hR i hi
    have hL : Shred.shredCode L ∈ sortShreds srt l := List.mem_of_getLast? hR.last
    obtain ⟨hid, hm⟩ := mem_missingData.mp hi
    have hcov := hall L _ (hperm.mem_iff.mp hL) ((recoverDataOnly_eq_ok hwf).mpr ⟨L, shards, hR, rfl⟩)
      i hid
    rw [hcount, dataIndices_append, hR.dataIndices_kept hsl] at hcov
    have hmem := List.count_pos_iff.mp (by rw [hcov]; exact Nat.one_pos)
    rcases List.mem_append.mp hmem with hgiven | hkept
    · rw [mem_dataIndices_given hsl hagl hL hid, hm] at hgiven
      cases hgiven
    · obtain ⟨j, hj, hij⟩ := List.mem_map.mp hkept
      obtain ⟨-, hk⟩ := List.mem_filter.mp hj
      obtain rfl : j = i := by omega
      exact (hR.headerKept_iff hsl hid hm).mp (of_decide_eq_true hk)
  · intro hkept L v hL hv i hi
    obtain ⟨L', shards, hR, rfl⟩ := (recoverDataOnly_eq_ok hwf).mp hv
    have hL' : Shred.shredCode L' ∈ sortShreds srt l := List.mem_of_getLast? hR.last
    have hall : ((missingData L' (sortShreds srt l)).filter fun i =>
        (rebuilt L' (sortShreds srt l) shards i).HeaderKept) =
        missingData L' (sortShreds srt l) := by
      refine List.filter_eq_self.mpr fun j hj => ?_
      obtain ⟨hjd, hjm⟩ := mem_missingData.mp hj
      exact decide_eq_true ((hR.headerKept_iff hsl hjd hjm).mpr (hkept L' shards hR j hj))
    have hnd := congrArg UInt16.toNat (hagl.coding L L' (hperm.mem_iff.mpr hL) hL').1
    have hid : i < L'.numDataShreds := by
      rw [ShredCode.numDataShreds, ← hnd]
      exact hi
    have hfec : L.commonHeader.fecSetIndex = L'.commonHeader.fecSetIndex :=
      (hagl.common _ (hperm.mem_iff.mpr hL) _ hL').2.2
    rw [hcount, dataIndices_append, hR.dataIndices_kept hsl, hall, hfec]
    refine List.count_eq_one_of_mem ?_ ?_
    · refine List.nodup_append'.mpr ⟨nodup_dataIndices hsl hagl hR.placeable.increasing, ?_, ?_⟩
      · have hnodup : (missingData L' (sortShreds srt l)).Nodup :=
          (missing_sorted _ _).imp Nat.ne_of_lt
        exact hnodup.map fun a b h => Nat.add_left_cancel h
      · intro n hn hn'
        obtain ⟨j, hj, rfl⟩ := List.mem_map.mp hn'
        obtain ⟨hjd, hjm⟩ := mem_missingData.mp hj
        rw [mem_dataIndices_given hsl hagl hL' hjd, hjm] at hn
        cases hn
    · rw [List.mem_append, mem_dataIndices_given hsl hagl hL' hid]
      cases hp : present (sortShreds srt l) i with
      | true => exact .inl rfl
      | false => exact .inr (List.mem_map_of_mem (mem_missingData.mpr ⟨hid, hp⟩))

/-- The data shred rebuilt from three copies covers the only data index. -/
theorem recover_data_only_covers_copies : ∃ L v, .shredCode L ∈ threeCopies ∧
    recoverDataOnly replicationCache stableSort threeCopies = .ok v ∧
      CoversData L (threeCopies ++ v) := by
  obtain ⟨hkept, -, L, v, hL, hv⟩ := rebuiltHeaders_copies
  exact ⟨L, v, hL, hv, (recover_data_only_covers_iff replicationCache stableSort _
    threeCopies_accepted threeCopies_agreeing).mpr hkept L v hL hv⟩

/-- A coding shred whose shard is zero, which is the shard of no data shred. -/
def zeroCopy : ShredCode :=
  copyShred { plainData 1 88 with payload := ⟨List.replicate 1203 0⟩ } 0
    { numDataShreds := 1, numCodingShreds := 1, position := 0 }

theorem zeroCopy_shaped :
    (Shred.shredData { plainData 1 88 with payload := ⟨List.replicate 1203 0⟩ }).Shaped :=
  ⟨rfl, show (1 : UInt8).toNat < 16 by decide, List.length_replicate ..⟩

/-- The fast path succeeds without the only data shred of the batch. -/
theorem recover_data_only_loses :
    (Shred.shredCode zeroCopy).Accepted ∧ Agreeing [.shredCode zeroCopy] ∧
    recoverDataOnly replicationCache stableSort [.shredCode zeroCopy] = .ok [] ∧
    ¬CoversData zeroCopy ([.shredCode zeroCopy] ++ []) := by
  have hwf : (Shred.shredCode zeroCopy).WellFormed :=
    copyShred_wellFormed zeroCopy_shaped (by constructor <;> decide)
  have hl : ∀ s ∈ [Shred.shredCode zeroCopy], s.WellFormed := by
    intro s hs
    rwa [List.mem_singleton.mp hs]
  obtain ⟨shards, hR, hshard, hmiss, hrun⟩ := recoverDataOnly_single stableSort hwf rfl (by decide)
  obtain ⟨hid, hm⟩ := mem_missingData.mp hmiss
  have hlost : ¬(rebuilt zeroCopy [.shredCode zeroCopy] shards 0).HeaderKept := by
    rw [hR.headerKept_iff hl hid hm, hshard, zeroCopy, part_copyShred zeroCopy_shaped (by decide)]
    decide +kernel
  rw [if_neg hlost] at hrun
  refine ⟨Shred.accepted_iff.mpr hwf, agreeing_singleton _, hrun, fun hcov => ?_⟩
  have hnone := hcov 0 (by decide)
  simp [dataIndices, Shred.kind] at hnone

end Coverage

end LightweightShred
