import LightweightShred.Relayed
import LightweightShred.FastPath
import LightweightShred.Identities
import LightweightShred.Encoding

/-!
# What the fast path delivers

`recover_data_only` checks no Merkle root. Where its input has been verified it need not: the
data shreds it returns are those of the leader, with zeros in place of the proof.
-/
namespace LightweightShred
open ByteString Rust Codec Slots HashTree HashScheme

/-- The accepted data shred `b`, but for the proof and the retransmitter's signature. -/
structure Delivers (t b : Shred) : Prop where
  accepted : t.Accepted
  commonHeader : t.commonHeader = b.commonHeader
  content : SameContent t b
  data : ∃ d e, t = .shredData d ∧ b = .shredData e ∧ d.dataHeader = e.dataHeader ∧ d.data = e.data

section Content
variable {s t u : Shred} {d e : ShredData}

theorem SameContent.data_eq (h : SameContent (.shredData d) (.shredData e))
    (hd : (Shred.shredData d).Shaped) (he : (Shred.shredData e).Shaped)
    (hcommon : d.commonHeader = e.commonHeader) (hheader : d.dataHeader = e.dataHeader) :
    d.data = e.data := by
  obtain ⟨offset, hoffset, hagree⟩ := h.content
  rw [hd.proofOffset] at hoffset
  obtain rfl := Except.ok.inj hoffset
  have hlen : d.payload.bytes.length = e.payload.bytes.length := hd.length.trans he.length.symm
  have hfields : variantFields .data d.commonHeader.shredVariant = _ := hd.variantFields
  rw [ShredData.data, ShredData.data, ← hcommon, ← hheader, hfields]
  simp only [bind, Except.bind, ShredData.getData, capacity_eq hd.valid, hlen]
  have hle : bodyEnd .data (Shred.shredData d).variant ≤
      Region.proof.lo .data (Shred.shredData d).variant := Nat.le_add_right _ _
  have hbody : sizeOfHeaders .data = 88 := rfl
  have hlt := lt_bodyEnd .data hd.valid
  by_cases hsize : d.dataHeader.size.toNat ≤ bodyEnd .data (Shred.shredData d).variant
  · have hstart : sizeOfSignature ≤ sizeOfHeaders .data := by decide
    have hdata : slice? d.payload.bytes (sizeOfHeaders .data) d.dataHeader.size.toNat =
        slice? e.payload.bytes (sizeOfHeaders .data) d.dataHeader.size.toNat :=
      (hagree.mono hstart (Nat.le_trans hsize hle)).slice?_eq hlen
    rw [hdata]
  · rw [if_neg (by omega), if_neg (by omega)]

/-- Of a shred with another proof and its own headers, all that comes before the proof is known. -/
theorem sameContent_withPart_proof {b : Bytes} (ht : t.Shaped)
    (hb : Region.proof.lo t.kind t.variant + b.length = Region.proof.hi t.kind t.variant) :
    SameContent t (t.withPart .proof b) where
  shredType := congrArg ShredVariant.shredType (Shred.variant_withPart ..).symm
  proofOffset := by
    rw [ht.proofOffset, (ht.withPart hb).proofOffset, Shred.kind_withPart, Shred.variant_withPart]
  content := ⟨_, ht.proofOffset, (ht.agreeOn_withPart hb (.inl (Nat.le_refl _))).symm⟩

theorem SameContent.trans (h : SameContent s t) (k : SameContent t u) : SameContent s u where
  shredType := h.shredType.trans k.shredType
  proofOffset := h.proofOffset.trans k.proofOffset
  content := by
    obtain ⟨offset, hoffset, hst⟩ := h.content
    obtain ⟨offset', hoffset', htu⟩ := k.content
    rw [← h.proofOffset, hoffset] at hoffset'
    cases hoffset'
    exact ⟨offset, hoffset, fun i h1 h2 => (hst i h1 h2).trans (htu i h1 h2)⟩

theorem delivers_of_proven {b : Bytes} (ht : (Shred.shredData d).WellFormed) (hu : u.WellFormed)
    (hb : Region.proof.lo .data (Shred.shredData d).variant + b.length =
      Region.proof.hi .data (Shred.shredData d).variant)
    (hsame : SameUnderRoot ((Shred.shredData d).withPart .proof b) u)
    (hsig : d.commonHeader.signature = u.signature) : Delivers (.shredData d) u := by
  have hcommon : d.commonHeader = u.commonHeader := hsame.commonHeader_eq hsig
  have hcontent : SameContent (.shredData d) u :=
    (sameContent_withPart_proof ht.toShaped hb).trans hsame.content
  refine ⟨Shred.accepted_iff.mpr ht, hcommon, hcontent, ?_⟩
  cases u with
  | shredCode c =>
      have hkind := hcontent.shredType
      exact ShredType.noConfusion (ht.kind.symm.trans (hkind.trans hu.kind))
  | shredData e =>
      have hheader := hsame.dataHeader _ e rfl rfl
      change d.dataHeader = e.dataHeader at hheader
      exact ⟨d, e, rfl, rfl, hheader, hcontent.data_eq ht.toShaped hu.toShaped hcommon hheader⟩

end Content

section Batch
variable {H : Hasher} {cache : ReedSolomonCache} {srt : ShredSort}
  {parity : List Bytes → List Bytes} {numData numCoding : Nat} {B l : List Shred}

theorem ConsistentBatch.getElem?_getD (hB : ConsistentBatch parity numData numCoding B) (b₀ : Shred) {i : Nat}
    (hi : i < numData) : B[i]? = some (B.getD i b₀) := by
  rw [List.getD_eq_getElem?_getD, List.getElem?_eq_getElem (by rw [hB.length]; omega),
    Option.getD_some]

theorem ConsistentBatch.filter_take (hB : ConsistentBatch parity numData numCoding B) (b₀ : Shred) :
    ((B.take numData).filter fun b => b.position ∉ l.map Shred.position) =
      (missing Shred.position l numData).map fun i => B.getD i b₀ := by
  have hlen : (B.take numData).length = numData := by
    rw [List.length_take, hB.length]
    omega
  have htake : B.take numData = (List.range numData).map fun i => B.getD i b₀ := by
    conv_lhs => rw [eq_map_range hlen b₀]
    refine List.map_congr_left fun i hi => ?_
    rw [List.getD_eq_getElem?_getD, List.getD_eq_getElem?_getD,
      List.getElem?_take_of_lt (List.mem_range.mp hi)]
  rw [htake, List.filter_map, missing]
  congr 1
  refine List.filter_congr fun i hi => ?_
  rw [Function.comp_apply, hB.position_getElem? (hB.getElem?_getD b₀ (List.mem_range.mp hi))]
  cases hh : held Shred.position l i with
  | none =>
      refine decide_eq_true fun hmem => ?_
      obtain ⟨s, hs, hpos⟩ := List.mem_map.mp hmem
      exact held_eq_none.mp hh s hs hpos
  | some s =>
      exact decide_eq_false fun hfree => hfree (List.mem_map.mpr ⟨s, mem_of_held hh, key_of_held hh⟩)

theorem Recovers.exists_yielded {L : ShredCode} {shards : List Bytes} {root : Hash} {ys : List Shred}
    {i : Nat} (h : Recovers H cache l L shards root (ys.map .ok)) (hl : ∀ s ∈ l, s.WellFormed)
    (hi : i ∈ missingAt L l) :
    ∃ (k : Nat) (y : Shred), (missingAt L l)[k]? = some i ∧ ys[k]? = some y ∧ y.position = i := by
  obtain ⟨k, hk⟩ := List.mem_iff_getElem?.mp hi
  have hy := congrArg (fun p : List Nat => p[k]?) (h.position_yielded hl)
  simp only [List.getElem?_map, hk, Option.map_eq_some_iff] at hy
  obtain ⟨y, hy, hpos⟩ := hy
  exact ⟨k, y, hk, hy, hpos⟩

theorem ConsistentBatch.numDataShreds_eq (hB : ConsistentBatch parity numData numCoding B)
    {L : ShredCode} {b : Shred} (hb : b ∈ B) (hL : (Shred.shredCode L).WellFormed)
    (hsame : SameUnderRoot (.shredCode L) b) : L.numDataShreds = numData := by
  have hkind := hsame.content.shredType
  cases b with
  | shredData e =>
      exact ShredType.noConfusion (hL.kind.symm.trans (hkind.trans (hB.wellFormed hb).kind))
  | shredCode c =>
      rw [ShredCode.numDataShreds, hsame.codingHeader L c rfl rfl, (hB.code_header hb).1]

theorem Recovers.delivers {L : ShredCode} {shards : List Bytes} {root : Hash} {ys : List Shred}
    {i : Nat} {b : Shred} (h : Recovers H cache l L shards root (ys.map .ok))
    (hl : ∀ s ∈ l, s.WellFormed) (hB : ConsistentBatch parity numData numCoding B)
    (hys : ∀ y ∈ ys, ∃ b ∈ B, SameUnderRoot y b ∧ y.signature = b.signature)
    (hi : i ∈ missingData L l) (hb : B[i]? = some b) : Delivers (completed L l shards i) b := by
  obtain ⟨hid, hm⟩ := mem_missingData.mp hi
  have hmiss := missingData_subset hi
  obtain ⟨k, y, hk, hy, hpos⟩ := h.exists_yielded hl hmiss
  obtain ⟨j, hj, hlen, hyitem⟩ := h.item hl (getElem?_yielded hy)
  obtain rfl : j = i := Option.some.inj (hj.symm.trans hk)
  obtain ⟨c, hc, hyc, hysig⟩ := hys y (List.mem_of_getElem? hy)
  have hwy := h.item_wellFormed hl (getElem?_yielded hy)
  -- what is yielded at this position is the shred of the batch, with the proof that is missing here
  obtain rfl : c = b := by
    refine hB.position_injective hc (List.mem_of_getElem? hb) ?_
    rw [← hyc.position hwy (hB.wellFormed hc), hpos, hB.position_getElem? hb]
  have hwt := h.wellFormed j hmiss
  have hkind : (completed L l shards j).kind = .data := by
    rw [kind_completed_missing hm, if_pos hid]
  have hfits := proof_fits hlen
  rw [hyitem] at hyc hysig
  cases hcompleted : completed L l shards j with
  | shredCode c =>
      rw [hcompleted] at hkind
      cases hkind
  | shredData d =>
      rw [hcompleted] at hyc hwt hysig hfits
      exact delivers_of_proven hwt (hB.wellFormed hc) hfits hyc hysig

theorem CompleteBatch.dataOnly_relayed (hB : CompleteBatch H parity numData numCoding B)
    (hcodec : CodecCorrect cache numData numCoding parity) (hl : ∀ s ∈ l, s.WellFormed)
    (hsame : ∀ s ∈ l, ∃ b ∈ B, SameUnderRoot s b ∧ s.signature = b.signature)
    (hpos : (l.map Shred.position).Nodup) (hn : numData ≤ l.length) (hcode : ∃ s ∈ l, s.kind = .code) :
    ∃ v, recoverDataOnly cache srt l = .ok v ∧ List.Forall₂ Delivers v
      ((B.take numData).filter fun b => b.position ∉ l.map Shred.position) := by
  have hperm := sortShreds_perm srt l
  have hsl := @wellFormed_sortShreds srt l hl
  obtain ⟨ys, hr, hys⟩ := @CompleteBatch.recover_relayed H cache srt _ _ _ _ _ hB hcodec hl hsame
    hpos hn hcode
  obtain ⟨L, shards, root, hR⟩ := (recover_eq_ok hl).mp hr
  have hL := hperm.mem_iff.mp (List.mem_of_getLast? hR.last)
  have hnd : L.numDataShreds = numData := by
    obtain ⟨b, hb, hLb, -⟩ := hsame _ hL
    exact hB.numDataShreds_eq hb (hl _ hL) hLb
  have hyielded : ∀ y ∈ ys, ∃ b ∈ B, SameUnderRoot y b ∧ y.signature = b.signature := by
    intro y hy
    obtain ⟨b, hb, hyb⟩ := forall₂_mem_right hys.flip hy
    exact ⟨b, (List.mem_filter.mp hb).1, hyb⟩
  refine ⟨_, (recoverDataOnly_eq_ok hl).mpr ⟨L, shards, hR.toReconstructs, rfl⟩, ?_⟩
  have hplaces : (B.take numData).filter (fun b => b.position ∉ l.map Shred.position) =
      (missingData L (sortShreds srt l)).map fun i => B.getD i (.shredCode L) := by
    rw [missingData, hnd, ← hB.filter_take]
    exact List.filter_congr fun b _ => by rw [decide_eq_decide, (hperm.map Shred.position).mem_iff]
  rw [hR.dataOnly, hplaces, List.forall₂_map_left_iff, List.forall₂_map_right_iff]
  refine List.forall₂_same.mpr fun i hi => ?_
  obtain ⟨hid, -⟩ := mem_missingData.mp hi
  exact hR.delivers hsl hB.toConsistentBatch hyielded hi (hB.getElem?_getD _ (hnd ▸ hid))

end Batch

/-- Where the input has been verified the fast path delivers: from enough accepted shreds under the
root and the signature of a published batch, at distinct places and with a coding shred among
them, it returns the missing data shreds of the leader, in order and but for their proofs and the
retransmitter's signature, unless two of the hashed strings collide. -/
theorem verified_fast_path_delivers (H : Hasher) (cache : ReedSolomonCache) (srt : ShredSort)
    (P : PublishedBatch H) (hcodec : CodecCorrect cache P.numData P.numCoding P.parity)
    (l : List Shred) (hl : ∀ s ∈ l, s.Accepted) (hroot : ∀ s ∈ l, s.merkleRoot H = .ok P.root)
    (hsig : ∀ s ∈ l, s.signature = P.signature)
    (hplaces : (l.map Shred.erasureShardIndex).Nodup) (hn : P.numData ≤ l.length)
    (hcode : ∃ s ∈ l, s.kind = .code) :
    (∃ v, recoverDataOnly cache srt l = .ok v ∧ List.Forall₂ Delivers v
      ((P.shreds.take P.numData).filter fun b => b.position ∉ l.map Shred.position)) ∨
    (scheme H).Collision (seenStrings H [P] l) := by
  by_cases hcoll : (scheme H).Collision (seenStrings H [P] l)
  · exact .inr hcoll
  left
  have hwf : ∀ s ∈ l, s.WellFormed := fun s hs => Shred.accepted_iff.mp (hl s hs)
  exact P.complete.dataOnly_relayed hcodec hwf (P.same_of_no_collision hwf hroot hsig hcoll)
    (nodup_positions hwf hplaces) hn hcode

/-- The first data shred comes back. -/
theorem verified_fast_path_delivers_fixed : ∃ P : PublishedBatch sha256Hasher,
    P.shreds = fixedBatch ∧ P.numData = 32 ∧
      ((∃ v, recoverDataOnly interpolationCache stableSort fixedPart = .ok v ∧
        List.Forall₂ Delivers v ((P.shreds.take P.numData).filter
          fun b => b.position ∉ fixedPart.map Shred.position)) ∨
      (scheme sha256Hasher).Collision (seenStrings sha256Hasher [P] fixedPart)) := by
  obtain ⟨P, hshreds, hparity, hdata, hcoding⟩ := fixedBatch_complete.exists_published
  have hmem : ∀ s ∈ fixedPart, s ∈ P.shreds := fun s hs => hshreds ▸ fixedPart_sublist.subset hs
  have hcodec : CodecCorrect interpolationCache P.numData P.numCoding P.parity := by
    rw [hparity, hdata, hcoding]
    exact interpolationCache_correct (by decide) (by decide) (by decide)
  have hplaces : (fixedPart.map Shred.erasureShardIndex).Nodup := by
    refine List.Nodup.map_on (fun s hs t ht h => ?_) (fixedBatch_complete.nodup.sublist
      fixedPart_sublist)
    have hs := fixedPart_sublist.subset hs
    have ht := fixedPart_sublist.subset ht
    rw [(fixedBatch_complete.wellFormed hs).sane.erasureShardIndex,
      (fixedBatch_complete.wellFormed ht).sane.erasureShardIndex] at h
    exact fixedBatch_complete.position_injective hs ht (Except.ok.inj h)
  obtain ⟨c, hc⟩ := exists_code_fixedPart
  exact ⟨P, hshreds, hdata, verified_fast_path_delivers sha256Hasher interpolationCache stableSort P
    hcodec fixedPart (fun s hs => P.complete.accepted s (hmem s hs))
    (fun s hs => P.complete.merkleRoot_eq P.hasRoot (hmem s hs)) (fun s hs => P.signed s (hmem s hs))
    hplaces (by rw [hdata, length_fixedPart]; decide) ⟨_, hc, rfl⟩⟩

end LightweightShred
