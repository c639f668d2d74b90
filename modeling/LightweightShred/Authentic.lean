import LightweightShred.Sorting

/-!
# What a recovered shred is worth

A shred that `recover` yields has its own leaf in the tree and its own proof from it, so it
vouches for the root of the last coding shred, under that shred's signature.
-/
namespace LightweightShred
open ByteString Rust Slots HashTree

section Items
variable {H : Hasher} {cache : ReedSolomonCache} {l : List Shred} {L : ShredCode}
  {shards : List Bytes} {root : Hash} {items : List (Result Shred)} {i k : Nat} {s : Shred}

theorem length_treeProof (h : Reconstructs cache l L shards) (hl : ∀ s ∈ l, s.WellFormed) :
    (treeProof H L l shards i).length = depth L.numShards := by
  rw [treeProof, List.length_map, length_path _ (h.leafNodes_ne hl)]

theorem proof_fits {t : Shred} {es : List MerkleProofEntry}
    (hes : es.length = t.variant.proofSize.toNat) :
    Region.proof.lo t.kind t.variant + (es.map Subtype.val).flatten.length =
      Region.proof.hi t.kind t.variant := by
  rw [Shred.length_entries, hes]
  rfl

theorem part_proof_fits (b : Shred) : Region.proof.lo b.kind b.variant +
    (List.replicate b.variant.proofBytes (0 : UInt8)).length = Region.proof.hi b.kind b.variant := by
  rw [List.length_replicate]
  rfl

theorem Recovers.item (h : Recovers H cache l L shards root items) (hl : ∀ s ∈ l, s.WellFormed)
    (hk : items[k]? = some (.ok s)) :
    ∃ i, (missingAt L l)[k]? = some i ∧ (treeProof H L l shards i).length =
        (completed L l shards i).variant.proofSize.toNat ∧
      s = (completed L l shards i).withPart .proof
        ((treeProof H L l shards i).map Subtype.val).flatten := by
  rw [h.items, List.getElem?_map, Option.map_eq_some_iff] at hk
  obtain ⟨i, hi, hs⟩ := hk
  have hin := (mem_missing_iff.mp (List.mem_of_getElem? hi)).1
  obtain ⟨hlen, rfl⟩ := (h.shaped_completed hl hin).setMerkleProof_eq_ok.mp hs
  exact ⟨i, hi, hlen, rfl⟩

theorem getElem?_leafNodes (hi : i < L.numShards) : (leafNodes H L l shards)[i]? =
    some (H.sha256 (leafPreimage (completed L l shards i).leaf)) := by
  simp [leafNodes, hi]

theorem merkleRoot_of_treeProof {t : Shred} (ht : t.Shaped) (hi : i < L.numShards)
    (hindex : t.erasureShardIndex = .ok i) (hleaf : t.leaf = (completed L l shards i).leaf)
    (hproof : t.merkleProof = .ok (treeProof H L l shards i))
    (htop : level (scheme H).join (depth L.numShards) (leafNodes H L l shards) = [root]) :
    t.merkleRoot H = .ok root := by
  refine ht.merkleRoot_eq_ok.mpr ⟨i, _, hindex, hproof, ?_⟩
  rw [hleaf]
  have hlen := length_leafNodes H L l shards
  have hpath := @getMerkleRoot_path H (leafNodes H L l shards) i _ root (getElem?_leafNodes hi)
    (by rw [hlen]; exact htop)
  rwa [hlen] at hpath

theorem Shred.WellFormed.withPart {t : Shred} (ht : t.WellFormed) {R : Region} {b : Bytes}
    (hR : sizeOfHeaders t.kind ≤ R.lo t.kind t.variant)
    (hb : R.lo t.kind t.variant + b.length = R.hi t.kind t.variant) : (t.withPart R b).WellFormed where
  toShaped := ht.toShaped.withPart hb
  headers := by
    rw [Shred.kind_withPart, Shred.writeHeaders_withPart, ← ht.headers]
    exact (ht.toShaped.agreeOn_withPart hb (.inl hR)).slice_eq
  sane := by simpa using ht.sane

theorem headers_le_proof {t : Shred} (ht : t.Shaped) :
    sizeOfHeaders t.kind ≤ Region.proof.lo t.kind t.variant := by
  have hb := headers_le_bodyEnd t.kind ht.valid
  simp only [Region.lo]
  omega

theorem Recovers.item_wellFormed (h : Recovers H cache l L shards root items)
    (hl : ∀ s ∈ l, s.WellFormed) (hk : items[k]? = some (.ok s)) : s.WellFormed := by
  obtain ⟨i, hi, hlen, rfl⟩ := h.item hl hk
  have hwf := h.wellFormed i (List.mem_of_getElem? hi)
  exact hwf.withPart (headers_le_proof hwf.toShaped) (proof_fits hlen)

theorem Recovers.item_position (h : Recovers H cache l L shards root items)
    (hl : ∀ s ∈ l, s.WellFormed) (hk : items[k]? = some (.ok s)) :
    (missingAt L l)[k]? = some s.position := by
  obtain ⟨i, hi, hlen, rfl⟩ := h.item hl hk
  have hin := (mem_missing_iff.mp (List.mem_of_getElem? hi)).1
  rw [Shred.position_withPart, h.position_completed hl hin, hi]

theorem Recovers.item_merkleRoot (h : Recovers H cache l L shards root items)
    (hl : ∀ s ∈ l, s.WellFormed) (hk : items[k]? = some (.ok s)) : s.merkleRoot H = .ok root := by
  have hwf := h.item_wellFormed hl hk
  have hpos := h.item_position hl hk
  obtain ⟨i, hi, hlen, rfl⟩ := h.item hl hk
  have hin := (mem_missing_iff.mp (List.mem_of_getElem? hi)).1
  have hshaped := h.shaped_completed hl hin
  have hpos' : i = _ := Option.some.inj (hi.symm.trans hpos)
  refine merkleRoot_of_treeProof hwf.toShaped hin ?_ (hshaped.leaf_withPart_proof (proof_fits hlen))
    (hwf.toShaped.merkleProof_eq_ok.mpr ⟨?_, ?_⟩) h.tree
  · rw [hwf.sane.erasureShardIndex, ← hpos']
  · rw [Shred.variant_withPart, hlen]
  · rw [hshaped.part_withPart (proof_fits hlen)]

theorem Recovers.item_sameBatch (h : Recovers H cache l L shards root items)
    (hl : ∀ s ∈ l, s.WellFormed) (hk : items[k]? = some (.ok s)) :
    SameBatch s (.shredCode L) := by
  obtain ⟨i, hi, hlen, rfl⟩ := h.item hl hk
  obtain ⟨hin, hm⟩ := mem_missing_iff.mp (List.mem_of_getElem? hi)
  have hshaped := h.shaped_completed hl hin
  obtain ⟨h1, h2, h3, h4, h5, h6, h7, h8⟩ := h.sameBatch_completed hl hin hm
  refine ⟨?_, ?_, ?_, ?_, ?_, ?_, ?_, ?_⟩
  · simpa only [Shred.signature, Shred.commonHeader_withPart] using h1
  · simpa only [Shred.commonHeader_withPart] using h2
  · simpa only [Shred.commonHeader_withPart] using h3
  · simpa only [Shred.fecSetIndex, Shred.commonHeader_withPart] using h4
  · simpa only [Shred.variant_withPart] using h5
  · simpa only [Shred.variant_withPart] using h6
  · rw [hshaped.part_withPart_ne (proof_fits hlen) (by decide), h7]
  · rw [hshaped.part_withPart_ne (proof_fits hlen) (by decide), h8]

end Items

section SameBatch
variable {s t : Shred}

theorem SameBatch.chainedMerkleRoot_eq (h : SameBatch s t) (hs : s.Shaped) (ht : t.Shaped) :
    s.chainedMerkleRoot = t.chainedMerkleRoot := by
  obtain ⟨root, hroot⟩ := ht.exists_chainedMerkleRoot
  rw [hroot, hs.chainedMerkleRoot_eq_ok, h.chainedRoot, ht.chainedMerkleRoot_eq_ok.mp hroot]

theorem SameBatch.retransmitterSignature_eq (h : SameBatch s t) (hs : s.Shaped) (ht : t.Shaped) :
    s.retransmitterSignature = t.retransmitterSignature := by
  cases hr : t.variant.resigned with
  | false =>
      rw [hs.retransmitterSignature_fail (h.resigned.trans hr), ht.retransmitterSignature_fail hr]
  | true =>
      obtain ⟨signature, hsig⟩ := ht.exists_retransmitterSignature hr
      rw [hsig, hs.retransmitterSignature_eq_ok, h.retransmitter]
      exact ⟨h.resigned.trans hr, (ht.retransmitterSignature_eq_ok.mp hsig).2⟩

end SameBatch

end LightweightShred
