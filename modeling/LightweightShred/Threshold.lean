import LightweightShred.Settled
import LightweightShred.Encoding

/-!
# Recovery at the threshold

Given just as many shreds as there is data, `recover` decides whether they are of a well encoded
batch: it succeeds if there is a batch of theirs under the root that the last coding shred
vouches for, and what it completes is such a batch.
-/
namespace LightweightShred
open ByteString Rust Codec Slots HashTree

/-- From just as many shards as there is data the codec makes a codeword. -/
def CodecExtends (cache : ReedSolomonCache) (numData numCoding : Nat)
    (parity : List Bytes → List Bytes) : Prop :=
  ∀ codec, cache.new numData numCoding = .ok codec →
    ∀ (size : Nat) (given : List (Bytes × Bool)) (word : List Bytes), 0 < size →
      given.length = numData + numCoding → (∀ g ∈ given, g.1.length = size) →
      given.countP (·.2) = numData → codec.reconstruct given = .ok word →
      word.drop numData = parity (word.take numData)

theorem interpolationCache_extends {d p : Nat} :
    CodecExtends interpolationCache d p (codeParity d p) := by
  intro codec hnew size given word _ hlen hsize hcount hword
  obtain ⟨hd, -, hn, rfl⟩ := interpolationCache_new.mp hnew
  obtain ⟨-, -, rfl⟩ := interpolateShards_eq_ok.mp hword
  exact ErasureCode.reconstruct_word (codePoint_injOn hn) hd hlen hsize hcount

/-- Shreds that could be of one batch: nothing in their headers tells them apart, and they carry
one chained root and one retransmitter's signature. -/
structure OfOneBatch (L : ShredCode) (l : List Shred) : Prop where
  agreeing : Agreeing l
  consistent : IndicesConsistent L l
  carried : ∀ s ∈ l, ∀ t ∈ l, s.chainedMerkleRoot = t.chainedMerkleRoot ∧
    s.retransmitterSignature = t.retransmitterSignature

/-- The last coding shred of a list vouches for the root of a batch. -/
def VouchesFor (H : Hasher) (l B : List Shred) : Prop :=
  ∃ tree root, MerkleTree.tryNew H (B.map (Shred.merkleNode H)) = .ok tree ∧
    tree.root = .ok root ∧ ∀ c : ShredCode, .shredCode c ∈ l →
      (∀ s ∈ l, s.position ≤ (Shred.shredCode c).position) →
      (Shred.shredCode c).merkleRoot H = .ok root

section Completed
variable {H : Hasher} {cache : ReedSolomonCache} {srt : ShredSort}
  {parity : List Bytes → List Bytes} {l ys m B : List Shred} {L : ShredCode} {shards : List Bytes}
  {root : Hash} {s : Shred} {i : Nat}

theorem Recovers.shard_completed (h : Recovers H cache l L shards root (ys.map .ok))
    (hl : ∀ s ∈ l, s.WellFormed) (hs : s ∈ l ++ ys) :
    s.position < L.numShards ∧ shards.getD s.position [] = s.part .shard := by
  rcases List.mem_append.mp hs with hs | hs
  · have hlt := h.placeable.bound s hs
    have hheld := held_of_mem h.placeable.increasing hs
    have hp : present l s.position = true := by rw [present, hheld]; rfl
    rw [(h.shard hlt).2 hp, fillAt_of_held hheld]
    exact ⟨hlt, rfl⟩
  · obtain ⟨k, hk⟩ := List.mem_iff_getElem?.mp hs
    obtain ⟨i, hi, hlen, rfl⟩ := h.item hl (getElem?_yielded hk)
    obtain ⟨hin, hm⟩ := mem_missing_iff.mp (List.mem_of_getElem? hi)
    have hfits := h.shard_fits hl hin
    rw [fillAt_of_missing hm] at hfits
    have hstub := shaped_stubAt (h.wellFormed_last hl).toShaped
    rw [Shred.position_withPart, h.position_completed hl hin]
    refine ⟨hin, ?_⟩
    rw [(h.shaped_completed hl hin).part_withPart_ne (proof_fits hlen) (by decide), completed,
      Shred.part_reparsed, rebuilt_of_missing hm, (hstub _).part_withPart hfits]

theorem Recovers.sameBatch_of_completed (h : Recovers H cache l L shards root (ys.map .ok))
    (hl : ∀ s ∈ l, s.WellFormed) (hone : OfOneBatch L l) (hs : s ∈ l ++ ys) :
    s.signature = L.commonHeader.signature ∧
    s.chainedMerkleRoot = (Shred.shredCode L).chainedMerkleRoot ∧
    s.retransmitterSignature = (Shred.shredCode L).retransmitterSignature := by
  have hL : Shred.shredCode L ∈ l := List.mem_of_getLast? h.last
  rcases List.mem_append.mp hs with hs | hs
  · exact ⟨h.placeable.signature s hs, hone.carried s hs _ hL⟩
  · obtain ⟨hwf, hsame, -⟩ := h.yielded hl hs
    have hLwf := (hl _ hL).toShaped
    exact ⟨hsame.signature, hsame.chainedMerkleRoot_eq hwf.toShaped hLwf,
      hsame.retransmitterSignature_eq hwf.toShaped hLwf⟩

/-- All proofs have the size of the tree's, since the yielded ones could be written. -/
theorem Recovers.proofSize_of_yielded (h : Recovers H cache l L shards root (ys.map .ok))
    (hl : ∀ s ∈ l, s.WellFormed) (hs : s ∈ ys) :
    L.commonHeader.shredVariant.proofSize = getProofSize L.numShards := by
  obtain ⟨k, hk⟩ := List.mem_iff_getElem?.mp hs
  obtain ⟨i, hi, hlen, rfl⟩ := h.item hl (getElem?_yielded hk)
  obtain ⟨hin, hm⟩ := mem_missing_iff.mp (List.mem_of_getElem? hi)
  rw [length_treeProof h.toReconstructs hl, (h.sameBatch_completed hl hin hm).proofSize,
    ← toNat_getProofSize (h.wellFormed_last hl).sane] at hlen
  exact (UInt8.toNat_inj.mp hlen).symm

theorem IndicesConsistent.position_data (hcons : IndicesConsistent L l)
    (hF : Filled L l) (hs : s ∈ l) (hk : s.kind = .data) : s.position < L.numDataShreds := by
  have hlt := hcons.data s hs hk
  have hindex := (hF.wellFormed s hs).index_data hk
  rw [hF.fecSetIndex s hs] at hindex
  rw [ShredCode.numDataShreds]
  omega

theorem Filled.data_at (hF : Filled L l) (hs : s ∈ l) (hpos : s.position = i)
    (hi : i < L.codingHeader.numDataShreds.toNat) :
    ∃ d, s = .shredData d ∧
      d.commonHeader.index.toNat = d.commonHeader.fecSetIndex.toNat + i := by
  cases s with
  | shredCode c => exact absurd (hF.code _ hs rfl) (Nat.not_le_of_lt (hpos ▸ hi))
  | shredData d => exact ⟨d, rfl, hpos ▸ (hF.wellFormed _ hs).index_data rfl⟩

theorem IndicesConsistent.code_at (hcons : IndicesConsistent L l) (hF : Filled L l)
    (hag : Agreeing l) (hL : .shredCode L ∈ l) (hs : s ∈ l)
    (hpos : s.position = L.codingHeader.numDataShreds.toNat + i) :
    ∃ c, s = .shredCode c ∧ c.codingHeader.numDataShreds = L.codingHeader.numDataShreds ∧
      c.codingHeader.numCodingShreds = L.codingHeader.numCodingShreds ∧
      c.codingHeader.position.toNat = i ∧ c.commonHeader.index.toNat = L.first + i := by
  cases s with
  | shredData d =>
      have hlt := hcons.position_data hF hs rfl
      rw [hpos, ShredCode.numDataShreds] at hlt
      omega
  | shredCode c =>
      obtain ⟨hnd, hnc⟩ := hag.coding c L hs hL
      have hfirst := (ShredCode.firstCodingIndex_eq (hF.wellFormed _ hs).sane
        (hF.wellFormed _ hL).sane).mp (hcons.coding c L hs hL)
      have hsane := (hF.wellFormed _ hs).sane.first.1
      have hposc : c.codingHeader.numDataShreds.toNat + c.codingHeader.position.toNat =
          L.codingHeader.numDataShreds.toNat + i := hpos
      rw [hnd] at hposc
      refine ⟨c, rfl, hnd, hnc, by omega, ?_⟩
      rw [← hfirst, ShredCode.first]
      omega

theorem Shred.Shaped.shard_pos (h : s.Shaped) : 0 < (s.part .shard).length := by
  have h1 := h.length_shard
  have h2 := h.valid.proofBytes_le
  have h3 := ShredVariant.resignedBytes_le s.variant
  omega

/-- At the threshold the codec writes a codeword. -/
theorem Recovers.codeword (h : Recovers H cache l L shards root (ys.map .ok))
    (hext : CodecExtends cache L.codingHeader.numDataShreds.toNat
      L.codingHeader.numCodingShreds.toNat parity) (hl : ∀ s ∈ l, s.WellFormed)
    (hag : Agreeing l) (hlen : l.length = L.codingHeader.numDataShreds.toNat) :
    shards.length = L.numShards ∧ shards.drop L.codingHeader.numDataShreds.toNat =
      parity (shards.take L.codingHeader.numDataShreds.toNat) := by
  have hL : Shred.shredCode L ∈ l := List.mem_of_getLast? h.last
  obtain ⟨codec, hnew, hrec⟩ := h.codec
  refine ⟨(ReedSolomon.inPlace_range hrec).1, ?_⟩
  refine hext codec hnew _ (codecInput L l) shards (hl _ hL).toShaped.shard_pos ?_
    (fun g hg => length_codecInput hl hag hL hg) ?_ hrec
  · rw [codecInput, List.length_map, List.length_range]
    rfl
  · rw [countP_codecInput h.placeable, hlen]

theorem Recovers.shards_completed (h : Recovers H cache l L shards root (ys.map .ok))
    (hl : ∀ s ∈ l, s.WellFormed) (hag : Agreeing l) (hlen : shards.length = L.numShards)
    (hm : m.Perm (l ++ ys)) (hinc : Increasing Shred.position m) :
    m.mapM Shred.erasureShard = .ok shards := by
  have hF := h.filled hl hag
  rw [mapM_eq_ok]
  refine List.forall₂_iff_get.mpr ⟨(hm.length_eq.trans hF.length_eq).trans hlen.symm, ?_⟩
  intro i hi hi'
  have hs : m[i]? = some m[i] := List.getElem?_eq_getElem hi
  have hsF := hm.mem_iff.mp (List.mem_of_getElem? hs)
  obtain ⟨-, hshard⟩ := h.shard_completed hl hsF
  rw [hF.position_getElem? hm hinc hs, List.getD_eq_getElem?_getD, List.getElem?_eq_getElem hi',
    Option.getD_some] at hshard
  rw [List.get_eq_getElem, List.get_eq_getElem, (hF.wellFormed _ hsF).toShaped.erasureShard, hshard]

theorem Recovers.consistentBatch (h : Recovers H cache l L shards root (ys.map .ok))
    (hc : CodecDocumented cache) (hext : CodecExtends cache L.codingHeader.numDataShreds.toNat
      L.codingHeader.numCodingShreds.toNat parity) (hl : ∀ s ∈ l, s.WellFormed)
    (hone : OfOneBatch L l) (hlen : l.length = L.codingHeader.numDataShreds.toNat)
    (hm : m.Perm (l ++ ys)) (hinc : Increasing Shred.position m) :
    ConsistentBatch parity L.codingHeader.numDataShreds.toNat
      L.codingHeader.numCodingShreds.toNat m := by
  have hL : Shred.shredCode L ∈ l := List.mem_of_getLast? h.last
  have hF := h.filled hl hone.agreeing
  have hag := h.agreeing_completed hl hone.agreeing
  have hcons := h.consistent_completed hl hone.agreeing hone.consistent
  have hLF : Shred.shredCode L ∈ l ++ ys := List.mem_append_left _ hL
  have hmem : ∀ s ∈ m, s ∈ l ++ ys := fun s hs => hm.mem_iff.mp hs
  have hwf : ∀ s ∈ m, s.WellFormed := fun s hs => hF.wellFormed s (hmem s hs)
  have hlenm : m.length = L.numShards := hm.length_eq.trans hF.length_eq
  have hget : ∀ i < L.numShards, ∃ s, m[i]? = some s ∧ s ∈ l ++ ys ∧ s.position = i := by
    intro i hi
    have hs := List.getElem?_eq_getElem (hlenm.symm ▸ hi)
    exact ⟨_, hs, hmem _ (List.mem_of_getElem? hs), hF.position_getElem? hm hinc hs⟩
  obtain ⟨hd, hp, hn⟩ := (hc.new_ok _ _).mp ⟨_, h.codec.choose_spec.1⟩
  obtain ⟨hlenshards, hcodeword⟩ := h.codeword hext hl hone.agreeing hlen
  refine { counts := ⟨hd, hp, hn⟩, length := hlenm,
           accepted := fun s hs => Shred.accepted_iff.mpr (hwf s hs), shared := ?_,
           proofSize := ?_, data := ?_, coding := ⟨L.first, ?_⟩,
           codeword := ⟨shards, h.shards_completed hl hone.agreeing hlenshards hm hinc, hcodeword⟩ }
  · intro s hs t ht
    obtain ⟨h1, h2, h3⟩ := h.sameBatch_of_completed hl hone (hmem s hs)
    obtain ⟨k1, k2, k3⟩ := h.sameBatch_of_completed hl hone (hmem t ht)
    obtain ⟨hslot, hversion, hfec⟩ := hag.common s (hmem s hs) t (hmem t ht)
    exact ⟨h1.trans k1.symm, hslot, hversion, hfec, (hag.variant s (hmem s hs) t (hmem t ht)).2,
      h2.trans k2.symm, h3.trans k3.symm⟩
  · intro s hs
    -- there are parity shreds, so there is something to yield
    obtain ⟨y, hy⟩ : ∃ y, y ∈ ys := by
      apply List.exists_mem_of_length_pos
      have hsum := hm.length_eq
      rw [hlenm, List.length_append, hlen, ShredCode.numShards] at hsum
      omega
    rw [(hwf s hs).toShaped.proofSize, (hag.variant s (hmem s hs) _ hLF).1]
    exact congrArg Except.ok (h.proofSize_of_yielded hl hy)
  · intro i hi
    obtain ⟨s, hs, hsF, hpos⟩ := hget i (by rw [ShredCode.numShards]; omega)
    obtain ⟨d, rfl, hindex⟩ := hF.data_at hsF hpos hi
    exact ⟨d, hs, hindex⟩
  · intro j hj
    obtain ⟨s, hs, hsF, hpos⟩ := hget (L.codingHeader.numDataShreds.toNat + j)
      (by rw [ShredCode.numShards]; omega)
    obtain ⟨c, rfl, hnd, hnc, hposition, hindex⟩ := hcons.code_at hF hag hLF hsF hpos
    exact ⟨c, hs, congrArg UInt16.toNat hnd, congrArg UInt16.toNat hnc, hposition, hindex⟩

theorem map_merkleNode (hm : ∀ s ∈ m, s.WellFormed) :
    m.map (Shred.merkleNode H) = (m.map (leafNode H)).map .ok := by
  rw [List.map_map]
  exact List.map_congr_left fun s hs => (hm s hs).toShaped.merkleNode H

theorem Recovers.vouchesFor (h : Recovers H cache l L shards root (ys.map .ok))
    (hl : ∀ s ∈ l, s.WellFormed) (hag : Agreeing l) (hm : m.Perm (l ++ ys))
    (hinc : Increasing Shred.position m) : VouchesFor H l m := by
  have hL : Shred.shredCode L ∈ l := List.mem_of_getLast? h.last
  have hF := h.filled hl hag
  have hwf : ∀ s ∈ m, s.WellFormed := fun s hs => hF.wellFormed s (hm.mem_iff.mp hs)
  have hnodes := h.leafNodes_completed hl hag hm hinc
  have hlen := length_leafNodes H L l shards
  have hroot : MerkleTree.root _ = .ok root :=
    MerkleTree.root_eq H rfl (by rw [hlen]; exact h.tree)
  refine ⟨_, root, ?_, hroot, ?_⟩
  · rw [map_merkleNode hwf, hnodes, MerkleTree.tryNew_ok H (h.leafNodes_ne hl)]
  · intro c hc hgreatest
    have hle := h.placeable.increasing.le_last h.last hc
    rw [h.placeable.increasing.injective hc hL (Nat.le_antisymm hle (hgreatest _ hL))]
    exact h.root

/-- A batch is accepted under its own root, whatever proofs its other shreds store. -/
theorem ConsistentBatch.exists_recover {numData numCoding : Nat}
    (hB : ConsistentBatch parity numData numCoding B)
    (hcodec : CodecCorrect cache numData numCoding parity) (hsub : l.Subperm B)
    (hvouches : VouchesFor H l B) (hn : numData ≤ l.length) (hL : .shredCode L ∈ l) :
    ∃ ys : List Shred, recover H cache srt l = .ok (ys.map .ok) := by
  have hperm := sortShreds_perm srt l
  have hmem : ∀ s ∈ sortShreds srt l, s ∈ B := fun s hs => hsub.subset (hperm.mem_iff.mp hs)
  have hwl : ∀ s ∈ l, s.WellFormed := fun s hs => hB.wellFormed (hsub.subset hs)
  have hwsl := @wellFormed_sortShreds srt l hwl
  obtain ⟨c, hlast⟩ := (exists_last_code (sorted_sortShreds srt l)).mpr
    ⟨_, hperm.mem_iff.mpr hL, rfl⟩
  have hcl := hperm.mem_iff.mp (List.mem_of_getLast? hlast)
  have hc : Shred.shredCode c ∈ B := hsub.subset hcl
  have hR := (hB.reconstructs_iff hcodec hsub hlast).mpr ⟨hn, rfl⟩
  obtain ⟨hnd, hnc⟩ := hB.code_header hc
  have hlen : c.numShards = B.length := by rw [hB.length, ShredCode.numShards, hnd, hnc]
  have hnodes := hB.leafNodes_eq H hc hmem hR
  obtain ⟨r, htop⟩ := hR.exists_top hwsl H
  obtain ⟨tree, root, htree, hroot, hlastroot⟩ := hvouches
  -- the tree that is rebuilt is the tree over the batch
  have hne := hR.leafNodes_ne (H := H) hwsl
  have hsame : root = r := by
    have hlenn := length_leafNodes H c (sortShreds srt l) (B.map (Shred.part · .shard))
    have hmap : B.map (Shred.merkleNode H) = (leafNodes H c (sortShreds srt l)
        (B.map (Shred.part · .shard))).map .ok := by
      rw [hnodes]
      exact map_merkleNode fun s hs => hB.wellFormed hs
    rw [hmap, MerkleTree.tryNew_ok H hne] at htree
    have hr := MerkleTree.root_eq H (congrArg MerkleTree.nodes (Except.ok.inj htree)).symm
      (by rw [hlenn]; exact htop)
    exact Except.ok.inj (hroot.symm.trans hr)
  have hrootc : (Shred.shredCode c).merkleRoot H = .ok r := by
    rw [← hsame]
    exact hlastroot c hcl fun s hs =>
      (hB.increasing hsub srt).le_last hlast (hperm.mem_iff.mpr hs)
  obtain ⟨items, hrecovers⟩ : ∃ items, Recovers H cache (sortShreds srt l) c
      (B.map (Shred.part · .shard)) r items := by
    refine ⟨_, hR, fun i hi => ?_, htop, hrootc, rfl⟩
    obtain ⟨hin, hm⟩ := mem_missing_iff.mp hi
    have hb : B[i]? = some B[i] := List.getElem?_eq_getElem (hlen ▸ hin)
    have hwb := hB.wellFormed (List.mem_of_getElem? hb)
    rw [hB.completed_missing hc hwsl hR hm hb]
    exact hwb.withPart (headers_le_proof hwb.toShaped) (part_proof_fits _)
  have hsize : c.commonHeader.shredVariant.proofSize = getProofSize c.numShards := by
    rw [hlen, hB.length]
    exact hB.proofSize_eq hc
  obtain ⟨ys, rfl⟩ : items ∈ Set.range (List.map .ok) := by
    rw [Set.range_list_map]
    exact fun x hx => (hrecovers.items_ok hwsl hsize x hx).imp fun _ h => h.symm
  exact ⟨ys, (recover_eq_ok hwl).mpr ⟨c, _, r, hrecovers⟩⟩

theorem ConsistentBatch.ofOneBatch {numData numCoding : Nat}
    (hB : ConsistentBatch parity numData numCoding B) (hsub : l ⊆ B) (hL : .shredCode L ∈ l) :
    OfOneBatch L l where
  agreeing := hB.agreeing.mono hsub
  consistent := hB.indicesConsistent hsub (hsub hL)
  carried s hs t ht := (hB.shared s (hsub hs) t (hsub ht)).2.2.2.2.2

theorem OfOneBatch.congr {L' : ShredCode} (h : OfOneBatch L l) (hm : m.Perm l)
    (hL : .shredCode L ∈ l) (hL' : .shredCode L' ∈ l) : OfOneBatch L' m where
  agreeing := h.agreeing.perm hm
  consistent := h.consistent.congr hm.symm (h.agreeing.coding L L' hL hL').1
    (h.agreeing.common _ hL _ hL').2.2
  carried s hs t ht := h.carried s (hm.mem_iff.mp hs) t (hm.mem_iff.mp ht)

end Completed

/-- Given just as many accepted shreds as there is data, a coding shred among them, `recover`
completes them as shreds of one batch exactly if they are of a well encoded batch, under the root
that the last coding shred vouches for. -/
theorem recover_iff_encoded (H : Hasher) (cache : ReedSolomonCache) (hc : CodecDocumented cache)
    (srt : ShredSort) (parity : List Bytes → List Bytes) (l : List Shred)
    (hl : ∀ s ∈ l, s.Accepted) (L : ShredCode) (hL : .shredCode L ∈ l)
    (hlen : l.length = L.codingHeader.numDataShreds.toNat)
    (hcodec : CodecCorrect cache L.codingHeader.numDataShreds.toNat
      L.codingHeader.numCodingShreds.toNat parity)
    (hext : CodecExtends cache L.codingHeader.numDataShreds.toNat
      L.codingHeader.numCodingShreds.toNat parity) :
    (OfOneBatch L l ∧ ∃ ys : List Shred, recover H cache srt l = .ok (ys.map .ok)) ↔
      ∃ B, ConsistentBatch parity L.codingHeader.numDataShreds.toNat
        L.codingHeader.numCodingShreds.toNat B ∧ l.Subperm B ∧ VouchesFor H l B := by
  constructor
  · rintro ⟨hone, ys, hr⟩
    have hwf : ∀ s ∈ l, s.WellFormed := fun s hs => Shred.accepted_iff.mp (hl s hs)
    have hperm := sortShreds_perm srt l
    have hwsl := @wellFormed_sortShreds srt l hwf
    obtain ⟨c, shards, root, hR⟩ := (recover_eq_ok hwf).mp hr
    have hcl : .shredCode c ∈ l := hperm.mem_iff.mp (List.mem_of_getLast? hR.last)
    have hone' : OfOneBatch c (sortShreds srt l) := hone.congr hperm hL hcl
    obtain ⟨hnd, hnc⟩ := hone.agreeing.coding L c hL hcl
    rw [hnd, hnc] at hext ⊢
    rw [hnd, ← hperm.length_eq] at hlen
    obtain ⟨m, hm, -, hinc⟩ :=
      (hR.recoverable_completed hc hwsl hone'.agreeing hone'.consistent).exists_increasing
    refine ⟨m, hR.consistentBatch hc hext hwsl hone' hlen hm hinc, ?_, ?_⟩
    · exact hperm.symm.subperm.trans ((List.sublist_append_left _ _).subperm.trans hm.symm.subperm)
    · obtain ⟨tree, r, htree, hr, hlast⟩ := hR.vouchesFor hwsl hone'.agreeing hm hinc
      exact ⟨tree, r, htree, hr, fun d hd hgreatest => hlast d (hperm.mem_iff.mpr hd)
        fun s hs => hgreatest s (hperm.mem_iff.mp hs)⟩
  · rintro ⟨B, hB, hsub, hvouches⟩
    exact ⟨hB.ofOneBatch hsub.subset hL,
      hB.exists_recover hcodec hsub hvouches (Nat.le_of_eq hlen.symm) hL⟩

/-- All but the first of thirty-two data shreds, and one coding shred. -/
theorem recover_iff_encoded_fixed : ∃ L, .shredCode L ∈ fixedPart.take 32 ∧
    ((OfOneBatch L (fixedPart.take 32) ∧ ∃ ys : List Shred, recover sha256Hasher
        interpolationCache stableSort (fixedPart.take 32) = .ok (ys.map .ok)) ↔
      ∃ B, ConsistentBatch (codeParity 32 32) L.codingHeader.numDataShreds.toNat
        L.codingHeader.numCodingShreds.toNat B ∧ (fixedPart.take 32).Subperm B ∧
          VouchesFor sha256Hasher (fixedPart.take 32) B) := by
  have hsub : (fixedPart.take 32).Sublist fixedBatch :=
    (List.take_sublist ..).trans fixedPart_sublist
  obtain ⟨first, hcoding⟩ := fixedBatch_complete.coding
  obtain ⟨L, hget, hnd, hnc, -⟩ := hcoding 0 (by decide)
  have hL : .shredCode L ∈ fixedPart.take 32 := by
    refine List.mem_of_getElem? (i := 31) ?_
    rw [List.getElem?_take_of_lt (by decide), fixedPart, List.getElem?_take_of_lt (by decide),
      List.getElem?_drop]
    exact hget
  have hlen : (fixedPart.take 32).length = L.codingHeader.numDataShreds.toNat := by
    rw [List.length_take, length_fixedPart, hnd]
    rfl
  refine ⟨L, hL, recover_iff_encoded sha256Hasher interpolationCache interpolationCache_documented
    stableSort _ _ (fun s hs => fixedBatch_complete.accepted s (hsub.subset hs)) L hL hlen ?_ ?_⟩
  · rw [hnd, hnc]
    exact interpolationCache_correct (by decide) (by decide) (by decide)
  · rw [hnd, hnc]
    exact interpolationCache_extends

end LightweightShred
