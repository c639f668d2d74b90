import LightweightShred.Completeness

/-!
# Sealing a batch

Writing the proofs of the tree over a batch into its shreds changes no leaf, so every
consistent batch has a complete one, under any hash function.
-/
namespace LightweightShred
open ByteString Rust Codec Slots HashTree

section Seal
variable (H : Hasher)

def leafNode (s : Shred) : Hash := H.sha256 (leafPreimage s.leaf)

/-- The proof for a position in the tree over a batch. -/
def batchProof (B : List Shred) (i : Nat) : List MerkleProofEntry :=
  (path (scheme H).join (depth B.length) i (B.map (leafNode H))).map Hash.truncate

def sealBatch (B : List Shred) : List Shred :=
  B.mapIdx fun i s => s.withPart .proof ((batchProof H B i).map Subtype.val).flatten

end Seal

/-- Well-formed shreds with room for the proofs of a tree over all of them. -/
def Sealable (B : List Shred) : Prop :=
  ∀ s ∈ B, s.WellFormed ∧ s.variant.proofSize.toNat = depth B.length

section
variable {H : Hasher} {B : List Shred} {i : Nat} {s b : Shred}

theorem length_sealBatch (H : Hasher) (B : List Shred) : (sealBatch H B).length = B.length := by
  simp [sealBatch]

theorem getElem?_sealBatch (hs : (sealBatch H B)[i]? = some s) : ∃ b, B[i]? = some b ∧
    s = b.withPart .proof ((batchProof H B i).map Subtype.val).flatten := by
  rw [sealBatch, List.getElem?_mapIdx, Option.map_eq_some_iff] at hs
  obtain ⟨b, hb, rfl⟩ := hs
  exact ⟨b, hb, rfl⟩

theorem length_batchProof (hi : i < B.length) : (batchProof H B i).length = depth B.length := by
  have hne : B.map (leafNode H) ≠ [] := by
    intro hnil
    rw [List.map_eq_nil_iff] at hnil
    rw [hnil] at hi
    exact absurd hi (Nat.not_lt_zero i)
  rw [batchProof, List.length_map, length_path _ hne]

theorem Sealable.fits (hB : Sealable B) (H : Hasher) (hb : B[i]? = some b) :
    Region.proof.lo b.kind b.variant + ((batchProof H B i).map Subtype.val).flatten.length =
      Region.proof.hi b.kind b.variant :=
  proof_fits (by
    rw [length_batchProof (List.getElem?_eq_some_iff.mp hb).1, (hB b (List.mem_of_getElem? hb)).2])

theorem isLe_withPart (a b : Shred) (R Q : Region) (x y : Bytes) :
    isLe (a.withPart R x) (b.withPart Q y) = isLe a b := by
  cases a <;> cases b <;> rfl

/-- Shred by shred the same as another list, but for the stored proofs. -/
def Reproved (l B : List Shred) : Prop :=
  List.Forall₂ (fun s b => ∃ d : Bytes, s = b.withPart .proof d ∧
    Region.proof.lo b.kind b.variant + d.length = Region.proof.hi b.kind b.variant) l B

namespace Reproved
variable {l : List Shred}

theorem mem (h : Reproved l B) (hs : s ∈ l) : ∃ b ∈ B, ∃ d : Bytes, s = b.withPart .proof d ∧
    Region.proof.lo b.kind b.variant + d.length = Region.proof.hi b.kind b.variant :=
  forall₂_mem_right h.flip hs

theorem wellFormed (h : Reproved l B) (hB : ∀ b ∈ B, b.WellFormed) : ∀ s ∈ l, s.WellFormed := by
  intro s hs
  obtain ⟨b, hb, d, rfl, hd⟩ := h.mem hs
  exact (hB b hb).withPart (headers_le_proof (hB b hb).toShaped) hd

theorem leafNodes (h : Reproved l B) (hB : ∀ b ∈ B, b.WellFormed) :
    l.map (leafNode H) = B.map (leafNode H) := by
  induction h with
  | nil => rfl
  | cons hsb _ ih =>
      obtain ⟨d, rfl, hd⟩ := hsb
      have hb := (hB _ List.mem_cons_self).toShaped
      rw [List.map_cons, List.map_cons, ih fun b hb => hB b (List.mem_cons_of_mem _ hb), leafNode,
        hb.leaf_withPart_proof hd, ← leafNode]

theorem batchProof (h : Reproved l B) (hB : ∀ b ∈ B, b.WellFormed) (i : Nat) :
    LightweightShred.batchProof H l i = LightweightShred.batchProof H B i := by
  rw [LightweightShred.batchProof, h.leafNodes hB, h.length_eq, ← LightweightShred.batchProof]

theorem position (h : Reproved l B)
    (hpos : ∀ (i : Nat) (b : Shred), B[i]? = some b → b.position = i) {i : Nat} {s : Shred}
    (hs : l[i]? = some s) : s.position = i := by
  obtain ⟨hi, rfl⟩ := List.getElem?_eq_some_iff.mp hs
  obtain ⟨hlen, hall⟩ := List.forall₂_iff_get.mp h
  obtain ⟨d, he, -⟩ := hall i hi (by omega)
  simp only [List.get_eq_getElem] at he
  rw [he, Shred.position_withPart]
  exact hpos i _ (List.getElem?_eq_getElem (by omega))

theorem sorted (h : Reproved l B) (hB : Sorted B) : Sorted l := by
  obtain ⟨hlen, hall⟩ := List.forall₂_iff_get.mp h
  rw [Sorted, List.pairwise_iff_getElem] at hB ⊢
  intro i j hi hj hij
  obtain ⟨d, hd, -⟩ := hall i hi (by omega)
  obtain ⟨e, he, -⟩ := hall j hj (by omega)
  simp only [List.get_eq_getElem] at hd he
  rw [hd, he, isLe_withPart]
  exact hB i j (by omega) (by omega) hij

theorem agreeing (h : Reproved l B) (hB : Agreeing B) : Agreeing l := by
  refine ⟨?_, ?_, ?_⟩
  · intro s hs t ht
    obtain ⟨b, hb, d, rfl, -⟩ := h.mem hs
    obtain ⟨e, he, f, rfl, -⟩ := h.mem ht
    simpa only [Shred.commonHeader_withPart] using hB.common b hb e he
  · intro s hs t ht
    obtain ⟨b, hb, d, rfl, -⟩ := h.mem hs
    obtain ⟨e, he, f, rfl, -⟩ := h.mem ht
    simpa only [Shred.variant_withPart] using hB.variant b hb e he
  · intro a c ha hc
    have hcode : ∀ x : ShredCode, .shredCode x ∈ l →
        ∃ y : ShredCode, .shredCode y ∈ B ∧ x.codingHeader = y.codingHeader := by
      intro x hx
      obtain ⟨b, hb, d, he, -⟩ := h.mem hx
      cases b with
      | shredData y => cases he
      | shredCode y =>
          cases he
          exact ⟨y, hb, rfl⟩
    obtain ⟨x, hx, hax⟩ := hcode a ha
    obtain ⟨y, hy, hcy⟩ := hcode c hc
    rw [hax, hcy]
    exact hB.coding x y hx hy

end Reproved

theorem Sealable.reproved (hB : Sealable B) (H : Hasher) : Reproved (sealBatch H B) B := by
  refine List.forall₂_iff_get.mpr ⟨length_sealBatch H B, fun i h1 h2 =>
    ⟨((batchProof H B i).map Subtype.val).flatten, ?_, ?_⟩⟩
  · simp only [sealBatch, List.get_eq_getElem, List.getElem_mapIdx]
  · exact hB.fits H (List.getElem?_eq_getElem h2)

theorem Sealable.wellFormed (hB : Sealable B) (hs : s ∈ sealBatch H B) : s.WellFormed :=
  (hB.reproved H).wellFormed (fun b hb => (hB b hb).1) s hs

theorem Sealable.leafNodes (hB : Sealable B) (H : Hasher) :
    (sealBatch H B).map (leafNode H) = B.map (leafNode H) :=
  (hB.reproved H).leafNodes fun b hb => (hB b hb).1

theorem Sealable.merkleProof (hB : Sealable B) (hs : (sealBatch H B)[i]? = some s) :
    s.merkleProof = .ok (batchProof H B i) := by
  obtain ⟨b, hb, rfl⟩ := getElem?_sealBatch hs
  have hmem := List.mem_of_getElem? hb
  have hwb := (hB b hmem).1
  have hfits := hB.fits H hb
  refine (hwb.toShaped.withPart hfits).merkleProof_eq_ok.mpr ⟨?_, (hwb.part_withPart hfits).symm⟩
  rw [length_batchProof (List.getElem?_eq_some_iff.mp hb).1, Shred.variant_withPart, (hB b hmem).2]

theorem Sealable.merkleRoot (hB : Sealable B) (hs : (sealBatch H B)[i]? = some s)
    (hpos : s.position = i) {root : Hash}
    (htop : level (scheme H).join (depth B.length) (B.map (leafNode H)) = [root]) :
    s.merkleRoot H = .ok root := by
  have hmem := List.mem_of_getElem? hs
  have hws := hB.wellFormed hmem
  have hleaf : (B.map (leafNode H))[i]? = some (leafNode H s) := by
    rw [← hB.leafNodes H, List.getElem?_map, hs]
    rfl
  refine hws.toShaped.merkleRoot_eq_ok.mpr ⟨i, _, ?_, hB.merkleProof hs, ?_⟩
  · rw [hws.sane.erasureShardIndex, hpos]
  · have hlen : (B.map (leafNode H)).length = B.length := List.length_map ..
    have hpath := @getMerkleRoot_path H (B.map (leafNode H)) i _ root hleaf (by rw [hlen]; exact htop)
    rwa [hlen] at hpath

theorem sameBatch_withPart_proof (hb : b.Shaped) {d : Bytes}
    (hd : Region.proof.lo b.kind b.variant + d.length = Region.proof.hi b.kind b.variant) :
    SameBatch (b.withPart .proof d) b where
  signature := by simp only [Shred.signature, Shred.commonHeader_withPart]
  slot := by simp only [Shred.commonHeader_withPart]
  version := by simp only [Shred.commonHeader_withPart]
  fecSetIndex := by simp only [Shred.fecSetIndex, Shred.commonHeader_withPart]
  proofSize := by simp only [Shred.variant_withPart]
  resigned := by simp only [Shred.variant_withPart]
  chainedRoot := hb.part_withPart_ne hd (by decide)
  retransmitter := hb.part_withPart_ne hd (by decide)

/-- Every sealed shred is one of the batch, with only its proof rewritten. -/
theorem Sealable.exists_sameBatch (hB : Sealable B) (hs : s ∈ sealBatch H B) :
    ∃ b ∈ B, b.WellFormed ∧ SameBatch s b := by
  obtain ⟨i, hi⟩ := List.mem_iff_getElem?.mp hs
  obtain ⟨b, hb, rfl⟩ := getElem?_sealBatch hi
  have hmem := List.mem_of_getElem? hb
  have hwb := (hB b hmem).1
  exact ⟨b, hmem, hwb, sameBatch_withPart_proof hwb.toShaped (hB.fits H hb)⟩

theorem Sealable.erasureShards (hB : Sealable B) (H : Hasher) :
    (sealBatch H B).map Shred.erasureShard = B.map Shred.erasureShard := by
  apply List.ext_getElem?
  intro i
  rw [List.getElem?_map, List.getElem?_map, sealBatch, List.getElem?_mapIdx, Option.map_map]
  cases hb : B[i]? with
  | none => rfl
  | some b =>
      have hwb := (hB b (List.mem_of_getElem? hb)).1.toShaped
      have hfits := hB.fits H hb
      simp only [Option.map_some, Function.comp_apply]
      rw [(hwb.withPart hfits).erasureShard, hwb.erasureShard,
        hwb.part_withPart_ne hfits (by decide)]

theorem Sealable.codeword (hB : Sealable B) {word : List Bytes}
    (hword : B.mapM Shred.erasureShard = .ok word) :
    (sealBatch H B).mapM Shred.erasureShard = .ok word := by
  rw [mapM_eq_ok] at hword ⊢
  have hmapped : List.Forall₂ (fun (x : Result Bytes) w => x = .ok w)
      (B.map Shred.erasureShard) word := List.forall₂_map_left_iff.mpr hword
  rw [← hB.erasureShards H] at hmapped
  exact List.forall₂_map_left_iff.mp hmapped

/-- The tree the code builds over a sealed batch is the one its proofs were taken from. -/
theorem Sealable.proofs (hB : Sealable B) (hne : B ≠ []) (H : Hasher) :
    ∃ tree, MerkleTree.tryNew H ((sealBatch H B).map (Shred.merkleNode H)) = .ok tree ∧
      ∀ (i : Nat) (s : Shred), (sealBatch H B)[i]? = some s → ∃ es, s.merkleProof = .ok es ∧
        tree.makeMerkleProof i B.length = es.map .ok := by
  have hnodes : (sealBatch H B).map (Shred.merkleNode H) = (B.map (leafNode H)).map .ok := by
    rw [← hB.leafNodes H, List.map_map]
    exact List.map_congr_left fun s hs => (hB.wellFormed hs).toShaped.merkleNode H
  have hlen : (B.map (leafNode H)).length = B.length := List.length_map ..
  refine ⟨_, by rw [hnodes]; exact MerkleTree.tryNew_ok H (List.map_eq_nil_iff.not.mpr hne), ?_⟩
  intro i s hs
  have hi : i < (B.map (leafNode H)).length := by
    rw [hlen, ← length_sealBatch H B]
    exact (List.getElem?_eq_some_iff.mp hs).1
  refine ⟨_, hB.merkleProof hs, ?_⟩
  have hmake := MerkleTree.makeMerkleProof_eq H hi rfl
  rw [hlen] at hmake
  rw [hlen, hmake, batchProof, List.map_map]
  rfl

section Given
variable {cache : ReedSolomonCache} {srt : ShredSort} {l : List Shred} {L : ShredCode}
  {shards : List Bytes}

theorem Reconstructs.leafNodes_given (hR : Reconstructs cache l L shards)
    (hl : ∀ s ∈ l, s.WellFormed) (hfull : l.length = L.numShards) :
    LightweightShred.leafNodes H L l shards = l.map (leafNode H) := by
  apply List.ext_getElem (by simp [LightweightShred.leafNodes, hfull])
  intro i h1 h2
  have hi : i < l.length := by simpa using h2
  have hheld : held Shred.position l i = some l[i] := by
    rw [held_of_full hR.placeable.increasing (hfull ▸ hR.placeable.bound),
      List.getElem?_eq_getElem hi]
  have hcompleted := hR.completed_of_held hl (by omega) hheld
  simp only [LightweightShred.leafNodes, List.getElem_map, List.getElem_range, hcompleted, leafNode]

theorem Reconstructs.treeProof_given (hR : Reconstructs cache l L shards)
    (hl : ∀ s ∈ l, s.WellFormed) (hfull : l.length = L.numShards) (i : Nat) :
    treeProof H L l shards i = batchProof H l i := by
  rw [treeProof, batchProof, hR.leafNodes_given hl hfull, hfull]

/-- With every position given there is nothing to recover; the root of the last coding shred
has to be that of the tree, and nothing else is looked at. -/
theorem Reconstructs.recover_given (hR : Reconstructs cache l L shards)
    (hl : ∀ s ∈ l, s.WellFormed) (hsorted : Sorted l) (hfull : l.length = L.numShards)
    (hproof : (Shred.shredCode L).merkleProof =
      .ok (batchProof H l (Shred.shredCode L).position)) :
    recover H cache srt l = .ok [] := by
  have hL := hR.wellFormed_last hl
  have hmem := List.mem_of_getLast? hR.last
  have hlt := hR.placeable.bound _ hmem
  obtain ⟨root, htop⟩ := hR.exists_top hl H
  have hnone : missingAt L l = [] := by
    have hlen := length_missing hR.placeable.increasing hR.placeable.bound
    exact List.length_eq_zero_iff.mp (by rw [missingAt]; omega)
  have hself := hR.completed_of_held hl hlt (held_of_mem hR.placeable.increasing hmem)
  refine (recover_eq_ok hl).mpr ⟨L, shards, root, ?_⟩
  rw [sortShreds_of_sorted hsorted]
  refine ⟨hR, ?_, htop, ?_, ?_⟩
  · intro i hi
    rw [hnone] at hi
    cases hi
  · exact merkleRoot_of_treeProof hL.toShaped hlt hL.sane.erasureShardIndex (by rw [hself])
      (by rw [hproof, hR.treeProof_given hl hfull]) htop
  · rw [hnone, List.map_nil]

end Given

end

section Consistent
variable {parity : List Bytes → List Bytes} {numData numCoding : Nat} {B : List Shred}

theorem ConsistentBatch.sealable (hB : ConsistentBatch parity numData numCoding B) : Sealable B := by
  intro s hs
  refine ⟨hB.wellFormed hs, ?_⟩
  have hc := hB.counts
  rw [hB.proofSize_eq hs, hB.length, getProofSize_eq_depth (by omega) (by omega)]

/-- Every consistent batch can be completed with the proofs of its own tree. -/
theorem ConsistentBatch.complete (hB : ConsistentBatch parity numData numCoding B) (H : Hasher) :
    CompleteBatch H parity numData numCoding (sealBatch H B) := by
  have hS := hB.sealable
  have hne : B ≠ [] := by
    intro hnil
    have hlen := hB.length
    have hcounts := hB.counts
    rw [hnil, List.length_nil] at hlen
    omega
  refine { counts := hB.counts, length := ?_, accepted := ?_, shared := ?_, proofSize := ?_,
           data := ?_, coding := ?_, codeword := ?_, proofs := ?_ }
  · rw [length_sealBatch, hB.length]
  · exact fun s hs => Shred.accepted_iff.mpr (hS.wellFormed hs)
  · intro s hs t ht
    have hws := hS.wellFormed hs
    have hwt := hS.wellFormed ht
    obtain ⟨b, hb, hwb, hsb⟩ := hS.exists_sameBatch hs
    obtain ⟨d, hd, hwd, htd⟩ := hS.exists_sameBatch ht
    obtain ⟨h1, h2, h3, h4, h5, h6, h7⟩ := hB.shared b hb d hd
    refine ⟨?_, ?_, ?_, ?_, ?_, ?_, ?_⟩
    · rw [hsb.signature, htd.signature, h1]
    · rw [hsb.slot, htd.slot, h2]
    · rw [hsb.version, htd.version, h3]
    · rw [hsb.fecSetIndex, htd.fecSetIndex, h4]
    · rw [hsb.resigned, htd.resigned, h5]
    · rw [hsb.chainedMerkleRoot_eq hws.toShaped hwb.toShaped,
        htd.chainedMerkleRoot_eq hwt.toShaped hwd.toShaped, h6]
    · rw [hsb.retransmitterSignature_eq hws.toShaped hwb.toShaped,
        htd.retransmitterSignature_eq hwt.toShaped hwd.toShaped, h7]
  · intro s hs
    obtain ⟨b, hb, -, hsb⟩ := hS.exists_sameBatch hs
    rw [(hS.wellFormed hs).toShaped.proofSize, hsb.proofSize, hB.proofSize_eq hb]
  · intro i hi
    obtain ⟨d, hd, hidx⟩ := hB.data i hi
    let sealedPayload := ((Shred.shredData d).withPart .proof
      ((batchProof H B i).map Subtype.val).flatten).payload
    exact ⟨{ d with payload := sealedPayload }, by rw [sealBatch, List.getElem?_mapIdx, hd]; rfl,
      hidx⟩
  · obtain ⟨first, hcoding⟩ := hB.coding
    refine ⟨first, fun j hj => ?_⟩
    obtain ⟨c, hc, h1, h2, h3, h4⟩ := hcoding j hj
    let sealedPayload := ((Shred.shredCode c).withPart .proof
      ((batchProof H B (numData + j)).map Subtype.val).flatten).payload
    exact ⟨{ c with payload := sealedPayload }, by rw [sealBatch, List.getElem?_mapIdx, hc]; rfl,
      h1, h2, h3, h4⟩
  · obtain ⟨word, hword, hpar⟩ := hB.codeword
    exact ⟨word, hS.codeword hword, hpar⟩
  · rw [← hB.length]
    exact hS.proofs hne H

end Consistent

end LightweightShred
