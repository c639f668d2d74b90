import LightweightShred.RootBinding

/-!
# What a root lets in

A shred that vouches for the root of a complete batch is one of its shreds, but for the two
signatures: whatever place and proof it claims, its leaf is a leaf of the tree, and names the
place that the proof has to be for.
-/
namespace LightweightShred
open ByteString Rust Codec HashTree HashScheme

section Leaves
variable {H : Hasher} {s t : Shred}

theorem position_of_leaf (hs : s.WellFormed) (ht : t.WellFormed)
    (hps : s.variant.proofSize = t.variant.proofSize) (hleaf : s.leaf = t.leaf) :
    s.position = t.position := by
  have hlen : t.storedProof.length = s.variant.proofSize.toNat := by
    rw [ht.length_storedProof, hps]
  have hfits := proof_fits hlen
  have hwf := hs.withPart (headers_le_proof hs.toShaped) hfits
  have hproof : (s.withPart .proof (t.storedProof.map Subtype.val).flatten).storedProof =
      t.storedProof := by
    have hget : (s.withPart .proof (t.storedProof.map Subtype.val).flatten).merkleProof =
        .ok t.storedProof := by
      refine hwf.merkleProof_eq_ok.mpr ⟨?_, ?_⟩
      · rw [Shred.variant_withPart, hlen]
      · rw [hs.part_withPart hfits]
    rw [Shred.storedProof, hget]
    rfl
  have hsame := sameUnderRoot_of_leaf hwf ht (by rw [Shred.variant_withPart, hps])
    ((hs.toShaped.leaf_withPart_proof hfits).trans hleaf) hproof
  rw [← hsame.position hwf ht, Shred.position_withPart]

end Leaves

namespace CompleteBatch
variable {H : Hasher} {parity : List Bytes → List Bytes} {numData numCoding : Nat}
  {B : List Shred} {i : Nat} {root : Hash} {s b : Shred}

theorem level_eq (hB : CompleteBatch H parity numData numCoding B)
    (hroot : HasTreeRoot H (B.map Shred.leaf) root) :
    level (scheme H).join (depth B.length) (B.map (leafNode H)) = [root] := by
  have hne : B.map Shred.leaf ≠ [] := fun hnil => hB.ne_nil (List.map_eq_nil_iff.mp hnil)
  obtain ⟨r, ⟨t, ht, hr, -⟩, hlevel⟩ := exists_tree H hne
  obtain ⟨t', ht', hr', -⟩ := hroot
  obtain rfl : t = t' := Except.ok.inj (ht.symm.trans ht')
  obtain rfl : r = root := Except.ok.inj (hr.symm.trans hr')
  rw [List.length_map, List.map_map] at hlevel
  exact hlevel

theorem merkleRoot_eq (hB : CompleteBatch H parity numData numCoding B)
    (hroot : HasTreeRoot H (B.map Shred.leaf) root) (hb : b ∈ B) : b.merkleRoot H = .ok root :=
  hB.merkleRoot_of_level (hB.level_eq hroot) hb

/-- A shred that vouches for the root of the batch has the leaf and the proof of one of its
shreds, or two of the hashed strings collide. -/
theorem exists_same (hB : CompleteBatch H parity numData numCoding B)
    (hroot : HasTreeRoot H (B.map Shred.leaf) root) (hs : s.WellFormed)
    (hsr : s.merkleRoot H = .ok root) :
    (∃ b ∈ B, SameUnderRoot s b) ∨
      (scheme H).Collision (s.rootHashes H ++ treeStrings H (B.map Shred.leaf)) := by
  have hne : B.map Shred.leaf ≠ [] := fun hnil => hB.ne_nil (List.map_eq_nil_iff.mp hnil)
  have hlen : (B.map Shred.leaf).length = B.length := List.length_map ..
  obtain ⟨t, r, ht, hr, htag, hperfect, hmsgs⟩ := exists_top (scheme H) hne
  rw [hlen, List.map_map] at hr
  obtain rfl : r = root := List.singleton_inj.mp (hr.symm.trans (hB.level_eq hroot))
  rcases Term.agree_or_collision (scheme H) ((hs.tag_proofTerm hsr).trans htag.symm)
    with hagree | hcoll
  · left
    have hdepth := Term.Agree.length_eq (scheme H) hagree hperfect
    have hmem := Term.Agree.leaf_mem (scheme H) hagree hperfect
    rw [leaves_of_level ht] at hmem
    obtain ⟨b, hb, hleaf⟩ := List.mem_map.mp (mem_of_mem_spread hmem)
    have hwb := hB.wellFormed hb
    have hget := hB.getElem?_position hb
    have hps : s.variant.proofSize = b.variant.proofSize := by
      apply UInt8.toNat_inj.mp
      rw [← hs.length_storedProof, ← hwb.length_storedProof, hB.storedProof_eq hget, hdepth,
        length_batchProof (List.getElem?_eq_some_iff.mp hget).1, hlen]
    have hpos := position_of_leaf hs hwb hps hleaf.symm
    refine ⟨b, hb, sameUnderRoot_of_leaf hs hwb hps hleaf.symm ?_⟩
    -- the leaf names a place below the size of the batch, and the path of that place is unique
    have hi : s.position < (B.map Shred.leaf).length := by
      rw [hpos, hlen]
      exact (List.getElem?_eq_some_iff.mp hget).1
    obtain ⟨-, hes⟩ := Term.Agree.path (scheme H) (E := (B.map Shred.leaf).map .leaf)
      (by rwa [List.length_map]) (by rw [hdepth]; exact ht) hagree
    have hpath := Explains.path (scheme H) (explains_leaves (scheme H) (B.map Shred.leaf))
      (depth B.length) s.position
    rw [hdepth, hlen, hpath, List.map_map] at hes
    rw [hB.storedProof_eq hget, ← hpos]
    exact hes
  · right
    refine hcoll.mono fun m hm => List.mem_append.mpr ?_
    exact (List.mem_append.mp hm).imp mem_rootHashes (hmsgs m)

end CompleteBatch

/-- The root of a complete batch admits the shreds of the batch, under any signatures, and no
others: an accepted shred vouches for it exactly if one of the batch is the same behind the
signature and in the proof, unless two of the hashed strings collide. -/
theorem root_admits_batch (H : Hasher) (parity : List Bytes → List Bytes) (numData numCoding : Nat)
    (B : List Shred) (hB : CompleteBatch H parity numData numCoding B) (root : Hash)
    (hroot : HasTreeRoot H (B.map Shred.leaf) root) (s : Shred) (hs : s.Accepted) :
    (s.merkleRoot H = .ok root → (∃ b ∈ B, SameUnderRoot s b) ∨
      (scheme H).Collision (s.rootHashes H ++ treeStrings H (B.map Shred.leaf))) ∧
    ∀ b ∈ B, SameUnderRoot s b → s.merkleRoot H = .ok root := by
  have hwf := Shred.accepted_iff.mp hs
  refine ⟨hB.exists_same hroot hwf, fun b hb hsame => ?_⟩
  exact hsame.merkleRoot_eq hwf (hB.wellFormed hb) (hB.merkleRoot_eq hroot hb)

/-- A data shred of the batch is let in under another signature. -/
theorem root_admits_batch_signed : ∃ root, ∃ s ∈ plainBatch sha256Hasher 0 3,
    s.signature ≠ twosSignature ∧
    HasTreeRoot sha256Hasher ((plainBatch sha256Hasher 0 3).map Shred.leaf) root ∧
    (s.withSignature twosSignature).merkleRoot sha256Hasher = .ok root ∧
    ((∃ b ∈ plainBatch sha256Hasher 0 3, SameUnderRoot (s.withSignature twosSignature) b) ∨
      (scheme sha256Hasher).Collision ((s.withSignature twosSignature).rootHashes sha256Hasher ++
        treeStrings sha256Hasher ((plainBatch sha256Hasher 0 3).map Shred.leaf))) := by
  have hne : (plainBatch sha256Hasher 0 3).map Shred.leaf ≠ [] :=
    fun hnil => threeCopies_complete.ne_nil (List.map_eq_nil_iff.mp hnil)
  obtain ⟨root, hroot, -⟩ := exists_tree sha256Hasher hne
  obtain ⟨s, hs, hsig⟩ := exists_signature_ne_twos
  have hwf := threeCopies_complete.wellFormed hs
  obtain ⟨hin, hout⟩ := root_admits_batch sha256Hasher (copies 3) 1 3 _ threeCopies_complete root
    hroot (s.withSignature twosSignature) (Shred.accepted_iff.mpr (hwf.withSignature twosSignature))
  have hsigned := hout s hs (hwf.sameUnderRoot_withSignature twosSignature)
  exact ⟨root, s, hs, hsig, hroot, hsigned, hin hsigned⟩

end LightweightShred
