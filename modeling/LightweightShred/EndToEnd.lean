import LightweightShred.NoPanics

/-!
# What recovery gives back

A complete batch is restored from any sufficient part of it. On any input at all, what
`recover` yields vouches for the Merkle root of the last coding shred.
-/
namespace LightweightShred
open ByteString Rust Slots

theorem CompleteBatch.recover_fail {H : Hasher} {cache : ReedSolomonCache} {srt : ShredSort}
    {parity : List Bytes → List Bytes} {numData numCoding : Nat} {B S : List Shred}
    (hB : CompleteBatch H parity numData numCoding B)
    (hcodec : CodecCorrect cache numData numCoding parity) (hS : S.Subperm B)
    (h : S.length < numData ∨ ∀ s ∈ S, s.kind = .data) : ∃ e, recover H cache srt S = fail e := by
  have hwf : ∀ s ∈ S, s.WellFormed := fun s hs => hB.wellFormed (hS.subset hs)
  exact (noPanic_recover hwf).eq_fail fun ⟨items, hr⟩ => hB.recover_ne_ok hcodec hS h items hr

/-- End-to-end recovery: any part of a complete batch, in any order, gives back exactly the
rest of it if it has enough shreds and a coding shred among them, and else an error. -/
theorem recover_complete_batch (H : Hasher) (cache : ReedSolomonCache) (srt : ShredSort)
    (parity : List Bytes → List Bytes) (numData numCoding : Nat)
    (hcodec : CodecCorrect cache numData numCoding parity) (B : List Shred)
    (hB : CompleteBatch H parity numData numCoding B) (S : List Shred) (hS : S.Subperm B) :
    (numData ≤ S.length → (∃ s ∈ S, s.kind = .code) →
      recover H cache srt S = .ok ((B.filter (· ∉ S)).map .ok)) ∧
    (S.length < numData ∨ (∀ s ∈ S, s.kind = .data) → ∃ e, recover H cache srt S = fail e) :=
  ⟨hB.recover_eq hcodec hS, hB.recover_fail hcodec hS⟩

/-- The data shred comes back from its three copies in reverse order; alone it does not give
them back. -/
theorem recover_complete_batch_copies :
    recover sha256Hasher replicationCache stableSort threeCopies.reverse =
      .ok (((plainBatch sha256Hasher 0 3).filter (· ∉ threeCopies.reverse)).map .ok) ∧
    ∃ e, recover sha256Hasher replicationCache stableSort
      ((plainBatch sha256Hasher 0 3).take 1) = fail e := by
  constructor
  · obtain ⟨L, hL⟩ := exists_code_threeCopies
    exact (recover_complete_batch sha256Hasher replicationCache stableSort (copies 3) 1 3
      replicationCache_three _ threeCopies_complete _
      ((List.reverse_perm _).subperm.trans threeCopies_subperm)).1
      (by rw [List.length_reverse, length_threeCopies]; decide) ⟨_, List.mem_reverse.mpr hL, rfl⟩
  · refine (recover_complete_batch sha256Hasher replicationCache stableSort (copies 3) 1 3
      replicationCache_three _ threeCopies_complete _ (List.take_sublist 1 _).subperm).2 (.inr ?_)
    obtain ⟨d, hd, -⟩ := threeCopies_complete.data 0 (by decide)
    intro t ht
    rw [List.take_one, List.head?_eq_getElem?, hd] at ht
    rw [List.mem_singleton.mp ht]
    rfl

/-- The header fields and signatures that a recovered shred shares with the reference. -/
structure CarriedFrom (L : ShredCode) (s : Shred) : Prop where
  signature : s.signature = L.commonHeader.signature
  slot : s.commonHeader.slot = L.commonHeader.slot
  version : s.commonHeader.version = L.commonHeader.version
  fecSetIndex : s.commonHeader.fecSetIndex = L.commonHeader.fecSetIndex
  chainedMerkleRoot : s.chainedMerkleRoot = (Shred.shredCode L).chainedMerkleRoot
  retransmitterSignature : s.retransmitterSignature = (Shred.shredCode L).retransmitterSignature

/-- Whatever the codec wrote, a recovered shred vouches for the root of the last coding
shred and carries its signatures, at a position that no input holds. -/
theorem recover_authenticates (H : Hasher) (cache : ReedSolomonCache) (srt : ShredSort)
    (l : List Shred) (hl : ∀ s ∈ l, s.Accepted) (items : List (Result Shred))
    (hr : recover H cache srt l = .ok items) :
    ∃ L root, (sortShreds srt l).getLast? = some (.shredCode L) ∧
      (Shred.shredCode L).merkleRoot H = .ok root ∧
      ∀ (k : Nat) (s : Shred), items[k]? = some (.ok s) →
        s.merkleRoot H = .ok root ∧ CarriedFrom L s ∧
        (∃ i, (missingAt L (sortShreds srt l))[k]? = some i ∧ s.erasureShardIndex = .ok i ∧
          ∀ t ∈ l, t.erasureShardIndex ≠ .ok i) ∧
        ∀ verifySignature pubkey, s.verify H verifySignature pubkey =
          (Shred.shredCode L).verify H verifySignature pubkey := by
  have hwf : ∀ s ∈ l, s.WellFormed := fun s hs => Shred.accepted_iff.mp (hl s hs)
  have hsl := @wellFormed_sortShreds srt l hwf
  obtain ⟨L, shards, root, hR⟩ := (recover_eq_ok hwf).mp hr
  have hL := hR.wellFormed_last hsl
  refine ⟨L, root, hR.last, hR.root, ?_⟩
  intro k s hk
  have hs := hR.item_wellFormed hsl hk
  have hroot := hR.item_merkleRoot hsl hk
  have hsame := hR.item_sameBatch hsl hk
  have hpos := hR.item_position hsl hk
  refine ⟨hroot, ⟨hsame.signature, hsame.slot, hsame.version, hsame.fecSetIndex,
    hsame.chainedMerkleRoot_eq hs.toShaped hL.toShaped,
    hsame.retransmitterSignature_eq hs.toShaped hL.toShaped⟩,
    ⟨_, hpos, hs.sane.erasureShardIndex, ?_⟩, ?_⟩
  · intro t ht hidx
    have hfree := (mem_missing.mp (List.mem_of_getElem? hpos)).2
    rw [(hwf t ht).sane.erasureShardIndex] at hidx
    exact hfree t ((sortShreds_perm srt l).mem_iff.mpr ht) (Except.ok.inj hidx)
  · intro verifySignature pubkey
    rw [Shred.verify, Shred.verify, Shred.signedData, Shred.signedData, hroot, hR.root,
      hsame.signature]

/-- The data shred recovered from three copies vouches for the root of the last one. -/
theorem recover_authenticates_copies : ∃ L root,
    (sortShreds stableSort threeCopies).getLast? = some (.shredCode L) ∧
    (Shred.shredCode L).merkleRoot sha256Hasher = .ok root ∧
    ∀ s ∈ (plainBatch sha256Hasher 0 3).filter (· ∉ threeCopies),
      s.merkleRoot sha256Hasher = .ok root ∧ CarriedFrom L s := by
  obtain ⟨L, root, hlast, hroot, hall⟩ := recover_authenticates sha256Hasher replicationCache
    stableSort _ threeCopies_accepted _ recover_threeCopies
  refine ⟨L, root, hlast, hroot, fun s hs => ?_⟩
  obtain ⟨k, hk⟩ := List.mem_iff_getElem?.mp hs
  obtain ⟨h1, h2, -⟩ := hall k s (by rw [List.getElem?_map, hk]; rfl)
  exact ⟨h1, h2⟩

end LightweightShred
