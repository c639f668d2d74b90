import LightweightShred.Commitment
import LightweightShred.ArrivalOrder

/-!
# What success binds

A run of `recover` that succeeds yields a whole batch, and the only batch of its Merkle
root. It says nothing about the proofs of the shreds it was given, but for the last one.
-/
namespace LightweightShred
open ByteString Rust Codec Slots HashTree HashScheme

/-- Recovery is all or nothing: it yields what was missing, and all of it as shreds, since
proofs of the wrong size for the batch cannot have led to its root. -/
theorem recover_all_or_nothing (H : Hasher) (cache : ReedSolomonCache) (srt : ShredSort)
    (l : List Shred) (hl : ∀ s ∈ l, s.Accepted) (items : List (Result Shred))
    (hr : recover H cache srt l = .ok items) :
    ∃ L shards, Reconstructs cache (sortShreds srt l) L shards ∧
      items.length + l.length =
        L.codingHeader.numDataShreds.toNat + L.codingHeader.numCodingShreds.toNat ∧
      (((∀ x ∈ items, ∃ s, x = .ok s) ∧
          (Shred.shredCode L).proofSize = .ok (getProofSize L.numShards)) ∨
        (scheme H).Collision (runHashes H L (sortShreds srt l) shards)) := by
  have hwf : ∀ s ∈ l, s.WellFormed := fun s hs => Shred.accepted_iff.mp (hl s hs)
  have hsl := @wellFormed_sortShreds srt l hwf
  obtain ⟨L, shards, root, hR⟩ := (recover_eq_ok hwf).mp hr
  refine ⟨L, shards, hR.toReconstructs, ?_, (hR.proofSize_eq hsl).imp_left fun hps => ⟨?_, ?_⟩⟩
  · have hlen := length_missing hR.placeable.increasing hR.placeable.bound
    rw [(sortShreds_perm srt l).length_eq] at hlen
    rw [hR.items, List.length_map, missingAt, Nat.add_comm, hlen]
    rfl
  · exact hR.items_ok hsl hps
  · rw [(hR.wellFormed_last hsl).toShaped.proofSize]
    exact congrArg Except.ok hps

/-- The data shred comes back from its three copies. -/
theorem recover_all_or_nothing_copies :
    ∃ L shards items, recover sha256Hasher replicationCache stableSort threeCopies = .ok items ∧
      Reconstructs replicationCache (sortShreds stableSort threeCopies) L shards ∧
      items.length + threeCopies.length =
        L.codingHeader.numDataShreds.toNat + L.codingHeader.numCodingShreds.toNat ∧
      (((∀ x ∈ items, ∃ s, x = .ok s) ∧
          (Shred.shredCode L).proofSize = .ok (getProofSize L.numShards)) ∨
        (scheme sha256Hasher).Collision
          (runHashes sha256Hasher L (sortShreds stableSort threeCopies) shards)) := by
  obtain ⟨L, shards, hR, hcount, hitems⟩ := recover_all_or_nothing sha256Hasher replicationCache
    stableSort _ threeCopies_accepted _ recover_threeCopies
  exact ⟨L, shards, _, recover_threeCopies, hR, hcount, hitems⟩

/-- The shred at a position of the completed batch: given, or yielded. -/
def HeldAt (l : List Shred) (items : List (Result Shred)) (i : Nat) (s : Shred) : Prop :=
  (s ∈ l ∨ .ok s ∈ items) ∧ s.erasureShardIndex = .ok i

/-- One type, and the same bytes between the signature and the proof. -/
structure SameContent (s t : Shred) : Prop where
  shredType : s.commonHeader.shredVariant.shredType = t.commonHeader.shredVariant.shredType
  proofOffset : s.proofOffset = t.proofOffset
  content : ∃ offset, s.proofOffset = .ok offset ∧
    AgreeOn s.payload.bytes t.payload.bytes sizeOfSignature offset

section Held
variable {H : Hasher} {cache : ReedSolomonCache} {l : List Shred} {L : ShredCode}
  {shards : List Bytes} {root : Hash} {items : List (Result Shred)} {i : Nat} {s t : Shred}

theorem heldAt_perm {l' : List Shred} (hp : l'.Perm l) :
    HeldAt l' items i s ↔ HeldAt l items i s := by
  rw [HeldAt, HeldAt, hp.mem_iff]

/-- The content fixes the kind, since data shreds and coding shreds differ in its length. -/
theorem sameContent_of_leaf (hs : s.Shaped) (ht : t.Shaped)
    (hps : s.variant.proofSize = t.variant.proofSize)
    (hr : s.variant.resigned = t.variant.resigned) (hleaf : s.leaf = t.leaf) : SameContent s t := by
  have hkind : s.kind = t.kind := by
    have hlen := congrArg List.length hleaf
    have hbs := bodyEnd_add s.kind hs.valid
    have hbt := bodyEnd_add t.kind ht.valid
    have hls := lt_bodyEnd s.kind hs.valid
    have hlt := lt_bodyEnd t.kind ht.valid
    rw [hs.length_leaf, ht.length_leaf] at hlen
    simp only [Region.lo, ShredVariant.proofBytes, ShredVariant.resignedBytes, hps, hr,
      sizeOfSignature, sizeOfMerkleRoot] at hlen hbs hbt
    have hsize : sizeOfPayload s.kind = sizeOfPayload t.kind := by omega
    have hcode : sizeOfPayload .code = 1228 := rfl
    have hdata : sizeOfPayload .data = 1203 := rfl
    cases hk : s.kind <;> cases hj : t.kind <;> rw [hk, hj] at hsize <;> first | rfl | omega
  have hvar : s.variant = t.variant :=
    ShredVariant.eq_of_fields (by rw [hs.kind, ht.kind, hkind]) hps hr
  refine ⟨congrArg ShredVariant.shredType hvar, ?_, _, hs.proofOffset, agreeOn_of_slice_eq ?_⟩
  · rw [hs.proofOffset, ht.proofOffset, hkind, hvar]
  · rw [Shred.leaf, Shred.leaf, ← hkind, ← hvar] at hleaf
    exact hleaf

theorem Recovers.heldAt_leaf (h : Recovers H cache l L shards root items)
    (hl : ∀ s ∈ l, s.WellFormed) (hag : Agreeing l) (hs : HeldAt l items i s) :
    s.Shaped ∧ i < L.numShards ∧ s.leaf = (completed L l shards i).leaf ∧
      s.variant.proofSize = L.commonHeader.shredVariant.proofSize ∧
      s.variant.resigned = L.commonHeader.shredVariant.resigned := by
  obtain ⟨hs | hs, hidx⟩ := hs
  · have hwf := hl s hs
    rw [hwf.sane.erasureShardIndex] at hidx
    obtain rfl : s.position = i := Except.ok.inj hidx
    have hlt := h.placeable.bound s hs
    obtain ⟨hps, hr⟩ := hag.variant s hs _ (List.mem_of_getLast? h.last)
    refine ⟨hwf.toShaped, hlt, ?_, hps, hr⟩
    rw [h.completed_of_held hl hlt (held_of_mem h.placeable.increasing hs)]
  · obtain ⟨k, hk⟩ := List.mem_iff_getElem?.mp hs
    have hwf := h.item_wellFormed hl hk
    have hpos := h.item_position hl hk
    have hsame := h.item_sameBatch hl hk
    rw [hwf.sane.erasureShardIndex] at hidx
    obtain rfl : s.position = i := Except.ok.inj hidx
    obtain ⟨j, hj, hlen, hitem⟩ := h.item hl hk
    obtain rfl : j = s.position := Option.some.inj (hj.symm.trans hpos)
    have hin := (mem_missing_iff.mp (List.mem_of_getElem? hj)).1
    refine ⟨hwf.toShaped, hin, ?_, hsame.proofSize, hsame.resigned⟩
    conv_lhs => rw [hitem]
    exact (h.shaped_completed hl hin).leaf_withPart_proof (proof_fits hlen)

theorem Recovers.exists_heldAt (h : Recovers H cache l L shards root items)
    (hl : ∀ s ∈ l, s.WellFormed) (hok : ∀ x ∈ items, ∃ s, x = .ok s) (hi : i < L.numShards) :
    ∃ s, HeldAt l items i s := by
  cases hp : present l i with
  | true =>
      obtain ⟨s, hs, rfl⟩ := present_iff.mp hp
      exact ⟨s, .inl hs, (hl s hs).sane.erasureShardIndex⟩
  | false =>
      have hmem : i ∈ missingAt L l := mem_missing_iff.mpr ⟨hi, hp⟩
      obtain ⟨k, hk⟩ := List.mem_iff_getElem?.mp hmem
      obtain ⟨x, hx⟩ : ∃ x, items[k]? = some x := by
        rw [h.items, List.getElem?_map, hk]
        exact ⟨_, rfl⟩
      obtain ⟨s, rfl⟩ := hok x (List.mem_of_getElem? hx)
      have hpos := h.item_position hl hx
      refine ⟨s, .inr (List.mem_of_getElem? hx), ?_⟩
      rw [(h.item_wellFormed hl hx).sane.erasureShardIndex,
        Option.some.inj (hpos.symm.trans hk)]

theorem Recovers.sameContent {cache' : ReedSolomonCache} {l' : List Shred} {L' : ShredCode}
    {shards' : List Bytes} {items' : List (Result Shred)}
    (h : Recovers H cache l L shards root items) (hl : ∀ s ∈ l, s.WellFormed) (hag : Agreeing l)
    (h' : Recovers H cache' l' L' shards' root items') (hl' : ∀ s ∈ l', s.WellFormed)
    (hag' : Agreeing l')
    (hps : L.commonHeader.shredVariant.proofSize = L'.commonHeader.shredVariant.proofSize)
    (hres : L.commonHeader.shredVariant.resigned = L'.commonHeader.shredVariant.resigned)
    (hleaves : leaves L l shards = leaves L' l' shards')
    (hs : HeldAt l items i s) (ht : HeldAt l' items' i t) : SameContent s t := by
  obtain ⟨hss, hi, hsl, hsp, hsr⟩ := h.heldAt_leaf hl hag hs
  obtain ⟨hts, hi', htl, htp, htr⟩ := h'.heldAt_leaf hl' hag' ht
  refine sameContent_of_leaf hss hts ?_ ?_ ?_
  · rw [hsp, hps, htp]
  · rw [hsr, hres, htr]
  · have hat := congrArg (fun x => x[i]?) hleaves
    simp only [leaves, List.getElem?_map, List.getElem?_range hi, List.getElem?_range hi',
      Option.map_some, Option.some.injEq] at hat
    rw [hsl, htl, hat]

end Held

/-- Two successful runs on batches of one geometry whose last coding shreds have one Merkle
root complete them to the same content at every position, or two of the strings they hash
collide. The codec may have returned anything. -/
theorem recover_one_root (H : Hasher) (cache : ReedSolomonCache) (srt : ShredSort)
    (l l' : List Shred) (hl : ∀ s ∈ l, s.Accepted) (hl' : ∀ s ∈ l', s.Accepted)
    (hag : Agreeing l) (hag' : Agreeing l') (items items' : List (Result Shred))
    (hr : recover H cache srt l = .ok items) (hr' : recover H cache srt l' = .ok items')
    (L L' : ShredCode) (hlast : (sortShreds srt l).getLast? = some (.shredCode L))
    (hlast' : (sortShreds srt l').getLast? = some (.shredCode L'))
    (hnd : L.codingHeader.numDataShreds = L'.codingHeader.numDataShreds)
    (hnc : L.codingHeader.numCodingShreds = L'.codingHeader.numCodingShreds)
    (hps : (Shred.shredCode L).variant.proofSize = (Shred.shredCode L').variant.proofSize)
    (hres : (Shred.shredCode L).variant.resigned = (Shred.shredCode L').variant.resigned)
    (hroot : (Shred.shredCode L).merkleRoot H = (Shred.shredCode L').merkleRoot H) :
    ∃ shards shards', Reconstructs cache (sortShreds srt l) L shards ∧
      Reconstructs cache (sortShreds srt l') L' shards' ∧
      ((∀ i < L.codingHeader.numDataShreds.toNat + L.codingHeader.numCodingShreds.toNat,
          (∃ s, HeldAt l items i s) ∧ (∃ t, HeldAt l' items' i t) ∧
            ∀ s t, HeldAt l items i s → HeldAt l' items' i t → SameContent s t) ∨
        (scheme H).Collision (runHashes H L (sortShreds srt l) shards ++
          runHashes H L' (sortShreds srt l') shards')) := by
  have hwf : ∀ s ∈ l, s.WellFormed := fun s hs => Shred.accepted_iff.mp (hl s hs)
  have hwf' : ∀ s ∈ l', s.WellFormed := fun s hs => Shred.accepted_iff.mp (hl' s hs)
  have hsl := @wellFormed_sortShreds srt l hwf
  have hsl' := @wellFormed_sortShreds srt l' hwf'
  have hperm := sortShreds_perm srt l
  have hperm' := sortShreds_perm srt l'
  obtain ⟨M, shards, root, hR⟩ := (recover_eq_ok hwf).mp hr
  obtain ⟨M', shards', root', hR'⟩ := (recover_eq_ok hwf').mp hr'
  obtain rfl : M = L := Shred.shredCode.inj (Option.some.inj (hR.last.symm.trans hlast))
  obtain rfl : M' = L' := Shred.shredCode.inj (Option.some.inj (hR'.last.symm.trans hlast'))
  obtain rfl : root' = root :=
    Except.ok.inj (hR'.root.symm.trans (hroot.symm.trans hR.root))
  refine ⟨shards, shards', hR.toReconstructs, hR'.toReconstructs, ?_⟩
  have hn : M'.numShards = M.numShards := by rw [ShredCode.numShards, ShredCode.numShards, hnd, hnc]
  rcases hR.proofSize_eq hsl with hsize | hcoll
  · rcases hR'.proofSize_eq hsl' with hsize' | hcoll
    · rcases hR.leaves_eq hsl hR' hsl' hn with hleaves | hcoll
      · left
        intro i hi
        obtain ⟨s, hs⟩ := hR.exists_heldAt hsl (hR.items_ok hsl hsize) hi
        obtain ⟨t, ht⟩ := hR'.exists_heldAt hsl' (hR'.items_ok hsl' hsize') (by rwa [hn])
        refine ⟨⟨s, (heldAt_perm hperm).mp hs⟩, ⟨t, (heldAt_perm hperm').mp ht⟩, ?_⟩
        intro s t hs ht
        exact hR.sameContent hsl (hag.perm hperm) hR' hsl' (hag'.perm hperm') hps hres hleaves
          ((heldAt_perm hperm).mpr hs) ((heldAt_perm hperm').mpr ht)
      · right
        refine hcoll.mono fun m hm => List.mem_append.mpr ?_
        exact (List.mem_append.mp hm).imp (List.mem_append_right _) (List.mem_append_right _)
    · exact .inr (hcoll.mono (List.subset_append_right _ _))
  · exact .inr (hcoll.mono (List.subset_append_left _ _))

/-- A data shred with its copy, and the copy alone. -/
theorem recover_one_root_copies : ∃ L shards shards',
    Reconstructs replicationCache (sortShreds stableSort (plainBatch sha256Hasher 0 1)) L shards ∧
    Reconstructs replicationCache (sortShreds stableSort ((plainBatch sha256Hasher 0 1).drop 1)) L
      shards' ∧
    ((∀ i < L.codingHeader.numDataShreds.toNat + L.codingHeader.numCodingShreds.toNat, ∀ s t,
        s ∈ plainBatch sha256Hasher 0 1 → s.erasureShardIndex = .ok i →
        HeldAt ((plainBatch sha256Hasher 0 1).drop 1) (((plainBatch sha256Hasher 0 1).filter
          (· ∉ (plainBatch sha256Hasher 0 1).drop 1)).map .ok) i t → SameContent s t) ∨
      (scheme sha256Hasher).Collision (runHashes sha256Hasher L
          (sortShreds stableSort (plainBatch sha256Hasher 0 1)) shards ++
        runHashes sha256Hasher L
          (sortShreds stableSort ((plainBatch sha256Hasher 0 1).drop 1)) shards')) := by
  have hB := plainBatch_complete sha256Hasher 0 (show 1 ≤ 1 by decide) (by decide)
    (show 0 + 1 ≤ 32768 by decide)
  obtain ⟨hsub, hlen, s, hs, hk⟩ := plainBatch_copies sha256Hasher 0 (show 1 ≤ 1 by decide)
  have hrun : recover sha256Hasher replicationCache stableSort _ = .ok _ :=
    hB.recover_eq (replicationCache_correct (by decide) (by decide)) (List.Subperm.refl _)
      (by rw [hB.length]; decide)
      ⟨s, hsub.subset hs, hk⟩
  have hrun' : recover sha256Hasher replicationCache stableSort _ = .ok _ :=
    recover_plainCopies sha256Hasher 0 le_rfl (by decide) (by decide)
  obtain ⟨L, _, _, hR⟩ := (recover_eq_ok fun s hs => hB.wellFormed hs).mp hrun
  obtain ⟨L', _, _, hR'⟩ := (recover_eq_ok fun s hs => hB.wellFormed (hsub.subset hs)).mp hrun'
  have hL := (sortShreds_perm _ _).mem_iff.mp (List.mem_of_getLast? hR.last)
  have hL' := hsub.subset ((sortShreds_perm _ _).mem_iff.mp (List.mem_of_getLast? hR'.last))
  -- there is only one coding shred
  have hpos : ∀ c : ShredCode, .shredCode c ∈ plainBatch sha256Hasher 0 1 →
      (Shred.shredCode c).position = 1 := by
    intro c hc
    have hlt := hB.position_lt hc
    have hkind := hB.kind_iff hc
    split at hkind
    · cases hkind
    · omega
  obtain rfl : L' = L := Shred.shredCode.inj
    (hB.position_injective hL' hL ((hpos L' hL').trans (hpos L hL).symm))
  obtain ⟨shards, shards', h1, h2, hbound⟩ := recover_one_root sha256Hasher replicationCache
    stableSort _ _ hB.accepted (plainCopies_accepted sha256Hasher 0 le_rfl (by decide) (by decide))
    hB.agreeing (plainCopies_agreeing sha256Hasher 0 le_rfl (by decide) (by decide)) _ _ hrun hrun'
    L' L' hR.last hR'.last rfl rfl rfl rfl rfl
  refine ⟨L', shards, shards', h1, h2, hbound.imp_left fun hall i hi s t hs hsi ht => ?_⟩
  exact (hall i hi).2.2 s t ⟨.inl hs, hsi⟩ ht

end LightweightShred
