import LightweightShred.Mismatch
import LightweightShred.Binding

/-!
# Settled batches

A batch that `recover` has completed is settled: on the given and the yielded shreds together,
in whatever order they come back, both functions succeed with nothing left to yield.
-/
namespace LightweightShred
open ByteString Rust Codec Slots HashTree

section Completed
variable {H : Hasher} {cache : ReedSolomonCache} {srt : ShredSort} {l ys m : List Shred}
  {L : ShredCode} {shards : List Bytes} {root : Hash} {s : Shred} {i : Nat}

theorem Filled.length_eq (h : Filled L l) : l.length = L.numShards := by
  have hlen := h.positions.length_eq
  rwa [List.length_map, List.length_range] at hlen

theorem Filled.position_getElem? (h : Filled L l) (hm : m.Perm l)
    (hinc : Increasing Shred.position m) (hs : m[i]? = some s) : s.position = i := by
  have hbound : ∀ s ∈ m, s.position < m.length := by
    intro s hs
    rw [hm.length_eq, h.length_eq]
    exact List.mem_range.mp (h.positions.mem_iff.mp (List.mem_map_of_mem (hm.mem_iff.mp hs)))
  rw [← held_of_full hinc hbound] at hs
  exact key_of_held hs

theorem Recovers.yielded (h : Recovers H cache l L shards root (ys.map .ok))
    (hl : ∀ s ∈ l, s.WellFormed) (hs : s ∈ ys) :
    s.WellFormed ∧ SameBatch s (.shredCode L) ∧ s.merkleRoot H = .ok root := by
  obtain ⟨k, hk⟩ := List.mem_iff_getElem?.mp hs
  have hk := getElem?_yielded hk
  exact ⟨h.item_wellFormed hl hk, h.item_sameBatch hl hk, h.item_merkleRoot hl hk⟩

theorem Recovers.yielded_code {c : ShredCode} (h : Recovers H cache l L shards root (ys.map .ok))
    (hl : ∀ s ∈ l, s.WellFormed) (hc : .shredCode c ∈ ys) :
    c.codingHeader.numDataShreds = L.codingHeader.numDataShreds ∧
    c.codingHeader.numCodingShreds = L.codingHeader.numCodingShreds ∧ c.first = L.first := by
  obtain ⟨k, hk⟩ := List.mem_iff_getElem?.mp hc
  have hheaders := h.item_codeHeaders hl (getElem?_yielded hk)
  have hindex := ((h.yielded_index hl hc).2 rfl).2
  split at hheaders
  · cases hheaders
  · obtain ⟨-, hcc⟩ := Prod.mk.inj (Option.some.inj hheaders)
    have hnd : c.codingHeader.numDataShreds = L.codingHeader.numDataShreds := by
      rw [hcc]
      rfl
    refine ⟨hnd, ?_, ?_⟩
    · rw [hcc]
      rfl
    · simp only [Shred.commonHeader, Shred.position] at hindex
      rw [hnd] at hindex
      rw [ShredCode.first, hindex]
      omega

theorem Recovers.agreeing_completed (h : Recovers H cache l L shards root (ys.map .ok))
    (hl : ∀ s ∈ l, s.WellFormed) (hag : Agreeing l) : Agreeing (l ++ ys) := by
  have hL : Shred.shredCode L ∈ l := List.mem_of_getLast? h.last
  have hcommon : ∀ s ∈ l ++ ys, s.commonHeader.slot = L.commonHeader.slot ∧
      s.commonHeader.version = L.commonHeader.version ∧
      s.commonHeader.fecSetIndex = L.commonHeader.fecSetIndex := by
    intro s hs
    rcases List.mem_append.mp hs with hs | hs
    · exact hag.common s hs _ hL
    · have hsame := (h.yielded hl hs).2.1
      exact ⟨hsame.slot, hsame.version, hsame.fecSetIndex⟩
  have hvariant : ∀ s ∈ l ++ ys, s.variant.proofSize = L.commonHeader.shredVariant.proofSize ∧
      s.variant.resigned = L.commonHeader.shredVariant.resigned := by
    intro s hs
    rcases List.mem_append.mp hs with hs | hs
    · exact hag.variant s hs _ hL
    · have hsame := (h.yielded hl hs).2.1
      exact ⟨hsame.proofSize, hsame.resigned⟩
  have hcoding : ∀ c : ShredCode, .shredCode c ∈ l ++ ys →
      c.codingHeader.numDataShreds = L.codingHeader.numDataShreds ∧
      c.codingHeader.numCodingShreds = L.codingHeader.numCodingShreds := by
    intro c hc
    rcases List.mem_append.mp hc with hc | hc
    · exact hag.coding c L hc hL
    · exact ⟨(h.yielded_code hl hc).1, (h.yielded_code hl hc).2.1⟩
  constructor
  · intro s hs t ht
    obtain ⟨h1, h2, h3⟩ := hcommon s hs
    obtain ⟨k1, k2, k3⟩ := hcommon t ht
    exact ⟨h1.trans k1.symm, h2.trans k2.symm, h3.trans k3.symm⟩
  · intro s hs t ht
    exact ⟨(hvariant s hs).1.trans (hvariant t ht).1.symm,
      (hvariant s hs).2.trans (hvariant t ht).2.symm⟩
  · intro a b ha hb
    exact ⟨(hcoding a ha).1.trans (hcoding b hb).1.symm, (hcoding a ha).2.trans (hcoding b hb).2.symm⟩

theorem Recovers.consistent_completed (h : Recovers H cache l L shards root (ys.map .ok))
    (hl : ∀ s ∈ l, s.WellFormed) (hag : Agreeing l) (hcons : IndicesConsistent L l) :
    IndicesConsistent L (l ++ ys) := by
  have hL : Shred.shredCode L ∈ l := List.mem_of_getLast? h.last
  have hF := h.filled hl hag
  have hfirst : ∀ c : ShredCode, .shredCode c ∈ l ++ ys → c.first = L.first := by
    intro c hc
    rcases List.mem_append.mp hc with hc | hc
    · exact (ShredCode.firstCodingIndex_eq (hl _ hc).sane (hl _ hL).sane).mp
        (hcons.coding c L hc hL)
    · exact (h.yielded_code hl hc).2.2
  constructor
  · intro s hs hk
    rcases List.mem_append.mp hs with hs' | hs'
    · exact hcons.data s hs' hk
    · have hindex := (hF.wellFormed s hs).index_data hk
      have hlt := (h.yielded_index hl hs').1 hk
      rw [hF.fecSetIndex s hs] at hindex
      omega
  · intro a b ha hb
    exact (ShredCode.firstCodingIndex_eq (hF.wellFormed _ ha).sane (hF.wellFormed _ hb).sane).mpr
      ((hfirst a ha).trans (hfirst b hb).symm)

theorem Recovers.recoverable_completed (h : Recovers H cache l L shards root (ys.map .ok))
    (hc : CodecDocumented cache) (hl : ∀ s ∈ l, s.WellFormed) (hag : Agreeing l)
    (hcons : IndicesConsistent L l) : Recoverable (l ++ ys) := by
  have hL : Shred.shredCode L ∈ l := List.mem_of_getLast? h.last
  have hF := h.filled hl hag
  have hagF := h.agreeing_completed hl hag
  have hconsF := h.consistent_completed hl hag hcons
  have hLF : Shred.shredCode L ∈ l ++ ys := List.mem_append_left _ hL
  have h256 := ((exists_reconstructs_iff hc hl hag h.last h.placeable).mp
    ⟨shards, h.toReconstructs⟩).2
  refine (hconsF.recoverable_iff hF.wellFormed hagF hLF).mpr ⟨fun s hs => ?_, ?_, ?_, h256⟩
  · rcases List.mem_append.mp hs with hs | hs
    · exact h.placeable.signature s hs
    · exact (h.yielded hl hs).2.1.signature
  · have hnodup : ((l ++ ys).map Shred.position).Nodup :=
      (hF.positions.nodup_iff).mpr List.nodup_range
    simp only [List.Nodup, List.pairwise_map] at hnodup ⊢
    exact hnodup.imp_of_mem fun hs ht hne hid =>
      hne ((hconsF.position_eq_iff hF.wellFormed hagF hLF hs ht).mpr hid)
  · rw [hF.length_eq]
    exact Nat.le_add_right _ _

theorem Recovers.leafNodes_completed (h : Recovers H cache l L shards root (ys.map .ok))
    (hl : ∀ s ∈ l, s.WellFormed) (hag : Agreeing l) (hm : m.Perm (l ++ ys))
    (hinc : Increasing Shred.position m) : m.map (leafNode H) = leafNodes H L l shards := by
  have hF := h.filled hl hag
  have hlen : m.length = L.numShards := hm.length_eq.trans hF.length_eq
  apply List.ext_getElem?
  intro i
  rcases Nat.lt_or_ge i m.length with hi | hi
  · have hget : m[i]? = some m[i] := List.getElem?_eq_getElem hi
    have hpos := hF.position_getElem? hm hinc hget
    have hmem : m[i] ∈ l ++ ys := hm.mem_iff.mp (List.getElem_mem hi)
    have hheld : HeldAt l (ys.map .ok) i m[i] := by
      refine ⟨(List.mem_append.mp hmem).imp id fun hs => List.mem_map_of_mem hs, ?_⟩
      rw [(hF.wellFormed _ hmem).sane.erasureShardIndex, hpos]
    obtain ⟨-, hin, hleaf, -⟩ := h.heldAt_leaf hl hag hheld
    rw [List.getElem?_map, hget, getElem?_leafNodes hin, ← hleaf]
    rfl
  · rw [List.getElem?_eq_none (by rwa [List.length_map]),
      List.getElem?_eq_none (by rwa [length_leafNodes, ← hlen])]

theorem Recovers.merkleRoot_completed {c : ShredCode}
    (h : Recovers H cache l L shards root (ys.map .ok)) (hl : ∀ s ∈ l, s.WellFormed)
    (hc : .shredCode c ∈ l ++ ys) (hlast : ∀ s ∈ l ++ ys, s.position ≤ (Shred.shredCode c).position) :
    (Shred.shredCode c).merkleRoot H = .ok root := by
  rcases List.mem_append.mp hc with hc | hc
  · have hL : Shred.shredCode L ∈ l := List.mem_of_getLast? h.last
    have hle := hlast _ (List.mem_append_left _ hL)
    have hge := h.placeable.increasing.le_last h.last hc
    rw [h.placeable.increasing.injective hc hL (Nat.le_antisymm hge hle)]
    exact h.root
  · exact (h.yielded hl hc).2.2

theorem Recovers.settled (h : Recovers H cache l L shards root (ys.map .ok))
    (hc : CodecDocumented cache) (hl : ∀ s ∈ l, s.WellFormed) (hag : Agreeing l)
    (hcons : IndicesConsistent L l) (hm : m.Perm (l ++ ys)) :
    recover H cache srt m = .ok [] ∧ recoverDataOnly cache srt m = .ok [] := by
  have hL : Shred.shredCode L ∈ l := List.mem_of_getLast? h.last
  have hF := h.filled hl hag
  have hagF := h.agreeing_completed hl hag
  have hwm : ∀ s ∈ m, s.WellFormed := fun s hs => hF.wellFormed s (hm.mem_iff.mp hs)
  have hagm : Agreeing m := hagF.perm hm
  have hfree : ¬Tied (l ++ ys) := (h.consistent_completed hl hag hcons).not_tied hF.wellFormed hagF
    (List.mem_append_left _ hL)
  have hrec := (h.recoverable_completed hc hl hag hcons).perm hm
  have hfreem : ¬Tied m := fun ⟨a, b, ha, hb, hab⟩ =>
    hfree ⟨a, b, hm.mem_iff.mp ha, hm.mem_iff.mp hb, hab⟩
  -- sorted, the batch is its own table
  have hperm := sortShreds_perm srt m
  have hinc : Increasing Shred.position (sortShreds srt m) := hrec.increasing_sorted hwm hagm hfreem
  obtain ⟨c, out, hR⟩ := (hrec.perm hperm).exists_reconstructs hc (wellFormed_sortShreds hwm)
    (hagm.perm hperm) (sorted_sortShreds srt m) hinc
  have hpF := hperm.trans hm
  have hcF : Shred.shredCode c ∈ l ++ ys := hpF.mem_iff.mp (List.mem_of_getLast? hR.last)
  have hshards : c.numShards = L.numShards := by
    obtain ⟨hnd, hnc⟩ := hagF.coding c L hcF (List.mem_append_left _ hL)
    rw [ShredCode.numShards, ShredCode.numShards, hnd, hnc]
  have hfull : (sortShreds srt m).length = c.numShards := by
    rw [hpF.length_eq, hF.length_eq, hshards]
  have hmissing : missingAt c (sortShreds srt m) = [] := by
    have hlen := length_missing hinc hR.placeable.bound
    exact List.length_eq_zero_iff.mp (by rw [missingAt]; omega)
  have hdata : missingData c (sortShreds srt m) = [] := by
    have hpre : missingData c (sortShreds srt m) <+: missingAt c (sortShreds srt m) :=
      missing_prefix (Nat.le_add_right _ _)
    rw [hmissing] at hpre
    exact List.prefix_nil.mp hpre
  have hroot : (Shred.shredCode c).merkleRoot H = .ok root :=
    h.merkleRoot_completed hl hcF fun s hs => hinc.le_last hR.last (hpF.mem_iff.mpr hs)
  have htree : level (scheme H).join (depth c.numShards) (leafNodes H c (sortShreds srt m) out) =
      [root] := by
    rw [hR.leafNodes_given (wellFormed_sortShreds hwm) hfull,
      h.leafNodes_completed hl hag hpF hinc, hshards, h.tree]
  constructor
  · refine (recover_eq_ok hwm).mpr ⟨c, out, root, hR, ?_, htree, hroot, ?_⟩
    · rw [hmissing]
      intro i hi
      cases hi
    · rw [hmissing]
      rfl
  · refine (recoverDataOnly_eq_ok hwm).mpr ⟨c, out, hR, ?_⟩
    rw [hdata]
    rfl

end Completed

/-- A completed batch is settled: where the indices of the given shreds are those of a batch, a
second `recover` or `recover_data_only` on them and on what the first yielded, in any order,
succeeds and yields nothing. -/
theorem recovery_settles (H : Hasher) (cache : ReedSolomonCache) (hc : CodecDocumented cache)
    (srt : ShredSort) (l : List Shred) (hl : ∀ s ∈ l, s.Accepted) (hag : Agreeing l) (L : ShredCode)
    (hL : .shredCode L ∈ l) (hcons : IndicesConsistent L l) (ys : List Shred)
    (hr : recover H cache srt l = .ok (ys.map .ok)) (m : List Shred) (hm : m.Perm (l ++ ys)) :
    recover H cache srt m = .ok [] ∧ recoverDataOnly cache srt m = .ok [] := by
  have hwf : ∀ s ∈ l, s.WellFormed := fun s hs => Shred.accepted_iff.mp (hl s hs)
  have hperm := sortShreds_perm srt l
  obtain ⟨L', shards, root, hR⟩ := (recover_eq_ok hwf).mp hr
  have hL' : .shredCode L' ∈ l := hperm.mem_iff.mp (List.mem_of_getLast? hR.last)
  exact hR.settled hc (wellFormed_sortShreds hwf) (hag.perm hperm)
    (hcons.congr hperm.symm (hag.coding L L' hL hL').1 (hag.common _ hL _ hL').2.2)
    (hm.trans (hperm.symm.append_right ys))

theorem recovery_settles_fixed : ∃ L ys, .shredCode L ∈ fixedPart ∧
    recover sha256Hasher interpolationCache stableSort fixedPart = .ok (ys.map .ok) ∧
    recover sha256Hasher interpolationCache stableSort (fixedPart ++ ys).reverse = .ok [] ∧
    recoverDataOnly interpolationCache stableSort (fixedPart ++ ys).reverse = .ok [] := by
  obtain ⟨L, hL⟩ := exists_code_fixedPart
  have hcons : IndicesConsistent L fixedPart :=
    fixedBatch_complete.indicesConsistent fixedPart_sublist.subset (fixedPart_sublist.subset hL)
  exact ⟨L, _, hL, recover_fixedPart, recovery_settles sha256Hasher interpolationCache
    interpolationCache_documented stableSort fixedPart
    (fun s hs => fixedBatch_complete.accepted s (fixedPart_sublist.subset hs)) fixedPart_agreeing L
    hL hcons _ recover_fixedPart _ (List.reverse_perm _)⟩

end LightweightShred
