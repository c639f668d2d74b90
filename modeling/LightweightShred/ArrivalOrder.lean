import LightweightShred.Identities

/-!
# The order of arrival

Sorting settles the order of shreds with different kinds or indices. Coding shreds of one
index keep the order they arrived in, and whether they can be placed depends on it.
-/
namespace LightweightShred
open ByteString Rust Codec Slots

/-- On every rearrangement both functions fail alike, or succeed with the same result. -/
def OrderFree (H : Hasher) (cache : ReedSolomonCache) (srt : ShredSort) (l : List Shred) : Prop :=
  ∀ l' : List Shred, l'.Perm l →
    (recover H cache srt l').toOption = (recover H cache srt l).toOption ∧
    (recoverDataOnly cache srt l').toOption = (recoverDataOnly cache srt l).toOption

/-- A list that the fast path recovers in some order of arrival. -/
structure Recoverable (l : List Shred) : Prop where
  signature : ∀ s ∈ l, ∀ t ∈ l, s.signature = t.signature
  positions : (l.map Shred.position).Nodup
  bound : ∀ L, .shredCode L ∈ l → ∀ s ∈ l, s.position < L.numShards
  order : ∀ s ∈ l, ∀ t ∈ l, cmpShredErasureShardIndex s t = .lt → s.position < t.position
  enough : ∃ L, .shredCode L ∈ l ∧ L.numDataShreds ≤ l.length ∧ L.numShards ≤ 256

/-- Two coding shreds share an index but not a position. -/
def Tied (l : List Shred) : Prop :=
  ∃ a b : ShredCode, .shredCode a ∈ l ∧ .shredCode b ∈ l ∧
    a.commonHeader.index = b.commonHeader.index ∧
    a.codingHeader.position ≠ b.codingHeader.position

theorem cmp_eq_lt {a b : Shred} : cmpShredErasureShardIndex a b = .lt ↔ isLe b a = false := by
  cases a <;> cases b <;>
    simp [isLe, cmpShredErasureShardIndex, Nat.compare_eq_lt, Nat.isLE_compare, ← Bool.not_eq_true]

section Sorting
variable {l l' : List Shred}

theorem rel_or_rel {α : Type} {R : α → α → Prop} {l : List α} (h : l.Pairwise R) {a b : α}
    (ha : a ∈ l) (hb : b ∈ l) (hne : a ≠ b) : R a b ∨ R b a := by
  obtain ⟨i, hi, rfl⟩ := List.getElem_of_mem ha
  obtain ⟨j, hj, rfl⟩ := List.getElem_of_mem hb
  rcases Nat.lt_trichotomy i j with hij | rfl | hij
  · exact .inl (List.pairwise_iff_getElem.mp h i j hi hj hij)
  · exact (hne rfl).elim
  · exact .inr (List.pairwise_iff_getElem.mp h j i hj hi hij)

theorem Recoverable.perm (h : Recoverable l) (hp : l'.Perm l) : Recoverable l' where
  signature s hs t ht := h.signature s (hp.mem_iff.mp hs) t (hp.mem_iff.mp ht)
  positions := ((hp.map _).nodup_iff).mpr h.positions
  bound L hL s hs := h.bound L (hp.mem_iff.mp hL) s (hp.mem_iff.mp hs)
  order s hs t ht := h.order s (hp.mem_iff.mp hs) t (hp.mem_iff.mp ht)
  enough := by
    obtain ⟨L, hL, hlen, hn⟩ := h.enough
    exact ⟨L, hp.mem_iff.mpr hL, hp.length_eq.symm ▸ hlen, hn⟩

theorem Recoverable.injective (h : Recoverable l) {a b : Shred} (ha : a ∈ l) (hb : b ∈ l)
    (hab : a.position = b.position) : a = b :=
  List.inj_on_of_nodup_map h.positions ha hb hab

theorem Recoverable.exists_increasing (h : Recoverable l) :
    ∃ l', l'.Perm l ∧ Sorted l' ∧ Increasing Shred.position l' := by
  let le : Shred → Shred → Bool := fun a b => decide (a.position ≤ b.position)
  have htrans : ∀ a b d, le a b = true → le b d = true → le a d = true := by
    intro a b d h1 h2
    simp only [le, decide_eq_true_eq] at h1 h2 ⊢
    omega
  have htotal : ∀ a b, (le a b || le b a) = true := by
    intro a b
    simp only [le, Bool.or_eq_true, decide_eq_true_eq]
    omega
  have hperm : (l.mergeSort le).Perm l := List.mergeSort_perm l le
  have hle : (l.mergeSort le).Pairwise fun a b => a.position ≤ b.position :=
    (List.pairwise_mergeSort htrans htotal l).imp fun h => of_decide_eq_true h
  have hnodup : (l.mergeSort le).Pairwise fun a b => a.position ≠ b.position :=
    List.pairwise_map.mp (h.perm hperm).positions
  have hlt : Increasing Shred.position (l.mergeSort le) :=
    (hle.and hnodup).imp fun hab => by omega
  refine ⟨_, hperm, hlt.imp_of_mem ?_, hlt⟩
  intro a b ha hb hab
  by_contra hnot
  have := h.order b (hperm.mem_iff.mp hb) a (hperm.mem_iff.mp ha)
    (cmp_eq_lt.mpr (Bool.not_eq_true _ ▸ hnot))
  omega

theorem exists_sorted_pair {a b : Shred} (ha : a ∈ l) (hb : b ∈ l) (hne : a ≠ b)
    (hle : isLe b a = true) : ∃ l', l'.Perm l ∧ Sorted l' ∧ [b, a].Sublist l' := by
  have hb' : b ∈ l.erase a := (List.mem_erase_of_ne hne.symm).mpr hb
  have hperm : (b :: a :: (l.erase a).erase b).Perm l :=
    (List.Perm.swap a b _).trans
      (((List.perm_cons_erase hb').symm.cons a).trans (List.perm_cons_erase ha).symm)
  have htotal : ∀ x y, (isLe x y || isLe y x) = true := fun x y => by
    simpa using isLe_total x y
  refine ⟨_, (List.mergeSort_perm _ isLe).trans hperm,
    List.pairwise_mergeSort isLe_trans htotal _,
    List.pair_sublist_mergeSort isLe_trans htotal hle ?_⟩
  exact ((List.nil_sublist _).cons_cons a).cons_cons b

theorem Recoverable.sorted_unique {m : List Shred} (h : Recoverable l) (hl : ∀ s ∈ l, s.WellFormed)
    (hag : Agreeing l) (hfree : ¬Tied l) (hp' : l'.Perm l) (hp : m.Perm l) (hs' : Sorted l')
    (hs : Sorted m) : l' = m := by
  refine List.Perm.eq_of_pairwise ?_ hs' hs (hp'.trans hp.symm)
  intro s t hsm htm hst hts
  have hsl := hp'.mem_iff.mp hsm
  have htl := hp.mem_iff.mp htm
  apply h.injective hsl htl
  rcases isLe_iff.mp hst with ⟨hd, hc⟩ | ⟨hk, hle⟩
  · rcases isLe_iff.mp hts with ⟨hd', -⟩ | ⟨hk', -⟩
    · exact ShredType.noConfusion (hc.symm.trans hd')
    · exact ShredType.noConfusion (hc.symm.trans (hk'.trans hd))
  · rcases isLe_iff.mp hts with ⟨hd', hc'⟩ | ⟨-, hge⟩
    · exact ShredType.noConfusion (hd'.symm.trans (hk.symm.trans hc'))
    · have hidx : s.commonHeader.index.toNat = t.commonHeader.index.toNat := Nat.le_antisymm hle hge
      cases s with
      | shredData d =>
          have h1 := (hl _ hsl).index_data rfl
          have h2 := (hl _ htl).index_data hk.symm
          have h3 := congrArg UInt32.toNat (hag.common _ hsl _ htl).2.2
          omega
      | shredCode c =>
          cases t with
          | shredData d => cases hk
          | shredCode e =>
              have hpos : c.codingHeader.position = e.codingHeader.position := by
                by_contra hne
                exact hfree ⟨c, e, hsl, htl, UInt32.toNat_inj.mp hidx, hne⟩
              simp only [Shred.position, (hag.coding c e hsl htl).1, hpos]

end Sorting

section Runs
variable {H : Hasher} {cache : ReedSolomonCache} {srt : ShredSort} {l l' : List Shred}
  {L : ShredCode} {shards : List Bytes}

/-- Both functions look at the sorted list only. -/
theorem recover_congr (h : sortShreds srt l' = sortShreds srt l) :
    recover H cache srt l' = recover H cache srt l := by
  unfold recover
  rw [h]

theorem recoverDataOnly_congr (h : sortShreds srt l' = sortShreds srt l) :
    recoverDataOnly cache srt l' = recoverDataOnly cache srt l := by
  unfold recoverDataOnly
  rw [h]

theorem length_codecInput (hl : ∀ s ∈ l, s.WellFormed) (hag : Agreeing l)
    (hL : Shred.shredCode L ∈ l) {g : Bytes × Bool} (hg : g ∈ codecInput L l) :
    g.1.length = ((Shred.shredCode L).part .shard).length := by
  have hwL := (hl _ hL).toShaped
  obtain ⟨i, -, rfl⟩ := List.mem_map.mp hg
  change ((fillAt L.stubAt l i).part .shard).length = _
  cases hh : held Shred.position l i with
  | none =>
      rw [fillAt, hh, Option.getD_none]
      exact (stubAt_sameBatch hwL i).length_shard (shaped_stubAt hwL i) hwL
  | some s =>
      have hs := mem_of_held hh
      obtain ⟨hps, hr⟩ := hag.variant s hs _ hL
      rw [fillAt_of_held hh]
      exact (hl s hs).toShaped.length_shard_eq hwL hps hr

theorem exists_reconstructs_iff (hc : CodecDocumented cache) (hl : ∀ s ∈ l, s.WellFormed)
    (hag : Agreeing l) (hlast : l.getLast? = some (.shredCode L))
    (hplace : Placeable L.commonHeader.signature L.numShards l) :
    (∃ shards, Reconstructs cache l L shards) ↔
      L.numDataShreds ≤ l.length ∧ L.numShards ≤ 256 := by
  have hL := List.mem_of_getLast? hlast
  have hwL := hl _ hL
  obtain ⟨-, -, -, hd, hpos, hn⟩ := numbers hwL.sane
  have hnew := hc.new_ok L.codingHeader.numDataShreds.toNat L.codingHeader.numCodingShreds.toNat
  have hsize : 0 < ((Shred.shredCode L).part .shard).length := by
    have h1 := hwL.toShaped.length_shard
    have h2 := hwL.valid.proofBytes_le
    have h3 := ShredVariant.resignedBytes_le (Shred.shredCode L).variant
    omega
  have hrec : ∀ codec, cache.new _ _ = .ok codec → _ := fun codec hcodec =>
    hc.reconstruct_ok _ _ codec hcodec _ (codecInput L l) hsize (by simp [codecInput, hn]; rfl)
      fun g hg => length_codecInput hl hag hL hg
  have hcount := countP_codecInput hplace
  rw [hcount] at hrec
  constructor
  · rintro ⟨shards, -, -, codec, hcodec, hr⟩
    exact ⟨(hrec codec hcodec).mp ⟨shards, hr⟩, (hnew.mp ⟨codec, hcodec⟩).2.2⟩
  · rintro ⟨hlen, h256⟩
    obtain ⟨codec, hcodec⟩ := hnew.mpr ⟨hd, by omega, h256⟩
    obtain ⟨shards, hr⟩ := (hrec codec hcodec).mpr hlen
    exact ⟨shards, hlast, hplace, codec, hcodec, hr⟩

theorem Reconstructs.recoverable (hc : CodecDocumented cache) (h : Reconstructs cache l L shards)
    (hl : ∀ s ∈ l, s.WellFormed) (hag : Agreeing l) (hsorted : Sorted l) : Recoverable l := by
  have hL := List.mem_of_getLast? h.last
  have henough := (exists_reconstructs_iff hc hl hag h.last h.placeable).mp ⟨shards, h⟩
  refine ⟨?_, h.placeable.increasing.nodup_keys, ?_, ?_, L, hL, henough⟩
  · intro s hs t ht
    rw [h.placeable.signature s hs, h.placeable.signature t ht]
  · intro c hc s hs
    obtain ⟨hd, hn⟩ := hag.coding c L hc hL
    rw [ShredCode.numShards, hd, hn]
    exact h.placeable.bound s hs
  · intro s hs t ht hlt
    have hnot := cmp_eq_lt.mp hlt
    have hne : s ≠ t := by
      rintro rfl
      rw [(isLe_total s s).elim id id] at hnot
      cases hnot
    rcases rel_or_rel (hsorted.and h.placeable.increasing) hs ht hne with ⟨-, hpos⟩ | ⟨hle, -⟩
    · exact hpos
    · rw [hle] at hnot
      cases hnot

theorem Recoverable.exists_reconstructs (hc : CodecDocumented cache) (h : Recoverable l)
    (hl : ∀ s ∈ l, s.WellFormed) (hag : Agreeing l) (hsorted : Sorted l)
    (hinc : Increasing Shred.position l) : ∃ L shards, Reconstructs cache l L shards := by
  obtain ⟨c, hcl, hlen, h256⟩ := h.enough
  obtain ⟨L, hlast⟩ := (exists_last_code hsorted).mpr ⟨_, hcl, rfl⟩
  have hL := List.mem_of_getLast? hlast
  obtain ⟨hd, hn⟩ := hag.coding L c hL hcl
  have hplace : Placeable L.commonHeader.signature L.numShards l :=
    ⟨fun s hs => h.signature s hs _ hL, hinc, h.bound L hL⟩
  refine ⟨L, (exists_reconstructs_iff hc hl hag hlast hplace).mpr ⟨?_, ?_⟩⟩
  · rwa [ShredCode.numDataShreds, hd]
  · rwa [ShredCode.numShards, hd, hn]

theorem recoverDataOnly_ok_iff (hl : ∀ s ∈ l, s.WellFormed) :
    (∃ v, recoverDataOnly cache srt l = .ok v) ↔
      ∃ L shards, Reconstructs cache (sortShreds srt l) L shards := by
  constructor
  · rintro ⟨v, hv⟩
    obtain ⟨L, shards, hR, -⟩ := (recoverDataOnly_eq_ok hl).mp hv
    exact ⟨L, shards, hR⟩
  · rintro ⟨L, shards, hR⟩
    exact ⟨_, (recoverDataOnly_eq_ok hl).mpr ⟨L, shards, hR, rfl⟩⟩

theorem fails_of_not_reconstructs (hl : ∀ s ∈ l, s.WellFormed)
    (h : ∀ L shards, ¬Reconstructs cache (sortShreds srt l) L shards) :
    (recover H cache srt l).toOption = none ∧ (recoverDataOnly cache srt l).toOption = none := by
  constructor
  · cases hr : recover H cache srt l with
    | error e => rfl
    | ok items =>
        obtain ⟨L, shards, root, hR⟩ := (recover_eq_ok hl).mp hr
        exact (h L shards hR.toReconstructs).elim
  · cases hr : recoverDataOnly cache srt l with
    | error e => rfl
    | ok v =>
        obtain ⟨L, shards, hR⟩ := (recoverDataOnly_ok_iff hl).mp ⟨v, hr⟩
        exact (h L shards hR).elim

theorem fails_of_descending (hl : ∀ s ∈ l, s.WellFormed) (hsorted : Sorted l) {a b : Shred}
    (hsub : [b, a].Sublist l) (hpos : a.position ≤ b.position) :
    (recover H cache srt l).toOption = none ∧ (recoverDataOnly cache srt l).toOption = none := by
  apply fails_of_not_reconstructs hl
  intro L shards hR
  rw [sortShreds_of_sorted hsorted] at hR
  have hlt := List.rel_of_pairwise_cons (hR.placeable.increasing.sublist hsub)
    (List.mem_singleton_self a)
  omega

theorem orderFree_of_not_tied (hc : CodecDocumented cache) (hl : ∀ s ∈ l, s.WellFormed)
    (hag : Agreeing l) (hfree : ¬(Recoverable l ∧ Tied l)) : OrderFree H cache srt l := by
  intro l' hp
  have hl' : ∀ s ∈ l', s.WellFormed := fun s hs => hl s (hp.mem_iff.mp hs)
  have hperm := (sortShreds_perm srt l').trans hp
  by_cases hrec : Recoverable l
  · have hsame : sortShreds srt l' = sortShreds srt l :=
      hrec.sorted_unique hl hag (fun ht => hfree ⟨hrec, ht⟩) hperm (sortShreds_perm srt l)
        (sorted_sortShreds srt l') (sorted_sortShreds srt l)
    rw [recover_congr hsame, recoverDataOnly_congr hsame]
    exact ⟨rfl, rfl⟩
  · have hnone : ∀ m, m.Perm l → ∀ L shards, ¬Reconstructs cache (sortShreds srt m) L shards := by
      intro m hm L shards hR
      have hpm := (sortShreds_perm srt m).trans hm
      have hwf : ∀ s ∈ sortShreds srt m, s.WellFormed := fun s hs => hl s (hpm.mem_iff.mp hs)
      exact hrec ((hR.recoverable hc hwf (hag.perm hpm) (sorted_sortShreds srt m)).perm hpm.symm)
    obtain ⟨h1, h2⟩ := @fails_of_not_reconstructs H cache srt l' hl' (hnone l' hp)
    obtain ⟨h3, h4⟩ := @fails_of_not_reconstructs H cache srt l hl (hnone l (.refl l))
    rw [h1, h2, h3, h4]
    exact ⟨rfl, rfl⟩

theorem Tied.exists_lt (h : Tied l) (hag : Agreeing l) : ∃ a b : Shred, a ∈ l ∧ b ∈ l ∧
    isLe b a = true ∧ a.position < b.position := by
  obtain ⟨a, b, ha, hb, hidx, hne⟩ := h
  have hd := congrArg UInt16.toNat (hag.coding a b ha hb).1
  have hne' : a.codingHeader.position.toNat ≠ b.codingHeader.position.toNat :=
    fun he => hne (UInt16.toNat_inj.mp he)
  have hle : isLe (.shredCode a) (.shredCode b) = true ∧
      isLe (.shredCode b) (.shredCode a) = true := by
    rw [isLe_iff, isLe_iff]
    exact ⟨.inr ⟨rfl, Nat.le_of_eq (congrArg UInt32.toNat hidx)⟩,
      .inr ⟨rfl, Nat.le_of_eq (congrArg UInt32.toNat hidx.symm)⟩⟩
  rcases Nat.lt_or_gt_of_ne hne' with hlt | hgt
  · exact ⟨_, _, ha, hb, hle.2, by simp only [Shred.position]; omega⟩
  · exact ⟨_, _, hb, ha, hle.1, by simp only [Shred.position]; omega⟩

theorem not_orderFree_of_tied (hc : CodecDocumented cache) (hl : ∀ s ∈ l, s.WellFormed)
    (hag : Agreeing l) (hrec : Recoverable l) (htied : Tied l) : ¬OrderFree H cache srt l := by
  intro hfree
  have hwf : ∀ m : List Shred, m.Perm l → ∀ s ∈ m, s.WellFormed :=
    fun m hm s hs => hl s (hm.mem_iff.mp hs)
  -- by position the list succeeds, with the tied pair the other way round it fails
  obtain ⟨m, hm, hsm, hinc⟩ := hrec.exists_increasing
  obtain ⟨L, shards, hR⟩ := (hrec.perm hm).exists_reconstructs hc (hwf m hm) (hag.perm hm) hsm hinc
  obtain ⟨v, hv⟩ := (@recoverDataOnly_ok_iff cache srt m (hwf m hm)).mpr
    ⟨L, shards, by rw [sortShreds_of_sorted hsm]; exact hR⟩
  obtain ⟨a, b, ha, hb, hle, hlt⟩ := htied.exists_lt hag
  have hne : a ≠ b := by
    rintro rfl
    omega
  obtain ⟨n, hn, hsn, hsub⟩ := exists_sorted_pair ha hb hne hle
  have h1 := (hfree m hm).2
  have h2 := (hfree n hn).2
  rw [(@fails_of_descending H cache srt n (hwf n hn) hsn a b hsub (Nat.le_of_lt hlt)).2] at h2
  rw [hv, ← h2] at h1
  cases h1

end Runs

/-- Whether the order of arrival is without effect: exactly if no list that can be recovered
has two coding shreds of one index and different positions. -/
theorem order_free_iff (H : Hasher) (cache : ReedSolomonCache) (hc : CodecDocumented cache)
    (srt : ShredSort) (l : List Shred) (hl : ∀ s ∈ l, s.Accepted) (hag : Agreeing l) :
    OrderFree H cache srt l ↔ ¬(Recoverable l ∧ Tied l) := by
  have hwf : ∀ s ∈ l, s.WellFormed := fun s hs => Shred.accepted_iff.mp (hl s hs)
  constructor
  · rintro hfree ⟨hrec, htied⟩
    exact not_orderFree_of_tied hc hwf hag hrec htied hfree
  · exact orderFree_of_not_tied hc hwf hag

/-- A data shred and two copies of it, at the indices 10 and 11, come in any of six orders. -/
theorem order_free_iff_copies :
    OrderFree sha256Hasher replicationCache stableSort (sealBatch sha256Hasher (twoCopies 10 11)) := by
  have hseal := twoCopies_sealable (show (10 : UInt32).toNat ≤ 32766 by decide)
    (show 1 ≤ (11 : UInt32).toNat ∧ (11 : UInt32).toNat ≤ 32767 by decide)
  refine (order_free_iff sha256Hasher replicationCache replicationCache_documented stableSort _
    (fun s hs => Shred.accepted_iff.mpr (hseal.wellFormed hs))
    ((hseal.reproved _).agreeing (twoCopies_agreeing _ _))).mpr ?_
  rintro ⟨-, a, b, ha, hb, hindex, hposition⟩
  obtain ⟨x, y, z, hxyz, hy, hz⟩ : ∃ (x : ShredData) (y z : ShredCode),
      sealBatch sha256Hasher (twoCopies 10 11) = [.shredData x, .shredCode y, .shredCode z] ∧
        y.commonHeader.index = 10 ∧ z.commonHeader.index = 11 := ⟨_, _, _, rfl, rfl, rfl⟩
  simp only [hxyz, List.mem_cons, List.not_mem_nil, or_false, Shred.shredCode.injEq, reduceCtorEq,
    false_or] at ha hb
  rcases ha with rfl | rfl <;> rcases hb with rfl | rfl
  · exact hposition rfl
  · rw [hy, hz] at hindex
    exact absurd hindex (by decide)
  · rw [hy, hz] at hindex
    exact absurd hindex (by decide)
  · exact hposition rfl

/-- Both copies have the index 10, so either order of them is sorted: in the order of their
positions the batch is whole, in the other one it is rejected. -/
theorem order_matters :
    (∀ s ∈ sealBatch sha256Hasher (twoCopies 10 10), s.Accepted) ∧
    Agreeing (sealBatch sha256Hasher (twoCopies 10 10)) ∧
    recover sha256Hasher replicationCache stableSort (sealBatch sha256Hasher (twoCopies 10 10)) =
      .ok [] ∧
    (∃ v, recoverDataOnly replicationCache stableSort
      (sealBatch sha256Hasher (twoCopies 10 10)) = .ok v) ∧
    ∃ l', l'.Perm (sealBatch sha256Hasher (twoCopies 10 10)) ∧
      (recover sha256Hasher replicationCache stableSort l').toOption = none ∧
      (recoverDataOnly replicationCache stableSort l').toOption = none := by
  have hseal := twoCopies_sealable (show (10 : UInt32).toNat ≤ 32766 by decide)
    (show 1 ≤ (10 : UInt32).toNat ∧ (10 : UInt32).toNat ≤ 32767 by decide)
  have hwf : ∀ s ∈ sealBatch sha256Hasher (twoCopies 10 10), s.WellFormed :=
    fun s hs => hseal.wellFormed hs
  have hok : recover sha256Hasher replicationCache stableSort
      (sealBatch sha256Hasher (twoCopies 10 10)) = .ok [] :=
    recover_twoCopies (by decide) (by decide) (by decide)
  refine ⟨fun s hs => Shred.accepted_iff.mpr (hwf s hs),
    (hseal.reproved _).agreeing (twoCopies_agreeing _ _), hok, ?_, ?_⟩
  · obtain ⟨L, shards, root, hR⟩ := (recover_eq_ok hwf).mp hok
    exact (recoverDataOnly_ok_iff hwf).mpr ⟨L, shards, hR.toReconstructs⟩
  · obtain ⟨x, y, z, hxyz, hy, hz, hle⟩ : ∃ x y z : Shred,
        sealBatch sha256Hasher (twoCopies 10 10) = [x, y, z] ∧ y.position = 1 ∧ z.position = 2 ∧
          isLe x z = true ∧ isLe x y = true ∧ isLe z y = true :=
      ⟨_, _, _, rfl, rfl, rfl, rfl, rfl, rfl⟩
    have hsorted : Sorted [x, z, y] := by simp [Sorted, hle]
    rw [hxyz] at hwf ⊢
    refine ⟨[x, z, y], (List.Perm.swap y z []).cons x, ?_⟩
    exact fails_of_descending (fun s hs => hwf s (by simpa [or_comm] using hs)) hsorted
      (a := y) (b := z) (List.sublist_cons_self _ _) (by omega)

end LightweightShred
