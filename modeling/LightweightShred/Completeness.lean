import LightweightShred.Authentic

/-!
# Recovery of a complete batch

From any part of a complete batch that has enough shreds, and a coding shred among them,
the rest comes back as it was.
-/
namespace LightweightShred
open ByteString Rust Slots HashTree

/-- The documented behaviour of a codec for one geometry: shards of one positive length that
come from a codeword are completed to it when enough of them are given, and rejected else. -/
def CodecCorrect (cache : ReedSolomonCache) (numData numCoding : Nat)
    (parity : List Bytes → List Bytes) : Prop :=
  ∃ codec, cache.new numData numCoding = .ok codec ∧
    ∀ (size : Nat) (word : List Bytes) (given : List (Bytes × Bool)), 0 < size →
      word.length = numData + numCoding → word.drop numData = parity (word.take numData) →
      (∀ w ∈ word, w.length = size) →
      List.Forall₂ (fun w g => g.1.length = size ∧ (g.2 = true → g.1 = w)) word given →
      (numData ≤ given.countP (·.2) → codec.reconstruct given = .ok word) ∧
        (given.countP (·.2) < numData → ∃ e, codec.reconstruct given = .error e)

/-- An erasure batch in the order of its positions, whatever its stored proofs. -/
structure ConsistentBatch (parity : List Bytes → List Bytes) (numData numCoding : Nat)
    (B : List Shred) : Prop where
  counts : 1 ≤ numData ∧ 1 ≤ numCoding ∧ numData + numCoding ≤ 256
  length : B.length = numData + numCoding
  accepted : ∀ s ∈ B, s.Accepted
  shared : ∀ s ∈ B, ∀ t ∈ B, s.signature = t.signature ∧
    s.commonHeader.slot = t.commonHeader.slot ∧ s.commonHeader.version = t.commonHeader.version ∧
    s.fecSetIndex = t.fecSetIndex ∧ s.variant.resigned = t.variant.resigned ∧
    s.chainedMerkleRoot = t.chainedMerkleRoot ∧
    s.retransmitterSignature = t.retransmitterSignature
  proofSize : ∀ s ∈ B, s.proofSize = .ok (getProofSize (numData + numCoding))
  data : ∀ i < numData, ∃ d, B[i]? = some (.shredData d) ∧
    d.commonHeader.index.toNat = d.commonHeader.fecSetIndex.toNat + i
  coding : ∃ first, ∀ j < numCoding, ∃ c, B[numData + j]? = some (.shredCode c) ∧
    c.codingHeader.numDataShreds.toNat = numData ∧
    c.codingHeader.numCodingShreds.toNat = numCoding ∧ c.codingHeader.position.toNat = j ∧
    c.commonHeader.index.toNat = first + j
  codeword : ∃ word, B.mapM Shred.erasureShard = .ok word ∧
    word.drop numData = parity (word.take numData)

/-- A complete erasure batch, with the proofs of the tree over its own leaves. -/
structure CompleteBatch (H : Hasher) (parity : List Bytes → List Bytes) (numData numCoding : Nat)
    (B : List Shred) : Prop extends ConsistentBatch parity numData numCoding B where
  proofs : ∃ tree, MerkleTree.tryNew H (B.map (Shred.merkleNode H)) = .ok tree ∧
    ∀ (i : Nat) (s : Shred), B[i]? = some s → ∃ es, s.merkleProof = .ok es ∧
      tree.makeMerkleProof i (numData + numCoding) = es.map .ok

namespace ConsistentBatch
variable {parity : List Bytes → List Bytes} {numData numCoding : Nat} {B : List Shred} {i : Nat}
  {s t : Shred}

theorem wellFormed (hB : ConsistentBatch parity numData numCoding B) (hs : s ∈ B) : s.WellFormed :=
  Shred.accepted_iff.mp (hB.accepted s hs)

theorem getElem?_data (hB : ConsistentBatch parity numData numCoding B) (hs : B[i]? = some s)
    (hi : i < numData) : s.kind = .data ∧
      s.commonHeader.index.toNat = s.commonHeader.fecSetIndex.toNat + i := by
  obtain ⟨d, hd, hidx⟩ := hB.data i hi
  cases Option.some.inj (hs.symm.trans hd)
  exact ⟨rfl, hidx⟩

theorem position_getElem? (hB : ConsistentBatch parity numData numCoding B) (hs : B[i]? = some s) :
    s.position = i := by
  have hlen := (List.getElem?_eq_some_iff.mp hs).1
  rw [hB.length] at hlen
  rcases Nat.lt_or_ge i numData with hi | hi
  · obtain ⟨d, hd, hidx⟩ := hB.data i hi
    cases Option.some.inj (hs.symm.trans hd)
    simp only [Shred.position]
    omega
  · obtain ⟨first, hcoding⟩ := hB.coding
    obtain ⟨c, hc, hd, -, hpos, -⟩ := hcoding (i - numData) (by omega)
    rw [Nat.add_sub_of_le hi] at hc
    cases Option.some.inj (hs.symm.trans hc)
    simp only [Shred.position]
    omega

theorem getElem?_position (hB : ConsistentBatch parity numData numCoding B) (hs : s ∈ B) :
    B[s.position]? = some s := by
  obtain ⟨i, hi⟩ := List.mem_iff_getElem?.mp hs
  rw [hB.position_getElem? hi, hi]

theorem position_lt (hB : ConsistentBatch parity numData numCoding B) (hs : s ∈ B) :
    s.position < numData + numCoding := by
  have h := (List.getElem?_eq_some_iff.mp (hB.getElem?_position hs)).1
  rwa [hB.length] at h

theorem position_injective (hB : ConsistentBatch parity numData numCoding B) (hs : s ∈ B)
    (ht : t ∈ B) (h : s.position = t.position) : s = t := by
  have h1 := hB.getElem?_position hs
  rw [h, hB.getElem?_position ht] at h1
  exact (Option.some.inj h1).symm

theorem kind_iff (hB : ConsistentBatch parity numData numCoding B) (hs : s ∈ B) :
    s.kind = if s.position < numData then .data else .code := by
  have hget := hB.getElem?_position hs
  have hlt := hB.position_lt hs
  split
  · rename_i hi
    exact (hB.getElem?_data hget hi).1
  · rename_i hi
    obtain ⟨first, hcoding⟩ := hB.coding
    obtain ⟨c, hc, -⟩ := hcoding (s.position - numData) (by omega)
    rw [Nat.add_sub_of_le (by omega)] at hc
    cases Option.some.inj (hget.symm.trans hc)
    rfl

theorem position_le_of_isLe (hB : ConsistentBatch parity numData numCoding B) (hs : s ∈ B)
    (ht : t ∈ B) (h : isLe s t = true) : s.position ≤ t.position := by
  have hks := hB.kind_iff hs
  have hkt := hB.kind_iff ht
  have hgs := hB.getElem?_position hs
  have hgt := hB.getElem?_position ht
  have hls := hB.position_lt hs
  have hlt := hB.position_lt ht
  have hfec := congrArg UInt32.toNat (hB.shared s hs t ht).2.2.2.1
  simp only [Shred.fecSetIndex] at hfec
  rcases isLe_iff.mp h with ⟨hd, hc⟩ | ⟨hk, hidx⟩
  · split at hks
    · split at hkt
      · exact ShredType.noConfusion (hkt.symm.trans hc)
      · omega
    · exact ShredType.noConfusion (hks.symm.trans hd)
  · by_cases hi : s.position < numData
    · rw [if_pos hi] at hks
      have hj : t.position < numData := by
        by_contra hge
        rw [if_neg hge, ← hk, hks] at hkt
        cases hkt
      have h1 := (hB.getElem?_data hgs hi).2
      have h2 := (hB.getElem?_data hgt hj).2
      omega
    · rw [if_neg hi] at hks
      have hj : ¬t.position < numData := by
        intro hlt'
        rw [if_pos hlt', ← hk, hks] at hkt
        cases hkt
      obtain ⟨first, hcoding⟩ := hB.coding
      obtain ⟨c, hc, -, -, -, h1⟩ := hcoding (s.position - numData) (by omega)
      obtain ⟨d, hd, -, -, -, h2⟩ := hcoding (t.position - numData) (by omega)
      rw [Nat.add_sub_of_le (by omega), hgs] at hc
      rw [Nat.add_sub_of_le (by omega), hgt] at hd
      rw [Option.some.inj hc, Option.some.inj hd] at hidx
      simp only [Shred.commonHeader] at hidx
      omega

theorem nodup (hB : ConsistentBatch parity numData numCoding B) : B.Nodup := by
  rw [List.nodup_iff_getElem?_ne_getElem?]
  intro i j hij hj heq
  have hi := List.getElem?_eq_getElem (show i < B.length by omega)
  have h1 := hB.position_getElem? hi
  have h2 := hB.position_getElem? (heq.symm.trans hi)
  omega

theorem increasing (hB : ConsistentBatch parity numData numCoding B) {S : List Shred}
    (hS : S.Subperm B) (srt : ShredSort) : Increasing Shred.position (sortShreds srt S) := by
  have hmem : ∀ s ∈ sortShreds srt S, s ∈ B :=
    fun s hs => hS.subset ((sortShreds_perm srt S).mem_iff.mp hs)
  obtain ⟨S', hperm, hsub⟩ := hS
  have hnodup : (sortShreds srt S).Nodup :=
    ((hperm.trans (sortShreds_perm srt S).symm).nodup_iff).mp (hB.nodup.sublist hsub)
  refine (List.pairwise_and_iff.mpr ⟨sorted_sortShreds srt S, hnodup⟩).imp_of_mem ?_
  rintro s t hs ht ⟨hle, hne⟩
  have h1 := hB.position_le_of_isLe (hmem s hs) (hmem t ht) hle
  have h2 : s.position ≠ t.position :=
    fun he => hne (hB.position_injective (hmem s hs) (hmem t ht) he)
  omega

theorem code_header (hB : ConsistentBatch parity numData numCoding B) {L : ShredCode}
    (hL : Shred.shredCode L ∈ B) : L.codingHeader.numDataShreds.toNat = numData ∧
      L.codingHeader.numCodingShreds.toNat = numCoding := by
  have hget := hB.getElem?_position hL
  have hlt := hB.position_lt hL
  have hk := hB.kind_iff hL
  have hge : ¬(Shred.shredCode L).position < numData := by
    intro hlt'
    rw [if_pos hlt'] at hk
    cases hk
  obtain ⟨first, hcoding⟩ := hB.coding
  obtain ⟨c, hc, hd, hn, -⟩ := hcoding ((Shred.shredCode L).position - numData) (by omega)
  rw [Nat.add_sub_of_le (by omega), hget] at hc
  cases Option.some.inj hc
  exact ⟨hd, hn⟩

theorem proofSize_eq (hB : ConsistentBatch parity numData numCoding B) (hs : s ∈ B) :
    s.variant.proofSize = getProofSize (numData + numCoding) := by
  have h := hB.proofSize s hs
  rw [(hB.wellFormed hs).toShaped.proofSize] at h
  exact Except.ok.inj h

theorem sameBatch (hB : ConsistentBatch parity numData numCoding B) (hs : s ∈ B) (ht : t ∈ B) :
    SameBatch s t := by
  obtain ⟨hsig, hslot, hver, hfec, hres, hroot, hretr⟩ := hB.shared s hs t ht
  have hws := (hB.wellFormed hs).toShaped
  have hwt := (hB.wellFormed ht).toShaped
  refine ⟨hsig, hslot, hver, hfec, ?_, hres, ?_, ?_⟩
  · rw [hB.proofSize_eq hs, hB.proofSize_eq ht]
  · obtain ⟨root, hr⟩ := hwt.exists_chainedMerkleRoot
    rw [hwt.chainedMerkleRoot_eq_ok.mp hr, hws.chainedMerkleRoot_eq_ok.mp (hroot.trans hr)]
  · cases hr : t.variant.resigned with
    | true =>
        obtain ⟨signature, hsig⟩ := hwt.exists_retransmitterSignature hr
        rw [(hwt.retransmitterSignature_eq_ok.mp hsig).2,
          (hws.retransmitterSignature_eq_ok.mp (hretr.trans hsig)).2]
    | false =>
        have hnil : ∀ {u : Shred}, u.Shaped → u.variant.resigned = false →
            u.part .retransmitter = [] := by
          intro u hu hur
          apply List.length_eq_zero_iff.mp
          rw [hu.length_part]
          simp only [Region.lo, Region.hi, ShredVariant.resignedBytes, hur]
          simp
        rw [hnil hwt hr, hnil hws (hres.trans hr)]

theorem agreeing (hB : ConsistentBatch parity numData numCoding B) : Agreeing B where
  common s hs t ht := by
    obtain ⟨-, hslot, hver, hfec, -⟩ := hB.shared s hs t ht
    exact ⟨hslot, hver, hfec⟩
  variant s hs t ht := ⟨by rw [hB.proofSize_eq hs, hB.proofSize_eq ht],
    (hB.shared s hs t ht).2.2.2.2.1⟩
  coding a b ha hb := by
    obtain ⟨hda, hca⟩ := hB.code_header ha
    obtain ⟨hdb, hcb⟩ := hB.code_header hb
    exact ⟨UInt16.toNat_inj.mp (hda.trans hdb.symm), UInt16.toNat_inj.mp (hca.trans hcb.symm)⟩

theorem word_eq (hB : ConsistentBatch parity numData numCoding B) :
    (B.map (Shred.part · .shard)).drop numData = parity ((B.map (Shred.part · .shard)).take numData) := by
  obtain ⟨word, hword, hpar⟩ := hB.codeword
  have he : word = B.map (Shred.part · .shard) := by
    apply List.ext_getElem?
    intro i
    have hall := mapM_eq_ok.mp hword
    rw [List.getElem?_map]
    cases hs : B[i]? with
    | none =>
        have hlen := hall.length_eq
        rw [List.getElem?_eq_none_iff] at hs
        rw [List.getElem?_eq_none (by omega)]
        rfl
    | some s =>
        obtain ⟨hi, hget⟩ := List.getElem?_eq_some_iff.mp hs
        have hi' : i < word.length := by rw [← hall.length_eq]; exact hi
        have hw := (List.forall₂_iff_get.mp hall).2 i hi hi'
        simp only [List.get_eq_getElem, hget,
          (hB.wellFormed (List.mem_of_getElem? hs)).toShaped.erasureShard, Except.ok.injEq] at hw
        rw [List.getElem?_eq_getElem hi', ← hw]
        rfl
  rw [← he, hpar]

theorem placeable (hB : ConsistentBatch parity numData numCoding B) {S : List Shred}
    (hS : S.Subperm B) (srt : ShredSort) {L : ShredCode} (hL : Shred.shredCode L ∈ B) :
    Placeable L.commonHeader.signature L.numShards (sortShreds srt S) := by
  have hmem : ∀ s ∈ sortShreds srt S, s ∈ B :=
    fun s hs => hS.subset ((sortShreds_perm srt S).mem_iff.mp hs)
  obtain ⟨hd, hc⟩ := hB.code_header hL
  refine ⟨fun s hs => (hB.shared s (hmem s hs) _ hL).1, hB.increasing hS srt, fun s hs => ?_⟩
  rw [ShredCode.numShards, hd, hc]
  exact hB.position_lt (hmem s hs)

/-- What goes into the codec is the codeword, with zeros for what is missing. -/
theorem codecInput_given (hB : ConsistentBatch parity numData numCoding B) {S : List Shred}
    (hS : S.Subperm B) (srt : ShredSort) {L : ShredCode} (hL : Shred.shredCode L ∈ B) {size : Nat}
    (hsize : ((Shred.shredCode L).part .shard).length = size) :
    List.Forall₂ (fun w g => g.1.length = size ∧ (g.2 = true → g.1 = w))
      (B.map (Shred.part · .shard)) (codecInput L (sortShreds srt S)) := by
  obtain ⟨hd, hc⟩ := hB.code_header hL
  have hwL := (hB.wellFormed hL).toShaped
  have hmem : ∀ s ∈ sortShreds srt S, s ∈ B :=
    fun s hs => hS.subset ((sortShreds_perm srt S).mem_iff.mp hs)
  have hn : L.numShards = numData + numCoding := by rw [ShredCode.numShards, hd, hc]
  refine List.forall₂_iff_get.mpr ⟨by simp [codecInput, hn, hB.length], ?_⟩
  intro i h1 h2
  simp only [codecInput, List.get_eq_getElem, List.getElem_map, List.getElem_range]
  cases hh : held Shred.position (sortShreds srt S) i with
  | none =>
      have hm : present (sortShreds srt S) i = false := by rw [present, hh]; rfl
      rw [fillAt_of_missing hm]
      refine ⟨?_, fun hp => by rw [hm] at hp; cases hp⟩
      rw [(stubAt_sameBatch hwL i).length_shard (shaped_stubAt hwL i) hwL, hsize]
  | some s =>
      have hs := hmem s (mem_of_held hh)
      have hsame := hB.sameBatch hs hL
      rw [fillAt_of_held hh]
      refine ⟨?_, fun _ => ?_⟩
      · rw [hsame.length_shard (hB.wellFormed hs).toShaped hwL, hsize]
      · have hget := hB.getElem?_position hs
        rw [key_of_held hh] at hget
        obtain ⟨hi, he⟩ := List.getElem?_eq_some_iff.mp hget
        rw [he]

end ConsistentBatch

section Counting
variable {L : ShredCode} {l : List Shred}

theorem countP_codecInput (hp : Placeable L.commonHeader.signature L.numShards l) :
    (codecInput L l).countP (·.2) = l.length := by
  have hlen := length_missing hp.increasing hp.bound
  have hmiss : (missing Shred.position l L.numShards).length =
      (List.range L.numShards).countP fun i => !present l i := by
    rw [missing, ← List.countP_eq_length_filter]
    apply List.countP_congr
    intro i _
    rw [present]
    cases held Shred.position l i <;> rfl
  have hsplit : (List.range L.numShards).length = _ := List.length_eq_countP_add_countP (present l)
  rw [List.length_range] at hsplit
  rw [codecInput, List.countP_map]
  change (List.range L.numShards).countP (present l) = l.length
  have hnot : (List.range L.numShards).countP (fun a => decide ¬present l a = true) =
      (List.range L.numShards).countP fun i => !present l i := by
    apply List.countP_congr
    intro i _
    simp
  omega

end Counting

namespace ConsistentBatch
variable {H : Hasher} {cache : ReedSolomonCache} {srt : ShredSort}
  {parity : List Bytes → List Bytes} {numData numCoding : Nat} {B S : List Shred} {i : Nat}
  {s : Shred}

/-- The codec returns the codeword iff enough shreds are given. -/
theorem reconstructs_iff (hB : ConsistentBatch parity numData numCoding B)
    (hcodec : CodecCorrect cache numData numCoding parity) (hS : S.Subperm B) {L : ShredCode}
    (hlast : (sortShreds srt S).getLast? = some (.shredCode L)) {shards : List Bytes} :
    Reconstructs cache (sortShreds srt S) L shards ↔
      numData ≤ S.length ∧ shards = B.map (Shred.part · .shard) := by
  have hL : Shred.shredCode L ∈ B :=
    hS.subset ((sortShreds_perm srt S).mem_iff.mp (List.mem_of_getLast? hlast))
  obtain ⟨hd, hc⟩ := hB.code_header hL
  have hplace := hB.placeable hS srt hL
  have hcount := countP_codecInput hplace
  rw [(sortShreds_perm srt S).length_eq] at hcount
  have hgiven := hB.codecInput_given hS srt hL rfl
  have hwL := (hB.wellFormed hL).toShaped
  have hpos : 0 < ((Shred.shredCode L).part .shard).length := by
    have h1 := hwL.length_shard
    have h2 := hwL.valid.proofBytes_le
    have h3 := ShredVariant.resignedBytes_le (Shred.shredCode L).variant
    omega
  have hsize : ∀ w ∈ B.map (Shred.part · .shard),
      w.length = ((Shred.shredCode L).part .shard).length := by
    intro w hw
    obtain ⟨s, hs, rfl⟩ := List.mem_map.mp hw
    exact (hB.sameBatch hs hL).length_shard (hB.wellFormed hs).toShaped hwL
  obtain ⟨codec, hnew, hrec⟩ := hcodec
  obtain ⟨hok, herr⟩ := hrec _ _ _ hpos (by rw [List.length_map, hB.length]) hB.word_eq hsize hgiven
  rw [hcount] at hok herr
  constructor
  · rintro ⟨-, -, codec', hnew', hrec'⟩
    rw [hd, hc, hnew] at hnew'
    cases hnew'
    rcases Nat.lt_or_ge S.length numData with hlt | hge
    · obtain ⟨e, he⟩ := herr hlt
      rw [he] at hrec'
      cases hrec'
    · rw [hok hge] at hrec'
      exact ⟨hge, (Except.ok.inj hrec').symm⟩
  · rintro ⟨hge, rfl⟩
    exact ⟨hlast, hplace, codec, by rw [hd, hc, hnew], hok hge⟩

theorem stub_data_header (hB : ConsistentBatch parity numData numCoding B) {L : ShredCode}
    (hL : Shred.shredCode L ∈ B) {d : ShredData} (hd : B[i]? = some (.shredData d))
    (hi : i < numData) : (L.stubAt i).commonHeader = d.commonHeader := by
  have hdB := List.mem_of_getElem? hd
  have hwf := hB.wellFormed hdB
  obtain ⟨hsig, hslot, hver, hfec, hps, hres, -, -⟩ := hB.sameBatch hL hdB
  obtain ⟨hnd, -⟩ := hB.code_header hL
  have hidx := (hB.getElem?_data hd hi).2
  have hsane := numbers (hB.wellFormed hL).sane
  rw [commonHeader_stubAt, ShredCode.blank, if_pos (by rw [ShredCode.numDataShreds, hnd]; exact hi)]
  have hvar : d.commonHeader.shredVariant = .merkleData L.commonHeader.shredVariant.proofSize
      L.commonHeader.shredVariant.resigned := by
    exact ShredVariant.eq_of_fields hwf.kind hps.symm hres.symm
  have hindex : L.commonHeader.fecSetIndex + UInt32.ofNat i = d.commonHeader.index := by
    have hfec' : L.commonHeader.fecSetIndex.toNat = d.commonHeader.fecSetIndex.toNat :=
      congrArg UInt32.toNat hfec
    simp only [Shred.commonHeader] at hidx
    have hnd' : L.numDataShreds = numData := hnd
    apply UInt32.toNat_inj.mp
    rw [UInt32.toNat_add, toNat_u32 (by omega), hidx]
    omega
  exact ShredCommonHeader.ext hsig hvar.symm hslot hindex hver hfec

theorem stub_code_header (hB : ConsistentBatch parity numData numCoding B) {L : ShredCode}
    (hL : Shred.shredCode L ∈ B) {d : ShredCode} (hd : B[i]? = some (.shredCode d))
    (hi : numData ≤ i) : L.stubCodeHeaders i = (d.commonHeader, d.codingHeader) := by
  have hdB := List.mem_of_getElem? hd
  have hwf := hB.wellFormed hdB
  obtain ⟨hsig, hslot, hver, hfec, hps, hres, -, -⟩ := hB.sameBatch hL hdB
  obtain ⟨hnd, hnc⟩ := hB.code_header hL
  obtain ⟨-, hidx, hcount, -, hposlt, -⟩ := numbers (hB.wellFormed hL).sane
  have hi' := hB.position_lt hdB
  rw [hB.position_getElem? hd] at hi'
  obtain ⟨first, hcoding⟩ := hB.coding
  -- the reference and the missing shred count from the same first coding index
  obtain ⟨c, hc, hcd, hcc, hcpos, hcidx⟩ := hcoding (i - numData) (by omega)
  rw [Nat.add_sub_of_le hi, hd] at hc
  cases Option.some.inj hc
  obtain ⟨e, he, -, -, hepos, heidx⟩ := hcoding L.codingHeader.position.toNat (by omega)
  have hLpos : (Shred.shredCode L).position = numData + L.codingHeader.position.toNat := by
    rw [← hnd]
    rfl
  rw [← hLpos, hB.getElem?_position hL] at he
  cases Option.some.inj he
  have hvar : L.commonHeader.shredVariant = d.commonHeader.shredVariant :=
    ShredVariant.eq_of_fields ((hB.wellFormed hL).kind.trans hwf.kind.symm) hps hres
  have hnd' : L.numDataShreds = numData := hnd
  have hp16 : (UInt16.ofNat (i - L.numDataShreds)).toNat = i - numData := by
    rw [hnd', toNat_u16 (by omega)]
  have hindex : L.commonHeader.index - L.codingHeader.position.toUInt32 +
      (UInt16.ofNat (i - L.numDataShreds)).toUInt32 = d.commonHeader.index := by
    apply UInt32.toNat_inj.mp
    rw [UInt32.toNat_add, UInt16.toNat_toUInt32, hp16, hcidx]
    omega
  refine Prod.ext (ShredCommonHeader.ext hsig hvar hslot hindex hver hfec)
    (CodingShredHeader.ext ?_ ?_ ?_)
  · exact UInt16.toNat_inj.mp (hnd.trans hcd.symm)
  · exact UInt16.toNat_inj.mp (hnc.trans hcc.symm)
  · exact UInt16.toNat_inj.mp (hp16.trans hcpos.symm)

/-- Once rebuilt, a missing shred is the original but for its proof. -/
theorem payload_rebuilt (hB : ConsistentBatch parity numData numCoding B) {L : ShredCode}
    (hL : Shred.shredCode L ∈ B) {l : List Shred} (hl : ∀ s ∈ l, s.WellFormed)
    (hR : Reconstructs cache l L (B.map (Shred.part · .shard))) (hm : present l i = false)
    {b : Shred} (hb : B[i]? = some b) (hch : (L.stubAt i).commonHeader = b.commonHeader)
    (hfront : (L.stubAt i).part .front = b.part .front) :
    (rebuilt L l (B.map (Shred.part · .shard)) i).payload =
      (b.withPart .proof (List.replicate b.variant.proofBytes 0)).payload := by
  have hbB := List.mem_of_getElem? hb
  have hwb := (hB.wellFormed hbB).toShaped
  have hwL := (hB.wellFormed hL).toShaped
  obtain ⟨hnd, hnc⟩ := hB.code_header hL
  have hin : i < L.numShards := by
    rw [ShredCode.numShards, hnd, hnc, ← hB.position_getElem? hb]
    exact hB.position_lt hbB
  have hkind : (L.stubAt i).kind = b.kind := by
    have hk := hB.kind_iff hbB
    rw [hB.position_getElem? hb] at hk
    rw [kind_stubAt, ShredCode.numDataShreds, hnd, hk]
  have hvar : (L.stubAt i).variant = b.variant := congrArg ShredCommonHeader.shredVariant hch
  have hstub := shaped_stubAt hwL i
  have hsame := stubAt_sameBatch hwL i
  have hLb := hB.sameBatch hL hbB
  have hzero := part_zero_stubAt hwL i (.inr rfl)
  have hword : (B.map (Shred.part · .shard)).getD i [] = b.part .shard := by
    simp [hb]
  have hfits := hR.shard_fits hl hin
  have hpf := part_proof_fits b
  rw [fillAt_of_missing hm, hword] at hfits
  rw [rebuilt_of_missing hm, hword]
  apply (hstub.withPart hfits).payload_ext (hwb.withPart hpf)
  · rw [Shred.kind_withPart, Shred.kind_withPart, hkind]
  · rw [Shred.variant_withPart, Shred.variant_withPart, hvar]
  · intro R
    cases R with
    | front =>
        rw [hstub.part_withPart_ne hfits (by decide), hwb.part_withPart_ne hpf (by decide), hfront]
    | shard => rw [hstub.part_withPart hfits, hwb.part_withPart_ne hpf (by decide)]
    | chainedRoot =>
        rw [hstub.part_withPart_ne hfits (by decide), hwb.part_withPart_ne hpf (by decide),
          hsame.chainedRoot, hLb.chainedRoot]
    | proof =>
        rw [hstub.part_withPart_ne hfits (by decide), hwb.part_withPart hpf, hzero, hkind, hvar]
        simp only [Region.lo, Region.hi, Nat.add_sub_cancel_left]
    | retransmitter =>
        rw [hstub.part_withPart_ne hfits (by decide), hwb.part_withPart_ne hpf (by decide),
          hsame.retransmitter, hLb.retransmitter]

theorem completed_missing (hB : ConsistentBatch parity numData numCoding B) {L : ShredCode}
    (hL : Shred.shredCode L ∈ B) {l : List Shred} (hl : ∀ s ∈ l, s.WellFormed)
    (hR : Reconstructs cache l L (B.map (Shred.part · .shard))) (hm : present l i = false)
    {b : Shred} (hb : B[i]? = some b) :
    completed L l (B.map (Shred.part · .shard)) i =
      b.withPart .proof (List.replicate b.variant.proofBytes 0) := by
  have hbB := List.mem_of_getElem? hb
  have hwb := hB.wellFormed hbB
  have hwL := (hB.wellFormed hL).toShaped
  obtain ⟨hnd, hnc⟩ := hB.code_header hL
  have hk := hB.kind_iff hbB
  rw [hB.position_getElem? hb] at hk
  have hpf := part_proof_fits b
  have hwp := hwb.withPart (headers_le_proof hwb.toShaped) hpf
  rw [completed]
  cases b with
  | shredData d =>
      have hi : i < numData := by
        by_contra hge
        rw [if_neg hge] at hk
        cases hk
      have hch := hB.stub_data_header hL hb hi
      have hfront : (L.stubAt i).part .front = (Shred.shredData d).part .front := by
        rw [part_front_stubAt hwL, hwb.part_front, ShredCode.stubFront,
          if_pos (by rw [ShredCode.numDataShreds, hnd]; exact hi)]
        exact congrArg Subtype.val (hB.sameBatch hL hbB).signature
      have hpay := hB.payload_rebuilt hL hl hR hm hb hch hfront
      have hrk : (rebuilt L l (B.map (Shred.part · .shard)) i).kind = .data := by
        rw [rebuilt_of_missing hm, Shred.kind_withPart, kind_stubAt, ShredCode.numDataShreds, hnd,
          if_pos hi]
      have hrch : (rebuilt L l (B.map (Shred.part · .shard)) i).commonHeader = d.commonHeader := by
        rw [rebuilt_of_missing hm, Shred.commonHeader_withPart, hch]
      exact hwp.eq_reparsed hrk rfl hrch hpay
  | shredCode d =>
      have hi : ¬i < numData := by
        intro hlt
        rw [if_pos hlt] at hk
        cases hk
      have hnot : ¬i < L.numDataShreds := by
        rw [ShredCode.numDataShreds, hnd]
        exact hi
      have hsc := hB.stub_code_header hL hb (by omega)
      have hch : (L.stubAt i).commonHeader = d.commonHeader := by
        rw [commonHeader_stubAt, ShredCode.blank, if_neg hnot]
        exact congrArg Prod.fst hsc
      have hfront : (L.stubAt i).part .front = (Shred.shredCode d).part .front := by
        rw [part_front_stubAt hwL, hwb.part_front, ShredCode.stubFront, if_neg hnot, hsc]
        rfl
      have hpay := hB.payload_rebuilt hL hl hR hm hb hch hfront
      have hr : rebuilt L l (B.map (Shred.part · .shard)) i = .shredCode {
          commonHeader := (L.stubCodeHeaders i).1
          codingHeader := (L.stubCodeHeaders i).2
          payload := (rebuilt L l (B.map (Shred.part · .shard)) i).payload } := by
        rw [rebuilt_of_missing hm, ShredCode.stubAt, ShredCode.blank, if_neg hnot]
        rfl
      rw [hr, hpay, hsc]
      rfl

theorem leafNodes_eq (hB : ConsistentBatch parity numData numCoding B) (H : Hasher) {L : ShredCode}
    (hL : Shred.shredCode L ∈ B) {l : List Shred} (hl : ∀ s ∈ l, s ∈ B)
    (hR : Reconstructs cache l L (B.map (Shred.part · .shard))) :
    leafNodes H L l (B.map (Shred.part · .shard)) =
      B.map fun s => H.sha256 (leafPreimage s.leaf) := by
  have hwl : ∀ s ∈ l, s.WellFormed := fun s hs => hB.wellFormed (hl s hs)
  obtain ⟨hnd, hnc⟩ := hB.code_header hL
  have hn : L.numShards = B.length := by rw [hB.length, ShredCode.numShards, hnd, hnc]
  apply List.ext_getElem (by simp [leafNodes, hn])
  intro i h1 h2
  have hi : i < B.length := by simpa using h2
  have hb : B[i]? = some B[i] := List.getElem?_eq_getElem hi
  have hleaf : (completed L l (B.map (Shred.part · .shard)) i).leaf = B[i].leaf := by
    cases hh : held Shred.position l i with
    | some s =>
        have hs := hB.getElem?_position (hl s (mem_of_held hh))
        rw [key_of_held hh, hb] at hs
        rw [hR.completed_of_held hwl (by omega) hh, Option.some.inj hs]
    | none =>
        have hm : present l i = false := by rw [present, hh]; rfl
        rw [hB.completed_missing hL hwl hR hm hb]
        exact (hB.wellFormed (List.mem_of_getElem? hb)).leaf_withPart_proof (part_proof_fits _)
  simp only [leafNodes, List.getElem_map, List.getElem_range, hleaf]

end ConsistentBatch

namespace CompleteBatch
variable {H : Hasher} {cache : ReedSolomonCache} {srt : ShredSort}
  {parity : List Bytes → List Bytes} {numData numCoding : Nat} {B S : List Shred} {i : Nat}

theorem merkleProof_eq (hB : CompleteBatch H parity numData numCoding B) {L : ShredCode}
    (hL : Shred.shredCode L ∈ B) {l : List Shred} (hl : ∀ s ∈ l, s ∈ B)
    (hR : Reconstructs cache l L (B.map (Shred.part · .shard))) {b : Shred}
    (hb : B[i]? = some b) :
    b.merkleProof = .ok (treeProof H L l (B.map (Shred.part · .shard)) i) := by
  have hnodes := hB.leafNodes_eq H hL hl hR
  have hlen := length_leafNodes H L l (B.map (Shred.part · .shard))
  have hne := hR.leafNodes_ne (H := H) fun s hs => hB.wellFormed (hl s hs)
  obtain ⟨hnd, hnc⟩ := hB.code_header hL
  have hn : L.numShards = numData + numCoding := by rw [ShredCode.numShards, hnd, hnc]
  obtain ⟨tree, htree, hproofs⟩ := hB.proofs
  obtain ⟨es, hes, hpath⟩ := hproofs i b hb
  have hmap : B.map (Shred.merkleNode H) =
      (leafNodes H L l (B.map (Shred.part · .shard))).map .ok := by
    rw [hnodes, List.map_map]
    apply List.map_congr_left
    intro s hs
    exact (hB.wellFormed hs).toShaped.merkleNode H
  rw [hmap, MerkleTree.tryNew_ok H hne] at htree
  have hi : i < (leafNodes H L l (B.map (Shred.part · .shard))).length := by
    have := (List.getElem?_eq_some_iff.mp hb).1
    rw [hlen, hn, ← hB.length]
    exact this
  have hmake := MerkleTree.makeMerkleProof_eq H hi
    (congrArg MerkleTree.nodes (Except.ok.inj htree)).symm
  rw [hlen, hn, hpath] at hmake
  have hes' : es = treeProof H L l (B.map (Shred.part · .shard)) i := by
    rw [treeProof, hn]
    apply List.map_injective_iff.mpr (fun a b h => Except.ok.inj h : Function.Injective
      (Except.ok : MerkleProofEntry → Result MerkleProofEntry))
    rw [hmake, List.map_map]
    rfl
  rw [hes, hes']

theorem setMerkleProof_eq (hB : CompleteBatch H parity numData numCoding B) {L : ShredCode}
    (hL : Shred.shredCode L ∈ B) {l : List Shred} (hl : ∀ s ∈ l, s ∈ B)
    (hR : Reconstructs cache l L (B.map (Shred.part · .shard))) (hm : present l i = false)
    {b : Shred} (hb : B[i]? = some b) :
    (completed L l (B.map (Shred.part · .shard)) i).setMerkleProof
      ((treeProof H L l (B.map (Shred.part · .shard)) i).map .ok) = .ok b := by
  have hwb := (hB.wellFormed (List.mem_of_getElem? hb)).toShaped
  have hpf := part_proof_fits b
  obtain ⟨hlen, hflat⟩ := hwb.merkleProof_eq_ok.mp (hB.merkleProof_eq hL hl hR hb)
  rw [hB.completed_missing hL (fun s hs => hB.wellFormed (hl s hs)) hR hm hb,
    (hwb.withPart hpf).setMerkleProof_eq_ok, Shred.variant_withPart]
  refine ⟨hlen, ?_⟩
  rw [hflat, hwb.withPart_withPart hpf (by rw [← hflat]; exact proof_fits hlen), hwb.withPart_part]

/-- `recover` on a part of the batch: the rest, in the order of its positions. -/
theorem recover_eq (hB : CompleteBatch H parity numData numCoding B)
    (hcodec : CodecCorrect cache numData numCoding parity) (hS : S.Subperm B)
    (hn : numData ≤ S.length) (hcode : ∃ s ∈ S, s.kind = .code) :
    recover H cache srt S = .ok ((B.filter (· ∉ S)).map .ok) := by
  have hperm := sortShreds_perm srt S
  have hmem : ∀ s ∈ sortShreds srt S, s ∈ B := fun s hs => hS.subset (hperm.mem_iff.mp hs)
  have hwS : ∀ s ∈ S, s.WellFormed := fun s hs => hB.wellFormed (hS.subset hs)
  have hwsl := @wellFormed_sortShreds srt S hwS
  obtain ⟨s, hs, hk⟩ := hcode
  obtain ⟨L, hlast⟩ := (exists_last_code (sorted_sortShreds srt S)).mpr
    ⟨s, hperm.mem_iff.mpr hs, hk⟩
  have hL : Shred.shredCode L ∈ B := hmem _ (List.mem_of_getLast? hlast)
  have hR := (hB.reconstructs_iff hcodec hS hlast).mpr ⟨hn, rfl⟩
  obtain ⟨hnd, hnc⟩ := hB.code_header hL
  have hlen : L.numShards = B.length := by rw [hB.length, ShredCode.numShards, hnd, hnc]
  have hget := hB.getElem?_position hL
  have hlt : (Shred.shredCode L).position < L.numShards :=
    hR.placeable.bound _ (List.mem_of_getLast? hlast)
  obtain ⟨root, htop⟩ := hR.exists_top hwsl H
  have hwL := hB.wellFormed hL
  refine (recover_eq_ok hwS).mpr ⟨L, _, root, hR, ?_, htop, ?_, ?_⟩
  · intro i hi
    obtain ⟨hin, hm⟩ := mem_missing_iff.mp hi
    have hb : B[i]? = some B[i] := List.getElem?_eq_getElem (hlen ▸ hin)
    have hwb := hB.wellFormed (List.mem_of_getElem? hb)
    rw [hB.completed_missing hL hwsl hR hm hb]
    exact hwb.withPart (headers_le_proof hwb.toShaped) (part_proof_fits _)
  · refine merkleRoot_of_treeProof hwL.toShaped hlt hwL.sane.erasureShardIndex ?_
      (hB.merkleProof_eq hL hmem hR hget) htop
    have hself := held_of_mem hR.placeable.increasing (List.mem_of_getLast? hlast)
    rw [hR.completed_of_held hwsl hlt hself]
  · have hsplit := eq_map_range hlen.symm (Shred.shredCode L)
    conv_lhs => rw [hsplit]
    rw [List.filter_map, List.map_map, missingAt, missing]
    have hfilter : (List.range L.numShards).filter
        ((fun s => decide (s ∉ S)) ∘ fun i => B.getD i (.shredCode L)) =
        (List.range L.numShards).filter fun i => (held Shred.position (sortShreds srt S) i).isNone := by
      apply List.filter_congr
      intro i hi
      have hi' : i < B.length := hlen ▸ List.mem_range.mp hi
      have hb : B[i]? = some B[i] := List.getElem?_eq_getElem hi'
      rw [Function.comp_apply, List.getD_eq_getElem?_getD, hb, Option.getD_some, Bool.eq_iff_iff,
        decide_eq_true_iff, Option.isNone_iff_eq_none, held_eq_none]
      constructor
      · intro hnot a ha hpos
        have hab := hB.getElem?_position (hmem a ha)
        rw [hpos, hb] at hab
        exact hnot (Option.some.inj hab ▸ hperm.mem_iff.mp ha)
      · intro hfree hin
        exact hfree _ (hperm.mem_iff.mpr hin) (hB.position_getElem? hb)
    rw [hfilter]
    apply List.map_congr_left
    intro i hi
    obtain ⟨hin, hm⟩ := mem_missing_iff.mp hi
    have hb : B[i]? = some B[i] := List.getElem?_eq_getElem (hlen ▸ hin)
    rw [hB.setMerkleProof_eq hL hmem hR hm hb, Function.comp_apply, List.getD_eq_getElem?_getD, hb]
    rfl

theorem recover_ne_ok (hB : CompleteBatch H parity numData numCoding B)
    (hcodec : CodecCorrect cache numData numCoding parity) (hS : S.Subperm B)
    (h : S.length < numData ∨ ∀ s ∈ S, s.kind = .data) (items : List (Result Shred)) :
    recover H cache srt S ≠ .ok items := by
  intro hr
  have hwS : ∀ s ∈ S, s.WellFormed := fun s hs => hB.wellFormed (hS.subset hs)
  obtain ⟨L, shards, root, hR⟩ := (recover_eq_ok hwS).mp hr
  have hge := ((hB.reconstructs_iff hcodec hS hR.last).mp hR.toReconstructs).1
  rcases h with hlt | hdata
  · omega
  · have hk := hdata _ ((sortShreds_perm srt S).mem_iff.mp (List.mem_of_getLast? hR.last))
    cases hk

end CompleteBatch

end LightweightShred
