import LightweightShred.ArrivalOrder
import LightweightShred.Refiltered

/-!
# Erasure mismatches

Two coding shreds mismatch if they differ in their counts, in the start of the coding indices or
in the signature. Behind the filter this is the check that `recover` leaves to its callers: where
no shred mismatches a given one, the order of arrival has no effect, identifiers are positions,
and what is recovered completes the batch.
-/
namespace LightweightShred
open ByteString Rust Codec Slots

/-- Whether the erasure coding of the two shreds differs. -/
def ShredCode.erasureMismatch (s other : ShredCode) : Bool :=
  decide (s.codingHeader.numCodingShreds ≠ other.codingHeader.numCodingShreds) ||
  decide (s.codingHeader.numDataShreds ≠ other.codingHeader.numDataShreds) ||
  decide (s.firstCodingIndex ≠ other.firstCodingIndex) ||
  decide (s.commonHeader.signature ≠ other.commonHeader.signature)

def Shred.erasureMismatch : Shred → Shred → Result Bool
  | .shredCode s, .shredCode other => .ok (s.erasureMismatch other)
  | _, _ => fail .invalidShredType

/-- No coding shred of the list mismatches the given one. -/
def Matching (L : ShredCode) (l : List Shred) : Prop :=
  ∀ s ∈ l, s.erasureMismatch (.shredCode L) ≠ .ok true

section Consistent
variable {l : List Shred} {L : ShredCode} {s t : Shred}

theorem IndicesConsistent.place (h : IndicesConsistent L l) (hl : ∀ s ∈ l, s.WellFormed)
    (hag : Agreeing l) (hL : .shredCode L ∈ l) (hs : s ∈ l) :
    (s.kind = .data ∧ s.position < L.numDataShreds ∧
      s.commonHeader.index.toNat = L.commonHeader.fecSetIndex.toNat + s.position) ∨
    (s.kind = .code ∧ L.numDataShreds ≤ s.position ∧ s.position < L.numShards ∧
      s.commonHeader.index.toNat + L.numDataShreds = L.first + s.position) := by
  cases s with
  | shredData d =>
      have hindex := (hl _ hs).index_data rfl
      have hfec := (hag.common _ hs _ hL).2.2
      have hlt := h.data _ hs rfl
      simp only [Shred.commonHeader] at hfec hindex hlt
      rw [hfec] at hindex
      refine .inl ⟨rfl, ?_, hindex⟩
      rw [ShredCode.numDataShreds]
      omega
  | shredCode c =>
      have hfirst : c.first = L.first :=
        (ShredCode.firstCodingIndex_eq (hl _ hs).sane (hl _ hL).sane).mp (h.coding c L hs hL)
      have hindex := hag.code_index hl hL hs
      have hlt := (hl _ hs).sane.coding.1
      obtain ⟨hnd, hnc⟩ := hag.coding c L hs hL
      have hpos : (Shred.shredCode c).position =
          L.codingHeader.numDataShreds.toNat + c.codingHeader.position.toNat := by
        rw [Shred.position, hnd]
      rw [hnc] at hlt
      refine .inr ⟨rfl, ?_, ?_, ?_⟩
      · rw [ShredCode.numDataShreds]
        omega
      · rw [ShredCode.numShards]
        omega
      · simp only [Shred.commonHeader, ShredCode.numDataShreds]
        omega

theorem IndicesConsistent.not_tied (h : IndicesConsistent L l) (hl : ∀ s ∈ l, s.WellFormed)
    (hag : Agreeing l) (hL : .shredCode L ∈ l) : ¬Tied l := by
  rintro ⟨a, b, ha, hb, hindex, hne⟩
  have hnd := congrArg UInt16.toNat (hag.coding a b ha hb).1
  rcases h.place hl hag hL ha with ⟨hk, -⟩ | ⟨-, -, -, hpa⟩
  · cases hk
  rcases h.place hl hag hL hb with ⟨hk, -⟩ | ⟨-, -, -, hpb⟩
  · cases hk
  simp only [Shred.commonHeader, Shred.position] at hpa hpb
  rw [hindex] at hpa
  exact hne (UInt16.toNat_inj.mp (by omega))

theorem IndicesConsistent.position_eq_iff (h : IndicesConsistent L l) (hl : ∀ s ∈ l, s.WellFormed)
    (hag : Agreeing l) (hL : .shredCode L ∈ l) (hs : s ∈ l) (ht : t ∈ l) :
    s.position = t.position ↔ s.id = t.id := by
  have hset : SameSet s t := ⟨(hag.common s hs t ht).1, (hag.common s hs t ht).2.2⟩
  rw [Shred.id_eq_iff (hl s hs) (hl t ht) hset, ← UInt32.toNat_inj]
  rcases h.place hl hag hL hs with ⟨hks, hls, his⟩ | ⟨hks, hls, -, his⟩
  · rcases h.place hl hag hL ht with ⟨hkt, hlt, hit⟩ | ⟨hkt, hlt, -, hit⟩
    · simp only [hks, hkt, true_and]
      omega
    · simp only [hks, hkt, reduceCtorEq, false_and, iff_false]
      omega
  · rcases h.place hl hag hL ht with ⟨hkt, hlt, hit⟩ | ⟨hkt, hlt, -, hit⟩
    · simp only [hks, hkt, reduceCtorEq, false_and, iff_false]
      omega
    · simp only [hks, hkt, true_and]
      omega

/-- Sorting by kind and index is sorting by position. -/
theorem IndicesConsistent.position_lt (h : IndicesConsistent L l) (hl : ∀ s ∈ l, s.WellFormed)
    (hag : Agreeing l) (hL : .shredCode L ∈ l) (hs : s ∈ l) (ht : t ∈ l)
    (hlt : cmpShredErasureShardIndex s t = .lt) : s.position < t.position := by
  have hle : ¬isLe t s = true := Bool.eq_false_iff.mp (cmp_eq_lt.mp hlt)
  rw [isLe_iff] at hle
  rcases h.place hl hag hL hs with ⟨hks, hls, his⟩ | ⟨hks, hls, -, his⟩
  · rcases h.place hl hag hL ht with ⟨hkt, -, hit⟩ | ⟨-, hge, -⟩
    · by_contra hnot
      exact hle (.inr ⟨hkt.trans hks.symm, by omega⟩)
    · omega
  · rcases h.place hl hag hL ht with ⟨hkt, -⟩ | ⟨hkt, -, -, hit⟩
    · exact (hle (.inl ⟨hkt, hks⟩)).elim
    · by_contra hnot
      exact hle (.inr ⟨hkt.trans hks.symm, by omega⟩)

theorem IndicesConsistent.recoverable_iff (h : IndicesConsistent L l) (hl : ∀ s ∈ l, s.WellFormed)
    (hag : Agreeing l) (hL : .shredCode L ∈ l) : Recoverable l ↔
      (∀ s ∈ l, s.signature = L.commonHeader.signature) ∧ (l.map Shred.id).Nodup ∧
        L.numDataShreds ≤ l.length ∧ L.numShards ≤ 256 := by
  have hnodup : (l.map Shred.position).Nodup ↔ (l.map Shred.id).Nodup := by
    simp only [List.Nodup, List.pairwise_map]
    exact List.Pairwise.iff_of_mem fun hs ht => not_congr (h.position_eq_iff hl hag hL hs ht)
  have hcounts : ∀ c, .shredCode c ∈ l →
      c.numDataShreds = L.numDataShreds ∧ c.numShards = L.numShards := by
    intro c hc
    obtain ⟨hnd, hnc⟩ := hag.coding c L hc hL
    simp only [ShredCode.numShards, ShredCode.numDataShreds, hnd, hnc, and_self]
  constructor
  · intro hrec
    obtain ⟨c, hc, hlen, h256⟩ := hrec.enough
    rw [(hcounts c hc).1] at hlen
    rw [(hcounts c hc).2] at h256
    exact ⟨fun s hs => hrec.signature s hs _ hL, hnodup.mp hrec.positions, hlen, h256⟩
  · rintro ⟨hsig, hid, hlen, h256⟩
    refine ⟨fun s hs t ht => (hsig s hs).trans (hsig t ht).symm, hnodup.mpr hid,
      fun c hc s hs => ?_, fun s hs t ht => h.position_lt hl hag hL hs ht, L, hL, hlen, h256⟩
    rw [(hcounts c hc).2]
    rcases h.place hl hag hL hs with ⟨-, hlt, -⟩ | ⟨-, -, hlt, -⟩
    · exact Nat.lt_of_lt_of_le hlt (Nat.le_add_right _ _)
    · exact hlt

end Consistent

section
variable {l : List Shred} {L a b : ShredCode}

theorem ShredCode.erasureMismatch_eq_false : a.erasureMismatch b = false ↔
    a.codingHeader.numCodingShreds = b.codingHeader.numCodingShreds ∧
    a.codingHeader.numDataShreds = b.codingHeader.numDataShreds ∧
    a.firstCodingIndex = b.firstCodingIndex ∧ a.commonHeader.signature = b.commonHeader.signature := by
  simp only [ShredCode.erasureMismatch, Bool.or_eq_false_iff, decide_eq_false_iff_not, not_not,
    and_assoc]

theorem matching_iff : Matching L l ↔ ∀ c, .shredCode c ∈ l → c.erasureMismatch L = false := by
  constructor
  · intro h c hc
    cases hm : c.erasureMismatch L with
    | false => rfl
    | true => exact (h _ hc (congrArg Except.ok hm)).elim
  · intro h s hs
    cases s with
    | shredData d => exact fun hd => by cases hd
    | shredCode c =>
        intro hm
        have htrue : c.erasureMismatch L = true := Except.ok.inj hm
        rw [h c hs] at htrue
        cases htrue

theorem Matching.pair (h : Matching L l) (ha : .shredCode a ∈ l) (hb : .shredCode b ∈ l) :
    a.erasureMismatch b = false := by
  obtain ⟨hnc, hnd, hfirst, hsig⟩ :=
    ShredCode.erasureMismatch_eq_false.mp (matching_iff.mp h a ha)
  obtain ⟨hnc', hnd', hfirst', hsig'⟩ :=
    ShredCode.erasureMismatch_eq_false.mp (matching_iff.mp h b hb)
  exact ShredCode.erasureMismatch_eq_false.mpr ⟨hnc.trans hnc'.symm, hnd.trans hnd'.symm,
    hfirst.trans hfirst'.symm, hsig.trans hsig'.symm⟩

/-- Behind the filter the data indices are always those of a batch. -/
theorem indicesConsistent_iff (hl : ∀ s ∈ l, Ingested s) (hag : Agreeing l) (hL : .shredCode L ∈ l) :
    IndicesConsistent L l ↔ ∀ a b : ShredCode, .shredCode a ∈ l → .shredCode b ∈ l →
      a.firstCodingIndex = b.firstCodingIndex := by
  refine ⟨fun h => h.coding, fun h => ⟨fun s hs _ => ?_, h⟩⟩
  have hlt := (hl s hs).fixedHeaders.fixedSet.2.2
  have hfec := (hag.common s hs _ hL).2.2
  rw [((hl _ hL).fixedHeaders.config L rfl).1]
  rw [hfec] at hlt
  exact hlt

theorem Matching.indicesConsistent (h : Matching L l) (hl : ∀ s ∈ l, Ingested s) (hag : Agreeing l)
    (hL : .shredCode L ∈ l) : IndicesConsistent L l :=
  (indicesConsistent_iff hl hag hL).mpr fun _ _ ha hb =>
    (ShredCode.erasureMismatch_eq_false.mp (h.pair ha hb)).2.2.1

theorem matching_iff_first (hag : Agreeing l) (hL : .shredCode L ∈ l)
    (hsig : ∀ s ∈ l, s.signature = L.commonHeader.signature) :
    Matching L l ↔ ∀ a b : ShredCode, .shredCode a ∈ l → .shredCode b ∈ l →
      a.firstCodingIndex = b.firstCodingIndex := by
  constructor
  · intro h a b ha hb
    exact (ShredCode.erasureMismatch_eq_false.mp (h.pair ha hb)).2.2.1
  · intro h
    refine matching_iff.mpr fun c hc => ShredCode.erasureMismatch_eq_false.mpr ?_
    obtain ⟨hd, hn⟩ := hag.coding c L hc hL
    exact ⟨hn, hd, h c L hc hL, hsig _ hc⟩

theorem Ingested.numShards {c : ShredCode} (h : Ingested (.shredCode c)) :
    c.numDataShreds = 32 ∧ c.numShards = 64 := by
  obtain ⟨hd, hn⟩ := h.fixedHeaders.config c rfl
  rw [ShredCode.numShards, ShredCode.numDataShreds, hd, hn]
  exact ⟨rfl, rfl⟩

theorem ConsistentBatch.matching {parity : List Bytes → List Bytes} {numData numCoding : Nat}
    {B : List Shred} (hB : ConsistentBatch parity numData numCoding B) (hl : l ⊆ B)
    (hL : .shredCode L ∈ l) : Matching L l := by
  have hag : Agreeing l := hB.agreeing.mono hl
  have hsig : ∀ s ∈ l, s.signature = L.commonHeader.signature := fun s hs =>
    (hB.shared s (hl hs) _ (hl hL)).1
  exact (matching_iff_first hag hL hsig).mpr (hB.indicesConsistent hl (hl hL)).coding

end

section Recovered
variable {cache : ReedSolomonCache} {srt : ShredSort} {l : List Shred}

theorem Recoverable.increasing_sorted (h : Recoverable l) (hl : ∀ s ∈ l, s.WellFormed)
    (hag : Agreeing l) (hfree : ¬Tied l) : Increasing Shred.position (sortShreds srt l) := by
  obtain ⟨m, hm, hsm, hinc⟩ := h.exists_increasing
  rwa [h.sorted_unique hl hag hfree (sortShreds_perm srt l) hm (sorted_sortShreds srt l) hsm]

theorem Recoverable.recoverDataOnly_ok (h : Recoverable l) (hc : CodecDocumented cache)
    (hl : ∀ s ∈ l, s.WellFormed) (hag : Agreeing l) (hfree : ¬Tied l) :
    ∃ v, recoverDataOnly cache srt l = .ok v := by
  have hperm := sortShreds_perm srt l
  exact (recoverDataOnly_ok_iff hl).mpr ((h.perm hperm).exists_reconstructs hc
    (wellFormed_sortShreds hl) (hag.perm hperm) (sorted_sortShreds srt l)
    (h.increasing_sorted hl hag hfree))

theorem recoverable_of_ok (hc : CodecDocumented cache) (hl : ∀ s ∈ l, s.WellFormed)
    (hag : Agreeing l) (h : ∃ v, recoverDataOnly cache srt l = .ok v) : Recoverable l := by
  obtain ⟨L, shards, hR⟩ := (recoverDataOnly_ok_iff hl).mp h
  have hperm := sortShreds_perm srt l
  exact (hR.recoverable hc (wellFormed_sortShreds hl) (hag.perm hperm)
    (sorted_sortShreds srt l)).perm hperm.symm

end Recovered

/-- Behind the filter, where no shred mismatches a given one, the order of arrival has no effect,
and the fast path succeeds exactly on thirty-two shreds or more, under one signature and with
distinct identifiers. -/
theorem fast_path_iff_of_matching (H : Hasher) (cache : ReedSolomonCache)
    (hc : CodecDocumented cache) (srt : ShredSort) (l : List Shred) (hl : ∀ s ∈ l, Ingested s)
    (hag : Agreeing l) (L : ShredCode) (hL : .shredCode L ∈ l)
    (hno : ∀ s ∈ l, s.erasureMismatch (.shredCode L) ≠ .ok true) :
    OrderFree H cache srt l ∧ ((∃ v, recoverDataOnly cache srt l = .ok v) ↔
      (∀ s ∈ l, s.signature = L.commonHeader.signature) ∧ (l.map Shred.id).Nodup ∧
        32 ≤ l.length) := by
  have hmatching : Matching L l := hno
  have hwf : ∀ s ∈ l, s.WellFormed := fun s hs => (hl s hs).wellFormed
  have hcons := hmatching.indicesConsistent hl hag hL
  have hfree : ¬Tied l := hcons.not_tied hwf hag hL
  obtain ⟨hnd, hns⟩ := (hl _ hL).numShards
  have hrec := hcons.recoverable_iff hwf hag hL
  rw [hnd, hns] at hrec
  simp only [Nat.reduceLeDiff, and_true] at hrec
  refine ⟨orderFree_of_not_tied hc hwf hag fun h => hfree h.2, ?_⟩
  rw [← hrec]
  exact ⟨recoverable_of_ok hc hwf hag, fun h => h.recoverDataOnly_ok hc hwf hag hfree⟩

theorem fixedPart_ingested : ∀ s ∈ fixedPart, Ingested s :=
  fun _ hs => (fixedBatch_kept (fixedPart_sublist.subset hs)).ingested

theorem fixedPart_agreeing : Agreeing fixedPart :=
  fixedBatch_complete.agreeing.mono fun _ hs => fixedPart_sublist.subset hs

theorem fast_path_iff_of_matching_fixed : ∃ L, .shredCode L ∈ fixedPart ∧
    OrderFree sha256Hasher interpolationCache stableSort fixedPart ∧
    ((∃ v, recoverDataOnly interpolationCache stableSort fixedPart = .ok v) ↔
      (∀ s ∈ fixedPart, s.signature = L.commonHeader.signature) ∧ (fixedPart.map Shred.id).Nodup ∧
        32 ≤ fixedPart.length) := by
  obtain ⟨L, hL⟩ := exists_code_fixedPart
  exact ⟨L, hL, fast_path_iff_of_matching sha256Hasher interpolationCache
    interpolationCache_documented stableSort fixedPart fixedPart_ingested fixedPart_agreeing L hL
    (fixedBatch_complete.matching fixedPart_sublist.subset hL)⟩

/-- Behind the filter a successful `recover` completes the batch exactly if no given coding shred
mismatches the others. -/
theorem completes_iff_matching (H : Hasher) (cache : ReedSolomonCache) (srt : ShredSort)
    (l : List Shred) (hl : ∀ s ∈ l, Ingested s) (hag : Agreeing l) (ys : List Shred)
    (hr : recover H cache srt l = .ok (ys.map .ok)) (L : ShredCode) (hL : .shredCode L ∈ l) :
    CompletesBatch L (l ++ ys) ↔ ∀ s ∈ l, s.erasureMismatch (.shredCode L) ≠ .ok true := by
  have hwf : ∀ s ∈ l, s.WellFormed := fun s hs => (hl s hs).wellFormed
  obtain ⟨L', shards, root, hR⟩ := (recover_eq_ok hwf).mp hr
  have hperm := sortShreds_perm srt l
  have hL' : .shredCode L' ∈ l := hperm.mem_iff.mp (List.mem_of_getLast? hR.last)
  obtain ⟨hnd, hnc⟩ := hag.coding L L' hL hL'
  have hfec : L.commonHeader.fecSetIndex = L'.commonHeader.fecSetIndex :=
    (hag.common _ hL _ hL').2.2
  have hsig : ∀ s ∈ l, s.signature = L.commonHeader.signature := by
    intro s hs
    have hplace := hR.placeable.signature
    exact (hplace s (hperm.mem_iff.mpr hs)).trans (hplace _ (hperm.mem_iff.mpr hL)).symm
  have hcompletes : CompletesBatch L (l ++ ys) ↔ CompletesBatch L' (sortShreds srt l ++ ys) :=
    ⟨fun h => h.congr (hperm.symm.append_right ys) hnd hnc hfec,
      fun h => h.congr (hperm.append_right ys) hnd.symm hnc.symm hfec.symm⟩
  rw [hcompletes, hR.completes_iff (wellFormed_sortShreds hwf) (hag.perm hperm)
      (sorted_sortShreds srt l),
    indicesConsistent_iff (fun s hs => hl s (hperm.mem_iff.mp hs)) (hag.perm hperm)
      (hperm.mem_iff.mpr hL')]
  simp only [hperm.mem_iff]
  exact (matching_iff_first hag hL hsig).symm

theorem completes_iff_matching_fixed : ∃ L ys, .shredCode L ∈ fixedPart ∧
    recover sha256Hasher interpolationCache stableSort fixedPart = .ok (ys.map .ok) ∧
    (CompletesBatch L (fixedPart ++ ys) ↔
      ∀ s ∈ fixedPart, s.erasureMismatch (.shredCode L) ≠ .ok true) := by
  obtain ⟨L, hL⟩ := exists_code_fixedPart
  exact ⟨L, _, hL, recover_fixedPart, completes_iff_matching sha256Hasher interpolationCache
    stableSort fixedPart fixedPart_ingested fixedPart_agreeing _ recover_fixedPart L hL⟩

end LightweightShred
