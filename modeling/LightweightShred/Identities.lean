import LightweightShred.FastPath

/-!
# Identities in a completed batch

Shreds are placed by position, but told apart by kind and header index. The completed batch
has the identities of a batch exactly if the given shreds have: no data index may reach into
the parity positions, and the coding indices have to count from one start.
-/
namespace LightweightShred
open ByteString Rust Codec Slots HashTree

def codeIndices (l : List Shred) : List Nat :=
  (l.filter (·.kind = .code)).map (·.commonHeader.index.toNat)

/-- Distinct identities: each data index once, and consecutive coding indices once. -/
structure CompletesBatch (L : ShredCode) (l : List Shred) : Prop where
  distinct : (l.map Shred.id).Nodup
  data : (dataIndices l).Perm ((List.range L.codingHeader.numDataShreds.toNat).map
    (L.commonHeader.fecSetIndex.toNat + ·))
  coding : ∃ first, (codeIndices l).Perm
    ((List.range L.codingHeader.numCodingShreds.toNat).map (first + ·))

/-- Data indices stay below the parity positions, and all coding shreds count from one start. -/
structure IndicesConsistent (L : ShredCode) (l : List Shred) : Prop where
  data : ∀ s ∈ l, s.kind = .data → s.commonHeader.index.toNat <
    L.commonHeader.fecSetIndex.toNat + L.codingHeader.numDataShreds.toNat
  coding : ∀ a b : ShredCode, .shredCode a ∈ l → .shredCode b ∈ l →
    a.firstCodingIndex = b.firstCodingIndex

/-- The start from which the coding indices of a shred's batch count. -/
def ShredCode.first (c : ShredCode) : Nat :=
  c.commonHeader.index.toNat - c.codingHeader.position.toNat

theorem ShredCode.firstCodingIndex_eq {a b : ShredCode} (ha : (Shred.shredCode a).Sane)
    (hb : (Shred.shredCode b).Sane) : a.firstCodingIndex = b.firstCodingIndex ↔ a.first = b.first := by
  have hia := ha.first.1
  have hib := hb.first.1
  have hlt := a.commonHeader.index.toNat_lt
  obtain ⟨x, hx⟩ := exists_u32 (show a.first < 2 ^ 32 by
    rw [ShredCode.first]
    omega)
  obtain ⟨y, hy⟩ := exists_u32 (show b.first < 2 ^ 32 by
    have := b.commonHeader.index.toNat_lt
    rw [ShredCode.first]
    omega)
  have hax : a.firstCodingIndex = some x := by
    rw [firstCodingIndex_eq_some, hx, ShredCode.first]
    omega
  have hby : b.firstCodingIndex = some y := by
    rw [firstCodingIndex_eq_some, hy, ShredCode.first]
    omega
  rw [hax, hby, Option.some.injEq, ← hx, ← hy, UInt32.toNat_inj]

/-- A part of a batch has the indices of one. -/
theorem ConsistentBatch.indicesConsistent {parity : List Bytes → List Bytes}
    {numData numCoding : Nat} {B l : List Shred} {L : ShredCode}
    (hB : ConsistentBatch parity numData numCoding B) (hl : l ⊆ B) (hL : .shredCode L ∈ B) :
    IndicesConsistent L l := by
  constructor
  · intro s hs hk
    have hindex := (hB.wellFormed (hl hs)).index_data hk
    have hlt := hB.kind_iff (hl hs)
    rw [hk] at hlt
    split at hlt
    · rename_i hpos
      have hfec : s.commonHeader.fecSetIndex = L.commonHeader.fecSetIndex :=
        (hB.shared s (hl hs) _ hL).2.2.2.1
      rw [(hB.code_header hL).1, hindex, hfec]
      exact Nat.add_lt_add_left hpos _
    · cases hlt
  · obtain ⟨first, hcoding⟩ := hB.coding
    have hfirst : ∀ c : ShredCode, .shredCode c ∈ l → c.first = first := by
      intro c hc
      have hget := hB.getElem?_position (hl hc)
      have hlt := hB.position_lt (hl hc)
      have hkind := hB.kind_iff (hl hc)
      have hge : numData ≤ (Shred.shredCode c).position := by
        by_contra hnot
        rw [if_pos (by omega)] at hkind
        cases hkind
      obtain ⟨e, he, -, -, hpos, hidx⟩ :=
        hcoding ((Shred.shredCode c).position - numData) (by omega)
      rw [Nat.add_sub_of_le hge] at he
      cases Option.some.inj (hget.symm.trans he)
      rw [ShredCode.first]
      omega
    intro a b ha hb
    exact (ShredCode.firstCodingIndex_eq (hB.wellFormed (hl ha)).sane
      (hB.wellFormed (hl hb)).sane).mpr ((hfirst a ha).trans (hfirst b hb).symm)

section Filled
variable {L : ShredCode} {l : List Shred}

/-- Shreds that fill all positions of the batch of `L`. -/
structure Filled (L : ShredCode) (l : List Shred) : Prop where
  positions : (l.map Shred.position).Perm (List.range L.numShards)
  wellFormed : ∀ s ∈ l, s.WellFormed
  slot : ∀ s ∈ l, s.commonHeader.slot = L.commonHeader.slot
  fecSetIndex : ∀ s ∈ l, s.commonHeader.fecSetIndex = L.commonHeader.fecSetIndex
  code : ∀ s ∈ l, s.kind = .code → L.numDataShreds ≤ s.position

def positionsOf (ty : ShredType) (l : List Shred) : List Nat :=
  (l.filter (·.kind = ty)).map Shred.position

theorem mem_positionsOf {ty : ShredType} {n : Nat} :
    n ∈ positionsOf ty l ↔ ∃ s ∈ l, s.kind = ty ∧ s.position = n := by
  simp only [positionsOf, List.mem_map, List.mem_filter, decide_eq_true_eq, and_assoc]

theorem positionsOf_append (ty : ShredType) (l v : List Shred) :
    positionsOf ty (l ++ v) = positionsOf ty l ++ positionsOf ty v := by
  simp only [positionsOf, List.filter_append, List.map_append]

theorem codeIndices_append (l v : List Shred) :
    codeIndices (l ++ v) = codeIndices l ++ codeIndices v := by
  simp only [codeIndices, List.filter_append, List.map_append]

namespace Filled

theorem split (h : Filled L l) : (positionsOf .data l ++ positionsOf .code l).Perm
    (List.range (L.codingHeader.numDataShreds.toNat + L.codingHeader.numCodingShreds.toNat)) := by
  have hnot : l.filter (fun s => !decide (s.kind = .data)) = l.filter (·.kind = .code) := by
    apply List.filter_congr
    intro s _
    cases s <;> rfl
  have hperm := (List.filter_append_perm (·.kind = .data) l).map Shred.position
  rw [List.map_append, hnot] at hperm
  exact hperm.trans h.positions

theorem code_ge (h : Filled L l) : ∀ n ∈ positionsOf .code l,
    L.codingHeader.numDataShreds.toNat ≤ n := by
  intro n hn
  obtain ⟨s, hs, hk, rfl⟩ := mem_positionsOf.mp hn
  exact h.code s hs hk

theorem dataIndices_eq (h : Filled L l) :
    dataIndices l = (positionsOf .data l).map (L.commonHeader.fecSetIndex.toNat + ·) := by
  rw [dataIndices, positionsOf, List.map_map]
  apply List.map_congr_left
  intro s hs
  obtain ⟨hs, hk⟩ := List.mem_filter.mp hs
  rw [(h.wellFormed s hs).index_data (of_decide_eq_true hk), h.fecSetIndex s hs]
  rfl

theorem data_perm_iff (h : Filled L l) :
    (dataIndices l).Perm ((List.range L.codingHeader.numDataShreds.toNat).map
      (L.commonHeader.fecSetIndex.toNat + ·)) ↔
    (positionsOf .data l).Perm (List.range L.codingHeader.numDataShreds.toNat) := by
  rw [h.dataIndices_eq, List.map_perm_map_iff fun a b hab => Nat.add_left_cancel hab]

theorem code_perm {first : Nat} (h : Filled L l)
    (hdata : (positionsOf .data l).Perm (List.range L.codingHeader.numDataShreds.toNat))
    (hcode : ∀ s ∈ l, s.kind = .code → s.commonHeader.index.toNat =
      first + (s.position - L.codingHeader.numDataShreds.toNat)) :
    (codeIndices l).Perm ((List.range L.codingHeader.numCodingShreds.toNat).map (first + ·)) := by
  have hupper := (perm_upper h.split hdata).map (first + ·)
  have he : codeIndices l = ((positionsOf .code l).map
      (· - L.codingHeader.numDataShreds.toNat)).map (first + ·) := by
    rw [codeIndices, positionsOf, List.map_map, List.map_map]
    apply List.map_congr_left
    intro s hs
    obtain ⟨hs, hk⟩ := List.mem_filter.mp hs
    exact hcode s hs (of_decide_eq_true hk)
  rwa [he]

theorem nodup_ids {first : Nat} (h : Filled L l)
    (hcode : ∀ s ∈ l, s.kind = .code → s.commonHeader.index.toNat =
      first + (s.position - L.codingHeader.numDataShreds.toNat)) : (l.map Shred.id).Nodup := by
  have hnodup : l.Pairwise fun a b => a.position ≠ b.position :=
    List.pairwise_map.mp ((h.positions.nodup_iff).mpr List.nodup_range)
  refine List.pairwise_map.mpr (hnodup.imp_of_mem ?_)
  intro a b ha hb hne heq
  apply hne
  have hidx : a.commonHeader.index.toNat = b.commonHeader.index.toNat :=
    congrArg (fun x : ShredId => x.index.toNat) heq
  have hkind : a.kind = b.kind := by
    rw [← (h.wellFormed a ha).kind, ← (h.wellFormed b hb).kind]
    exact congrArg ShredId.shredType heq
  cases hk : a.kind with
  | data =>
      have h1 := (h.wellFormed a ha).index_data hk
      have h2 := (h.wellFormed b hb).index_data (hkind ▸ hk)
      rw [h.fecSetIndex a ha] at h1
      rw [h.fecSetIndex b hb] at h2
      omega
  | code =>
      have h1 := hcode a ha hk
      have h2 := hcode b hb (hkind ▸ hk)
      have h3 := h.code a ha hk
      have h4 := h.code b hb (hkind ▸ hk)
      simp only [ShredCode.numDataShreds] at h3 h4
      omega

end Filled

end Filled

section Yielded
variable {H : Hasher} {cache : ReedSolomonCache} {l ys : List Shred} {L : ShredCode}
  {shards : List Bytes} {root : Hash} {s : Shred}

theorem getElem?_yielded {k : Nat} (hk : ys[k]? = some s) :
    (ys.map (.ok : Shred → Result Shred))[k]? = some (.ok s) := by
  rw [List.getElem?_map, hk]
  rfl

theorem Recovers.position_yielded (h : Recovers H cache l L shards root (ys.map .ok))
    (hl : ∀ s ∈ l, s.WellFormed) : ys.map Shred.position = missingAt L l := by
  have hlen := congrArg List.length h.items
  rw [List.length_map, List.length_map] at hlen
  apply List.ext_getElem?
  intro k
  cases hk : ys[k]? with
  | none =>
      rw [List.getElem?_map, hk, List.getElem?_eq_none (by
        rw [← hlen]
        exact List.getElem?_eq_none_iff.mp hk)]
      rfl
  | some s =>
      rw [List.getElem?_map, hk, h.item_position hl (getElem?_yielded hk)]
      rfl

theorem Recovers.yielded_index (h : Recovers H cache l L shards root (ys.map .ok))
    (hl : ∀ s ∈ l, s.WellFormed) (hs : s ∈ ys) :
    (s.kind = .data → s.position < L.codingHeader.numDataShreds.toNat) ∧
    (s.kind = .code → L.codingHeader.numDataShreds.toNat ≤ s.position ∧
      s.commonHeader.index.toNat =
        L.first + (s.position - L.codingHeader.numDataShreds.toNat)) := by
  obtain ⟨k, hk⟩ := List.mem_iff_getElem?.mp hs
  have hpos := h.item_position hl (getElem?_yielded hk)
  obtain ⟨i, hi, -, hitem⟩ := h.item hl (getElem?_yielded hk)
  obtain rfl : i = s.position := Option.some.inj (hi.symm.trans hpos)
  obtain ⟨hin, hm⟩ := mem_missing_iff.mp (List.mem_of_getElem? hi)
  have hkind : s.kind = if s.position < L.numDataShreds then .data else .code := by
    have hk := @kind_completed_missing l L shards s.position hm
    conv_lhs => rw [hitem, Shred.kind_withPart]
    exact hk
  constructor
  · intro hd
    by_contra hge
    rw [if_neg (show ¬s.position < L.numDataShreds from hge), hd] at hkind
    cases hkind
  · intro hc
    have hge : ¬s.position < L.numDataShreds := by
      intro hlt
      rw [if_pos hlt, hc] at hkind
      cases hkind
    have hch : s.commonHeader = (L.stubCodeHeaders s.position).1 := by
      conv_lhs => rw [hitem, Shred.commonHeader_withPart, completed, Shred.commonHeader_reparsed,
        rebuilt_of_missing hm, Shred.commonHeader_withPart, commonHeader_stubAt, ShredCode.blank,
        if_neg hge]
      rfl
    obtain ⟨-, hidx, hcount, -, -, hn⟩ := numbers (h.wellFormed_last hl).sane
    refine ⟨Nat.le_of_not_lt hge, ?_⟩
    rw [hch]
    change (L.commonHeader.index - L.codingHeader.position.toUInt32 +
      (UInt16.ofNat (s.position - L.numDataShreds)).toUInt32).toNat = _
    rw [UInt32.toNat_add, UInt16.toNat_toUInt32, toNat_u16 (by omega), ShredCode.first,
      ← ShredCode.numDataShreds]
    omega

/-- Input and yielded shreds together fill the batch. -/
theorem Recovers.filled (h : Recovers H cache l L shards root (ys.map .ok))
    (hl : ∀ s ∈ l, s.WellFormed) (hag : Agreeing l) : Filled L (l ++ ys) := by
  have hL : Shred.shredCode L ∈ l := List.mem_of_getLast? h.last
  have hyielded : ∀ s ∈ ys, s.WellFormed ∧ SameBatch s (.shredCode L) := by
    intro s hs
    obtain ⟨k, hk⟩ := List.mem_iff_getElem?.mp hs
    exact ⟨h.item_wellFormed hl (getElem?_yielded hk), h.item_sameBatch hl (getElem?_yielded hk)⟩
  refine ⟨?_, ?_, ?_, ?_, ?_⟩
  · rw [List.map_append, h.position_yielded hl]
    exact keys_append_missing h.placeable.increasing h.placeable.bound
  · intro s hs
    exact (List.mem_append.mp hs).elim (hl s) fun hs => (hyielded s hs).1
  · intro s hs
    exact (List.mem_append.mp hs).elim (fun hs => (hag.common s hs _ hL).1)
      fun hs => (hyielded s hs).2.slot
  · intro s hs
    exact (List.mem_append.mp hs).elim (fun hs => (hag.common s hs _ hL).2.2)
      fun hs => (hyielded s hs).2.fecSetIndex
  · intro s hs hk
    rcases List.mem_append.mp hs with hs | hs
    · cases s with
      | shredData d => cases hk
      | shredCode c =>
          have hnd := congrArg UInt16.toNat (hag.coding c L hs hL).1
          simp only [Shred.position, ShredCode.numDataShreds]
          omega
    · exact ((h.yielded_index hl hs).2 hk).1

theorem Agreeing.code_index {c : ShredCode} (hag : Agreeing l) (hl : ∀ s ∈ l, s.WellFormed)
    (hL : .shredCode L ∈ l) (hc : .shredCode c ∈ l) : c.commonHeader.index.toNat =
      c.first + ((Shred.shredCode c).position - L.codingHeader.numDataShreds.toNat) := by
  have hnd := congrArg UInt16.toNat (hag.coding c L hc hL).1
  have hfirst := (hl _ hc).sane.first.1
  simp only [ShredCode.first, Shred.position]
  omega

theorem Recovers.codeIndices_sorted (h : Recovers H cache l L shards root (ys.map .ok))
    (hsorted : Sorted l) : (codeIndices l).Pairwise (· ≤ ·) ∧
      ((positionsOf .code l).map fun n =>
        L.first + (n - L.codingHeader.numDataShreds.toNat)).Pairwise (· ≤ ·) := by
  constructor
  · refine List.pairwise_map.mpr ((hsorted.filter _).imp_of_mem ?_)
    intro a b ha hb hle
    have hka := of_decide_eq_true (List.mem_filter.mp ha).2
    rcases isLe_iff.mp hle with ⟨hd, -⟩ | ⟨-, hi⟩
    · exact ShredType.noConfusion (hka.symm.trans hd)
    · exact hi
  · rw [positionsOf, List.map_map]
    refine List.pairwise_map.mpr ((h.placeable.increasing.filter _).imp ?_)
    intro a b hlt
    simp only [Function.comp_apply]
    omega

/-- The greatest coding index belongs to the last position, wherever its shred came from. -/
theorem Recovers.last_index (h : Recovers H cache l L shards root (ys.map .ok))
    (hl : ∀ s ∈ l, s.WellFormed) (hag : Agreeing l) (hsorted : Sorted l)
    (hdata : (positionsOf .data (l ++ ys)).Perm
      (List.range L.codingHeader.numDataShreds.toNat)) :
    (∀ n ∈ codeIndices (l ++ ys), n ≤ L.first + (L.codingHeader.numCodingShreds.toNat - 1)) ∧
      L.first + (L.codingHeader.numCodingShreds.toNat - 1) ∈ codeIndices (l ++ ys) := by
  have hL : Shred.shredCode L ∈ l := List.mem_of_getLast? h.last
  have hF := h.filled hl hag
  obtain ⟨-, -, -, -, hpos, hn⟩ := numbers (h.wellFormed_last hl).sane
  have hnd : L.numDataShreds = L.codingHeader.numDataShreds.toNat := rfl
  have hLidx := hag.code_index hl hL hL
  have hLpos : (Shred.shredCode L).position =
    L.codingHeader.numDataShreds.toNat + L.codingHeader.position.toNat := rfl
  have hbound : ∀ s ∈ l ++ ys, s.position < L.numShards := fun s hs =>
    List.mem_range.mp (hF.positions.mem_iff.mp (List.mem_map_of_mem hs))
  constructor
  · intro n hn'
    simp only [codeIndices, List.mem_map, List.mem_filter, decide_eq_true_eq] at hn'
    obtain ⟨s, ⟨hs, hk⟩, rfl⟩ := hn'
    have hlt := hbound s hs
    rcases List.mem_append.mp hs with hs | hs
    · rcases isLe_iff.mp (hsorted.isLe_last h.last hs) with ⟨hd, -⟩ | ⟨-, hle⟩
      · exact ShredType.noConfusion (hk.symm.trans hd)
      · simp only [Shred.commonHeader] at hle hLidx ⊢
        omega
    · have := ((h.yielded_index hl hs).2 hk).2
      omega
  · obtain ⟨s, hs, hspos⟩ := List.mem_map.mp (hF.positions.mem_iff.mpr
      (List.mem_range.mpr (show L.numShards - 1 < L.numShards by omega)))
    have hk : s.kind = .code := by
      cases hkind : s.kind with
      | code => rfl
      | data =>
          have := List.mem_range.mp (hdata.mem_iff.mp (mem_positionsOf.mpr ⟨s, hs, hkind, rfl⟩))
          omega
    refine List.mem_map.mpr ⟨s, List.mem_filter.mpr ⟨hs, decide_eq_true hk⟩, ?_⟩
    rcases List.mem_append.mp hs with hs | hs
    · have hle := h.placeable.increasing.le_last h.last hs
      have hlast := h.placeable.bound _ hL
      have hsame := h.placeable.increasing.injective hs hL (by omega)
      rw [hsame] at hspos ⊢
      simp only [Shred.commonHeader]
      omega
    · rw [((h.yielded_index hl hs).2 hk).2]
      omega

theorem Recovers.completes_iff (h : Recovers H cache l L shards root (ys.map .ok))
    (hl : ∀ s ∈ l, s.WellFormed) (hag : Agreeing l) (hsorted : Sorted l) :
    CompletesBatch L (l ++ ys) ↔ IndicesConsistent L l := by
  have hL : Shred.shredCode L ∈ l := List.mem_of_getLast? h.last
  have hF := h.filled hl hag
  have hyielded : codeIndices ys = (positionsOf .code ys).map fun n =>
      L.first + (n - L.codingHeader.numDataShreds.toNat) := by
    rw [codeIndices, positionsOf, List.map_map]
    apply List.map_congr_left
    intro s hs
    obtain ⟨hs, hk⟩ := List.mem_filter.mp hs
    exact ((h.yielded_index hl hs).2 (of_decide_eq_true hk)).2
  constructor
  · rintro ⟨-, hdata, f, hcode⟩
    have hpos := hF.data_perm_iff.mp hdata
    obtain ⟨hle, hmem⟩ := h.last_index hl hag hsorted hpos
    obtain rfl := start_eq_of_perm hcode hle hmem
    -- what the yielded shreds contribute cancels, and sorted rearrangements are equal
    have hupper := (perm_upper hF.split hpos).map (L.first + ·)
    rw [positionsOf_append, List.map_map, List.map_append] at hupper
    rw [codeIndices_append, hyielded] at hcode
    have hgiven := (List.perm_append_right_iff _).mp (hcode.trans hupper.symm)
    obtain ⟨h1, h2⟩ := h.codeIndices_sorted hsorted
    have heq := hgiven.eq_of_pairwise' h1 h2
    rw [codeIndices, positionsOf, List.map_map, List.map_inj_left] at heq
    have hstart : ∀ c : ShredCode, .shredCode c ∈ l → c.first = L.first := by
      intro c hc
      have hidx := heq _ (List.mem_filter.mpr ⟨hc, rfl⟩)
      have hown := hag.code_index hl hL hc
      simp only [Shred.commonHeader, Function.comp_apply] at hidx hown
      omega
    refine ⟨fun s hs hk => ?_, fun a b ha hb => ?_⟩
    · obtain ⟨j, hj, hidx⟩ := List.mem_map.mp (hdata.mem_iff.mp
        (mem_dataIndices.mpr ⟨s, List.mem_append_left _ hs, hk, rfl⟩))
      have := List.mem_range.mp hj
      omega
    · rw [ShredCode.firstCodingIndex_eq (hl _ ha).sane (hl _ hb).sane, hstart a ha, hstart b hb]
  · intro hcons
    have hdata : ∀ n ∈ positionsOf .data (l ++ ys), n < L.codingHeader.numDataShreds.toNat := by
      intro n hn
      obtain ⟨s, hs, hk, rfl⟩ := mem_positionsOf.mp hn
      rcases List.mem_append.mp hs with hs | hs
      · have hidx := (hl s hs).index_data hk
        have hlt := hcons.data s hs hk
        rw [(hag.common s hs _ hL).2.2] at hidx
        simp only [Shred.commonHeader] at hidx hlt
        omega
      · exact (h.yielded_index hl hs).1 hk
    have hpos := (perm_split hF.split hF.code_ge).mp hdata
    have hcode : ∀ s ∈ l ++ ys, s.kind = .code → s.commonHeader.index.toNat =
        L.first + (s.position - L.codingHeader.numDataShreds.toNat) := by
      intro s hs hk
      rcases List.mem_append.mp hs with hs | hs
      · cases s with
        | shredData d => cases hk
        | shredCode c =>
            rw [← (ShredCode.firstCodingIndex_eq (hl _ hs).sane (hl _ hL).sane).mp
              (hcons.coding c L hs hL)]
            exact hag.code_index hl hL hs
      · exact ((h.yielded_index hl hs).2 hk).2
    exact ⟨hF.nodup_ids hcode, hF.data_perm_iff.mpr hpos, L.first, hF.code_perm hpos hcode⟩

end Yielded

theorem CompletesBatch.congr {L L' : ShredCode} {l l' : List Shred} (h : CompletesBatch L l)
    (hp : l.Perm l') (hnd : L.codingHeader.numDataShreds = L'.codingHeader.numDataShreds)
    (hnc : L.codingHeader.numCodingShreds = L'.codingHeader.numCodingShreds)
    (hfec : L.commonHeader.fecSetIndex = L'.commonHeader.fecSetIndex) : CompletesBatch L' l' := by
  obtain ⟨hd, hdata, first, hcode⟩ := h
  rw [hnd, hfec] at hdata
  rw [hnc] at hcode
  exact ⟨((hp.map _).nodup_iff).mp hd, ((hp.filter _).map _).symm.trans hdata, first,
    ((hp.filter _).map _).symm.trans hcode⟩

theorem IndicesConsistent.congr {L L' : ShredCode} {l l' : List Shred} (h : IndicesConsistent L l)
    (hp : l.Perm l') (hnd : L.codingHeader.numDataShreds = L'.codingHeader.numDataShreds)
    (hfec : L.commonHeader.fecSetIndex = L'.commonHeader.fecSetIndex) : IndicesConsistent L' l' := by
  refine ⟨fun s hs hk => ?_, fun a b ha hb =>
    h.coding a b (hp.mem_iff.mpr ha) (hp.mem_iff.mpr hb)⟩
  rw [← hnd, ← hfec]
  exact h.data s (hp.mem_iff.mpr hs) hk

/-- Whether a successful recovery completes the batch: exactly if the indices of the given
shreds are those of a batch. -/
theorem recover_completes_iff (H : Hasher) (cache : ReedSolomonCache) (srt : ShredSort)
    (l : List Shred) (hl : ∀ s ∈ l, s.Accepted) (hag : Agreeing l) (ys : List Shred)
    (hr : recover H cache srt l = .ok (ys.map .ok)) (L : ShredCode) (hL : .shredCode L ∈ l) :
    CompletesBatch L (l ++ ys) ↔ IndicesConsistent L l := by
  have hwf : ∀ s ∈ l, s.WellFormed := fun s hs => Shred.accepted_iff.mp (hl s hs)
  have hperm := sortShreds_perm srt l
  obtain ⟨L', shards, root, hR⟩ := (recover_eq_ok hwf).mp hr
  have hL' : .shredCode L' ∈ l := hperm.mem_iff.mp (List.mem_of_getLast? hR.last)
  obtain ⟨hnd, hnc⟩ := hag.coding L L' hL hL'
  have hfec := (hag.common _ hL _ hL').2.2
  have hiff := hR.completes_iff (wellFormed_sortShreds hwf) (hag.perm hperm)
    (sorted_sortShreds srt l)
  constructor
  · intro hc
    exact (hiff.mp (hc.congr (hperm.symm.append_right ys) hnd hnc hfec)).congr hperm hnd.symm hfec.symm
  · intro hc
    exact (hiff.mpr (hc.congr hperm.symm hnd hfec)).congr (hperm.append_right ys) hnd.symm hnc.symm
      hfec.symm

/-- A data shred recovered from three copies completes their batch. -/
theorem recover_completes_iff_copies : ∃ L, .shredCode L ∈ threeCopies ∧
    CompletesBatch L
      (threeCopies ++ (plainBatch sha256Hasher 0 3).filter (· ∉ threeCopies)) := by
  obtain ⟨L, hL⟩ := exists_code_threeCopies
  exact ⟨L, hL, (recover_completes_iff sha256Hasher replicationCache stableSort _
    threeCopies_accepted threeCopies_agreeing _ recover_threeCopies L hL).mpr
      (threeCopies_complete.indicesConsistent (fun _ => mem_of_threeCopies)
        (mem_of_threeCopies hL))⟩

/-- All three positions are given, so `recover` succeeds with nothing to add; but the coding
indices 10 and 20 are not consecutive. -/
theorem recover_incomplete :
    (∀ s ∈ sealBatch sha256Hasher (twoCopies 10 20), s.Accepted) ∧
    Agreeing (sealBatch sha256Hasher (twoCopies 10 20)) ∧
    recover sha256Hasher replicationCache stableSort (sealBatch sha256Hasher (twoCopies 10 20)) =
      .ok [] ∧
    ∀ L, ¬CompletesBatch L (sealBatch sha256Hasher (twoCopies 10 20) ++ []) := by
  have hseal := twoCopies_sealable (show (10 : UInt32).toNat ≤ 32766 by decide)
    (show 1 ≤ (20 : UInt32).toNat ∧ (20 : UInt32).toNat ≤ 32767 by decide)
  refine ⟨fun s hs => Shred.accepted_iff.mpr (hseal.wellFormed hs),
    (hseal.reproved _).agreeing (twoCopies_agreeing _ _),
    recover_twoCopies (by decide) (by decide) (by decide), ?_⟩
  rintro L ⟨-, -, first, hcode⟩
  have hindices : codeIndices (sealBatch sha256Hasher (twoCopies 10 20) ++ []) = [10, 20] := rfl
  have h10 := hcode.mem_iff (a := 10)
  have h20 := hcode.mem_iff (a := 20)
  have hlen := hcode.length_eq
  rw [hindices] at h10 h20 hlen
  simp at h10 h20 hlen
  omega

end LightweightShred
