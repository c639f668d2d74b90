import LightweightShred.Refiltered

/-!
# What the filter lets a slot hold

Whatever is sent, and however the settings of the filter move on, what it keeps between two slots
has boundedly many identifiers: one fixed set for every thirty-two indices of a slot, and one
place for every index and type of the set.
-/
namespace LightweightShred
open ByteString Rust Codec Slots

/-- The erasure coding set that a shred belongs to. -/
structure ErasureSetId where
  slot : UInt64
  fecSetIndex : UInt32
  deriving DecidableEq, Repr

def maxFecSetsPerSlot : Nat := maxDataShredsPerSlot / dataShredsPerFecBlock

def Shred.erasureSet (s : Shred) : ErasureSetId := ⟨s.commonHeader.slot, s.commonHeader.fecSetIndex⟩

section
variable {root maxSlot : UInt64} {l : List Shred} {s t : Shred}

/-- Where the filter puts a shred. -/
structure Placed (root maxSlot : UInt64) (s : Shred) : Prop where
  wellFormed : s.WellFormed
  slot : root.toNat ≤ s.commonHeader.slot.toNat ∧ s.commonHeader.slot.toNat ≤ maxSlot.toNat
  index : s.commonHeader.index.toNat < maxDataShredsPerSlot
  fixedSet : InFixedSet s.commonHeader.index.toNat s.commonHeader.fecSetIndex.toNat

theorem KeptBy.placed {shredVersion : UInt16} {discardUnexpected : UInt64 → Bool}
    (h : KeptBy root maxSlot shredVersion discardUnexpected s) : Placed root maxSlot s := by
  obtain ⟨hwf, hkept⟩ := keptBy_iff.mp h
  refine ⟨hwf, ⟨?_, hkept.slot⟩, hwf.index_lt, hkept.fixedSet⟩
  cases s with
  | shredCode c => exact Nat.le_of_lt (hkept.code c rfl).afterRoot
  | shredData d =>
      rcases (hkept.data d rfl).parent with ⟨hroot, hparent⟩ | ⟨-, -, hzero⟩
      · exact Nat.le_of_lt (Nat.lt_of_le_of_lt hroot hparent)
      · rw [hzero]
        exact Nat.zero_le _

theorem Placed.mono {root' maxSlot' : UInt64} (h : Placed root' maxSlot' s) (hroot : root ≤ root')
    (hmax : maxSlot' ≤ maxSlot) : Placed root maxSlot s where
  wellFormed := h.wellFormed
  slot := ⟨Nat.le_trans hroot h.slot.1, Nat.le_trans h.slot.2 hmax⟩
  index := h.index
  fixedSet := h.fixedSet

theorem Placed.fecSetIndex_eq (h : Placed root maxSlot s) :
    s.commonHeader.fecSetIndex.toNat = 32 * (s.commonHeader.index.toNat / 32) := by
  obtain ⟨⟨k, hk⟩, hle, hlt⟩ := h.fixedSet
  omega

theorem Placed.erasureSet_eq (hs : Placed root maxSlot s) (ht : Placed root maxSlot t)
    (hslot : s.commonHeader.slot = t.commonHeader.slot)
    (hindex : s.commonHeader.index = t.commonHeader.index) : s.erasureSet = t.erasureSet := by
  have hfec : s.commonHeader.fecSetIndex = t.commonHeader.fecSetIndex := by
    rw [← UInt32.toNat_inj, hs.fecSetIndex_eq, ht.fecSetIndex_eq, hindex]
  rw [Shred.erasureSet, Shred.erasureSet, hslot, hfec]

/-- The number of a shred in its slot, where the coding shreds come behind the data shreds. -/
def Shred.slotKey (s : Shred) : Nat :=
  match s.kind with
  | .data => s.commonHeader.index.toNat
  | .code => maxDataShredsPerSlot + s.commonHeader.index.toNat

theorem Placed.slotKey_lt (h : Placed root maxSlot s) : s.slotKey < 2 * maxDataShredsPerSlot := by
  have hindex := h.index
  unfold Shred.slotKey
  split <;> omega

theorem Placed.slotKey_eq (hs : Placed root maxSlot s) (ht : Placed root maxSlot t)
    (h : s.slotKey = t.slotKey) :
    s.kind = t.kind ∧ s.commonHeader.index.toNat = t.commonHeader.index.toNat := by
  have hsi := hs.index
  have hti := ht.index
  unfold Shred.slotKey at h
  split at h
  · split at h
    · exact ⟨by simp_all only, h⟩
    · omega
  · split at h
    · omega
    · exact ⟨by simp_all only, Nat.add_left_cancel h⟩

theorem Placed.id_eq (hs : Placed root maxSlot s) (ht : Placed root maxSlot t)
    (hslot : s.commonHeader.slot = t.commonHeader.slot)
    (hindex : s.commonHeader.index.toNat = t.commonHeader.index.toNat) (hkind : s.kind = t.kind) :
    s.id = t.id := by
  have hfec : s.erasureSet = t.erasureSet :=
    hs.erasureSet_eq ht hslot (UInt32.toNat_inj.mp hindex)
  exact (Shred.id_eq_iff hs.wellFormed ht.wellFormed ⟨hslot, congrArg ErasureSetId.fecSetIndex hfec⟩).mpr
    ⟨hkind, UInt32.toNat_inj.mp hindex⟩

theorem length_placed_le (hl : ∀ s ∈ l, Placed root maxSlot s) (hid : (l.map Shred.id).Nodup) :
    l.length ≤ (maxSlot.toNat + 1 - root.toNat) * (2 * maxDataShredsPerSlot) := by
  refine @length_le_of_keys Shred
    (fun s => (s.commonHeader.slot.toNat - root.toNat) * (2 * maxDataShredsPerSlot) + s.slotKey)
    l _ 0 ?_ ?_
  · refine (List.pairwise_map.mp hid).imp_of_mem fun {s t} hs ht hne hkey => hne ?_
    have hps := hl s hs
    have hpt := hl t ht
    have hlts := hps.slotKey_lt
    have hltt := hpt.slotKey_lt
    have hslots := hps.slot
    have hslott := hpt.slot
    simp only [maxDataShredsPerSlot] at hkey hlts hltt
    obtain ⟨hkind, hindex⟩ := hps.slotKey_eq hpt (by omega)
    exact hps.id_eq hpt (UInt64.toNat_inj.mp (by omega)) hindex hkind
  · intro s hs
    have hlt := (hl s hs).slotKey_lt
    have hslot := (hl s hs).slot
    simp only [maxDataShredsPerSlot] at hlt ⊢
    omega

theorem length_set_le (hl : ∀ s ∈ l, Placed root maxSlot s)
    (hid : (l.map Shred.id).Nodup) (set : ErasureSetId) (ty : ShredType) :
    (l.filter fun s => s.erasureSet = set ∧ s.kind = ty).length ≤ dataShredsPerFecBlock := by
  refine @length_le_of_keys Shred (fun s => s.commonHeader.index.toNat) _ _ set.fecSetIndex.toNat
    ?_ ?_
  · refine ((List.pairwise_map.mp hid).filter _).imp_of_mem fun {s t} hs ht hne hkey => hne ?_
    obtain ⟨hs, hset⟩ := List.mem_filter.mp hs
    obtain ⟨ht, htet⟩ := List.mem_filter.mp ht
    obtain ⟨hset, hks⟩ := of_decide_eq_true hset
    obtain ⟨htet, hkt⟩ := of_decide_eq_true htet
    have hslot := congrArg ErasureSetId.slot (hset.trans htet.symm)
    exact (hl s hs).id_eq (hl t ht) hslot hkey (hks.trans hkt.symm)
  · intro s hs
    obtain ⟨hmem, hset⟩ := List.mem_filter.mp hs
    rw [← (of_decide_eq_true hset).1]
    exact (hl s hmem).fixedSet.2

theorem length_sets_le (hl : ∀ s ∈ l, Placed root maxSlot s)
    (slot : UInt64) : ((l.filter (·.commonHeader.slot = slot)).map Shred.erasureSet).dedup.length ≤
      maxFecSetsPerSlot := by
  have hmem : ∀ e ∈ ((l.filter (·.commonHeader.slot = slot)).map Shred.erasureSet).dedup,
      ∃ s ∈ l, s.commonHeader.slot = slot ∧ s.erasureSet = e := by
    intro e he
    obtain ⟨s, hs, rfl⟩ := List.mem_map.mp (List.mem_dedup.mp he)
    obtain ⟨hs, hslot⟩ := List.mem_filter.mp hs
    exact ⟨s, hs, of_decide_eq_true hslot, rfl⟩
  refine @length_le_of_keys ErasureSetId (fun e => e.fecSetIndex.toNat / 32) _ _ 0 ?_ ?_
  · refine (List.nodup_dedup _).imp_of_mem fun {e f} he hf hne hkey => hne ?_
    obtain ⟨s, hs, hslot, rfl⟩ := hmem e he
    obtain ⟨t, ht, htslot, rfl⟩ := hmem f hf
    have hsfec := (hl s hs).fecSetIndex_eq
    have htfec := (hl t ht).fecSetIndex_eq
    simp only [Shred.erasureSet] at hkey
    have hfec : s.commonHeader.fecSetIndex = t.commonHeader.fecSetIndex :=
      UInt32.toNat_inj.mp (by omega)
    rw [Shred.erasureSet, Shred.erasureSet, hslot, htslot, hfec]
  · intro e he
    obtain ⟨s, hs, -, rfl⟩ := hmem e he
    have hfec := (hl s hs).fecSetIndex_eq
    have hindex := (hl s hs).index
    refine ⟨Nat.zero_le _, ?_⟩
    simp only [Shred.erasureSet, maxFecSetsPerSlot, maxDataShredsPerSlot, dataShredsPerFecBlock]
      at hindex ⊢
    omega

end

/-- However many packets come in, and however root, last slot, version and discard callback change
meanwhile, what the filter keeps between two slots has boundedly many identifiers: an identifier
belongs to one erasure set, a set has at most thirty-two places of either type, and a slot at most
`MAX_FEC_SETS_PER_SLOT` sets. -/
theorem kept_shreds_bounded (root maxSlot : UInt64) (l : List Shred)
    (hl : ∀ s ∈ l, ∃ root' maxSlot' shredVersion discardUnexpected, root ≤ root' ∧
      maxSlot' ≤ maxSlot ∧ KeptBy root' maxSlot' shredVersion discardUnexpected s) :
    (∀ s ∈ l, ∀ t ∈ l, s.id = t.id → s.erasureSet = t.erasureSet) ∧
    (∀ slot, ((l.filter (·.commonHeader.slot = slot)).map Shred.erasureSet).dedup.length ≤
      maxFecSetsPerSlot) ∧
    ((l.map Shred.id).Nodup →
      (∀ set ty, (l.filter fun s => s.erasureSet = set ∧ s.kind = ty).length ≤
        dataShredsPerFecBlock) ∧
      l.length ≤ (maxSlot.toNat + 1 - root.toNat) * (2 * maxDataShredsPerSlot)) := by
  have hplaced : ∀ s ∈ l, Placed root maxSlot s := by
    intro s hs
    obtain ⟨root', maxSlot', _, _, hroot, hmax, hkept⟩ := hl s hs
    exact hkept.placed.mono hroot hmax
  refine ⟨fun s hs t ht hid => ?_, length_sets_le hplaced,
    fun hid => ⟨length_set_le hplaced hid, length_placed_le hplaced hid⟩⟩
  exact (hplaced s hs).erasureSet_eq (hplaced t ht) (congrArg ShredId.slot hid)
    (congrArg ShredId.index hid)

theorem kept_shreds_bounded_fixed :
    (∀ s ∈ fixedBatch, ∀ t ∈ fixedBatch, s.id = t.id → s.erasureSet = t.erasureSet) ∧
    (∀ slot, ((fixedBatch.filter (·.commonHeader.slot = slot)).map Shred.erasureSet).dedup.length ≤
      maxFecSetsPerSlot) ∧
    ((fixedBatch.map Shred.id).Nodup →
      (∀ set ty, (fixedBatch.filter fun s => s.erasureSet = set ∧ s.kind = ty).length ≤
        dataShredsPerFecBlock) ∧
      fixedBatch.length ≤ ((1 : UInt64).toNat + 1 - (0 : UInt64).toNat) *
        (2 * maxDataShredsPerSlot)) :=
  kept_shreds_bounded 0 1 fixedBatch fun _ hs =>
    ⟨0, 1, 0, fun _ => false, Nat.le_refl _, Nat.le_refl _, fixedBatch_kept hs⟩

end LightweightShred
