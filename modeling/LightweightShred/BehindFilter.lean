import LightweightShred.SlotBounds

/-!
# Behind the filter

What the filter keeps need not parse: the data size, one combination of flags and the position of a
coding shred are left to the parser. What it keeps and parses has a parent that leads back towards
the root.
-/
namespace LightweightShred
open ByteString Rust Codec

/-- What the parser still checks of a data shred that was kept. -/
structure DataLeft (b : Bytes) (v : ShredVariant) : Prop where
  flags : ∀ f, b[85]? = some f → ¬(f &&& 0x80 ≠ 0 ∧ f &&& 0x40 = 0)
  size : 88 ≤ numberAt b 86 88 ∧
    numberAt b 86 88 + sizeOfMerkleRoot + v.proofBytes + v.resignedBytes ≤ 1203

/-- What the parser still checks of a coding shred that was kept. -/
structure CodeLeft (b : Bytes) : Prop where
  position : numberAt b 87 89 < 32
  first : numberAt b 87 89 ≤ numberAt b 73 77
  last : numberAt b 73 77 - numberAt b 87 89 + 31 < 32768

/-- What the parser still checks of what was kept. -/
def Left (b : Bytes) (v : ShredVariant) : Prop :=
  match v.shredType with
  | .data => DataLeft b v
  | .code => CodeLeft b

section Parser
variable {b : Bytes} {root maxSlot : UInt64} {shredVersion : UInt16}
  {discardUnexpected : UInt64 → Bool} {t : UInt8} {v : ShredVariant}

theorem parsed_type {s : Shred} (hv : getShredVariant b = .ok v)
    (hs : Shred.newFromSerializedShred b = .ok s) : s.kind = v.shredType := by
  obtain rfl : s.variant = v := Except.ok.inj ((variant_at hs).symm.trans hv)
  exact (Shred.newFromSerializedShred_eq_ok.mp hs).1.kind.symm

theorem KeepsData.dataBytes_iff (h : KeepsData b root maxSlot shredVersion discardUnexpected)
    (hv : ShredVariant.tryFrom t = .ok v) (hk : v.shredType = .data) :
    DataBytes b t ↔ DataLeft b v := by
  obtain ⟨hvalid, -⟩ := ShredVariant.tryFrom_sound hv
  obtain ⟨hnibble, rfl⟩ := ShredVariant.tryFrom_data_iff.mp ⟨hv, hk⟩
  have hcap := @capacity_eq .data _ hvalid
  have hend := bodyEnd_add .data hvalid
  have hlt := lt_bodyEnd .data hvalid
  have hheaders : sizeOfHeaders .data = 88 := rfl
  have hpayload : sizeOfPayload .data = 1203 := rfl
  constructor
  · intro hb
    obtain ⟨cap, hcap', hlo, hhi⟩ := hb.size
    obtain rfl := Except.ok.inj (hcap.symm.trans hcap')
    exact ⟨hb.flags, hlo, by omega⟩
  · intro hleft
    refine { nibble := hnibble, length := h.length, index := h.index,
             fecSetIndex := h.fixedSet.2.1, flags := hleft.flags,
             size := ⟨_, hcap, hleft.size.1, ?_⟩, parent := h.parentOffset, parentZero := ?_ }
    · have hsize := hleft.size.2
      omega
    · intro hzero
      have hparent := h.parent
      rw [hzero] at hparent
      rcases hparent with ⟨-, hlt⟩ | ⟨hslot, -⟩
      · omega
      · exact hslot

theorem KeepsCode.codingBytes_iff (h : KeepsCode b root maxSlot shredVersion)
    (hv : ShredVariant.tryFrom t = .ok v) (hk : v.shredType = .code) :
    CodingBytes b t ↔ CodeLeft b := by
  have hdata := h.numDataShreds
  have hcoding := h.numCodingShreds
  obtain ⟨⟨k, hk32⟩, hle, hlt⟩ := h.fixedSet
  have hindex := h.index
  constructor
  · intro hb
    have hlast := hb.lastCoding
    exact ⟨hcoding ▸ hb.position, hb.first, by omega⟩
  · intro hleft
    obtain ⟨hposition, hfirst, hlast⟩ := hleft
    refine { nibble := (ShredVariant.tryFrom_code_iff.mp ⟨hv, hk⟩).1, length := h.length,
             index := h.index, numCodingShreds := ?_, numDataShreds := ?_, lastData := ?_,
             first := hfirst, lastCoding := ?_, position := ?_ }
    all_goals omega

theorem Keeps.parses_iff (h : Keeps b root maxSlot shredVersion discardUnexpected)
    (hv : getShredVariant b = .ok v) :
    (∃ s, Shred.newFromSerializedShred b = .ok s) ↔ Left b v := by
  obtain ⟨t, ht, htv⟩ := getShredVariant_iff.mp hv
  obtain ⟨t', v', ht', htv', hkeeps⟩ := h
  obtain rfl : t = t' := Option.some.inj (ht.symm.trans ht')
  obtain rfl : v = v' := Except.ok.inj (htv.symm.trans htv')
  rcases hkeeps with ⟨hk, hkeeps⟩ | ⟨hk, hkeeps⟩
  · rw [Left, hk, ← hkeeps.codingBytes_iff htv hk]
    constructor
    · rintro ⟨s, hs⟩
      have hkind := parsed_type hv hs
      cases s with
      | shredData d => exact ShredType.noConfusion (hkind.trans hk)
      | shredCode c =>
          obtain ⟨t', ht', hb⟩ := codingBytes_of_parsed hs
          exact Option.some.inj (ht.symm.trans ht') ▸ hb
    · intro hb
      obtain ⟨c, hc⟩ := hb.exists_parsed ht
      exact ⟨.shredCode c, hc⟩
  · rw [Left, hk, ← hkeeps.dataBytes_iff htv hk]
    constructor
    · rintro ⟨s, hs⟩
      have hkind := parsed_type hv hs
      cases s with
      | shredCode c => exact ShredType.noConfusion (hkind.trans hk)
      | shredData d =>
          obtain ⟨t', ht', hb⟩ := dataBytes_of_parsed hs
          exact Option.some.inj (ht.symm.trans ht') ▸ hb
    · intro hb
      obtain ⟨d, hd⟩ := hb.exists_parsed ht
      exact ⟨.shredData d, hd⟩

end Parser

/-- Of the packets that the filter keeps the parser accepts those that also have a data size within
the capacity and no last-shred bit without the data-complete bit, respectively a position within
the thirty-two that does not lead below zero or over the last index. All its other checks have
been made. -/
theorem kept_parses_iff (b : Bytes) (root maxSlot : UInt64) (shredVersion : UInt16)
    (discardUnexpected : UInt64 → Bool) (stats after : ShredFetchStats)
    (hkept : shouldDiscardShred b root maxSlot shredVersion discardUnexpected stats =
      .ok (false, after)) :
    ∃ v, getShredVariant b = .ok v ∧ ((∃ s, Shred.newFromSerializedShred b = .ok s) ↔ Left b v) := by
  rw [shouldDiscardShred_eq, Except.ok.injEq] at hkept
  have hkeeps := outcome_kept.mp (congrArg Prod.fst hkept)
  obtain ⟨t, v, ht, htv, -⟩ := hkeeps
  have hv : getShredVariant b = .ok v := getShredVariant_iff.mpr ⟨t, ht, htv⟩
  exact ⟨v, hv, (outcome_kept.mp (congrArg Prod.fst hkept)).parses_iff hv⟩

/-- A coding shred of the fixed batch, as it was when it was kept. -/
theorem kept_parses_iff_fixed : ∃ b stats after,
    shouldDiscardShred b 0 1 0 (fun _ => false) stats = .ok (false, after) ∧
    ∃ v, getShredVariant b = .ok v ∧ ((∃ s, Shred.newFromSerializedShred b = .ok s) ↔ Left b v) := by
  obtain ⟨c, hc⟩ := exists_code_fixedPart
  obtain ⟨b, stats, after, hkept, -⟩ := fixedBatch_kept (fixedPart_sublist.subset hc)
  exact ⟨b, stats, after, hkept, kept_parses_iff b 0 1 0 (fun _ => false) stats after hkept⟩

/-- The parent of a shred, which only a data shred names. -/
def Shred.parent : Shred → Result UInt64
  | .shredCode _ => fail .invalidShredType
  | .shredData s => s.parent

section Ancestry
variable {root maxSlot slot : UInt64} {shredVersion : UInt16} {discardUnexpected : UInt64 → Bool}
  {s : Shred}

/-- A kept shred names a parent between the root and its own slot, genesis apart. -/
theorem KeptBy.parent (h : KeptBy root maxSlot shredVersion discardUnexpected s)
    (hparent : s.parent = .ok slot) : root ≤ slot ∧
      (slot < s.commonHeader.slot ∨ (slot = 0 ∧ s.commonHeader.slot = 0)) := by
  cases s with
  | shredCode c => cases hparent
  | shredData d =>
      have hextends := (h.headersKept.data d rfl).parent
      have hsub : d.dataHeader.parentOffset.toNat + slot.toNat = d.commonHeader.slot.toNat := by
        have hok : d.parent = .ok slot := hparent
        simp only [ShredData.parent, guard_eq_ok, okOr_eq_ok, checkedSub64_eq_some,
          UInt16.toNat_toUInt64] at hok
        exact hok.2
      have hslot : d.commonHeader.slot.toNat - d.dataHeader.parentOffset.toNat = slot.toNat := by
        omega
      rw [hslot] at hextends
      rcases hextends with ⟨hroot, hlt⟩ | ⟨hzero, hparentZero, hroot⟩
      · exact ⟨UInt64.le_iff_toNat_le.mpr hroot, .inl (UInt64.lt_iff_toNat_lt.mpr hlt)⟩
      · refine ⟨UInt64.le_iff_toNat_le.mpr (by omega), .inr ⟨?_, ?_⟩⟩
        · exact UInt64.toNat_inj.mp hparentZero
        · exact UInt64.toNat_inj.mp hzero

theorem Shred.WellFormed.exists_parent (h : s.WellFormed) (hk : s.kind = .data) :
    ∃ slot, s.parent = .ok slot := by
  cases s with
  | shredCode c => cases hk
  | shredData d => exact parent_eq_ok.mpr h.sane.2.2.parent

/-- Of an earlier slot, or both of the genesis slot. -/
def Falls (s t : Shred) : Prop :=
  t.commonHeader.slot < s.commonHeader.slot ∨ (t.commonHeader.slot = 0 ∧ s.commonHeader.slot = 0)

theorem Falls.le {t : Shred} (h : Falls s t) : t.commonHeader.slot ≤ s.commonHeader.slot := by
  rcases h with hlt | ⟨ht, hs⟩
  · exact UInt64.le_of_lt hlt
  · rw [ht, hs]
    exact UInt64.le_refl _

instance : Trans Falls Falls Falls where
  trans := by
    intro s t u hst htu
    rcases htu with hlt | ⟨hu, ht⟩
    · exact .inl (UInt64.lt_of_lt_of_le hlt hst.le)
    · rcases hst with hlt | ⟨-, hs⟩
      · exact .inl (by rwa [hu, ← ht])
      · exact .inr ⟨hu, hs⟩

end Ancestry

/-- Whatever root and settings each shred was kept under, parents lead back to the lowest of the
roots: along a chain of kept shreds, each the next one's child, slots only fall (but for genesis,
its own parent), no data shred names a parent before the root, and a chain without repetition is no
longer than the slots since the root. -/
theorem parents_lead_to_root (root : UInt64) (chain : List Shred)
    (hkept : ∀ s ∈ chain, ∃ root' maxSlot shredVersion discardUnexpected, root ≤ root' ∧
      KeptBy root' maxSlot shredVersion discardUnexpected s)
    (hlinks : chain.IsChain fun s t => s.parent = .ok t.commonHeader.slot) :
    chain.Pairwise Falls ∧
    (∀ s ∈ chain, s.kind = .data → ∃ slot, s.parent = .ok slot ∧ root ≤ slot) ∧
    ((chain.map fun s => s.commonHeader.slot).Nodup →
      ∀ s, chain.head? = some s → chain.length + root.toNat ≤ s.commonHeader.slot.toNat + 1) := by
  have hfalls : chain.Pairwise Falls := by
    refine List.isChain_iff_pairwise.mp (hlinks.imp_of_mem_imp fun s t hs _ hlink => ?_)
    obtain ⟨root', _, _, _, -, h⟩ := hkept s hs
    exact (h.parent hlink).2
  have hroot : ∀ s ∈ chain, root.toNat ≤ s.commonHeader.slot.toNat := by
    intro s hs
    obtain ⟨root', maxSlot, _, _, hroot, h⟩ := hkept s hs
    exact (h.placed.mono hroot (UInt64.le_refl _)).slot.1
  refine ⟨hfalls, ?_, ?_⟩
  · intro s hs hk
    obtain ⟨root', _, _, _, hle, h⟩ := hkept s hs
    obtain ⟨slot, hslot⟩ := h.wellFormed.exists_parent hk
    exact ⟨slot, hslot, UInt64.le_trans hle (h.parent hslot).1⟩
  · intro hnodup s hs
    obtain ⟨rest, rfl⟩ := List.head?_eq_some_iff.mp hs
    have hmem : ∀ t ∈ s :: rest, t.commonHeader.slot.toNat ≤ s.commonHeader.slot.toNat := by
      intro t ht
      rcases List.mem_cons.mp ht with rfl | ht
      · exact Nat.le_refl _
      · exact UInt64.le_iff_toNat_le.mp (List.rel_of_pairwise_cons hfalls ht).le
    have hcount : (s :: rest).length ≤ s.commonHeader.slot.toNat + 1 - root.toNat := by
      refine @Slots.length_le_of_keys Shred (fun t => t.commonHeader.slot.toNat) _ _ root.toNat
        ?_ ?_
      · exact (List.pairwise_map.mp hnodup).imp fun hne hslot => hne (UInt64.toNat_inj.mp hslot)
      · intro t ht
        have h1 := hroot t ht
        have h2 := hmem t ht
        omega
    have h1 := hroot s List.mem_cons_self
    omega

/-- The first data shred of a slot, whose parent is the slot before. -/
def slotData (slot : UInt64) : ShredData :=
  dataShred { (plainData 6 88).commonHeader with slot } (plainData 6 88).dataHeader
    (List.replicate 1115 0)

theorem slotData_kept {slot : UInt64} (h : 1 ≤ slot) (hmax : slot ≤ 2) :
    KeptBy 0 2 0 (fun _ => false) (.shredData (slotData slot)) := by
  have hplain : (Shred.shredData (plainData 6 88)).WellFormed :=
    plainData_wellFormed (by decide) (by decide)
  have hpos : 1 ≤ slot.toNat := UInt64.le_iff_toNat_le.mp h
  have hzero : (1 : UInt16) = 0 → slot = 0 := fun h => absurd h (by decide)
  have hflag : ¬ShredFlags.empty.contains .lastShredInSlot = true := by decide
  refine keptBy_iff.mpr ⟨dataShred_wellFormed rfl hplain.valid (List.length_replicate ..)
    ⟨hplain.sane.1, hplain.sane.2.1, hplain.sane.2.2.flags, hplain.sane.2.2.size, hzero, hpos⟩, ?_⟩
  refine ⟨rfl, UInt64.le_iff_toNat_le.mp hmax, ⟨⟨0, rfl⟩, Nat.zero_le _, show 0 < 32 by decide⟩,
    fun d hd => ?_, fun c hc => by cases hc⟩
  cases hd
  refine ⟨.inl ⟨Nat.zero_le _, ?_⟩, fun h => Bool.false_ne_true h.2.2, fun h => hflag h.1⟩
  change slot.toNat - 1 < slot.toNat
  omega

/-- Slot 2 and its parent, slot 1. -/
theorem parents_lead_to_root_two :
    [Shred.shredData (slotData 2), .shredData (slotData 1)].Pairwise Falls ∧
    (∀ s ∈ [Shred.shredData (slotData 2), .shredData (slotData 1)], s.kind = .data →
      ∃ slot, s.parent = .ok slot ∧ 0 ≤ slot) ∧
    (([Shred.shredData (slotData 2), .shredData (slotData 1)].map
      fun s => s.commonHeader.slot).Nodup →
      ∀ s, [Shred.shredData (slotData 2), .shredData (slotData 1)].head? = some s →
        2 + (0 : UInt64).toNat ≤ s.commonHeader.slot.toNat + 1) := by
  refine parents_lead_to_root 0 _ (fun s hs => ⟨0, 2, 0, fun _ => false, UInt64.le_refl _, ?_⟩)
    (.cons_cons (by decide) (.singleton _))
  rcases List.mem_cons.mp hs with rfl | hs
  · exact slotData_kept (by decide) (by decide)
  · rw [List.mem_singleton.mp hs]
    exact slotData_kept (by decide) (by decide)

end LightweightShred
