import LightweightShred.FixedFec
import LightweightShred.Identities
import LightweightShred.Encoding

/-!
# Recovered shreds at the filter

The filter sees packets only, so what `recover` yields has never passed it. Of its conditions
the given coding shred passes most on to the yielded ones. What remains to be checked is the
parent of a data shred and the places of its two flags, and the index of a coding shred.
-/
namespace LightweightShred
open ByteString Rust Codec Slots

section Kept
variable (root maxSlot : UInt64) (shredVersion : UInt16) (discardUnexpected : UInt64 → Bool)

/-- Parsed from a packet that the filter keeps under these settings. -/
def KeptBy (s : Shred) : Prop :=
  ∃ b stats after, shouldDiscardShred b root maxSlot shredVersion discardUnexpected stats =
    .ok (false, after) ∧ Shred.newFromSerializedShred b = .ok s

/-- The packet of the shred passes the filter under these settings, whatever the statistics. -/
def Passes (s : Shred) : Prop :=
  ∀ stats, ∃ after, shouldDiscardShred s.payload.bytes root maxSlot shredVersion discardUnexpected
    stats = .ok (false, after)

/-- What the filter asks of the headers of a data shred, beyond the common ones. -/
structure DataKept (d : ShredData) : Prop where
  parent : ExtendsRoot d.commonHeader.slot.toNat
    (d.commonHeader.slot.toNat - d.dataHeader.parentOffset.toNat) root.toNat
  dataComplete : ¬(d.dataHeader.flags.contains .dataCompleteShred = true ∧
    d.commonHeader.index.toNat ≠ d.commonHeader.fecSetIndex.toNat + 31 ∧
      discardUnexpected d.commonHeader.slot = true)
  lastIndex : ¬(d.dataHeader.flags.contains .lastShredInSlot = true ∧
    (d.commonHeader.index.toNat + 1) % 32 ≠ 0)

/-- What the filter asks of the headers of a coding shred, beyond the common ones. -/
structure CodeKept (c : ShredCode) : Prop where
  afterRoot : root.toNat < c.commonHeader.slot.toNat
  numDataShreds : c.codingHeader.numDataShreds.toNat = 32
  numCodingShreds : c.codingHeader.numCodingShreds.toNat = 32

/-- What the filter asks of the headers, beyond the checks of the parser. -/
structure HeadersKept (s : Shred) : Prop where
  version : s.commonHeader.version = shredVersion
  slot : s.commonHeader.slot.toNat ≤ maxSlot.toNat
  fixedSet : InFixedSet s.commonHeader.index.toNat s.commonHeader.fecSetIndex.toNat
  data : ∀ d, s = .shredData d → DataKept root discardUnexpected d
  code : ∀ c, s = .shredCode c → CodeKept root c

end Kept

section Headers
variable {root maxSlot : UInt64} {shredVersion : UInt16} {discardUnexpected : UInt64 → Bool}
  {b : Bytes} {s : Shred}

theorem Shred.WellFormed.index_lt (h : s.WellFormed) : s.commonHeader.index.toNat < 32768 := by
  cases s with
  | shredData d => exact h.sane.1
  | shredCode c =>
      have hcoding := h.sane.coding
      have hfirst := h.sane.first
      simp only [maxCodeShredsPerSlot, maxDataShredsPerSlot] at hfirst
      simp only [Shred.commonHeader]
      omega

theorem keepsHeaders_iff (hs : Shred.newFromSerializedShred b = .ok s) :
    KeepsHeaders b maxSlot shredVersion ↔ s.commonHeader.version = shredVersion ∧
      s.commonHeader.slot.toNat ≤ maxSlot.toNat ∧
        InFixedSet s.commonHeader.index.toNat s.commonHeader.fecSetIndex.toNat := by
  have hat := commonHeader_at hs
  constructor
  · intro h
    exact ⟨UInt16.toNat_inj.mp (hat.version ▸ h.version), hat.slot ▸ h.slot,
      hat.index ▸ hat.fecSetIndex ▸ h.fixedSet⟩
  · rintro ⟨hversion, hslot, hset⟩
    refine ⟨hat.version.trans (congrArg UInt16.toNat hversion), ?_, ?_, ?_⟩
    · rwa [hat.slot]
    · rw [hat.index]
      exact (Shred.newFromSerializedShred_eq_ok.mp hs).1.index_lt
    · rwa [hat.index, hat.fecSetIndex]

theorem keepsCode_iff {c : ShredCode} (hs : Shred.newFromSerializedShred b = .ok (.shredCode c)) :
    KeepsCode b root maxSlot shredVersion ↔
      KeepsHeaders b maxSlot shredVersion ∧ CodeKept root c := by
  obtain ⟨hlen, -, -, -, ⟨hat, hc⟩, -⟩ := Shred.newFromSerializedShred_eq_ok_iff.mp hs
  constructor
  · intro h
    exact ⟨h.toKeepsHeaders, hat.slot ▸ h.afterRoot, hc.numDataShreds ▸ h.numDataShreds,
      hc.numCodingShreds ▸ h.numCodingShreds⟩
  · rintro ⟨h, hroot, hdata, hcoding⟩
    refine ⟨h, hlen, ?_, hc.numDataShreds.trans hdata, hc.numCodingShreds.trans hcoding⟩
    rwa [hat.slot]

theorem keepsData_iff {d : ShredData} (hs : Shred.newFromSerializedShred b = .ok (.shredData d)) :
    KeepsData b root maxSlot shredVersion discardUnexpected ↔
      KeepsHeaders b maxSlot shredVersion ∧ DataKept root discardUnexpected d := by
  obtain ⟨hlen, -, -, -, ⟨hat, hd⟩, hsane⟩ := Shred.newFromSerializedShred_eq_ok_iff.mp hs
  have hslot : UInt64.ofNat d.commonHeader.slot.toNat = d.commonHeader.slot := UInt64.ofNat_toNat
  have hcompleteFlag : hasFlags b 0x40 = d.dataHeader.flags.contains .dataCompleteShred :=
    hasFlags_eq hd.flags .dataCompleteShred
  have hlastFlag : hasFlags b 0xC0 = d.dataHeader.flags.contains .lastShredInSlot :=
    hasFlags_eq hd.flags .lastShredInSlot
  constructor
  · intro h
    have hparent := h.parent
    have hcomplete := h.dataComplete
    have hlast := h.lastIndex
    rw [hat.slot, hd.parentOffset] at hparent
    rw [hat.slot, hat.index, hat.fecSetIndex, hslot, hcompleteFlag] at hcomplete
    rw [hat.index, hlastFlag] at hlast
    exact ⟨h.toKeepsHeaders, hparent, hcomplete, hlast⟩
  · rintro ⟨h, hparent, hcomplete, hlast⟩
    refine ⟨h, hlen, ?_, ?_, ?_, ?_⟩
    · rw [hat.slot, hd.parentOffset]
      exact hsane.2.2.parent.2
    · rwa [hat.slot, hd.parentOffset]
    · rwa [hat.slot, hat.index, hat.fecSetIndex, hslot, hcompleteFlag]
    · rwa [hat.index, hlastFlag]

theorem keeps_iff (hs : Shred.newFromSerializedShred b = .ok s) :
    Keeps b root maxSlot shredVersion discardUnexpected ↔
      HeadersKept root maxSlot shredVersion discardUnexpected s := by
  have hkind := (Shred.newFromSerializedShred_eq_ok.mp hs).1.kind
  obtain ⟨t, ht, htv⟩ := getShredVariant_iff.mp (variant_at hs)
  have hvariant : Keeps b root maxSlot shredVersion discardUnexpected ↔
      (s.kind = .code ∧ KeepsCode b root maxSlot shredVersion) ∨
        (s.kind = .data ∧ KeepsData b root maxSlot shredVersion discardUnexpected) := by
    rw [← hkind]
    refine ⟨?_, fun h => ⟨t, s.variant, ht, htv, h⟩⟩
    rintro ⟨t', v, ht', hv, h⟩
    obtain rfl : t = t' := Option.some.inj (ht.symm.trans ht')
    obtain rfl : s.variant = v := Except.ok.inj (htv.symm.trans hv)
    exact h
  rw [hvariant]
  cases s with
  | shredCode c =>
      rw [keepsCode_iff hs, keepsHeaders_iff hs]
      refine ⟨?_, fun h => .inl ⟨rfl, ⟨h.version, h.slot, h.fixedSet⟩, h.code c rfl⟩⟩
      rintro (⟨-, ⟨hversion, hslot, hset⟩, hc⟩ | ⟨hk, -⟩)
      · exact ⟨hversion, hslot, hset, nofun, fun _ h => Shred.shredCode.inj h ▸ hc⟩
      · cases hk
  | shredData d =>
      rw [keepsData_iff hs, keepsHeaders_iff hs]
      refine ⟨?_, fun h => .inr ⟨rfl, ⟨h.version, h.slot, h.fixedSet⟩, h.data d rfl⟩⟩
      rintro (⟨hk, -⟩ | ⟨-, ⟨hversion, hslot, hset⟩, hd⟩)
      · cases hk
      · exact ⟨hversion, hslot, hset, fun _ h => Shred.shredData.inj h ▸ hd, nofun⟩

theorem KeptBy.wellFormed (h : KeptBy root maxSlot shredVersion discardUnexpected s) :
    s.WellFormed := by
  obtain ⟨b, stats, after, -, hs⟩ := h
  exact (Shred.newFromSerializedShred_eq_ok.mp hs).1

theorem KeptBy.headersKept (h : KeptBy root maxSlot shredVersion discardUnexpected s) :
    HeadersKept root maxSlot shredVersion discardUnexpected s := by
  obtain ⟨b, stats, after, hkept, hs⟩ := h
  rw [shouldDiscardShred_eq, Except.ok.injEq] at hkept
  exact (keeps_iff hs).mp (outcome_kept.mp (congrArg Prod.fst hkept))

theorem Shred.WellFormed.passes_iff (h : s.WellFormed) :
    Passes root maxSlot shredVersion discardUnexpected s ↔
      HeadersKept root maxSlot shredVersion discardUnexpected s := by
  rw [← keeps_iff h.reparse]
  constructor
  · intro hpasses
    obtain ⟨after, hafter⟩ := hpasses .default
    rw [shouldDiscardShred_eq, Except.ok.injEq] at hafter
    exact outcome_kept.mp (congrArg Prod.fst hafter)
  · exact fun hkeeps stats => exists_kept hkeeps stats

theorem KeptBy.ingested (h : KeptBy root maxSlot shredVersion discardUnexpected s) : Ingested s := by
  obtain ⟨b, stats, after, hkept, hs⟩ := h
  exact ⟨b, root, maxSlot, shredVersion, discardUnexpected, stats, after, hkept, hs⟩

theorem keptBy_iff : KeptBy root maxSlot shredVersion discardUnexpected s ↔
    s.WellFormed ∧ HeadersKept root maxSlot shredVersion discardUnexpected s := by
  constructor
  · exact fun h => ⟨h.wellFormed, h.headersKept⟩
  · rintro ⟨hwf, hkept⟩
    obtain ⟨after, hafter⟩ := exists_kept ((keeps_iff hwf.reparse).mpr hkept) .default
    exact ⟨s.payload.bytes, .default, after, hafter, hwf.reparse⟩

theorem HeadersKept.withPart (h : HeadersKept root maxSlot shredVersion discardUnexpected s)
    (R : Region) (new : Bytes) :
    HeadersKept root maxSlot shredVersion discardUnexpected (s.withPart R new) := by
  cases s with
  | shredCode c =>
      refine ⟨h.version, h.slot, h.fixedSet, fun d hd => (by cases hd), fun c' hc' => ?_⟩
      cases hc'
      exact ⟨(h.code c rfl).afterRoot, (h.code c rfl).numDataShreds, (h.code c rfl).numCodingShreds⟩
  | shredData d =>
      refine ⟨h.version, h.slot, h.fixedSet, fun d' hd' => ?_, fun c hc => (by cases hc)⟩
      cases hd'
      exact ⟨(h.data d rfl).parent, (h.data d rfl).dataComplete, (h.data d rfl).lastIndex⟩

end Headers

section Items
variable {H : Hasher} {cache : ReedSolomonCache} {l : List Shred} {L : ShredCode}
  {shards : List Bytes} {root : Hash} {items : List (Result Shred)} {s : Shred} {k : Nat}

/-- The two headers of a coding shred. -/
def Shred.codeHeaders : Shred → Option (ShredCommonHeader × CodingShredHeader)
  | .shredCode c => some (c.commonHeader, c.codingHeader)
  | .shredData _ => none

@[simp] theorem Shred.codeHeaders_withPart (s : Shred) (R : Region) (b : Bytes) :
    (s.withPart R b).codeHeaders = s.codeHeaders := by
  cases s <;> rfl

@[simp] theorem Shred.codeHeaders_reparsed (s : Shred) : s.reparsed.codeHeaders = s.codeHeaders := by
  cases s with
  | shredCode c => rfl
  | shredData d =>
      simp only [Shred.reparsed]
      split <;> rfl

theorem codeHeaders_stubAt (L : ShredCode) (i : Nat) : (L.stubAt i).codeHeaders =
    if i < L.numDataShreds then none else some (L.stubCodeHeaders i) := by
  rw [ShredCode.stubAt, Shred.codeHeaders_withPart, Shred.codeHeaders_withPart, ShredCode.blank]
  split <;> rfl

theorem Recovers.item_codeHeaders (h : Recovers H cache l L shards root items)
    (hl : ∀ s ∈ l, s.WellFormed) (hk : items[k]? = some (.ok s)) : s.codeHeaders =
      if s.position < L.numDataShreds then none else some (L.stubCodeHeaders s.position) := by
  have hpos := h.item_position hl hk
  obtain ⟨i, hi, -, hitem⟩ := h.item hl hk
  obtain rfl : i = s.position := Option.some.inj (hi.symm.trans hpos)
  have hm := (mem_missing_iff.mp (List.mem_of_getElem? hi)).2
  conv_lhs => rw [hitem, Shred.codeHeaders_withPart, completed, Shred.codeHeaders_reparsed,
    rebuilt_of_missing hm, Shred.codeHeaders_withPart, codeHeaders_stubAt]

theorem Recovers.item_data_lt {d : ShredData} (h : Recovers H cache l L shards root items)
    (hl : ∀ s ∈ l, s.WellFormed) (hk : items[k]? = some (.ok (.shredData d))) :
    (Shred.shredData d).position < L.numDataShreds := by
  have hheaders := h.item_codeHeaders hl hk
  by_contra hge
  rw [if_neg hge] at hheaders
  cases hheaders

end Items

section Yielded
variable {H : Hasher} {cache : ReedSolomonCache} {l : List Shred} {L : ShredCode}
  {shards : List Bytes} {root : Hash} {items : List (Result Shred)} {k : Nat}
  {rootSlot maxSlot : UInt64} {shredVersion : UInt16} {discardUnexpected : UInt64 → Bool}

theorem Recovers.yielded_common (h : Recovers H cache l L shards root items)
    (hl : ∀ s ∈ l, KeptBy rootSlot maxSlot shredVersion discardUnexpected s) {s : Shred}
    (hk : items[k]? = some (.ok s)) : s.commonHeader.version = shredVersion ∧
      s.commonHeader.slot.toNat ≤ maxSlot.toNat ∧ rootSlot.toNat < s.commonHeader.slot.toNat ∧
      s.fecSetIndex = L.commonHeader.fecSetIndex := by
  have hsame := h.item_sameBatch (fun s hs => (hl s hs).wellFormed) hk
  have hkept := (hl _ (List.mem_of_getLast? h.last)).headersKept
  rw [hsame.version, hsame.slot, hsame.fecSetIndex]
  exact ⟨hkept.version, hkept.slot, (hkept.code L rfl).afterRoot, rfl⟩

theorem Recovers.passes_code_iff {c : ShredCode} (h : Recovers H cache l L shards root items)
    (hl : ∀ s ∈ l, KeptBy rootSlot maxSlot shredVersion discardUnexpected s)
    (hk : items[k]? = some (.ok (.shredCode c))) :
    Passes rootSlot maxSlot shredVersion discardUnexpected (.shredCode c) ↔
      c.commonHeader.fecSetIndex.toNat ≤ c.commonHeader.index.toNat ∧
        c.commonHeader.index.toNat < c.commonHeader.fecSetIndex.toNat + 32 := by
  have hwf : ∀ s ∈ l, s.WellFormed := fun s hs => (hl s hs).wellFormed
  obtain ⟨hversion, hslot, hroot, hfec⟩ := h.yielded_common hl hk
  have hkept := (hl _ (List.mem_of_getLast? h.last)).headersKept
  obtain ⟨-, hdata, hcoding⟩ := hkept.code L rfl
  have hheaders := h.item_codeHeaders hwf hk
  split at hheaders
  · cases hheaders
  · obtain ⟨-, hc⟩ := Prod.mk.inj (Option.some.inj hheaders)
    rw [(h.item_wellFormed hwf hk).passes_iff]
    constructor
    · exact fun hpasses => hpasses.fixedSet.2
    · intro hindex
      refine ⟨hversion, hslot, ⟨?_, hindex⟩, fun d hd => (by cases hd), fun c' hc' => ?_⟩
      · have hdvd := hkept.fixedSet.1
        change 32 ∣ (Shred.shredCode c).fecSetIndex.toNat
        rwa [hfec]
      · cases hc'
        exact ⟨hroot, by rw [hc]; exact hdata, by rw [hc]; exact hcoding⟩

theorem Recovers.passes_data_iff {d : ShredData} (h : Recovers H cache l L shards root items)
    (hl : ∀ s ∈ l, KeptBy rootSlot maxSlot shredVersion discardUnexpected s)
    (hk : items[k]? = some (.ok (.shredData d))) :
    Passes rootSlot maxSlot shredVersion discardUnexpected (.shredData d) ↔
      rootSlot.toNat ≤ d.commonHeader.slot.toNat - d.dataHeader.parentOffset.toNat ∧
      ¬(d.dataHeader.flags.contains .dataCompleteShred = true ∧
        d.commonHeader.index.toNat ≠ d.commonHeader.fecSetIndex.toNat + 31 ∧
          discardUnexpected d.commonHeader.slot = true) ∧
      ¬(d.dataHeader.flags.contains .lastShredInSlot = true ∧
        (d.commonHeader.index.toNat + 1) % 32 ≠ 0) := by
  have hwf : ∀ s ∈ l, s.WellFormed := fun s hs => (hl s hs).wellFormed
  obtain ⟨hversion, hslot, hroot, hfec⟩ := h.yielded_common hl hk
  have hkept := (hl _ (List.mem_of_getLast? h.last)).headersKept
  have hitem := h.item_wellFormed hwf hk
  have hindex := hitem.index_data rfl
  have hlt := h.item_data_lt hwf hk
  have hnd : L.numDataShreds = 32 := (hkept.code L rfl).numDataShreds
  have hzero := hitem.sane.2.2.parent.1
  simp only [Shred.commonHeader] at hroot hindex
  -- the slot comes after the root, so it is not genesis, and the parent is before the slot
  have hparent : d.commonHeader.slot.toNat - d.dataHeader.parentOffset.toNat <
      d.commonHeader.slot.toNat := by
    have hne : d.dataHeader.parentOffset.toNat ≠ 0 := by
      intro h0
      have hslot0 := hzero (UInt16.toNat_inj.mp h0)
      rw [hslot0] at hroot
      exact absurd hroot (Nat.not_lt_zero _)
    omega
  rw [hitem.passes_iff]
  constructor
  · intro hpasses
    obtain ⟨hext, hcomplete, hlast⟩ := hpasses.data d rfl
    refine ⟨?_, hcomplete, hlast⟩
    rcases hext with ⟨hle, -⟩ | ⟨h0, -⟩
    · exact hle
    · omega
  · rintro ⟨hle, hcomplete, hlast⟩
    refine ⟨hversion, hslot, ⟨?_, ?_, ?_⟩, fun d' hd' => ?_, fun c hc => by cases hc⟩
    · have hdvd := hkept.fixedSet.1
      change 32 ∣ (Shred.shredData d).fecSetIndex.toNat
      rwa [hfec]
    · simp only [Shred.commonHeader]
      omega
    · simp only [Shred.commonHeader]
      omega
    · cases hd'
      exact ⟨.inl ⟨hle, hparent⟩, hcomplete, hlast⟩

theorem Recovers.index_of_aligned {c : ShredCode} (h : Recovers H cache l L shards root items)
    (hl : ∀ s ∈ l, s.WellFormed) (hk : items[k]? = some (.ok (.shredCode c)))
    (haligned : L.codingHeader.position.toNat + L.commonHeader.fecSetIndex.toNat =
      L.commonHeader.index.toNat) :
    c.commonHeader.index.toNat =
      c.commonHeader.fecSetIndex.toNat + c.codingHeader.position.toNat := by
  obtain ⟨-, hindex, hcount, -⟩ := numbers (h.wellFormed_last hl).sane
  have hlt := (h.item_wellFormed hl hk).sane.coding.1
  have hheaders := h.item_codeHeaders hl hk
  split at hheaders
  · cases hheaders
  · obtain ⟨hch, hcc⟩ := Prod.mk.inj (Option.some.inj hheaders)
    have hnc : c.codingHeader.numCodingShreds = L.codingHeader.numCodingShreds := by rw [hcc]; rfl
    have hfec : c.commonHeader.fecSetIndex = L.commonHeader.fecSetIndex := by rw [hch]; rfl
    have hpos : c.commonHeader.index = L.commonHeader.index - L.codingHeader.position.toUInt32 +
        c.codingHeader.position.toUInt32 := by
      rw [hch, hcc]
      rfl
    rw [hnc] at hlt
    rw [hpos, hfec, UInt32.toNat_add, UInt16.toNat_toUInt32]
    omega

end Yielded

/-- Whether what `recover` yields from filtered shreds would itself have passed the filter. For a
data shred that depends on its parent not being before the root, and on its flags being where
the filter wants them; for a coding shred on its index being one of the set, which it is
wherever all the given coding shreds are at their places. -/
theorem recovered_passes_iff (H : Hasher) (cache : ReedSolomonCache) (srt : ShredSort)
    (rootSlot maxSlot : UInt64) (shredVersion : UInt16) (discardUnexpected : UInt64 → Bool)
    (l : List Shred) (hl : ∀ s ∈ l, KeptBy rootSlot maxSlot shredVersion discardUnexpected s)
    (items : List (Result Shred)) (hr : recover H cache srt l = .ok items) :
    (∀ d, .ok (.shredData d) ∈ items →
      (Passes rootSlot maxSlot shredVersion discardUnexpected (.shredData d) ↔
        rootSlot.toNat ≤ d.commonHeader.slot.toNat - d.dataHeader.parentOffset.toNat ∧
        ¬(d.dataHeader.flags.contains .dataCompleteShred = true ∧
          d.commonHeader.index.toNat ≠ d.commonHeader.fecSetIndex.toNat + 31 ∧
            discardUnexpected d.commonHeader.slot = true) ∧
        ¬(d.dataHeader.flags.contains .lastShredInSlot = true ∧
          (d.commonHeader.index.toNat + 1) % 32 ≠ 0))) ∧
    (∀ c, .ok (.shredCode c) ∈ items →
      (Passes rootSlot maxSlot shredVersion discardUnexpected (.shredCode c) ↔
        c.commonHeader.fecSetIndex.toNat ≤ c.commonHeader.index.toNat ∧
          c.commonHeader.index.toNat < c.commonHeader.fecSetIndex.toNat + 32) ∧
      (CodingAligned l →
        Passes rootSlot maxSlot shredVersion discardUnexpected (.shredCode c))) := by
  have hsl : ∀ s ∈ sortShreds srt l, KeptBy rootSlot maxSlot shredVersion discardUnexpected s :=
    fun s hs => hl s ((sortShreds_perm srt l).mem_iff.mp hs)
  have hwf : ∀ s ∈ sortShreds srt l, s.WellFormed := fun s hs => (hsl s hs).wellFormed
  obtain ⟨L, shards, root, hR⟩ := (recover_eq_ok fun s hs => (hl s hs).wellFormed).mp hr
  constructor
  · intro d hd
    obtain ⟨k, hk⟩ := List.mem_iff_getElem?.mp hd
    exact hR.passes_data_iff hsl hk
  · intro c hc
    obtain ⟨k, hk⟩ := List.mem_iff_getElem?.mp hc
    refine ⟨hR.passes_code_iff hsl hk, fun haligned => (hR.passes_code_iff hsl hk).mpr ?_⟩
    have hL := (sortShreds_perm srt l).mem_iff.mp (List.mem_of_getLast? hR.last)
    have hindex := hR.index_of_aligned hwf hk (haligned L hL)
    have hkept := (hsl _ (List.mem_of_getLast? hR.last)).headersKept
    have hlt := (hR.item_wellFormed hwf hk).sane.coding.1
    have hheaders := hR.item_codeHeaders hwf hk
    split at hheaders
    · cases hheaders
    · obtain ⟨-, hcc⟩ := Prod.mk.inj (Option.some.inj hheaders)
      have hnc : c.codingHeader.numCodingShreds.toNat = 32 := by
        rw [hcc]
        exact (hkept.code L rfl).numCodingShreds
      omega

theorem setData_kept {j : Nat} (hj : j < 32) :
    HeadersKept 0 1 0 (fun _ => false) (.shredData (setData j)) := by
  have hidx : (UInt32.ofNat j).toNat = j := toNat_u32 (by omega)
  have hflag : ¬ShredFlags.empty.contains .lastShredInSlot = true := by decide
  refine ⟨rfl, Nat.le_refl 1, ⟨⟨0, rfl⟩, Nat.zero_le _, ?_⟩, fun d hd => ?_, fun c hc => by cases hc⟩
  · change (UInt32.ofNat j).toNat < 0 + 32
    rwa [hidx, Nat.zero_add]
  · cases hd
    exact ⟨.inl ⟨Nat.le_refl 0, Nat.zero_lt_one⟩, fun h => Bool.false_ne_true h.2.2,
      fun h => hflag h.1⟩

theorem encodedCode_kept {parity : List Bytes → List Bytes} {D : List ShredData} {j : Nat}
    (hD : D.length = 32) (hj : j < 32) :
    HeadersKept 0 1 0 (fun _ => false) (encodedCode parity (setData 0) D 0 32 j) := by
  apply HeadersKept.withPart
  have hidx : (UInt32.ofNat (0 + j)).toNat = 0 + j := toNat_u32 (by omega)
  refine ⟨rfl, Nat.le_refl 1, ⟨⟨0, rfl⟩, Nat.zero_le _, ?_⟩, fun d hd => (by cases hd),
    fun c hc => ?_⟩
  · change (UInt32.ofNat (0 + j)).toNat < 0 + 32
    omega
  · cases hc
    refine ⟨Nat.zero_lt_one, ?_, rfl⟩
    change (UInt16.ofNat D.length).toNat = 32
    rw [hD]
    rfl

theorem fixedBatch_kept {s : Shred} (hs : s ∈ fixedBatch) : KeptBy 0 1 0 (fun _ => false) s := by
  refine keptBy_iff.mpr ⟨fixedBatch_complete.wellFormed hs, ?_⟩
  obtain ⟨i, hi⟩ := List.mem_iff_getElem?.mp hs
  obtain ⟨b, hb, rfl⟩ := getElem?_sealBatch hi
  apply HeadersKept.withPart
  rcases List.mem_append.mp (List.mem_of_getElem? hb) with hb | hb
  · obtain ⟨d, hd, rfl⟩ := List.mem_map.mp hb
    obtain ⟨j, hj, rfl⟩ := List.mem_map.mp hd
    exact setData_kept (List.mem_range.mp hj)
  · obtain ⟨j, hj, rfl⟩ := List.mem_map.mp hb
    exact encodedCode_kept (by simp) (List.mem_range.mp hj)

/-- The first data shred and most coding shreds come back. -/
theorem recovered_passes_iff_fixed : ∃ items,
    recover sha256Hasher interpolationCache stableSort fixedPart = .ok items ∧
    (∀ d, .ok (.shredData d) ∈ items →
      (Passes 0 1 0 (fun _ => false) (.shredData d) ↔
        (0 : UInt64).toNat ≤ d.commonHeader.slot.toNat - d.dataHeader.parentOffset.toNat ∧
        ¬(d.dataHeader.flags.contains .dataCompleteShred = true ∧
          d.commonHeader.index.toNat ≠ d.commonHeader.fecSetIndex.toNat + 31 ∧ false = true) ∧
        ¬(d.dataHeader.flags.contains .lastShredInSlot = true ∧
          (d.commonHeader.index.toNat + 1) % 32 ≠ 0))) ∧
    (∀ c, .ok (.shredCode c) ∈ items →
      (Passes 0 1 0 (fun _ => false) (.shredCode c) ↔
        c.commonHeader.fecSetIndex.toNat ≤ c.commonHeader.index.toNat ∧
          c.commonHeader.index.toNat < c.commonHeader.fecSetIndex.toNat + 32) ∧
      (CodingAligned fixedPart → Passes 0 1 0 (fun _ => false) (.shredCode c))) :=
  ⟨_, recover_fixedPart, recovered_passes_iff sha256Hasher interpolationCache stableSort 0 1 0
    (fun _ => false) fixedPart (fun _ hs => fixedBatch_kept (fixedPart_sublist.subset hs)) _
    recover_fixedPart⟩

end LightweightShred
