import LightweightShred.Ingress

/-!
# The decisions of the ingress filter, in exact integers

The filter's early exits, read off the numbers at the header offsets, form one decision list.
The filter follows it, so it never panics and reads nothing behind the headers.
-/
namespace LightweightShred
open ByteString Rust Codec

/-- What a call does: its answer, the counter for it, and whether it also counts a data-complete
shred at an unexpected index. -/
structure Outcome where
  discarded : Bool
  counter : FetchCounter
  unexpected : Bool
  deriving DecidableEq, Repr

def Outcome.drop (c : FetchCounter) : Outcome := ⟨true, c, false⟩

/-- The effect on the statistics: rejection counters wrap, the others saturate. -/
def Outcome.apply (o : Outcome) (stats : ShredFetchStats) : Bool × ShredFetchStats :=
  let stats := if o.unexpected then stats.bump .unexpectedDataCompleteShred else stats
  (o.discarded, if o.discarded then stats.bump o.counter else stats.bumpSaturating o.counter)

/-- A place in an aligned set of thirty-two. -/
def InFixedSet (index fecSetIndex : Nat) : Prop :=
  32 ∣ fecSetIndex ∧ fecSetIndex ≤ index ∧ index < fecSetIndex + 32

/-- The slot comes after a parent that is not before the root, or all three are genesis. -/
def ExtendsRoot (slot parent root : Nat) : Prop :=
  (root ≤ parent ∧ parent < slot) ∨ (slot = 0 ∧ parent = 0 ∧ root = 0)

instance (index fecSetIndex : Nat) : Decidable (InFixedSet index fecSetIndex) :=
  inferInstanceAs (Decidable (_ ∧ _))

instance (slot parent root : Nat) : Decidable (ExtendsRoot slot parent root) :=
  inferInstanceAs (Decidable (_ ∨ _))

/-- Both bits that mark the last shred of a slot, respectively the one for complete data. -/
def hasFlags (b : Bytes) (mask : UInt8) : Bool := b[85]?.any fun f => f &&& mask == mask

/-- Complete data that does not end its FEC set. -/
def completesEarly (b : Bytes) : Bool :=
  hasFlags b 0x40 && decide (numberAt b 73 77 ≠ numberAt b 79 83 + 31)

section Decisions
variable (b : Bytes) (root : UInt64) (discardUnexpected : UInt64 → Bool)

def restOutcome (ty : ShredType) (unexpected : Bool) : Outcome :=
  if InFixedSet (numberAt b 73 77) (numberAt b 79 83) then ⟨false, keptCounter ty, unexpected⟩
  else ⟨true, .misalignedFecSet, unexpected⟩

def codeOutcome : Outcome :=
  if 32768 ≤ numberAt b 73 77 then .drop .indexOutOfBounds
  else if numberAt b 65 73 ≤ root.toNat then .drop .slotOutOfRange
  else if ¬(numberAt b 83 85 = 32 ∧ numberAt b 85 87 = 32) then .drop .misalignedErasureConfig
  else restOutcome b .code false

def dataOutcome : Outcome :=
  if 32768 ≤ numberAt b 73 77 then .drop .indexOutOfBounds
  else if numberAt b 65 73 < numberAt b 83 85 then .drop .badParentOffset
  else if ¬ExtendsRoot (numberAt b 65 73) (numberAt b 65 73 - numberAt b 83 85) root.toNat then
    .drop .slotOutOfRange
  else if completesEarly b ∧ discardUnexpected (UInt64.ofNat (numberAt b 65 73)) then
    .drop .unexpectedDataCompleteShred
  else if hasFlags b 0xC0 ∧ (numberAt b 73 77 + 1) % 32 ≠ 0 then
    ⟨true, .misalignedLastDataIndex, completesEarly b⟩
  else restOutcome b .data (completesEarly b)

/-- The decision on a buffer that is long enough for a shred of the type. -/
def headerOutcome (maxSlot : UInt64) (shredVersion : UInt16) (ty : ShredType) : Outcome :=
  if numberAt b 77 79 ≠ shredVersion.toNat then .drop .shredVersionMismatch
  else if maxSlot.toNat < numberAt b 65 73 then .drop .slotOutOfRange
  else if ty = .code then codeOutcome b root else dataOutcome b root discardUnexpected

def outcome (maxSlot : UInt64) (shredVersion : UInt16) : Outcome :=
  ((getShredVariant b).toOption).elim (.drop .indexOverrun) fun v =>
    if b.length < sizeOfPayload v.shredType then .drop .indexOverrun
    else headerOutcome b root discardUnexpected maxSlot shredVersion v.shredType

end Decisions

section Arms
variable {b : Bytes} {root slot : UInt64} {index fecSetIndex : UInt32} {stats : ShredFetchStats}

theorem checkFixedFecSet_iff (hindex : index.toNat < 32768) :
    checkFixedFecSet index fecSetIndex = true ↔ InFixedSet index.toNat fecSetIndex.toNat := by
  have h32 : (UInt32.ofNat dataShredsPerFecBlock).toNat = 32 := rfl
  have hf := fecSetIndex.toNat_lt
  unfold checkFixedFecSet InFixedSet
  rw [Option.any_eq_true]
  constructor
  · rintro ⟨last, hlast, h⟩
    rw [checkedAdd_eq_some, h32] at hlast
    simp only [Bool.and_eq_true, decide_eq_true_eq, beq_iff_eq, UInt32.le_iff_toNat_le,
      UInt32.lt_iff_toNat_lt, ge_iff_le, ← UInt32.toNat_inj, UInt32.toNat_mod, h32] at h
    exact ⟨Nat.dvd_of_mod_eq_zero h.2, h.1.1, by omega⟩
  · rintro ⟨hdvd, hle, hlt⟩
    obtain ⟨last, hlast⟩ := exists_u32 (show fecSetIndex.toNat + 32 < 2 ^ 32 by omega)
    refine ⟨last, checkedAdd_eq_some.mpr (by rw [h32, hlast]), ?_⟩
    simp only [Bool.and_eq_true, decide_eq_true_eq, beq_iff_eq, UInt32.le_iff_toNat_le,
      UInt32.lt_iff_toNat_lt, ge_iff_le, ← UInt32.toNat_inj, UInt32.toNat_mod, h32]
    exact ⟨⟨hle, by omega⟩, Nat.mod_eq_zero_of_dvd hdvd⟩

theorem verifyShredSlots_iff {parent : UInt64} : verifyShredSlots slot parent root = true ↔
    ExtendsRoot slot.toNat parent.toNat root.toNat := by
  have hzero : ∀ x : UInt64, x = 0 ↔ x.toNat = 0 := fun x => UInt64.toNat_inj.symm
  unfold verifyShredSlots ExtendsRoot
  by_cases h0 : slot = 0 ∧ parent = 0 ∧ root = 0
  · rw [if_pos h0]
    simp only [hzero] at h0
    exact iff_of_true rfl (.inr h0)
  · rw [if_neg h0]
    simp only [hzero] at h0
    simp only [decide_eq_true_eq, UInt64.le_iff_toNat_le, UInt64.lt_iff_toNat_lt, h0, or_false]

/-- The increment cannot overflow once the index is checked. -/
theorem checkLastDataShredIndex_eq (hindex : index.toNat < 32768) :
    checkLastDataShredIndex index = .ok (decide ((index.toNat + 1) % 32 = 0)) := by
  have h32 : (UInt32.ofNat dataShredsPerFecBlock).toNat = 32 := rfl
  obtain ⟨next, hnext⟩ := exists_u32 (show index.toNat + 1 < 2 ^ 32 by omega)
  have hadd : (addU32 index 1 : Result UInt32) = .ok next := addU32_eq_ok.mpr hnext.symm
  rw [checkLastDataShredIndex, hadd]
  refine congrArg Except.ok (Bool.eq_iff_iff.mpr ?_)
  rw [beq_iff_eq, ← UInt32.toNat_inj, UInt32.toNat_mod, h32, hnext, decide_eq_true_eq]
  rfl

theorem rest_eq (ty : ShredType) (unexpected : Bool) (hi : numberAt b 73 77 = index.toNat)
    (hf : numberAt b 79 83 = fecSetIndex.toNat) (hindex : index.toNat < 32768) :
    ShouldDiscard.rest ty index fecSetIndex
        (if unexpected then stats.bump .unexpectedDataCompleteShred else stats) =
      .ok ((restOutcome b ty unexpected).apply stats) := by
  have hfixed := @checkFixedFecSet_iff index fecSetIndex hindex
  rw [ShouldDiscard.rest, restOutcome, hi, hf]
  by_cases hin : InFixedSet index.toNat fecSetIndex.toNat
  · rw [hfixed.mpr hin, if_pos hin]
    rfl
  · rw [Bool.eq_false_iff.mpr (mt hfixed.mp hin), if_neg hin]
    rfl

theorem code_eq {v : ShredVariant} (hv : getShredVariant b = .ok v) (hk : v.shredType = .code)
    (hb : 87 ≤ b.length) (hs : numberAt b 65 73 = slot.toNat)
    (hi : numberAt b 73 77 = index.toNat) (hf : numberAt b 79 83 = fecSetIndex.toNat) :
    ShouldDiscard.code b root slot index fecSetIndex stats =
      .ok ((codeOutcome b root).apply stats) := by
  have hmax : UInt32.ofNat maxCodeShredsPerSlot ≤ index ↔ 32768 ≤ index.toNat :=
    UInt32.le_iff_toNat_le
  rw [ShouldDiscard.code, codeOutcome, hi, hs, getErasureConfig_eq hv hk hb, toOption, letElse_some]
  by_cases hindex : 32768 ≤ index.toNat
  · rw [if_pos (hmax.mpr hindex), if_pos hindex]
    rfl
  rw [if_neg (mt hmax.mp hindex), if_neg hindex]
  by_cases hroot : slot.toNat ≤ root.toNat
  · rw [if_pos (UInt64.le_iff_toNat_le.mpr hroot), if_pos hroot]
    rfl
  rw [if_neg (mt UInt64.le_iff_toNat_le.mp hroot), if_neg hroot]
  by_cases hfixed : numberAt b 83 85 = 32 ∧ numberAt b 85 87 = 32
  · rw [if_neg (by simp [ErasureConfig.isFixed, hfixed, dataShredsPerFecBlock]),
      if_neg (not_not.mpr hfixed)]
    exact rest_eq .code false hi hf (Nat.lt_of_not_le hindex)
  · rw [if_pos (by simpa [ErasureConfig.isFixed, dataShredsPerFecBlock, imp_iff_not_or] using hfixed),
      if_pos hfixed]
    rfl

theorem expectedDataCompleteIndex_iff (hindex : index.toNat < 32768) :
    ((checkedAdd fecSetIndex (UInt32.ofNat dataShredsPerFecBlock)).bind fun index =>
        checkedSub index 1) ≠ some index ↔ index.toNat ≠ fecSetIndex.toNat + 31 := by
  have h32 : (UInt32.ofNat dataShredsPerFecBlock).toNat = 32 := rfl
  have h1 : (1 : UInt32).toNat = 1 := rfl
  rw [not_iff_not, Option.bind_eq_some_iff]
  simp only [checkedAdd_eq_some, checkedSub_eq_some, h32, h1]
  constructor
  · rintro ⟨last, hlast, hsub⟩
    omega
  · intro h
    obtain ⟨last, hlast⟩ := exists_u32 (show fecSetIndex.toNat + 32 < 2 ^ 32 by omega)
    exact ⟨last, hlast.symm, by omega⟩

theorem hasFlags_eq {flags : UInt8} (h : b[85]? = some flags) (f : ShredFlags) :
    hasFlags b f.bits = (⟨flags⟩ : ShredFlags).contains f := by
  rw [hasFlags, h]
  rfl

theorem completesEarly_eq {flags : UInt8} (h : b[85]? = some flags)
    (hi : numberAt b 73 77 = index.toNat) (hf : numberAt b 79 83 = fecSetIndex.toNat)
    (hindex : index.toNat < 32768) :
    ((⟨flags⟩ : ShredFlags).contains .dataCompleteShred &&
      decide (((checkedAdd fecSetIndex (UInt32.ofNat dataShredsPerFecBlock)).bind fun index =>
        checkedSub index 1) ≠ some index)) = completesEarly b := by
  rw [completesEarly, hi, hf, ← hasFlags_eq h]
  exact congrArg (_ && ·) (decide_eq_decide.mpr (expectedDataCompleteIndex_iff hindex))

theorem data_eq {v : ShredVariant} (hv : getShredVariant b = .ok v) (hk : v.shredType = .data)
    (hb : 88 ≤ b.length) (hs : numberAt b 65 73 = slot.toNat)
    (hi : numberAt b 73 77 = index.toNat) (hf : numberAt b 79 83 = fecSetIndex.toNat)
    (discardUnexpected : UInt64 → Bool) :
    ShouldDiscard.data b root slot index fecSetIndex discardUnexpected stats =
      .ok ((dataOutcome b root discardUnexpected).apply stats) := by
  have hmax : UInt32.ofNat maxDataShredsPerSlot ≤ index ↔ 32768 ≤ index.toNat :=
    UInt32.le_iff_toNat_le
  obtain ⟨parentOffset, hpo⟩ := exists_u16_at (b := b) 83 (by omega)
  obtain ⟨flags, hflags⟩ : ∃ f, b[85]? = some f := ⟨_, List.getElem?_eq_getElem (by omega)⟩
  have hget : Wire.getFlags b = .ok ⟨flags⟩ := by
    rw [Wire.getFlags, Wire.getShredType, hv]
    simp only [bind, Except.bind, pure, Except.pure, hk, hflags, okOr, ShredFlags.fromBits_eq]
  rw [ShouldDiscard.data, dataOutcome, hi, hs, hpo, getParentOffset_eq (by omega) hpo, letElse_some,
    hget, toOption, letElse_some]
  by_cases hindex : 32768 ≤ index.toNat
  · rw [if_pos (hmax.mpr hindex), if_pos hindex]
    rfl
  rw [if_neg (mt hmax.mp hindex), if_neg hindex]
  by_cases hlt : slot.toNat < parentOffset.toNat
  · have hsub : checkedSub64 slot parentOffset.toUInt64 = none :=
      Option.eq_none_iff_forall_ne_some.mpr fun parent hp => by
        rw [checkedSub64_eq_some, UInt16.toNat_toUInt64] at hp
        omega
    rw [hsub, if_pos hlt]
    rfl
  obtain ⟨parent, hp⟩ := exists_u64
    (show slot.toNat - parentOffset.toNat < 2 ^ 64 by have := slot.toNat_lt; omega)
  have hsub : checkedSub64 slot parentOffset.toUInt64 = some parent :=
    checkedSub64_eq_some.mpr (by rw [UInt16.toNat_toUInt64]; omega)
  have hext := @verifyShredSlots_iff root slot parent
  rw [hsub, if_neg hlt]
  simp only [pure, Except.pure, letElse_some]
  rw [hp] at hext
  by_cases hroot : ExtendsRoot slot.toNat (slot.toNat - parentOffset.toNat) root.toNat
  swap
  · rw [Bool.eq_false_iff.mpr (mt hext.mp hroot), if_pos hroot]
    rfl
  rw [hext.mpr hroot, if_neg (not_not.mpr hroot)]
  have hearly := completesEarly_eq hflags hi hf (Nat.lt_of_not_le hindex)
  simp only [hearly, UInt64.ofNat_toNat]
  by_cases hcall : completesEarly b = true ∧ discardUnexpected slot = true
  · rw [if_neg (by decide), if_pos (by rw [hcall.1, hcall.2]; rfl), if_pos hcall, hcall.1]
    rfl
  rw [if_neg (by decide), if_neg (by rwa [Bool.and_eq_true]), if_neg hcall]
  have hlast := hasFlags_eq hflags .lastShredInSlot
  have hrest := @rest_eq b index fecSetIndex stats .data (completesEarly b) hi hf
    (Nat.lt_of_not_le hindex)
  rw [show ShredFlags.lastShredInSlot.bits = 0xC0 from rfl] at hlast
  rw [← hlast]
  cases hasFlags b 0xC0 with
  | false => exact hrest
  | true =>
      simp only [if_true, true_and, checkLastDataShredIndex_eq (Nat.lt_of_not_le hindex), bind,
        Except.bind]
      by_cases halign : (index.toNat + 1) % 32 = 0
      · rw [if_neg (by simp [halign]), if_neg (not_not.mpr halign)]
        exact hrest
      · rw [if_pos (by simp [halign]), if_pos halign]
        rfl

end Arms

section Whole
variable {b d : Bytes} {root maxSlot : UInt64} {shredVersion : UInt16}
  {discardUnexpected : UInt64 → Bool} {stats : ShredFetchStats}

theorem headerOutcome_congr (h : AgreeOn b d 65 88) (ty : ShredType) :
    headerOutcome b root discardUnexpected maxSlot shredVersion ty =
      headerOutcome d root discardUnexpected maxSlot shredVersion ty := by
  have number : ∀ lo hi, 65 ≤ lo → hi ≤ 88 → numberAt b lo hi = numberAt d lo hi :=
    fun lo hi h1 h2 => numberAt_congr h h1 h2
  have flag : ∀ mask, hasFlags b mask = hasFlags d mask := by
    intro mask
    rw [hasFlags, hasFlags, h 85 (by decide) (by decide)]
  rw [headerOutcome, codeOutcome, dataOutcome, restOutcome, restOutcome, completesEarly, flag,
    flag, number 65 73 (by decide) (by decide), number 73 77 (by decide) (by decide),
    number 77 79 (by decide) (by decide), number 79 83 (by decide) (by decide),
    number 83 85 (by decide) (by decide), number 85 87 (by decide) (by decide)]
  rfl

theorem getShredVariant_congr (h : b[64]? = d[64]?) {v : ShredVariant} :
    getShredVariant b = .ok v ↔ getShredVariant d = .ok v := by
  simp only [getShredVariant, bind_eq_ok, okOr_eq_ok, h]

theorem sized_eq {v : ShredVariant} (hv : getShredVariant b = .ok v) (hb : 88 ≤ b.length) :
    ShouldDiscard.sized b root maxSlot shredVersion discardUnexpected stats =
      .ok ((headerOutcome b root discardUnexpected maxSlot shredVersion v.shredType).apply stats) := by
  obtain ⟨version, hversion⟩ := exists_u16_at (b := b) 77 (by omega)
  obtain ⟨slot, hslot⟩ := exists_u64_at (b := b) 65 (by omega)
  obtain ⟨index, hindex⟩ := exists_u32_at (b := b) 73 (by omega)
  obtain ⟨fecSetIndex, hfec⟩ := exists_u32_at (b := b) 79 (by omega)
  rw [ShouldDiscard.sized, headerOutcome, getVersion_eq (by omega) hversion, letElse_some, hv,
    toOption, letElse_some, getSlot_eq (by omega) hslot, letElse_some, getIndex_eq (by omega) hindex,
    letElse_some, getFecSetIndex_eq (by omega) hfec, letElse_some, hversion, hslot]
  by_cases hversions : version = shredVersion
  swap
  · rw [if_pos hversions, if_pos (mt UInt16.toNat_inj.mp hversions)]
    rfl
  rw [if_neg (not_not.mpr hversions), if_neg (not_not.mpr (congrArg _ hversions))]
  by_cases hmax : maxSlot.toNat < slot.toNat
  · rw [if_pos (UInt64.lt_iff_toNat_lt.mpr hmax), if_pos hmax]
    rfl
  rw [if_neg (mt UInt64.lt_iff_toNat_lt.mp hmax), if_neg hmax]
  cases hk : v.shredType with
  | code => exact code_eq hv hk (by omega) hslot hindex hfec
  | data => exact data_eq hv hk hb hslot hindex hfec discardUnexpected

theorem shouldDiscardShred_eq : shouldDiscardShred b root maxSlot shredVersion discardUnexpected
    stats = .ok ((outcome b root discardUnexpected maxSlot shredVersion).apply stats) := by
  rw [shouldDiscardShred, Wire.getShredFromBuf, outcome]
  cases hv : getShredVariant b with
  | error e =>
      obtain ⟨e, he⟩ := (noPanic_getShredVariant b).eq_fail (by simp [hv])
      have hsize : Wire.getShredSize b = .ok none := by
        rw [Wire.getShredSize, he]
        rfl
      rw [hsize, andThen_none, letElse_none]
      rfl
  | ok v =>
      rw [getShredSize_eq hv, andThen_some]
      simp only [pure, Except.pure, Except.toOption, Option.elim_some]
      have hsz := sizes v.shredType
      by_cases hlen : b.length < sizeOfPayload v.shredType
      · rw [if_pos hlen, slice?, if_neg (by omega), letElse_none]
        rfl
      -- the accessors read the front of the buffer, which has the same headers
      have hagree : AgreeOn (slice b 0 (sizeOfPayload v.shredType)) b 0 88 := by
        intro i _ hi
        rw [getElem?_slice, if_pos (by omega), Nat.zero_add]
      have hfront := (getShredVariant_congr (hagree 64 (by decide) (by decide))).mpr hv
      rw [if_neg hlen, slice?_of_le (Nat.zero_le _) (Nat.le_of_not_lt hlen), letElse_some,
        sized_eq hfront (by rw [length_slice (Nat.le_of_not_lt hlen)]; omega),
        headerOutcome_congr fun i h1 h2 => hagree i (by omega) h2]

end Whole

section Keeps
variable (b : Bytes) (root maxSlot : UInt64) (shredVersion : UInt16)
  (discardUnexpected : UInt64 → Bool)

/-- The conditions on either type of shred. -/
structure KeepsHeaders : Prop where
  version : numberAt b 77 79 = shredVersion.toNat
  slot : numberAt b 65 73 ≤ maxSlot.toNat
  index : numberAt b 73 77 < 32768
  fixedSet : InFixedSet (numberAt b 73 77) (numberAt b 79 83)

structure KeepsCode : Prop extends KeepsHeaders b maxSlot shredVersion where
  length : 1228 ≤ b.length
  afterRoot : root.toNat < numberAt b 65 73
  numDataShreds : numberAt b 83 85 = 32
  numCodingShreds : numberAt b 85 87 = 32

structure KeepsData : Prop extends KeepsHeaders b maxSlot shredVersion where
  length : 1203 ≤ b.length
  parentOffset : numberAt b 83 85 ≤ numberAt b 65 73
  parent : ExtendsRoot (numberAt b 65 73) (numberAt b 65 73 - numberAt b 83 85) root.toNat
  dataComplete : ¬(hasFlags b 0x40 = true ∧ numberAt b 73 77 ≠ numberAt b 79 83 + 31 ∧
    discardUnexpected (UInt64.ofNat (numberAt b 65 73)) = true)
  lastIndex : ¬(hasFlags b 0xC0 = true ∧ (numberAt b 73 77 + 1) % 32 ≠ 0)

/-- What the filter keeps. -/
def Keeps : Prop :=
  ∃ t v, b[64]? = some t ∧ ShredVariant.tryFrom t = .ok v ∧
    ((v.shredType = .code ∧ KeepsCode b root maxSlot shredVersion) ∨
      (v.shredType = .data ∧ KeepsData b root maxSlot shredVersion discardUnexpected))

end Keeps

section Decision
variable {b : Bytes} {root maxSlot : UInt64} {shredVersion : UInt16}
  {discardUnexpected : UInt64 → Bool}

theorem kept_ite {p : Prop} [Decidable p] {c : FetchCounter} {u : Bool} {o : Outcome} :
    (if p then ⟨true, c, u⟩ else o : Outcome).discarded = false ↔ ¬p ∧ o.discarded = false := by
  by_cases hp : p <;> simp [hp]

theorem kept_drop_ite {p : Prop} [Decidable p] {c : FetchCounter} {o : Outcome} :
    (if p then .drop c else o : Outcome).discarded = false ↔ ¬p ∧ o.discarded = false :=
  kept_ite

theorem restOutcome_kept (ty : ShredType) (unexpected : Bool) :
    (restOutcome b ty unexpected).discarded = false ↔
      InFixedSet (numberAt b 73 77) (numberAt b 79 83) := by
  unfold restOutcome
  split <;> simp_all

theorem codeOutcome_kept : (codeOutcome b root).discarded = false ↔
    numberAt b 73 77 < 32768 ∧ root.toNat < numberAt b 65 73 ∧
      (numberAt b 83 85 = 32 ∧ numberAt b 85 87 = 32) ∧
      InFixedSet (numberAt b 73 77) (numberAt b 79 83) := by
  simp only [codeOutcome, kept_drop_ite, restOutcome_kept, Nat.not_le, not_not]

theorem dataOutcome_kept : (dataOutcome b root discardUnexpected).discarded = false ↔
    numberAt b 73 77 < 32768 ∧ numberAt b 83 85 ≤ numberAt b 65 73 ∧
      ExtendsRoot (numberAt b 65 73) (numberAt b 65 73 - numberAt b 83 85) root.toNat ∧
      ¬(hasFlags b 0x40 = true ∧ numberAt b 73 77 ≠ numberAt b 79 83 + 31 ∧
        discardUnexpected (UInt64.ofNat (numberAt b 65 73)) = true) ∧
      ¬(hasFlags b 0xC0 = true ∧ (numberAt b 73 77 + 1) % 32 ≠ 0) ∧
      InFixedSet (numberAt b 73 77) (numberAt b 79 83) := by
  simp only [dataOutcome, kept_drop_ite, kept_ite, restOutcome_kept, completesEarly, Nat.not_le,
    Nat.not_lt, not_not, Bool.and_eq_true, decide_eq_true_eq, and_assoc]

theorem headerOutcome_kept {ty : ShredType} (hlen : sizeOfPayload ty ≤ b.length) :
    (headerOutcome b root discardUnexpected maxSlot shredVersion ty).discarded = false ↔
      (ty = .code ∧ KeepsCode b root maxSlot shredVersion) ∨
        (ty = .data ∧ KeepsData b root maxSlot shredVersion discardUnexpected) := by
  simp only [headerOutcome, kept_drop_ite, Nat.not_lt, not_not]
  cases ty with
  | code =>
      rw [if_pos rfl, codeOutcome_kept]
      constructor
      · rintro ⟨hv, hs, hi, hr, ⟨hd, hc⟩, hf⟩
        exact .inl ⟨rfl, ⟨hv, hs, hi, hf⟩, hlen, hr, hd, hc⟩
      · rintro (⟨-, h⟩ | ⟨hk, -⟩)
        · exact ⟨h.version, h.slot, h.index, h.afterRoot, ⟨h.numDataShreds, h.numCodingShreds⟩,
            h.fixedSet⟩
        · cases hk
  | data =>
      rw [if_neg (by decide), dataOutcome_kept]
      constructor
      · rintro ⟨hv, hs, hi, hpo, hp, hc, hl, hf⟩
        exact .inr ⟨rfl, ⟨hv, hs, hi, hf⟩, hlen, hpo, hp, hc, hl⟩
      · rintro (⟨hk, -⟩ | ⟨-, h⟩)
        · cases hk
        · exact ⟨h.version, h.slot, h.index, h.parentOffset, h.parent, h.dataComplete, h.lastIndex,
            h.fixedSet⟩

theorem getShredVariant_iff {v : ShredVariant} : getShredVariant b = .ok v ↔
    ∃ t, b[64]? = some t ∧ ShredVariant.tryFrom t = .ok v := by
  simp only [getShredVariant, bind_eq_ok, okOr_eq_ok]

theorem outcome_kept : (outcome b root discardUnexpected maxSlot shredVersion).discarded = false ↔
    Keeps b root maxSlot shredVersion discardUnexpected := by
  unfold outcome Keeps
  constructor
  · intro h
    cases hv : getShredVariant b with
    | error e =>
        rw [hv] at h
        cases h
    | ok v =>
        rw [hv, Except.toOption, Option.elim_some, kept_drop_ite, Nat.not_lt] at h
        obtain ⟨t, ht, htv⟩ := getShredVariant_iff.mp hv
        exact ⟨t, v, ht, htv, (headerOutcome_kept h.1).mp h.2⟩
  · rintro ⟨t, v, ht, htv, h⟩
    rw [getShredVariant_iff.mpr ⟨t, ht, htv⟩, Except.toOption, Option.elim_some, kept_drop_ite,
      Nat.not_lt]
    have hlen : sizeOfPayload v.shredType ≤ b.length := by
      rcases h with ⟨hk, h⟩ | ⟨hk, h⟩ <;> rw [hk] <;> exact h.length
    exact ⟨hlen, (headerOutcome_kept hlen).mpr h⟩

theorem exists_kept (h : Keeps b root maxSlot shredVersion discardUnexpected)
    (stats : ShredFetchStats) : ∃ after,
      shouldDiscardShred b root maxSlot shredVersion discardUnexpected stats = .ok (false, after) :=
  ⟨_, shouldDiscardShred_eq.trans (congrArg (fun d => Except.ok (d, _)) (outcome_kept.mpr h))⟩

/-- The decision depends on the length of the buffer and on its headers. -/
theorem outcome_congr {d : Bytes} (hlen : b.length = d.length) (h : AgreeOn b d 64 88) :
    outcome b root discardUnexpected maxSlot shredVersion =
      outcome d root discardUnexpected maxSlot shredVersion := by
  have hv : getShredVariant b = getShredVariant d := by
    rw [getShredVariant, getShredVariant, h 64 (by decide) (by decide), hlen]
  have hheader : ∀ ty, headerOutcome b root discardUnexpected maxSlot shredVersion ty =
      headerOutcome d root discardUnexpected maxSlot shredVersion ty :=
    fun ty => headerOutcome_congr (fun i h1 h2 => h i (by omega) h2) ty
  simp only [outcome, hv, hlen, hheader]

end Decision

/-- The filter keeps exactly the packets that meet the conditions and never panics, whatever
the statistics. It looks at the headers and the length only, and what it keeps is of a slot
after the root, genesis apart. -/
theorem should_discard_shred_exact (b : Bytes) (root maxSlot : UInt64) (shredVersion : UInt16)
    (discardUnexpected : UInt64 → Bool) (stats : ShredFetchStats) :
    ∃ discarded after,
      shouldDiscardShred b root maxSlot shredVersion discardUnexpected stats =
        .ok (discarded, after) ∧
      (discarded = false ↔ Keeps b root maxSlot shredVersion discardUnexpected) ∧
      (discarded = false → (root.toNat + 1 ≤ numberAt b 65 73 ∧ numberAt b 65 73 ≤ maxSlot.toNat) ∨
        (numberAt b 65 73 = 0 ∧ root = 0)) ∧
      ∀ d : Bytes, b.length = d.length → AgreeOn b d 64 88 →
        shouldDiscardShred d root maxSlot shredVersion discardUnexpected stats =
          .ok (discarded, after) := by
  refine ⟨_, _, shouldDiscardShred_eq, outcome_kept, ?_, ?_⟩
  · intro hkept
    obtain ⟨t, v, -, -, ⟨-, h⟩ | ⟨-, h⟩⟩ := outcome_kept.mp hkept
    · exact .inl ⟨h.afterRoot, h.slot⟩
    · rcases h.parent with ⟨hle, hlt⟩ | ⟨hs, -, hr⟩
      · exact .inl ⟨by omega, h.slot⟩
      · exact .inr ⟨hs, UInt64.toNat_inj.mp hr⟩
  · intro d hlen hagree
    rw [shouldDiscardShred_eq, outcome_congr hlen hagree]
    rfl

end LightweightShred
