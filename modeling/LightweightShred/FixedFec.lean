import LightweightShred.IngressExact

/-!
# The geometry of filtered shreds

Behind the filter every FEC set has thirty-two data and thirty-two coding shreds, and the
header index of a shred is a place in its set. For a data shred that is its erasure shard index.
For a coding shred the erasure shard index is its `position`, which neither the filter nor
`sanitize` compares with the header index.
-/
namespace LightweightShred
open ByteString Rust Codec

/-- Parsed from a packet that the filter keeps. -/
def Ingested (s : Shred) : Prop :=
  ∃ b root maxSlot shredVersion discardUnexpected stats after,
    shouldDiscardShred b root maxSlot shredVersion discardUnexpected stats = .ok (false, after) ∧
      Shred.newFromSerializedShred b = .ok s

/-- Of one FEC set of one slot. -/
def SameSet (s t : Shred) : Prop :=
  s.commonHeader.slot = t.commonHeader.slot ∧ s.commonHeader.fecSetIndex = t.commonHeader.fecSetIndex

/-- The place in its set that the header index gives. -/
def Shred.offset (s : Shred) : Nat :=
  s.commonHeader.index.toNat - s.commonHeader.fecSetIndex.toNat

/-- Header index and erasure shard index are two names of one place. -/
structure FixedGeometry (l : List Shred) : Prop where
  data : ∀ d, .shredData d ∈ l →
    (Shred.shredData d).erasureShardIndex = .ok (Shred.shredData d).offset
  code : ∀ c, .shredCode c ∈ l →
    (Shred.shredCode c).erasureShardIndex = .ok (32 + (Shred.shredCode c).offset)
  id : ∀ s ∈ l, ∀ t ∈ l, SameSet s t → (s.erasureShardIndex = t.erasureShardIndex ↔ s.id = t.id)
  order : ∀ s ∈ l, ∀ t ∈ l, SameSet s t → ∀ i j, s.erasureShardIndex = .ok i →
    t.erasureShardIndex = .ok j → cmpShredErasureShardIndex s t = compare i j

section Ingested
variable {s t : Shred}

/-- What the two validators together say of the headers. -/
structure FixedHeaders (s : Shred) : Prop where
  fixedSet : InFixedSet s.commonHeader.index.toNat s.commonHeader.fecSetIndex.toNat
  config : ∀ c, s = .shredCode c →
    c.codingHeader.numDataShreds.toNat = 32 ∧ c.codingHeader.numCodingShreds.toNat = 32

theorem Ingested.wellFormed (h : Ingested s) : s.WellFormed := by
  obtain ⟨b, -, -, -, -, -, -, -, hs⟩ := h
  exact (Shred.newFromSerializedShred_eq_ok.mp hs).1

theorem Ingested.fixedHeaders (h : Ingested s) : FixedHeaders s := by
  obtain ⟨b, root, maxSlot, shredVersion, discardUnexpected, stats, after, hkept, hs⟩ := h
  rw [shouldDiscardShred_eq, Except.ok.injEq] at hkept
  obtain ⟨t, v, ht, htv, hkeep⟩ := outcome_kept.mp (congrArg Prod.fst hkept)
  have hat := commonHeader_at hs
  have hv : v = s.variant :=
    Except.ok.inj ((getShredVariant_iff.mpr ⟨t, ht, htv⟩).symm.trans (variant_at hs))
  rw [hv, (Shred.newFromSerializedShred_eq_ok.mp hs).1.kind] at hkeep
  constructor
  · rw [← hat.index, ← hat.fecSetIndex]
    rcases hkeep with ⟨-, hk⟩ | ⟨-, hk⟩ <;> exact hk.fixedSet
  · rintro c rfl
    obtain ⟨-, -, -, -, ⟨-, hc⟩, -⟩ := Shred.newFromSerializedShred_eq_ok_iff.mp hs
    rcases hkeep with ⟨-, hk⟩ | ⟨hk, -⟩
    · rw [← hc.numDataShreds, ← hc.numCodingShreds]
      exact ⟨hk.numDataShreds, hk.numCodingShreds⟩
    · cases hk

theorem Ingested.erasureShardIndex (h : Ingested s) : s.erasureShardIndex = .ok s.position :=
  h.wellFormed.sane.erasureShardIndex

theorem Ingested.position_code {c : ShredCode} (h : Ingested (.shredCode c)) :
    (Shred.shredCode c).position = 32 + c.codingHeader.position.toNat := by
  rw [Shred.position, (h.fixedHeaders.config c rfl).1]

theorem Ingested.offset_add (h : Ingested s) :
    s.offset + s.commonHeader.fecSetIndex.toNat = s.commonHeader.index.toNat :=
  Nat.sub_add_cancel h.fixedHeaders.fixedSet.2.1

theorem Ingested.offset_lt (h : Ingested s) : s.offset < 32 := by
  have hlt := h.fixedHeaders.fixedSet.2.2
  have hadd := h.offset_add
  omega

theorem Shred.id_eq_iff (hs : s.WellFormed) (ht : t.WellFormed) (hset : SameSet s t) :
    s.id = t.id ↔ s.kind = t.kind ∧ s.commonHeader.index = t.commonHeader.index := by
  rw [← hs.kind, ← ht.kind]
  simp only [Shred.id, ShredId.mk.injEq, hset.1, true_and, Shred.variant, and_comm]

theorem compare_index (hs : Ingested s) (ht : Ingested t) (hset : SameSet s t) (k : Nat) :
    compare s.commonHeader.index.toNat t.commonHeader.index.toNat =
      compare (k + s.offset) (k + t.offset) := by
  have hsa := hs.offset_add
  have hta := ht.offset_add
  rw [← hset.2] at hta
  simp only [Nat.compare_eq_ite_lt]
  split_ifs <;> first | rfl | omega

end Ingested

/-- The position of a coding shred is its place in the set. -/
def CodingAligned (l : List Shred) : Prop :=
  ∀ c, .shredCode c ∈ l → c.codingHeader.position.toNat + c.commonHeader.fecSetIndex.toNat =
    c.commonHeader.index.toNat

section Geometry
variable {l : List Shred} {s t : Shred}

/-- The first place of a type. -/
def firstPlace : ShredType → Nat
  | .data => 0
  | .code => 32

theorem position_eq_of_aligned (hl : ∀ s ∈ l, Ingested s) (h : CodingAligned l) (hs : s ∈ l) :
    s.position = firstPlace s.kind + s.offset := by
  cases s with
  | shredData d => exact (Nat.zero_add _).symm
  | shredCode c =>
      have hpos := h c hs
      have hadd := (hl _ hs).offset_add
      rw [(hl _ hs).position_code]
      simp only [firstPlace, Shred.kind, Shred.commonHeader] at hadd ⊢
      omega

theorem position_eq_iff_id (hl : ∀ s ∈ l, Ingested s) (h : CodingAligned l) (hs : s ∈ l)
    (ht : t ∈ l) (hset : SameSet s t) : s.position = t.position ↔ s.id = t.id := by
  have hsl := (hl s hs).offset_lt
  have htl := (hl t ht).offset_lt
  have hsa := (hl s hs).offset_add
  have hta := (hl t ht).offset_add
  rw [← hset.2] at hta
  rw [position_eq_of_aligned hl h hs, position_eq_of_aligned hl h ht,
    Shred.id_eq_iff (hl s hs).wellFormed (hl t ht).wellFormed hset, ← UInt32.toNat_inj]
  cases s.kind <;> cases t.kind <;> simp only [firstPlace, true_and, reduceCtorEq, false_and,
    iff_false] <;> omega

theorem cmp_eq_compare_position (hl : ∀ s ∈ l, Ingested s) (h : CodingAligned l) (hs : s ∈ l)
    (ht : t ∈ l) (hset : SameSet s t) :
    cmpShredErasureShardIndex s t = compare s.position t.position := by
  have hsl := (hl s hs).offset_lt
  have htl := (hl t ht).offset_lt
  have hps := position_eq_of_aligned hl h hs
  have hpt := position_eq_of_aligned hl h ht
  cases s with
  | shredCode a =>
      cases t with
      | shredCode b =>
          rw [hps, hpt]
          exact compare_index (hl _ hs) (hl _ ht) hset 32
      | shredData b => exact (Nat.compare_eq_gt.mpr (by
          rw [hps, hpt]
          simp only [firstPlace, Shred.kind]
          omega)).symm
  | shredData a =>
      cases t with
      | shredCode b => exact (Nat.compare_eq_lt.mpr (by
          rw [hps, hpt]
          simp only [firstPlace, Shred.kind]
          omega)).symm
      | shredData b =>
          rw [hps, hpt]
          exact compare_index (hl _ hs) (hl _ ht) hset 0

end Geometry

/-- Filtered shreds have the fixed geometry exactly if the position of every coding shred is
its place in the set. -/
theorem fixed_geometry_iff (l : List Shred) (hl : ∀ s ∈ l, Ingested s) :
    FixedGeometry l ↔ CodingAligned l := by
  constructor
  · intro h c hc
    have hindex := (hl _ hc).erasureShardIndex.symm.trans (h.code c hc)
    have hpos := (hl _ hc).position_code.symm.trans (Except.ok.inj hindex)
    have hadd := (hl _ hc).offset_add
    simp only [Shred.commonHeader] at hadd
    omega
  · intro h
    have hindex : ∀ s ∈ l, s.erasureShardIndex = .ok (firstPlace s.kind + s.offset) := by
      intro s hs
      rw [(hl s hs).erasureShardIndex, position_eq_of_aligned hl h hs]
    refine ⟨fun d hd => ?_, fun c hc => hindex _ hc, fun s hs t ht hset => ?_,
      fun s hs t ht hset i j hi hj => ?_⟩
    · rw [hindex _ hd]
      exact congrArg Except.ok (Nat.zero_add _)
    · rw [(hl s hs).erasureShardIndex, (hl t ht).erasureShardIndex, Except.ok.injEq]
      exact position_eq_iff_id hl h hs ht hset
    · rw [(hl s hs).erasureShardIndex, Except.ok.injEq] at hi
      rw [(hl t ht).erasureShardIndex, Except.ok.injEq] at hj
      rw [← hi, ← hj]
      exact cmp_eq_compare_position hl h hs ht hset

/-- A coding shred of the first set of slot 1. -/
def fixedCode (index : UInt32) (position : UInt16) : ShredCode :=
  codeShred
    { signature := (plainData 0 88).commonHeader.signature
      shredVariant := .merkleCode 0 false, slot := 1, index, version := 0, fecSetIndex := 0 }
    ⟨32, 32, position⟩ (List.replicate 1139 0)

theorem fixedCode_wellFormed {index : UInt32} {position : UInt16} (hi : index.toNat < 32)
    (hp : position.toNat ≤ index.toNat) : (Shred.shredCode (fixedCode index position)).WellFormed := by
  have h32 : (32 : UInt16).toNat = 32 := rfl
  have hvalid : (0 : UInt8).toNat < 16 := by decide
  have hdata : 1 ≤ (32 : UInt16).toNat ∧
    (0 : UInt32).toNat + (32 : UInt16).toNat ≤ maxDataShredsPerSlot := by decide
  refine codeShred_wellFormed rfl hvalid (List.length_replicate ..) ⟨hdata, ?_, hp, ?_⟩
  · simp only [h32, dataShredsPerFecBlock]
    omega
  · simp only [h32, maxCodeShredsPerSlot, maxDataShredsPerSlot]
    omega

theorem fixedCode_ingested {index : UInt32} {position : UInt16} (hi : index.toNat < 32)
    (hp : position.toNat ≤ index.toNat) : Ingested (.shredCode (fixedCode index position)) := by
  have hs := (fixedCode_wellFormed hi hp).reparse
  obtain ⟨hlen, -, -, -, ⟨hcom, hcod⟩, -⟩ := Shred.newFromSerializedShred_eq_ok_iff.mp hs
  have hkeep : Keeps (Shred.shredCode (fixedCode index position)).payload.bytes 0 1 0
      fun _ => false := by
    obtain ⟨t, ht, htv⟩ := getShredVariant_iff.mp (variant_at hs)
    refine ⟨t, _, ht, htv, .inl ⟨rfl, ⟨hcom.version, ?_, ?_, ?_⟩, hlen, ?_, hcod.numDataShreds,
      hcod.numCodingShreds⟩⟩
    · rw [hcom.slot]
      exact Nat.le_refl _
    · rw [hcom.index]
      exact Nat.lt_trans hi (by decide)
    · rw [hcom.index, hcom.fecSetIndex]
      exact ⟨Nat.dvd_zero 32, Nat.zero_le _, hi⟩
    · rw [hcom.slot]
      exact Nat.zero_lt_one
  obtain ⟨after, hafter⟩ := exists_kept hkeep .default
  exact ⟨_, 0, 1, 0, _, .default, after, hafter, hs⟩

/-- Two coding shreds of one set, with one erasure shard index and two identities; neither
index is the place of its shred. -/
theorem fixed_geometry_fails : ∃ a b : ShredCode, Ingested (.shredCode a) ∧ Ingested (.shredCode b) ∧
    SameSet (.shredCode a) (.shredCode b) ∧
    (Shred.shredCode a).erasureShardIndex = (Shred.shredCode b).erasureShardIndex ∧
    (Shred.shredCode a).id ≠ (Shred.shredCode b).id ∧
    (Shred.shredCode a).erasureShardIndex ≠ .ok (32 + (Shred.shredCode a).offset) ∧
    ¬FixedGeometry [.shredCode a, .shredCode b] := by
  have ha := @fixedCode_ingested 5 0 (by decide) (by decide)
  have hb := @fixedCode_ingested 6 0 (by decide) (by decide)
  have hid : (Shred.shredCode (fixedCode 5 0)).id ≠ (Shred.shredCode (fixedCode 6 0)).id := by decide
  have hindex : (Shred.shredCode (fixedCode 5 0)).erasureShardIndex =
      (Shred.shredCode (fixedCode 6 0)).erasureShardIndex := by
    rw [ha.erasureShardIndex, hb.erasureShardIndex]
    rfl
  refine ⟨_, _, ha, hb, ⟨rfl, rfl⟩, hindex, hid, ?_, fun h => hid ?_⟩
  · rw [ha.erasureShardIndex]
    decide
  · exact (h.id _ List.mem_cons_self _ (List.mem_cons_of_mem _ List.mem_cons_self)
      ⟨rfl, rfl⟩).mp hindex

/-- Two coding shreds of one set at their places, and one that claims the first place. -/
theorem fixed_geometry_iff_two :
    FixedGeometry [.shredCode (fixedCode 5 5), .shredCode (fixedCode 6 6)] ∧
    ¬FixedGeometry [.shredCode (fixedCode 5 5), .shredCode (fixedCode 6 0)] := by
  have h5 := @fixedCode_ingested 5 5 (by decide) (by decide)
  have h6 := @fixedCode_ingested 6 6 (by decide) (by decide)
  have h0 := @fixedCode_ingested 6 0 (by decide) (by decide)
  constructor
  · refine (fixed_geometry_iff _ (by simpa using ⟨h5, h6⟩)).mpr fun c hc => ?_
    rcases List.mem_pair.mp hc with h | h <;> cases h <;> decide
  · refine mt (fixed_geometry_iff _ (by simpa using ⟨h5, h0⟩)).mp fun h => ?_
    exact absurd (h _ (List.mem_cons_of_mem _ List.mem_cons_self)) (by decide)

end LightweightShred
