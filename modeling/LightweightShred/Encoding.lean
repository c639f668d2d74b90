import LightweightShred.EndToEnd
import LightweightShred.Lib.ErasureCode
import Mathlib.FieldTheory.Finite.GaloisField

/-!
# Batches of every geometry

The codes that the Reed-Solomon library promises exist: interpolation over a field with one
element for each byte meets its contract for all geometries. With such a code any data shreds
of one set have a batch, in particular thirty-two that pass the filter.
-/
namespace LightweightShred
open ByteString Rust Codec Slots HashTree

section Code

/-- Bytes as the elements of a field. -/
noncomputable def byteField : UInt8 ≃ GaloisField 2 8 :=
  (⟨UInt8.toFin, UInt8.ofFin, fun _ => rfl, fun _ => rfl⟩ : UInt8 ≃ Fin 256).trans
    (Finite.equivFinOfCardEq (GaloisField.card 2 8 (by decide))).symm

/-- The point of a position. -/
noncomputable def codePoint (i : Nat) : GaloisField 2 8 := byteField (UInt8.ofNat i)

theorem codePoint_injOn {n : Nat} (hn : n ≤ 256) : Set.InjOn codePoint (Set.Iio n) := by
  intro i hi j hj h
  have hbyte := congrArg UInt8.toNat (byteField.injective h)
  simp only [Set.mem_Iio] at hi hj
  rwa [UInt8.toNat_ofNat', UInt8.toNat_ofNat', Nat.mod_eq_of_lt (by omega),
    Nat.mod_eq_of_lt (by omega)] at hbyte

/-- The parity of the code with `p` parity shards for `d` data shards. -/
noncomputable def codeParity (d p : Nat) : List Bytes → List Bytes :=
  ErasureCode.parity byteField codePoint d p

noncomputable def interpolateShards (d p : Nat) (shards : List (Bytes × Bool)) :
    Except ErasureError (List Bytes) :=
  if shards.length < d + p then .error .tooFewShards
  else if d + p < shards.length then .error .tooManyShards
  else if shards.countP (·.2) < d then .error .tooFewShardsPresent
  else .ok (ErasureCode.reconstruct byteField codePoint d shards)

theorem interpolateShards_eq_ok {d p : Nat} {shards : List (Bytes × Bool)} {out : List Bytes} :
    interpolateShards d p shards = .ok out ↔ shards.length = d + p ∧ d ≤ shards.countP (·.2) ∧
      out = ErasureCode.reconstruct byteField codePoint d shards := by
  unfold interpolateShards
  split_ifs with h1 h2 h3
  · exact ⟨fun h => (by cases h), fun h => by omega⟩
  · exact ⟨fun h => (by cases h), fun h => by omega⟩
  · exact ⟨fun h => (by cases h), fun h => by omega⟩
  · rw [Except.ok.injEq]
    exact ⟨fun h => ⟨by omega, by omega, h.symm⟩, fun h => h.2.2.symm⟩

noncomputable def interpolationCodec (d p : Nat) : ReedSolomon where
  reconstruct := interpolateShards d p
  inPlace := by
    intro shards out h
    obtain ⟨-, -, rfl⟩ := interpolateShards_eq_ok.mp h
    refine List.forall₂_iff_get.mpr ⟨by simp [ErasureCode.reconstruct], fun i h1 h2 => ?_⟩
    simp only [List.get_eq_getElem, ErasureCode.reconstruct, List.getElem_mapIdx]
    refine ⟨?_, fun hm => if_pos hm⟩
    split
    · rfl
    · exact ErasureCode.length_block

noncomputable def interpolationCache : ReedSolomonCache where
  new d p :=
    if d = 0 then .error .tooFewDataShards
    else if p = 0 then .error .tooFewParityShards
    else if 256 < d + p then .error .tooManyShards
    else .ok (interpolationCodec d p)

theorem interpolationCache_new {d p : Nat} {codec : ReedSolomon} :
    interpolationCache.new d p = .ok codec ↔
      1 ≤ d ∧ 1 ≤ p ∧ d + p ≤ 256 ∧ codec = interpolationCodec d p := by
  simp only [interpolationCache]
  split_ifs with h1 h2 h3
  · exact ⟨fun h => (by cases h), fun h => by omega⟩
  · exact ⟨fun h => (by cases h), fun h => by omega⟩
  · exact ⟨fun h => (by cases h), fun h => by omega⟩
  · rw [Except.ok.injEq]
    exact ⟨fun h => ⟨by omega, by omega, by omega, h.symm⟩, fun h => h.2.2.2.symm⟩

theorem interpolationCache_documented : CodecDocumented interpolationCache where
  new_ok d p := by
    simp only [interpolationCache_new, exists_and_left, exists_eq, and_true]
  reconstruct_ok := by
    intro d p codec hnew size given _ hlen _
    obtain ⟨-, -, -, rfl⟩ := interpolationCache_new.mp hnew
    constructor
    · rintro ⟨out, h⟩
      exact (interpolateShards_eq_ok.mp h).2.1
    · exact fun hcount => ⟨_, interpolateShards_eq_ok.mpr ⟨hlen, hcount, rfl⟩⟩

/-- Any `d` of the shards give back the others. -/
theorem interpolationCache_correct {d p : Nat} (hd : 1 ≤ d) (hp : 1 ≤ p) (hn : d + p ≤ 256) :
    CodecCorrect interpolationCache d p (codeParity d p) := by
  refine ⟨interpolationCodec d p, interpolationCache_new.mpr ⟨hd, hp, hn, rfl⟩, ?_⟩
  intro size word given _ hlen hpar hsize hgiven
  have hglen : given.length = d + p := by rw [← hgiven.length_eq, hlen]
  constructor
  · intro hcount
    have hword := ErasureCode.reconstruct_eq (codePoint_injOn hn) hd hlen hsize hpar hgiven hcount
    exact interpolateShards_eq_ok.mpr ⟨hglen, hcount, hword.symm⟩
  · intro hcount
    cases hr : interpolateShards d p given with
    | error e => exact ⟨e, hr⟩
    | ok out =>
        have hge := (interpolateShards_eq_ok.mp hr).2.1
        omega

end Code

section Encoded
variable {parity : List Bytes → List Bytes} {d : ShredData} {D : List ShredData} {first p : Nat}

theorem SameBatch.trans {s t u : Shred} (h : SameBatch s t) (k : SameBatch t u) : SameBatch s u where
  signature := h.signature.trans k.signature
  slot := h.slot.trans k.slot
  version := h.version.trans k.version
  fecSetIndex := h.fecSetIndex.trans k.fecSetIndex
  proofSize := h.proofSize.trans k.proofSize
  resigned := h.resigned.trans k.resigned
  chainedRoot := h.chainedRoot.trans k.chainedRoot
  retransmitter := h.retransmitter.trans k.retransmitter

theorem SameBatch.symm {s t : Shred} (h : SameBatch s t) : SameBatch t s where
  signature := h.signature.symm
  slot := h.slot.symm
  version := h.version.symm
  fecSetIndex := h.fecSetIndex.symm
  proofSize := h.proofSize.symm
  resigned := h.resigned.symm
  chainedRoot := h.chainedRoot.symm
  retransmitter := h.retransmitter.symm

theorem sameBatch_withPart {b : Shred} (hb : b.Shaped) {R : Region} {new : Bytes}
    (hnew : R.lo b.kind b.variant + new.length = R.hi b.kind b.variant) (hroot : R ≠ .chainedRoot)
    (hretransmitter : R ≠ .retransmitter) : SameBatch (b.withPart R new) b where
  signature := by simp only [Shred.signature, Shred.commonHeader_withPart]
  slot := by simp only [Shred.commonHeader_withPart]
  version := by simp only [Shred.commonHeader_withPart]
  fecSetIndex := by simp only [Shred.fecSetIndex, Shred.commonHeader_withPart]
  proofSize := by simp only [Shred.variant_withPart]
  resigned := by simp only [Shred.variant_withPart]
  chainedRoot := hb.part_withPart_ne hnew hroot
  retransmitter := hb.part_withPart_ne hnew hretransmitter

def dataShards (D : List ShredData) : List Bytes := D.map fun s => (Shred.shredData s).part .shard

/-- The `j`-th coding shred for the data shreds `D`, with the other headers of `d`. -/
def encodedCode (parity : List Bytes → List Bytes) (d : ShredData) (D : List ShredData)
    (first p j : Nat) : Shred :=
  (Shred.shredCode (copyShred d (UInt32.ofNat (first + j))
    { numDataShreds := UInt16.ofNat D.length, numCodingShreds := UInt16.ofNat p
      position := UInt16.ofNat j })).withPart .shard ((parity (dataShards D)).getD j [])

/-- Data shreds with the coding shreds that a code has for them. -/
def encoded (parity : List Bytes → List Bytes) (d : ShredData) (D : List ShredData)
    (first p : Nat) : List Shred :=
  D.map .shredData ++ (List.range p).map (encodedCode parity d D first p)

/-- What is asked of the code: for shards of one length as many of this length. -/
def Encodes (parity : List Bytes → List Bytes) (D : List ShredData) (p : Nat) : Prop :=
  (parity (dataShards D)).length = p ∧ ∀ size, (∀ w ∈ dataShards D, w.length = size) →
    ∀ w ∈ parity (dataShards D), w.length = size

theorem encodes_codeParity (hD : D ≠ []) : Encodes (codeParity D.length p) D p := by
  refine ⟨by simp [codeParity, ErasureCode.parity], fun size hsize w hw => ?_⟩
  obtain ⟨j, -, rfl⟩ := List.mem_map.mp hw
  rw [ErasureCode.length_block]
  cases D with
  | nil => exact (hD rfl).elim
  | cons d D => exact hsize _ List.mem_cons_self

/-- Data shreds of one set, one after another from its start. -/
structure DataOfSet (d : ShredData) (D : List ShredData) : Prop where
  mem : d ∈ D
  wellFormed : ∀ s ∈ D, (Shred.shredData s).WellFormed
  sameBatch : ∀ s ∈ D, SameBatch (.shredData s) (.shredData d)
  index : ∀ (i : Nat) (s : ShredData), D[i]? = some s →
    s.commonHeader.index.toNat = d.commonHeader.fecSetIndex.toNat + i

namespace DataOfSet

theorem length_shard (h : DataOfSet d D) {w : Bytes} (hw : w ∈ dataShards D) :
    w.length = ((Shred.shredData d).part .shard).length := by
  obtain ⟨s, hs, rfl⟩ := List.mem_map.mp hw
  exact (h.sameBatch s hs).length_shard (h.wellFormed s hs).toShaped (h.wellFormed d h.mem).toShaped

theorem fits (h : DataOfSet d D) (hparity : Encodes parity D p) {j : Nat} (hj : j < p)
    (index : UInt32) (c : CodingShredHeader) :
    Region.shard.lo .code (Shred.shredCode (copyShred d index c)).variant +
        ((parity (dataShards D)).getD j []).length =
      Region.shard.hi .code (Shred.shredCode (copyShred d index c)).variant := by
  have hd := (h.wellFormed d h.mem).toShaped
  have hlen := hparity.2 _ (fun w hw => h.length_shard hw)
    ((parity (dataShards D)).getD j []) (by
      rw [List.getD_eq_getElem?_getD, List.getElem?_eq_getElem (hparity.1 ▸ hj), Option.getD_some]
      exact List.getElem_mem _)
  obtain ⟨hlo, hhi⟩ := @offsets_copyShred d index c hd .shard (by decide)
  have hle := Region.lo_le_hi .data hd.valid .shard
  have hpart := hd.length_part .shard
  simp only [Shred.kind] at hpart
  omega

theorem sane (h : DataOfSet d D) (hp : p ≤ 255) (hfirst : first + p ≤ 32768) {j : Nat}
    (hj : j < p) : CodingShredHeader.Sane { numDataShreds := UInt16.ofNat D.length
                                            numCodingShreds := UInt16.ofNat p
                                            position := UInt16.ofNat j }
      (UInt32.ofNat (first + j)) d.commonHeader.fecSetIndex := by
  have hpos : 0 < D.length := List.length_pos_of_mem h.mem
  have hlast : D[D.length - 1]? = some D[D.length - 1] := List.getElem?_eq_getElem (by omega)
  have hindex := h.index _ _ hlast
  have hlt : (D[D.length - 1]).commonHeader.index.toNat < 32768 :=
    (h.wellFormed _ (List.mem_of_getElem? hlast)).sane.1
  have hn16 : (UInt16.ofNat D.length).toNat = D.length := toNat_u16 (by omega)
  have hp16 : (UInt16.ofNat p).toNat = p := toNat_u16 (by omega)
  have hj16 : (UInt16.ofNat j).toNat = j := toNat_u16 (by omega)
  have hidx : (UInt32.ofNat (first + j)).toNat = first + j := toNat_u32 (by omega)
  refine ⟨⟨?_, ?_⟩, ⟨?_, ?_⟩, ⟨?_, ?_⟩⟩
  · rw [hn16]
    exact hpos
  · rw [hn16, maxDataShredsPerSlot]
    omega
  · rw [hj16, hp16]
    exact hj
  · rw [hp16]
    exact Nat.le_trans hp (by decide)
  · rw [hj16, hidx]
    omega
  · rw [hj16, hidx, hp16, maxCodeShredsPerSlot, maxDataShredsPerSlot]
    omega

theorem encodedCode (h : DataOfSet d D) (hparity : Encodes parity D p) (hp : p ≤ 255)
    (hfirst : first + p ≤ 32768) {j : Nat} (hj : j < p) :
    (encodedCode parity d D first p j).WellFormed ∧
      SameBatch (encodedCode parity d D first p j) (.shredData d) ∧
      (encodedCode parity d D first p j).part .shard = (parity (dataShards D)).getD j [] := by
  have hd := (h.wellFormed d h.mem).toShaped
  have hwf := copyShred_wellFormed hd (h.sane hp hfirst hj)
  have hfits := h.fits hparity hj (UInt32.ofNat (first + j))
    { numDataShreds := UInt16.ofNat D.length, numCodingShreds := UInt16.ofNat p
      position := UInt16.ofNat j }
  refine ⟨hwf.withPart (Nat.le_refl _) hfits, ?_, hwf.toShaped.part_withPart hfits⟩
  exact (sameBatch_withPart hwf.toShaped hfits (by decide) (by decide)).trans
    (sameBatch_copyShred hd)

theorem of_mem_encoded (h : DataOfSet d D) (hparity : Encodes parity D p) (hp : p ≤ 255)
    (hfirst : first + p ≤ 32768) {s : Shred} (hs : s ∈ encoded parity d D first p) :
    s.WellFormed ∧ SameBatch s (.shredData d) := by
  rcases List.mem_append.mp hs with hs | hs
  · obtain ⟨t, ht, rfl⟩ := List.mem_map.mp hs
    exact ⟨h.wellFormed t ht, h.sameBatch t ht⟩
  · obtain ⟨j, hj, rfl⟩ := List.mem_map.mp hs
    obtain ⟨hwf, hsame, -⟩ := h.encodedCode hparity hp hfirst (List.mem_range.mp hj)
    exact ⟨hwf, hsame⟩

theorem map_shard_encoded (h : DataOfSet d D) (hparity : Encodes parity D p) (hp : p ≤ 255)
    (hfirst : first + p ≤ 32768) : (encoded parity d D first p).map (Shred.part · .shard) =
      dataShards D ++ parity (dataShards D) := by
  have hcode : (List.range p).map (fun j => (LightweightShred.encodedCode parity d D first p j).part .shard) =
      parity (dataShards D) := by
    apply List.ext_getElem (by rw [List.length_map, List.length_range, hparity.1])
    intro j h1 h2
    rw [List.getElem_map, List.getElem_range, (h.encodedCode hparity hp hfirst (hparity.1 ▸ h2)).2.2,
      List.getD_eq_getElem?_getD, List.getElem?_eq_getElem h2, Option.getD_some]
  rw [encoded, List.map_append, List.map_map, List.map_map]
  exact congrArg (dataShards D ++ ·) hcode

theorem consistent (h : DataOfSet d D) (hparity : Encodes parity D p) (hn : D.length + p ≤ 256)
    (hp : 1 ≤ p) (hfirst : first + p ≤ 32768)
    (hps : d.commonHeader.shredVariant.proofSize = getProofSize (D.length + p)) :
    ConsistentBatch parity D.length p (encoded parity d D first p) := by
  have hpos : 0 < D.length := List.length_pos_of_mem h.mem
  have hp255 : p ≤ 255 := by omega
  have hd := (h.wellFormed d h.mem).toShaped
  have hlen : (D.map Shred.shredData).length = D.length := List.length_map ..
  have hmem := fun (s : Shred) (hs : s ∈ encoded parity d D first p) =>
    h.of_mem_encoded hparity hp255 hfirst hs
  refine { counts := ⟨hpos, hp, hn⟩, length := ?_, accepted := ?_, shared := ?_,
           proofSize := ?_, data := ?_, coding := ?_, codeword := ?_ }
  · simp [encoded]
  · exact fun s hs => Shred.accepted_iff.mpr (hmem s hs).1
  · intro s hs t ht
    obtain ⟨hws, hsd⟩ := hmem s hs
    obtain ⟨hwt, htd⟩ := hmem t ht
    have hsame := hsd.trans htd.symm
    exact ⟨hsame.signature, hsame.slot, hsame.version, hsame.fecSetIndex, hsame.resigned,
      hsame.chainedMerkleRoot_eq hws.toShaped hwt.toShaped,
      hsame.retransmitterSignature_eq hws.toShaped hwt.toShaped⟩
  · intro s hs
    obtain ⟨hws, hsd⟩ := hmem s hs
    rw [hws.toShaped.proofSize, hsd.proofSize]
    exact congrArg Except.ok hps
  · intro i hi
    have hget : D[i]? = some D[i] := List.getElem?_eq_getElem hi
    refine ⟨D[i], ?_, ?_⟩
    · rw [encoded, List.getElem?_append_left (by rwa [hlen]), List.getElem?_map, hget]
      rfl
    · rw [h.index i _ hget]
      exact congrArg (·.toNat + i) (h.sameBatch _ (List.mem_of_getElem? hget)).fecSetIndex.symm
  · refine ⟨first, fun j hj => ?_⟩
    have hget : (encoded parity d D first p)[D.length + j]? =
        some (LightweightShred.encodedCode parity d D first p j) := by
      rw [encoded, List.getElem?_append_right (by rw [hlen]; omega), hlen, Nat.add_sub_cancel_left,
        List.getElem?_map, List.getElem?_range hj]
      rfl
    have hn16 : (UInt16.ofNat D.length).toNat = D.length := toNat_u16 (by omega)
    have hp16 : (UInt16.ofNat p).toNat = p := toNat_u16 (by omega)
    have hj16 : (UInt16.ofNat j).toNat = j := toNat_u16 (by omega)
    have hidx : (UInt32.ofNat (first + j)).toNat = first + j := toNat_u32 (by omega)
    exact ⟨_, hget, hn16, hp16, hj16, hidx⟩
  · refine ⟨dataShards D ++ parity (dataShards D), ?_, ?_⟩
    · rw [← h.map_shard_encoded hparity hp255 hfirst, mapM_eq_ok, List.forall₂_map_right_iff]
      exact List.forall₂_same.mpr fun s hs => (hmem s hs).1.toShaped.erasureShard
    · have hshards : (dataShards D).length = D.length := List.length_map ..
      rw [List.drop_append_of_le_length (Nat.le_of_eq hshards.symm),
        List.take_append_of_le_length (Nat.le_of_eq hshards.symm),
        List.drop_of_length_le (Nat.le_of_eq hshards), List.take_of_length_le (Nat.le_of_eq hshards),
        List.nil_append]

end DataOfSet

end Encoded

section FixedBatch

/-- The `i`-th of thirty-two data shreds of slot 1. -/
def setData (i : Nat) : ShredData :=
  dataShred { (plainData 6 88).commonHeader with index := UInt32.ofNat i }
    (plainData 6 88).dataHeader (List.replicate 1115 0)

theorem setData_wellFormed {i : Nat} (hi : i < 32) : (Shred.shredData (setData i)).WellFormed := by
  have hplain : (Shred.shredData (plainData 6 88)).WellFormed :=
    plainData_wellFormed (by decide) (by decide)
  have hidx : (UInt32.ofNat i).toNat = i := toNat_u32 (by omega)
  refine dataShred_wellFormed rfl hplain.valid (List.length_replicate ..) ⟨?_, ?_, hplain.sane.2.2⟩
  · change (UInt32.ofNat i).toNat < 32768
    omega
  · exact Nat.zero_le _

theorem part_setData (i : Nat) {R : Region}
    (hR : 88 ≤ R.lo .data (Shred.shredData (plainData 6 88)).variant) :
    (Shred.shredData (setData i)).part R = (Shred.shredData (setData 0)).part R := by
  change slice (writeDataHeaders ((setData i).commonHeader, (setData i).dataHeader) ++
      List.replicate 1115 0) (R.lo .data _) (R.hi .data _) =
    slice (writeDataHeaders ((setData 0).commonHeader, (setData 0).dataHeader) ++
      List.replicate 1115 0) (R.lo .data _) (R.hi .data _)
  rw [slice_append_right (by rw [length_writeDataHeaders]; exact hR), length_writeDataHeaders,
    slice_append_right (by rw [length_writeDataHeaders]; exact hR), length_writeDataHeaders]
  rfl

theorem dataOfSet_setData : DataOfSet (setData 0) ((List.range 32).map setData) where
  mem := List.mem_map.mpr ⟨0, by decide, rfl⟩
  wellFormed s hs := by
    obtain ⟨i, hi, rfl⟩ := List.mem_map.mp hs
    exact setData_wellFormed (List.mem_range.mp hi)
  sameBatch s hs := by
    obtain ⟨i, -, rfl⟩ := List.mem_map.mp hs
    exact ⟨rfl, rfl, rfl, rfl, rfl, rfl, part_setData i (by decide), part_setData i (by decide)⟩
  index i s hs := by
    rw [List.getElem?_map, Option.map_eq_some_iff] at hs
    obtain ⟨j, hj, rfl⟩ := hs
    obtain ⟨hi, rfl⟩ := List.getElem?_eq_some_iff.mp hj
    rw [List.length_range] at hi
    rw [List.getElem_range]
    exact (toNat_u32 (by omega)).trans (Nat.zero_add i).symm

/-- The thirty-two data shreds with their coding shreds, before they have proofs. -/
noncomputable def unsealedFixedBatch : List Shred :=
  encoded (codeParity 32 32) (setData 0) ((List.range 32).map setData) 0 32

/-- An erasure batch as it arrives from the network, all of it. -/
noncomputable def fixedBatch : List Shred := sealBatch sha256Hasher unsealedFixedBatch

theorem unsealedFixedBatch_consistent :
    ConsistentBatch (codeParity 32 32) 32 32 unsealedFixedBatch := by
  have hlen : ((List.range 32).map setData).length = 32 := by simp
  have hencodes := @encodes_codeParity ((List.range 32).map setData) 32 (by simp)
  rw [hlen] at hencodes
  have hB : ConsistentBatch (codeParity 32 32) ((List.range 32).map setData).length 32
      unsealedFixedBatch :=
    dataOfSet_setData.consistent hencodes (by rw [hlen]; decide) (by decide) (by decide)
      (by rw [hlen]; decide)
  rwa [hlen] at hB

theorem fixedBatch_complete :
    CompleteBatch sha256Hasher (codeParity 32 32) 32 32 fixedBatch :=
  unsealedFixedBatch_consistent.complete sha256Hasher

/-- What arrives of it: all but the first of the data shreds, and two coding shreds. -/
noncomputable def fixedPart : List Shred := (fixedBatch.drop 1).take 33

theorem fixedPart_sublist : fixedPart.Sublist fixedBatch :=
  (List.take_sublist ..).trans (List.drop_sublist ..)

theorem length_fixedPart : fixedPart.length = 33 := by
  rw [fixedPart, List.length_take, List.length_drop, fixedBatch_complete.length]
  rfl

theorem exists_code_fixedPart : ∃ c, .shredCode c ∈ fixedPart := by
  obtain ⟨first, hcoding⟩ := fixedBatch_complete.coding
  obtain ⟨c, hc, -⟩ := hcoding 0 (by decide)
  have hget : fixedPart[31]? = some (.shredCode c) := by
    rw [fixedPart, List.getElem?_take_of_lt (by decide), List.getElem?_drop]
    exact hc
  exact ⟨c, List.mem_of_getElem? hget⟩

theorem recover_fixedPart : recover sha256Hasher interpolationCache stableSort fixedPart =
    .ok ((fixedBatch.filter (· ∉ fixedPart)).map .ok) := by
  obtain ⟨c, hc⟩ := exists_code_fixedPart
  exact fixedBatch_complete.recover_eq
    (interpolationCache_correct (by decide) (by decide) (by decide)) fixedPart_sublist.subperm
    (by rw [length_fixedPart]; decide) ⟨_, hc, rfl⟩

end FixedBatch

end LightweightShred
