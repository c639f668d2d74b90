import LightweightShred.Stub
import LightweightShred.MerkleTreeLevels

/-!
# The completed batch

What the two recovery functions compute, stage by stage: the shards the codec returns, the
batch they complete, the checks on it, and the items made from it.
-/
namespace LightweightShred
open ByteString Rust Codec Slots HashTree

section Reconstruction
variable {cache : ReedSolomonCache} {n numData numCoding : Nat}

theorem ReedSolomon.inPlace_range {codec : ReedSolomon} {g : Nat → Bytes × Bool}
    {shards : List Bytes} (h : codec.reconstruct ((List.range n).map g) = .ok shards) :
    shards.length = n ∧ ∀ i < n, (shards.getD i []).length = (g i).1.length ∧
      ((g i).2 = true → shards.getD i [] = (g i).1) := by
  obtain ⟨hlen, hall⟩ := List.forall₂_iff_get.mp (codec.inPlace _ _ h)
  rw [List.length_map, List.length_range] at hlen
  refine ⟨hlen.symm, fun i hi => ?_⟩
  have hi' := hall i (by simpa using hi) (by omega)
  simpa [List.getD_eq_getElem?_getD, List.getElem?_eq_getElem (hlen ▸ hi : i < shards.length)]
    using hi'

/-- On shreds of the right shape the guards never get in the way: the codec reads the shards
and its answer takes their place. -/
theorem reconstructBatch_eq {f : Nat → Shred} {m : Nat → Bool} (hf : ∀ i < n, (f i).Shaped) :
    reconstructBatch cache numData numCoding ((List.range n).map f) ((List.range n).map m) = (do
      let codec ← liftErr .erasure (cache.new numData numCoding)
      let shards ← liftErr .erasure
        (codec.reconstruct ((List.range n).map fun i => ((f i).part .shard, m i)))
      pure ((List.range n).map fun i => (f i).withPart .shard (shards.getD i []))) := by
  let guard : Nat → PayloadMutGuard := fun i => PayloadMutGuard.new (f i).payload
    (.range (Region.shard.lo (f i).kind (f i).variant) (Region.shard.hi (f i).kind (f i).variant))
  rw [reconstructBatch, List.zip_map', mapM_map_range (r := fun i => (guard i, m i)) ?guards]
  case guards =>
    intro i hi
    simp only [(hf i hi).erasureShardMut, bind, Except.bind, pure, Except.pure, guard]
  simp only [bind, Except.bind, ReedSolomonCache.get]
  cases cache.new numData numCoding with
  | error e => rfl
  | ok codec =>
      simp only [liftErr]
      rw [mapM_map_range (r := fun i => ((f i).part .shard, m i)) ?slices]
      case slices =>
        intro i hi
        have hderef : (guard i).deref = .ok ((f i).part .shard) :=
          unwrap_eq_ok.mpr ((hf i hi).slice?_part .shard)
        simp only [hderef, pure, Except.pure]
      simp only
      cases hrec : codec.reconstruct ((List.range n).map fun i => ((f i).part .shard, m i)) with
      | error e => rfl
      | ok shards =>
          obtain ⟨hlen, hshards⟩ := ReedSolomon.inPlace_range hrec
          have hzip : (((List.range n).map fun i => (guard i, m i)).zip shards) =
              (List.range n).map fun i => ((guard i, m i), shards.getD i []) := by
            conv_lhs => rw [eq_map_range hlen []]
            rw [List.zip_map']
          simp only [hzip]
          rw [mapM_map_range (r := fun i => { guard i with
            bytesMut := splice (f i).payload.bytes (Region.shard.lo (f i).kind (f i).variant)
              (shards.getD i []) }) ?copies]
          case copies =>
            intro i hi
            have hle := Region.lo_le_hi (f i).kind (hf i hi).valid .shard
            exact (hf i hi).withPart_payload (by
              rw [(hshards i hi).1, (hf i hi).length_part]
              omega)
          simp only [pure, Except.pure, List.zipWith_map, List.zipWith_self]
          rfl

theorem reconstructBatch_eq_ok {f : Nat → Shred} {m : Nat → Bool} (hf : ∀ i < n, (f i).Shaped)
    {out : List Shred} :
    reconstructBatch cache numData numCoding ((List.range n).map f) ((List.range n).map m) = .ok out ↔
      ∃ codec shards, cache.new numData numCoding = .ok codec ∧
        codec.reconstruct ((List.range n).map fun i => ((f i).part .shard, m i)) = .ok shards ∧
        out = (List.range n).map fun i => (f i).withPart .shard (shards.getD i []) := by
  rw [reconstructBatch_eq hf]
  simp only [bind_eq_ok, liftErr_eq_ok, pure, Except.pure, Except.ok.injEq]
  constructor
  · rintro ⟨codec, hnew, shards, hrec, rfl⟩
    exact ⟨codec, shards, hnew, hrec, rfl⟩
  · rintro ⟨codec, shards, hnew, hrec, rfl⟩
    exact ⟨codec, hnew, shards, hrec, rfl⟩

end Reconstruction

namespace Shred

/-- The shred with its data header read anew from the payload. -/
def reparsed : Shred → Shred
  | .shredData s =>
    match deserialize readDataHeaders s.payload.bytes with
    | .ok (_, dataHeader) => .shredData { s with dataHeader }
    | .error _ => .shredData s
  | .shredCode s => .shredCode s

/-- The payload starts with the common header of the struct. -/
def HeaderKept (s : Shred) : Prop :=
  slice s.payload.bytes 0 sizeOfCommonShredHeader = s.commonHeader.write

instance (s : Shred) : Decidable s.HeaderKept := inferInstanceAs (Decidable (_ = _))

@[simp] theorem kind_reparsed (s : Shred) : s.reparsed.kind = s.kind := by
  cases s with
  | shredCode s => rfl
  | shredData s => simp only [reparsed]; split <;> rfl

@[simp] theorem commonHeader_reparsed (s : Shred) : s.reparsed.commonHeader = s.commonHeader := by
  cases s with
  | shredCode s => rfl
  | shredData s => simp only [reparsed]; split <;> rfl

@[simp] theorem payload_reparsed (s : Shred) : s.reparsed.payload = s.payload := by
  cases s with
  | shredCode s => rfl
  | shredData s => simp only [reparsed]; split <;> rfl

@[simp] theorem position_reparsed (s : Shred) : s.reparsed.position = s.position := by
  cases s with
  | shredCode s => rfl
  | shredData s => simp only [reparsed]; split <;> rfl

@[simp] theorem variant_reparsed (s : Shred) : s.reparsed.variant = s.variant := by
  simp only [variant, commonHeader_reparsed]

@[simp] theorem part_reparsed (s : Shred) (R : Region) : s.reparsed.part R = s.part R := by
  simp only [part, payload_reparsed, kind_reparsed, variant_reparsed]

theorem Shaped.reparsed {s : Shred} (h : s.Shaped) : s.reparsed.Shaped where
  kind := by simpa using h.kind
  valid := by simpa using h.valid
  length := by simpa using h.length

theorem deserialize_of_headers {s : ShredData} (h : (shredData s).Shaped)
    (hs : slice s.payload.bytes 0 88 = writeDataHeaders (s.commonHeader, s.dataHeader)) :
    deserialize readDataHeaders s.payload.bytes = .ok (s.commonHeader, s.dataHeader) := by
  have hlen : s.payload.bytes.length = sizeOfPayload .data := h.length
  exact deserialize_data_eq_ok.mpr ⟨h.valid, by rw [hlen]; decide, hs⟩

theorem reparsed_of_headers {s : Shred} (h : s.Shaped)
    (hs : slice s.payload.bytes 0 (sizeOfHeaders s.kind) = s.writeHeaders) : s.reparsed = s := by
  cases s with
  | shredCode s => rfl
  | shredData s =>
      rw [reparsed, deserialize_of_headers h hs]

theorem WellFormed.reparsed {s : Shred} (h : s.WellFormed) : s.reparsed = s :=
  reparsed_of_headers h.toShaped h.headers

end Shred

theorem Shred.WellFormed.eq_reparsed {s t : Shred} (ht : t.WellFormed) (hs : s.kind = .data)
    (hk : t.kind = .data) (hch : s.commonHeader = t.commonHeader) (hp : s.payload = t.payload) :
    s.reparsed = t := by
  cases s with
  | shredCode c => cases hs
  | shredData e =>
      cases t with
      | shredCode c => cases hk
      | shredData f =>
          have hd := Shred.deserialize_of_headers ht.toShaped ht.headers
          simp only [payload] at hp
          rw [← hp] at hd
          have hch' : e.commonHeader = f.commonHeader := hch
          rw [Shred.reparsed, hd]
          cases f
          subst hp
          subst hch'
          rfl

theorem deserialize_of_headerKept {s : ShredData} (h : (Shred.shredData s).Shaped)
    (hk : (Shred.shredData s).HeaderKept) : ∃ dataHeader,
      deserialize readDataHeaders s.payload.bytes = .ok (s.commonHeader, dataHeader) := by
  have hlen : s.payload.bytes.length = 1203 := h.length
  obtain ⟨dataHeader, hdata⟩ := DataShredHeader.exists_write
    (show (slice s.payload.bytes 83 88).length = 5 by rw [length_slice (by omega)])
  refine ⟨dataHeader, deserialize_data_eq_ok.mpr ⟨h.valid, by omega, ?_⟩⟩
  rw [writeDataHeaders, hdata, ← slice_append_slice _ (Nat.zero_le 83) (by omega : 83 ≤ 88)]
  exact congrArg (· ++ _) hk

theorem headerKept_of_deserialize {s : ShredData} {dataHeader : DataShredHeader}
    (h : deserialize readDataHeaders s.payload.bytes = .ok (s.commonHeader, dataHeader)) :
    (Shred.shredData s).HeaderKept := by
  obtain ⟨-, -, hs⟩ := deserialize_data_eq_ok.mp h
  have h83 : slice (slice s.payload.bytes 0 88) 0 83 = slice s.payload.bytes 0 83 := by
    rw [slice_slice _ _ _ _ _ (by omega)]
  change slice s.payload.bytes 0 83 = s.commonHeader.write
  rw [← h83, hs, writeDataHeaders, slice_append_left (by simp), slice_full (by simp)]

section Checks
variable {numData index : Nat}

theorem checkRecovered_eq_ok {s t : Shred} (hs : s.Shaped)
    (hkind : s.kind = if index < numData then .data else .code)
    (hcode : s.kind = .code → slice s.payload.bytes 0 (sizeOfHeaders s.kind) = s.writeHeaders) :
    checkRecovered numData index s = .ok t ↔ t = s.reparsed ∧ t.WellFormed := by
  unfold checkRecovered
  cases s with
  | shredCode c =>
      have hidx : ¬index < numData := by
        intro hlt
        rw [if_pos hlt] at hkind
        cases hkind
      rw [if_neg hidx]
      simp only [bind_eq_ok, pure, Except.pure, Except.ok.injEq, exists_eq_left', Shred.reparsed]
      constructor
      · rintro ⟨_, hsane, rfl⟩
        exact ⟨rfl, hs, hcode rfl, hs.sanitize_eq_ok.mp hsane⟩
      · rintro ⟨rfl, hwf⟩
        exact ⟨(), hs.sanitize_eq_ok.mpr hwf.sane, rfl⟩
  | shredData d =>
      have hidx : index < numData := by
        by_contra hge
        rw [if_neg hge] at hkind
        cases hkind
      rw [if_pos hidx]
      simp only [bind_eq_ok, guard_eq_ok, liftErr_eq_ok, Prod.exists, pure, Except.pure,
        Except.ok.injEq, not_not]
      constructor
      · rintro ⟨ch, dh, hd, rfl, _, rfl, _, hsane, rfl⟩
        have hre : (Shred.shredData d).reparsed = .shredData { d with dataHeader := dh } := by
          rw [Shred.reparsed, hd]
        have hshaped : (Shred.shredData { d with dataHeader := dh }).Shaped := hre ▸ hs.reparsed
        obtain ⟨-, -, hw⟩ := deserialize_data_eq_ok.mp hd
        exact ⟨hre.symm, hshaped, hw, hshaped.sanitize_eq_ok.mp hsane⟩
      · rintro ⟨rfl, hwf⟩
        cases hd : deserialize readDataHeaders d.payload.bytes with
        | error e =>
            have hre : (Shred.shredData d).reparsed = .shredData d := by rw [Shred.reparsed, hd]
            rw [hre] at hwf
            rw [Shred.deserialize_of_headers hs hwf.headers] at hd
            cases hd
        | ok h =>
            obtain ⟨ch, dh⟩ := h
            have hre : (Shred.shredData d).reparsed = .shredData { d with dataHeader := dh } := by
              rw [Shred.reparsed, hd]
            rw [hre] at hwf ⊢
            have hd' := Shred.deserialize_of_headers hwf.toShaped hwf.headers
            have hch : d.commonHeader = ch :=
              (Prod.mk.inj (Except.ok.inj (hd.symm.trans hd'))).1.symm
            exact ⟨ch, dh, rfl, hch, _, rfl, (), hwf.sanitize_eq_ok.mpr hwf.sane, rfl⟩

/-- What the fast path keeps: a data shred whose payload starts with its common header. -/
theorem extractRecovered_missing {s : Shred} (hs : s.Shaped) (hidx : index < numData)
    (hkind : s.kind = .data) :
    extractRecovered numData index s false = if s.HeaderKept then some s.reparsed else none := by
  unfold extractRecovered
  rw [if_neg (by simp; omega)]
  cases s with
  | shredCode c => cases hkind
  | shredData d =>
      by_cases hk : (Shred.shredData d).HeaderKept
      · obtain ⟨dh, hd⟩ := deserialize_of_headerKept hs hk
        simp only [Shred.reparsed, hd, if_pos hk, if_true]
      · rw [if_neg hk]
        cases hd : deserialize readDataHeaders d.payload.bytes with
        | error e => simp only [hd]
        | ok h =>
            obtain ⟨ch, dh⟩ := h
            have hne : d.commonHeader ≠ ch := by
              rintro rfl
              exact hk (headerKept_of_deserialize hd)
            simp only [hd, if_neg hne]

end Checks

end LightweightShred
