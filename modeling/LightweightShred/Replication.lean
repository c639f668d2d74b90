import LightweightShred.Sealing
import LightweightShred.Lib.Sha256

/-!
# Batches with one data shred

With a single data shard every parity shard is a copy of it. The codec for such batches can
be written down, and so can small batches, built from their headers.
-/
namespace LightweightShred
open ByteString Rust Codec Slots HashTree

/-- The documented conditions under which a codec is made, and under which it succeeds on
shards of one positive length; nothing is said about what it returns. -/
structure CodecDocumented (cache : ReedSolomonCache) : Prop where
  new_ok : ∀ d p, (∃ codec, cache.new d p = .ok codec) ↔ 1 ≤ d ∧ 1 ≤ p ∧ d + p ≤ 256
  reconstruct_ok : ∀ d p codec, cache.new d p = .ok codec →
    ∀ (size : Nat) (given : List (Bytes × Bool)), 0 < size → given.length = d + p →
      (∀ g ∈ given, g.1.length = size) →
      ((∃ out, codec.reconstruct given = .ok out) ↔ d ≤ given.countP (·.2))

/-- Fill what is missing with the first shard that is given. -/
def replicateShards (d p : Nat) (shards : List (Bytes × Bool)) : Except ErasureError (List Bytes) :=
  if shards.length < d + p then .error .tooFewShards
  else if d + p < shards.length then .error .tooManyShards
  else
    match shards.find? (·.2) with
    | none => .error .tooFewShardsPresent
    | some (first, _) =>
      if first.length = 0 then .error .emptyShard
      else if shards.countP (·.2) < d then .error .tooFewShardsPresent
      else if shards.all fun s => s.1.length == first.length then
        .ok (shards.map fun s => if s.2 then s.1 else first)
      else .error .incorrectShardSize

theorem replicateShards_eq_ok {d p : Nat} {shards : List (Bytes × Bool)} {out : List Bytes} :
    replicateShards d p shards = .ok out ↔ shards.length = d + p ∧ d ≤ shards.countP (·.2) ∧
      ∃ first, shards.find? (·.2) = some (first, true) ∧ first.length ≠ 0 ∧
        (∀ s ∈ shards, s.1.length = first.length) ∧
        out = shards.map fun s => if s.2 then s.1 else first := by
  unfold replicateShards
  cases hf : shards.find? (·.2) with
  | none =>
      constructor
      · intro h
        split at h
        · cases h
        · split at h <;> cases h
      · rintro ⟨-, -, first, h, -⟩
        cases h
  | some g =>
      obtain ⟨first, m⟩ := g
      have hm : m = true := by simpa using List.find?_some hf
      subst hm
      constructor
      · intro h
        split at h
        · cases h
        · split at h
          · cases h
          · simp only at h
            split at h
            · cases h
            · split at h
              · cases h
              · split at h
                · rename_i hall
                  simp only [List.all_eq_true, beq_iff_eq] at hall
                  exact ⟨by omega, by omega, first, rfl, by assumption, hall,
                    (Except.ok.inj h).symm⟩
                · cases h
      · rintro ⟨hlen, hcount, first', he, hne, hall, rfl⟩
        cases he
        have hall' : (shards.all fun s => s.1.length == first.length) = true := by
          simpa only [List.all_eq_true, beq_iff_eq] using hall
        rw [if_neg (by omega), if_neg (by omega)]
        simp only
        rw [if_neg hne, if_neg (by omega), if_pos hall']

def replicationCodec (d p : Nat) : ReedSolomon where
  reconstruct := replicateShards d p
  inPlace := by
    intro shards out h
    obtain ⟨-, -, first, -, -, hall, rfl⟩ := replicateShards_eq_ok.mp h
    rw [List.forall₂_map_right_iff]
    refine List.forall₂_same.mpr fun s hs => ⟨?_, fun hm => if_pos hm⟩
    split
    · rfl
    · exact (hall s hs).symm

def replicationCache : ReedSolomonCache where
  new d p :=
    if d = 0 then .error .tooFewDataShards
    else if p = 0 then .error .tooFewParityShards
    else if 256 < d + p then .error .tooManyShards
    else .ok (replicationCodec d p)

theorem replicationCache_new {d p : Nat} {codec : ReedSolomon} :
    replicationCache.new d p = .ok codec ↔
      1 ≤ d ∧ 1 ≤ p ∧ d + p ≤ 256 ∧ codec = replicationCodec d p := by
  simp only [replicationCache]
  constructor
  · intro h
    split at h
    · cases h
    · split at h
      · cases h
      · split at h
        · cases h
        · exact ⟨by omega, by omega, by omega, (Except.ok.inj h).symm⟩
  · rintro ⟨hd, hp, hn, rfl⟩
    rw [if_neg (by omega), if_neg (by omega), if_neg (by omega)]

theorem replicateShards_of_given {d p size : Nat} {given : List (Bytes × Bool)} (hd : 1 ≤ d)
    (hsize : 0 < size) (hlen : given.length = d + p) (hall : ∀ g ∈ given, g.1.length = size)
    (hcount : d ≤ given.countP (·.2)) : ∃ first, (first, true) ∈ given ∧
      replicateShards d p given = .ok (given.map fun g => if g.2 then g.1 else first) := by
  obtain ⟨g, hg, hgm⟩ := List.countP_pos_iff.mp (show 0 < given.countP (·.2) by omega)
  obtain ⟨⟨first, m⟩, hf⟩ := Option.isSome_iff_exists.mp
    (List.find?_isSome.mpr ⟨g, hg, hgm⟩)
  have hm : m = true := by simpa using List.find?_some hf
  subst hm
  have hmem := List.mem_of_find?_eq_some hf
  have hfirst : first.length = size := hall _ hmem
  exact ⟨first, hmem, replicateShards_eq_ok.mpr ⟨hlen, hcount, first, hf, by omega,
    fun s hs => by rw [hall s hs, hfirst], rfl⟩⟩

theorem replicationCache_documented : CodecDocumented replicationCache where
  new_ok d p := by
    simp only [replicationCache_new, exists_and_left, exists_eq, and_true]
  reconstruct_ok := by
    intro d p codec hnew size given hsize hlen hall
    obtain ⟨hd, -, -, rfl⟩ := replicationCache_new.mp hnew
    constructor
    · rintro ⟨out, h⟩
      exact (replicateShards_eq_ok.mp h).2.1
    · intro hcount
      obtain ⟨first, -, h⟩ := replicateShards_of_given hd hsize hlen hall hcount
      exact ⟨_, h⟩

/-- The parity of one data shard. -/
def copies (p : Nat) (data : List Bytes) : List Bytes := (List.replicate p data).flatten

/-- For a single data shard, copying is the code. -/
theorem replicationCache_correct {p : Nat} (hp : 1 ≤ p) (hn : p ≤ 255) :
    CodecCorrect replicationCache 1 p (copies p) := by
  refine ⟨replicationCodec 1 p, replicationCache_new.mpr ⟨Nat.le_refl _, hp, by omega, rfl⟩, ?_⟩
  intro size word given hsize hlen hpar hall hgiven
  have hglen : given.length = 1 + p := by rw [← hgiven.length_eq, hlen]
  have hgall : ∀ g ∈ given, g.1.length = size := by
    intro g hg
    obtain ⟨w, -, h⟩ := forall₂_mem_right hgiven hg
    exact h.1
  obtain ⟨w, rfl⟩ : ∃ w, word = List.replicate (1 + p) w := by
    cases word with
    | nil =>
        rw [List.length_nil] at hlen
        omega
    | cons w rest =>
        have hrest : rest = List.replicate p w := by
          simpa [copies, List.flatten_replicate_singleton] using hpar
        exact ⟨w, by rw [hrest, Nat.add_comm, List.replicate_succ]⟩
  constructor
  · intro hcount
    obtain ⟨first, hmem, h⟩ := replicateShards_of_given (Nat.le_refl 1) hsize hglen hgall hcount
    have hkept : ∀ g ∈ given, g.2 = true → g.1 = w := by
      intro g hg hm
      obtain ⟨v, hv, hvg⟩ := forall₂_mem_right hgiven hg
      rw [hvg.2 hm, List.eq_of_mem_replicate hv]
    refine h.trans (congrArg Except.ok (List.eq_replicate_iff.mpr ⟨by simp [hglen], ?_⟩))
    intro b hb
    obtain ⟨g, hg, rfl⟩ := List.mem_map.mp hb
    split
    · rename_i hm
      exact hkept g hg hm
    · exact hkept _ hmem rfl
  · intro hcount
    cases hr : replicateShards 1 p given with
    | error e => exact ⟨e, hr⟩
    | ok out =>
        have := (replicateShards_eq_ok.mp hr).2.1
        omega

theorem reconstructs_copies {l : List Shred} {L : ShredCode} {w : Bytes}
    (hl : ∀ s ∈ l, s.WellFormed) (hlast : l.getLast? = some (.shredCode L))
    (hplace : Placeable L.commonHeader.signature L.numShards l)
    (hnd : L.codingHeader.numDataShreds.toNat = 1)
    (hnc : L.codingHeader.numCodingShreds.toNat ≤ 255) (hw : ∀ s ∈ l, s.part .shard = w) :
    Reconstructs replicationCache l L (List.replicate L.numShards w) := by
  have hmem := List.mem_of_getLast? hlast
  have hL := (hl _ hmem).toShaped
  have hnum := numbers (hl _ hmem).sane
  obtain ⟨codec, hnew, hrec⟩ :=
    @replicationCache_correct L.codingHeader.numCodingShreds.toNat (by omega) hnc
  have hsize : 0 < w.length := by
    have h1 := hL.length_shard
    have h2 := hL.valid.proofBytes_le
    have h3 := ShredVariant.resignedBytes_le (Shred.shredCode L).variant
    rw [hw _ hmem] at h1
    omega
  have hgiven : List.Forall₂ (fun v g => g.1.length = w.length ∧ (g.2 = true → g.1 = v))
      (List.replicate L.numShards w) (codecInput L l) := by
    refine List.forall₂_iff_get.mpr ⟨by simp [codecInput], fun i h1 h2 => ?_⟩
    simp only [codecInput, List.get_eq_getElem, List.getElem_map, List.getElem_range,
      List.getElem_replicate]
    cases hh : held Shred.position l i with
    | none =>
        have hm : present l i = false := by rw [present, hh]; rfl
        rw [fillAt_of_missing hm, hm]
        refine ⟨?_, fun hp => by cases hp⟩
        rw [(stubAt_sameBatch hL i).length_shard (shaped_stubAt hL i) hL, hw _ hmem]
    | some s =>
        have hs := hw s (mem_of_held hh)
        rw [fillAt_of_held hh, hs]
        exact ⟨rfl, fun _ => rfl⟩
  refine ⟨hlast, hplace, codec, by rw [hnd, hnew], ?_⟩
  have hcount := countP_codecInput hplace
  have hpos : 0 < l.length := List.length_pos_of_mem hmem
  have hn : L.numShards = 1 + L.codingHeader.numCodingShreds.toNat := by
    rw [ShredCode.numShards, hnd]
  refine (hrec w.length _ _ hsize (by rw [List.length_replicate, hn]) ?_ ?_ hgiven).1 (by omega)
  · rw [hn, List.drop_replicate, List.take_replicate, copies]
    simp [List.flatten_replicate_singleton]
  · intro v hv
    rw [List.eq_of_mem_replicate hv]

/-- A list that fills its batch with copies, and whose last shred has its proof: `recover`
succeeds, whatever the headers of the others say besides their positions. -/
theorem recover_given_copies {H : Hasher} {srt : ShredSort} {l : List Shred} {L : ShredCode}
    {w : Bytes} (hl : ∀ s ∈ l, s.WellFormed) (hsorted : Sorted l)
    (hlast : l.getLast? = some (.shredCode L))
    (hsig : ∀ s ∈ l, s.signature = L.commonHeader.signature)
    (hpos : ∀ (i : Nat) (s : Shred), l[i]? = some s → s.position = i)
    (hfull : l.length = L.numShards)
    (hnd : L.codingHeader.numDataShreds.toNat = 1)
    (hnc : L.codingHeader.numCodingShreds.toNat ≤ 255) (hw : ∀ s ∈ l, s.part .shard = w)
    (hproof : (Shred.shredCode L).merkleProof =
      .ok (batchProof H l (Shred.shredCode L).position)) :
    recover H replicationCache srt l = .ok [] := by
  have hplace : Placeable L.commonHeader.signature L.numShards l := by
    refine ⟨hsig, List.pairwise_iff_getElem.mpr fun i j hi hj hij => ?_, fun s hs => ?_⟩
    · rw [hpos i _ (List.getElem?_eq_getElem hi), hpos j _ (List.getElem?_eq_getElem hj)]
      exact hij
    · obtain ⟨i, hi⟩ := List.mem_iff_getElem?.mp hs
      rw [hpos i s hi, ← hfull]
      exact (List.getElem?_eq_some_iff.mp hi).1
  exact (reconstructs_copies hl hlast hplace hnd hnc hw).recover_given hl hsorted hfull hproof

/-- The same from a list with other proofs, as long as the last proof is the one of its tree. -/
theorem recover_reproved_copies {H : Hasher} {srt : ShredSort} {l B : List Shred} {L : ShredCode}
    {w : Bytes} (h : Reproved l B) (hB : ∀ b ∈ B, b.WellFormed) (hsorted : Sorted B)
    (hlast : l.getLast? = some (.shredCode L))
    (hsig : ∀ b ∈ B, b.signature = L.commonHeader.signature)
    (hpos : ∀ (i : Nat) (b : Shred), B[i]? = some b → b.position = i)
    (hfull : B.length = L.numShards) (hnd : L.codingHeader.numDataShreds.toNat = 1)
    (hnc : L.codingHeader.numCodingShreds.toNat ≤ 255) (hw : ∀ b ∈ B, b.part .shard = w)
    (hproof : (Shred.shredCode L).merkleProof = .ok (batchProof H B (B.length - 1))) :
    recover H replicationCache srt l = .ok [] := by
  have hposL : (Shred.shredCode L).position = B.length - 1 := by
    rw [List.getLast?_eq_getElem?, h.length_eq] at hlast
    exact h.position hpos hlast
  refine recover_given_copies (h.wellFormed hB) (h.sorted hsorted) hlast ?_
    (fun i s hs => h.position hpos hs) (h.length_eq.trans hfull) hnd hnc (w := w) ?_ ?_
  · intro s hs
    obtain ⟨b, hb, d, rfl, -⟩ := h.mem hs
    rw [Shred.signature, Shred.commonHeader_withPart]
    exact hsig b hb
  · intro s hs
    obtain ⟨b, hb, d, rfl, hd⟩ := h.mem hs
    rw [(hB b hb).toShaped.part_withPart_ne hd (by decide), hw b hb]
  · rw [h.batchProof hB, hposL, hproof]

section Building

/-- A coding shred from its headers and the rest of its payload. -/
def codeShred (h : ShredCommonHeader) (c : CodingShredHeader) (body : Bytes) : ShredCode where
  commonHeader := h
  codingHeader := c
  payload := ⟨writeCodingHeaders (h, c) ++ body⟩

/-- A data shred from its headers and the rest of its payload. -/
def dataShred (h : ShredCommonHeader) (d : DataShredHeader) (body : Bytes) : ShredData where
  commonHeader := h
  dataHeader := d
  payload := ⟨writeDataHeaders (h, d) ++ body⟩

theorem codeShred_wellFormed {h : ShredCommonHeader} {c : CodingShredHeader} {body : Bytes}
    (hk : h.shredVariant.shredType = .code) (hv : h.shredVariant.Valid) (hb : body.length = 1139)
    (hs : c.Sane h.index h.fecSetIndex) : (Shred.shredCode (codeShred h c body)).WellFormed where
  kind := hk
  valid := hv
  length := by
    change (writeCodingHeaders (h, c) ++ body).length = 1228
    rw [List.length_append, length_writeCodingHeaders, hb]
  headers := by
    change slice (writeCodingHeaders (h, c) ++ body) 0 89 = writeCodingHeaders (h, c)
    rw [slice_append_left (by rw [length_writeCodingHeaders]),
      slice_full (length_writeCodingHeaders _)]
  sane := hs

theorem dataShred_shaped {h : ShredCommonHeader} (d : DataShredHeader) {body : Bytes}
    (hk : h.shredVariant.shredType = .data) (hv : h.shredVariant.Valid) (hb : body.length = 1115) :
    (Shred.shredData (dataShred h d body)).Shaped where
  kind := hk
  valid := hv
  length := by
    change (writeDataHeaders (h, d) ++ body).length = 1203
    rw [List.length_append, length_writeDataHeaders, hb]

theorem dataShred_wellFormed {h : ShredCommonHeader} {d : DataShredHeader} {body : Bytes}
    (hk : h.shredVariant.shredType = .data) (hv : h.shredVariant.Valid) (hb : body.length = 1115)
    (hs : (Shred.shredData (dataShred h d body)).Sane) :
    (Shred.shredData (dataShred h d body)).WellFormed where
  toShaped := dataShred_shaped d hk hv hb
  headers := by
    change slice (writeDataHeaders (h, d) ++ body) 0 88 = writeDataHeaders (h, d)
    rw [slice_append_left (by rw [length_writeDataHeaders]), slice_full (length_writeDataHeaders _)]
  sane := hs

/-- A coding shred with all that a data shred holds behind its signature. -/
def copyShred (d : ShredData) (index : UInt32) (c : CodingShredHeader) : ShredCode :=
  codeShred { d.commonHeader with
    shredVariant := .merkleCode d.commonHeader.shredVariant.proofSize
      d.commonHeader.shredVariant.resigned
    index } c (d.payload.bytes.drop sizeOfSignature)

section
variable {d : ShredData} {index : UInt32} {c : CodingShredHeader}

theorem copyShred_wellFormed (hd : (Shred.shredData d).Shaped)
    (hs : c.Sane index d.commonHeader.fecSetIndex) :
    (Shred.shredCode (copyShred d index c)).WellFormed := by
  refine codeShred_wellFormed rfl hd.valid ?_ hs
  have hlen : d.payload.bytes.length = 1203 := hd.length
  rw [List.length_drop, hlen]
  rfl

theorem offsets_copyShred (hd : (Shred.shredData d).Shaped) {R : Region} (hR : R ≠ .front) :
    R.lo .code (Shred.shredCode (copyShred d index c)).variant =
        R.lo .data (Shred.shredData d).variant + 25 ∧
      R.hi .code (Shred.shredCode (copyShred d index c)).variant =
        R.hi .data (Shred.shredData d).variant + 25 := by
  have hp : (Shred.shredCode (copyShred d index c)).variant.proofBytes =
    (Shred.shredData d).variant.proofBytes := rfl
  have hr : (Shred.shredCode (copyShred d index c)).variant.resignedBytes =
    (Shred.shredData d).variant.resignedBytes := rfl
  have hend : bodyEnd .code (Shred.shredCode (copyShred d index c)).variant =
      bodyEnd .data (Shred.shredData d).variant + 25 := by
    have hle := lt_bodyEnd .data hd.valid
    have h1 : sizeOfPayload .code = 1228 := rfl
    have h2 : sizeOfPayload .data = 1203 := rfl
    unfold bodyEnd at hle ⊢
    omega
  have hstart : erasureShardStartOffset .code = erasureShardStartOffset .data + 25 := rfl
  cases R <;> simp only [Region.lo, Region.hi, ne_eq, not_true_eq_false] at hR ⊢ <;> omega

theorem part_copyShred (hd : (Shred.shredData d).Shaped) {R : Region} (hR : R ≠ .front) :
    (Shred.shredCode (copyShred d index c)).part R = (Shred.shredData d).part R := by
  obtain ⟨hlo, hhi⟩ := @offsets_copyShred d index c hd R hR
  have hlo64 : 64 ≤ R.lo .data (Shred.shredData d).variant := Region.signature_le_lo .data hd.valid hR
  have hle := Region.lo_le_hi .data hd.valid R
  change slice (writeCodingHeaders ((copyShred d index c).commonHeader, c) ++
    d.payload.bytes.drop sizeOfSignature) (R.lo .code _) (R.hi .code _) =
      slice d.payload.bytes (R.lo .data _) (R.hi .data _)
  rw [hlo, hhi, slice_append_right (by rw [length_writeCodingHeaders]; omega),
    length_writeCodingHeaders, slice_drop]
  congr 1 <;> simp only [sizeOfSignature] <;> omega

theorem sameBatch_copyShred (hd : (Shred.shredData d).Shaped) :
    SameBatch (.shredCode (copyShred d index c)) (.shredData d) where
  signature := rfl
  slot := rfl
  version := rfl
  fecSetIndex := rfl
  proofSize := rfl
  resigned := rfl
  chainedRoot := part_copyShred hd (by decide)
  retransmitter := part_copyShred hd (by decide)

end

/-- The batch of one data shred and its copies, whose indices start at `first`. -/
def replicated (d : ShredData) (first p : Nat) : List Shred :=
  .shredData d :: (List.range p).map fun j => .shredCode (copyShred d (UInt32.ofNat (first + j))
    { numDataShreds := 1, numCodingShreds := UInt16.ofNat p, position := UInt16.ofNat j })

theorem of_mem_replicated {d : ShredData} {first p : Nat} (hd : (Shred.shredData d).WellFormed)
    (hindex : d.commonHeader.index = d.commonHeader.fecSetIndex) (hn : p ≤ 255)
    (hfirst : first + p ≤ 32768) {s : Shred} (hs : s ∈ replicated d first p) :
    s.WellFormed ∧ SameBatch s (.shredData d) ∧ s.part .shard = (Shred.shredData d).part .shard := by
  rcases List.mem_cons.mp hs with rfl | hs
  · exact ⟨hd, ⟨rfl, rfl, rfl, rfl, rfl, rfl, rfl, rfl⟩, rfl⟩
  · obtain ⟨j, hj, rfl⟩ := List.mem_map.mp hs
    have hj' := List.mem_range.mp hj
    have hp16 : (UInt16.ofNat p).toNat = p := toNat_u16 (by omega)
    have hj16 : (UInt16.ofNat j).toNat = j := toNat_u16 (by omega)
    have hidx : (UInt32.ofNat (first + j)).toNat = first + j := toNat_u32 (by omega)
    refine ⟨copyShred_wellFormed hd.toShaped ⟨⟨Nat.le_refl _, ?_⟩, ⟨?_, ?_⟩, ⟨?_, ?_⟩⟩,
      sameBatch_copyShred hd.toShaped, part_copyShred hd.toShaped (by decide)⟩
    · have hlt : d.commonHeader.index.toNat < maxDataShredsPerSlot := hd.sane.1
      rw [← hindex]
      exact hlt
    · rw [hj16, hp16]
      exact hj'
    · rw [hp16]
      exact Nat.le_trans hn (by decide)
    · rw [hj16, hidx]
      omega
    · rw [hj16, hidx, hp16, maxCodeShredsPerSlot, maxDataShredsPerSlot]
      omega

theorem replicated_consistent {d : ShredData} {first p : Nat} (hd : (Shred.shredData d).WellFormed)
    (hindex : d.commonHeader.index = d.commonHeader.fecSetIndex)
    (hps : d.commonHeader.shredVariant.proofSize = getProofSize (1 + p)) (hp : 1 ≤ p)
    (hn : p ≤ 255) (hfirst : first + p ≤ 32768) :
    ConsistentBatch (copies p) 1 p (replicated d first p) := by
  have hp16 : (UInt16.ofNat p).toNat = p := toNat_u16 (by omega)
  have hmem := fun (s : Shred) (hs : s ∈ replicated d first p) =>
    of_mem_replicated hd hindex hn hfirst hs
  refine { counts := ⟨Nat.le_refl _, hp, by omega⟩, length := ?_, accepted := ?_, shared := ?_,
           proofSize := ?_, data := ?_, coding := ?_, codeword := ?_ }
  · simp [replicated, Nat.add_comm]
  · exact fun s hs => Shred.accepted_iff.mpr (hmem s hs).1
  · intro s hs t ht
    obtain ⟨hws, hsd, -⟩ := hmem s hs
    obtain ⟨hwt, htd, -⟩ := hmem t ht
    refine ⟨?_, ?_, ?_, ?_, ?_, ?_, ?_⟩
    · rw [hsd.signature, htd.signature]
    · rw [hsd.slot, htd.slot]
    · rw [hsd.version, htd.version]
    · rw [hsd.fecSetIndex, htd.fecSetIndex]
    · rw [hsd.resigned, htd.resigned]
    · rw [hsd.chainedMerkleRoot_eq hws.toShaped hd.toShaped,
        htd.chainedMerkleRoot_eq hwt.toShaped hd.toShaped]
    · rw [hsd.retransmitterSignature_eq hws.toShaped hd.toShaped,
        htd.retransmitterSignature_eq hwt.toShaped hd.toShaped]
  · intro s hs
    obtain ⟨hws, hsd, -⟩ := hmem s hs
    rw [hws.toShaped.proofSize, hsd.proofSize]
    exact congrArg Except.ok hps
  · intro i hi
    have hi0 : i = 0 := by omega
    subst hi0
    exact ⟨d, rfl, by rw [hindex]; rfl⟩
  · refine ⟨first, fun j hj => ⟨copyShred d (UInt32.ofNat (first + j))
      { numDataShreds := 1, numCodingShreds := UInt16.ofNat p, position := UInt16.ofNat j },
      ?_, rfl, hp16, toNat_u16 (by omega),
      toNat_u32 (by omega)⟩⟩
    rw [replicated, Nat.add_comm 1 j, List.getElem?_cons_succ, List.getElem?_map,
      List.getElem?_range hj]
    rfl
  · refine ⟨List.replicate (1 + p) ((Shred.shredData d).part .shard), ?_, ?_⟩
    · rw [mapM_eq_ok, List.forall₂_iff_get]
      refine ⟨by simp [replicated, Nat.add_comm], fun i h1 h2 => ?_⟩
      obtain ⟨hws, -, hshard⟩ := hmem _ (List.getElem_mem h1)
      simp only [List.get_eq_getElem, List.getElem_replicate, hws.toShaped.erasureShard, hshard]
    · rw [List.drop_replicate, List.take_replicate, copies]
      simp [List.flatten_replicate_singleton]

/-- A data shred of slot 1, alone in its batch, that holds `size - 88` zeros. -/
def plainData (proofSize : UInt8) (size : UInt16) : ShredData :=
  dataShred
    { signature := ⟨List.replicate 64 0, List.length_replicate ..⟩
      shredVariant := .merkleData proofSize false, slot := 1, index := 0, version := 0
      fecSetIndex := 0 }
    { parentOffset := 1, flags := .empty, size } (List.replicate 1115 0)

theorem plainData_shaped {proofSize : UInt8} (size : UInt16) (hps : proofSize.toNat < 16) :
    (Shred.shredData (plainData proofSize size)).Shaped :=
  dataShred_shaped _ rfl hps (List.length_replicate ..)

theorem plainData_wellFormed {proofSize : UInt8} {size : UInt16} (hps : proofSize.toNat < 16)
    (hsize : 88 ≤ size.toNat ∧ size.toNat ≤ 700) :
    (Shred.shredData (plainData proofSize size)).WellFormed := by
  have hend := lt_bodyEnd .data (plainData_shaped size hps).valid
  have hindex : (0 : UInt32).toNat < maxDataShredsPerSlot := by decide
  have hflags : ShredFlags.empty.intersects .lastShredInSlot = true →
    ShredFlags.empty.contains .dataCompleteShred = true := by decide
  have hparent : ((1 : UInt16) = 0 → (1 : UInt64) = 0) ∧
    (1 : UInt16).toNat ≤ (1 : UInt64).toNat := by decide
  exact dataShred_wellFormed rfl hps (List.length_replicate ..) ⟨hindex, Nat.le_refl _,
    hflags, ⟨hsize.1, Nat.le_trans hsize.2 (Nat.le_of_lt hend)⟩, hparent⟩

/-- A plain data shred with two copies, of the given coding indices. -/
def twoCopies (i j : UInt32) : List Shred := [.shredData (plainData 2 88),
  .shredCode (copyShred (plainData 2 88) i
    { numDataShreds := 1, numCodingShreds := 2, position := 0 }),
  .shredCode (copyShred (plainData 2 88) j
    { numDataShreds := 1, numCodingShreds := 2, position := 1 })]

section TwoCopies
variable {i j : UInt32}

theorem mem_twoCopies {s : Shred} : s ∈ twoCopies i j ↔ s = .shredData (plainData 2 88) ∨
    s = .shredCode (copyShred (plainData 2 88) i
      { numDataShreds := 1, numCodingShreds := 2, position := 0 }) ∨
    s = .shredCode (copyShred (plainData 2 88) j
      { numDataShreds := 1, numCodingShreds := 2, position := 1 }) := by
  simp only [twoCopies, List.mem_cons, List.not_mem_nil, or_false]

theorem twoCopies_sealable (hi : i.toNat ≤ 32766) (hj : 1 ≤ j.toNat ∧ j.toNat ≤ 32767) :
    Sealable (twoCopies i j) := by
  have hdepth : depth 3 = 2 := by
    rw [depth_of_two_le (by decide), depth_of_two_le (by decide), depth_of_le_one (by decide)]
  have hdata : (Shred.shredData (plainData 2 88)).WellFormed :=
    plainData_wellFormed (by decide) (by decide)
  have hmax : maxCodeShredsPerSlot = 32768 := rfl
  have h0 : (0 : UInt16).toNat = 0 := rfl
  have h1 : (1 : UInt16).toNat = 1 := rfl
  have h2 : (2 : UInt16).toNat = 2 := rfl
  intro s hs
  rcases mem_twoCopies.mp hs with rfl | rfl | rfl
  · exact ⟨hdata, hdepth.symm⟩
  · refine ⟨copyShred_wellFormed hdata.toShaped ⟨by decide, by decide, ?_⟩, hdepth.symm⟩
    simp only [h0, h2, hmax]
    omega
  · refine ⟨copyShred_wellFormed hdata.toShaped ⟨by decide, by decide, ?_⟩, hdepth.symm⟩
    simp only [h1, h2, hmax]
    omega

theorem twoCopies_agreeing (i j : UInt32) : Agreeing (twoCopies i j) := by
  have hall : ∀ s ∈ twoCopies i j, s.commonHeader.slot = 1 ∧ s.commonHeader.version = 0 ∧
      s.commonHeader.fecSetIndex = 0 ∧ s.variant.proofSize = 2 ∧ s.variant.resigned = false := by
    intro s hs
    rcases mem_twoCopies.mp hs with rfl | rfl | rfl <;> exact ⟨rfl, rfl, rfl, rfl, rfl⟩
  have hcode : ∀ c : ShredCode, .shredCode c ∈ twoCopies i j →
      c.codingHeader.numDataShreds = 1 ∧ c.codingHeader.numCodingShreds = 2 := by
    intro c hc
    simp only [mem_twoCopies, reduceCtorEq, false_or, Shred.shredCode.injEq] at hc
    rcases hc with rfl | rfl <;> exact ⟨rfl, rfl⟩
  refine ⟨fun s hs t ht => ?_, fun s hs t ht => ?_, fun a b ha hb => ?_⟩
  · obtain ⟨h1, h2, h3, -⟩ := hall s hs
    obtain ⟨k1, k2, k3, -⟩ := hall t ht
    exact ⟨h1.trans k1.symm, h2.trans k2.symm, h3.trans k3.symm⟩
  · obtain ⟨-, -, -, h4, h5⟩ := hall s hs
    obtain ⟨-, -, -, k4, k5⟩ := hall t ht
    exact ⟨h4.trans k4.symm, h5.trans k5.symm⟩
  · obtain ⟨h1, h2⟩ := hcode a ha
    obtain ⟨k1, k2⟩ := hcode b hb
    exact ⟨h1.trans k1.symm, h2.trans k2.symm⟩

theorem twoCopies_sorted (hij : i.toNat ≤ j.toNat) : Sorted (twoCopies i j) := by
  simp only [Sorted, twoCopies, List.pairwise_cons, List.mem_cons, List.not_mem_nil, or_false,
    forall_eq_or_imp, forall_eq, isLe_iff]
  exact ⟨⟨.inl ⟨rfl, rfl⟩, .inl ⟨rfl, rfl⟩⟩, .inr ⟨rfl, hij⟩, by simp, .nil⟩

theorem twoCopies_position (k : Nat) (s : Shred) (hs : (twoCopies i j)[k]? = some s) :
    s.position = k := by
  match k, hs with
  | 0, hs => cases hs; rfl
  | 1, hs => cases hs; rfl
  | 2, hs => cases hs; rfl

/-- They pass for a whole batch, whatever their two indices and the first two proofs are, if
the last one stores the proof of its place. -/
theorem recover_twoCopies_reproved {H : Hasher} {srt : ShredSort} {l : List Shred} {L : ShredCode}
    (hi : i.toNat ≤ 32766) (hj : 1 ≤ j.toNat ∧ j.toNat ≤ 32767) (hij : i.toNat ≤ j.toNat)
    (h : Reproved l (twoCopies i j)) (hlast : l[2]? = some (.shredCode L))
    (hproof : (Shred.shredCode L).merkleProof = .ok (batchProof H (twoCopies i j) 2)) :
    recover H replicationCache srt l = .ok [] := by
  have hdata := (plainData_wellFormed (show (2 : UInt8).toNat < 16 by decide)
    (show 88 ≤ (88 : UInt16).toNat ∧ (88 : UInt16).toNat ≤ 700 by decide)).toShaped
  obtain ⟨hcommon, hcoding⟩ : L.commonHeader.signature = (plainData 2 88).commonHeader.signature ∧
      L.codingHeader = { numDataShreds := 1, numCodingShreds := 2, position := 1 } := by
    obtain ⟨hlen, hall⟩ := List.forall₂_iff_get.mp h
    obtain ⟨h2, hget⟩ := List.getElem?_eq_some_iff.mp hlast
    obtain ⟨d, hd, -⟩ := hall 2 h2 (hlen ▸ h2)
    rw [List.get_eq_getElem, hget] at hd
    cases hd
    exact ⟨rfl, rfl⟩
  refine recover_reproved_copies h (fun b hb => (twoCopies_sealable hi hj b hb).1)
    (twoCopies_sorted hij) (by rw [List.getLast?_eq_getElem?, h.length_eq]; exact hlast) ?_
    twoCopies_position ?_ ?_ ?_ (w := (Shred.shredData (plainData 2 88)).part .shard) ?_ hproof
  · intro s hs
    rw [hcommon]
    rcases mem_twoCopies.mp hs with rfl | rfl | rfl <;> rfl
  · rw [ShredCode.numShards, hcoding]
    rfl
  · rw [hcoding]
    rfl
  · rw [hcoding]
    decide
  · intro s hs
    rcases mem_twoCopies.mp hs with rfl | rfl | rfl
    · rfl
    · exact part_copyShred hdata (by decide)
    · exact part_copyShred hdata (by decide)

theorem recover_twoCopies {H : Hasher} {srt : ShredSort} (hi : i.toNat ≤ 32766)
    (hj : 1 ≤ j.toNat ∧ j.toNat ≤ 32767) (hij : i.toNat ≤ j.toNat) :
    recover H replicationCache srt (sealBatch H (twoCopies i j)) = .ok [] := by
  have hseal := twoCopies_sealable hi hj
  obtain ⟨L, hL⟩ : ∃ L : ShredCode, (sealBatch H (twoCopies i j))[2]? = some (.shredCode L) :=
    ⟨_, rfl⟩
  exact recover_twoCopies_reproved hi hj hij (hseal.reproved H) hL (hseal.merkleProof hL)

end TwoCopies

end Building

section PlainBatch

/-- The hash function of the source. -/
def sha256Hasher : Hasher := ⟨Sha256.sha256⟩

/-- One of the sorts that the source may run on. -/
def stableSort : ShredSort := UnstableSort.stable isLe_trans isLe_total

/-- A plain data shred with `p` copies, sealed. -/
def plainBatch (H : Hasher) (first p : Nat) : List Shred :=
  sealBatch H (replicated (plainData (getProofSize (1 + p)) 88) first p)

theorem getProofSize_lt {n : Nat} (h1 : 1 ≤ n) (h2 : n ≤ 256) : (getProofSize n).toNat < 16 := by
  have hle : depth n ≤ 8 := Nat.clog_le_of_le_pow (by omega)
  rw [getProofSize_eq_depth h1 (by omega)]
  omega

theorem plainBatch_complete (H : Hasher) (first : Nat) {p : Nat} (hp : 1 ≤ p) (hn : p ≤ 255)
    (hfirst : first + p ≤ 32768) : CompleteBatch H (copies p) 1 p (plainBatch H first p) := by
  have hwf : (Shred.shredData (plainData (getProofSize (1 + p)) 88)).WellFormed :=
    plainData_wellFormed (getProofSize_lt (by omega) (by omega)) (by decide)
  exact (replicated_consistent hwf rfl rfl hp hn hfirst).complete H

theorem plainBatch_copies (H : Hasher) (first : Nat) {p : Nat} (hp : 1 ≤ p) :
    ((plainBatch H first p).drop 1).Subperm (plainBatch H first p) ∧
      1 ≤ ((plainBatch H first p).drop 1).length ∧
      ∃ s ∈ (plainBatch H first p).drop 1, s.kind = .code := by
  have hlen : ((plainBatch H first p).drop 1).length = p := by
    simp [plainBatch, length_sealBatch, replicated]
  refine ⟨(List.drop_sublist _ _).subperm, by omega, ?_⟩
  obtain ⟨s, hs⟩ : ∃ s, ((plainBatch H first p).drop 1)[0]? = some s :=
    ⟨_, List.getElem?_eq_getElem (by omega)⟩
  refine ⟨s, List.mem_of_getElem? hs, ?_⟩
  rw [List.getElem?_drop] at hs
  obtain ⟨b, hb, rfl⟩ := getElem?_sealBatch hs
  rw [replicated, Nat.add_comm 1 0, List.getElem?_cons_succ, List.getElem?_map,
    List.getElem?_range hp] at hb
  cases hb
  exact Shred.kind_withPart ..

section PlainCopies
variable (H : Hasher) (first : Nat) {p : Nat}

theorem plainCopies_accepted (hp : 1 ≤ p) (hn : p ≤ 255) (hfirst : first + p ≤ 32768) (s : Shred)
    (hs : s ∈ (plainBatch H first p).drop 1) : s.Accepted :=
  (plainBatch_complete H first hp hn hfirst).accepted s (List.mem_of_mem_drop hs)

theorem plainCopies_agreeing (hp : 1 ≤ p) (hn : p ≤ 255) (hfirst : first + p ≤ 32768) :
    Agreeing ((plainBatch H first p).drop 1) :=
  (plainBatch_complete H first hp hn hfirst).agreeing.mono fun _ hs => List.mem_of_mem_drop hs

theorem recover_plainCopies {srt : ShredSort} (hp : 1 ≤ p) (hn : p ≤ 255)
    (hfirst : first + p ≤ 32768) :
    recover H replicationCache srt ((plainBatch H first p).drop 1) =
      .ok (((plainBatch H first p).filter (· ∉ (plainBatch H first p).drop 1)).map .ok) := by
  obtain ⟨hsub, hlen, hcode⟩ := plainBatch_copies H first hp
  exact (plainBatch_complete H first hp hn hfirst).recover_eq
    (replicationCache_correct hp hn) hsub hlen hcode

end PlainCopies

end PlainBatch

section ThreeCopies

/-- Three coding shreds, each a copy of one data shred. -/
def threeCopies : List Shred := (plainBatch sha256Hasher 0 3).drop 1

theorem threeCopies_complete :
    CompleteBatch sha256Hasher (copies 3) 1 3 (plainBatch sha256Hasher 0 3) :=
  plainBatch_complete sha256Hasher 0 (by decide) (by decide) (by decide)

theorem mem_of_threeCopies {s : Shred} (hs : s ∈ threeCopies) : s ∈ plainBatch sha256Hasher 0 3 :=
  List.mem_of_mem_drop hs

theorem length_threeCopies : threeCopies.length = 3 := by
  rw [threeCopies, List.length_drop, threeCopies_complete.length]

theorem threeCopies_subperm : threeCopies.Subperm (plainBatch sha256Hasher 0 3) :=
  (List.drop_sublist 1 _).subperm

theorem exists_code_threeCopies : ∃ L, .shredCode L ∈ threeCopies := by
  obtain ⟨-, -, s, hs, hk⟩ := plainBatch_copies sha256Hasher 0 (show 1 ≤ 3 by decide)
  cases s with
  | shredData d => cases hk
  | shredCode L => exact ⟨L, hs⟩

theorem threeCopies_accepted (s : Shred) (hs : s ∈ threeCopies) : s.Accepted :=
  threeCopies_complete.accepted s (mem_of_threeCopies hs)

theorem threeCopies_agreeing : Agreeing threeCopies :=
  threeCopies_complete.agreeing.mono fun _ => mem_of_threeCopies

theorem replicationCache_three : CodecCorrect replicationCache 1 3 (copies 3) :=
  replicationCache_correct (by decide) (by decide)

theorem recover_threeCopies {srt : ShredSort} :
    recover sha256Hasher replicationCache srt threeCopies =
      .ok (((plainBatch sha256Hasher 0 3).filter (· ∉ threeCopies)).map .ok) :=
  recover_plainCopies sha256Hasher 0 (by decide) (by decide) (by decide)

end ThreeCopies

end LightweightShred
