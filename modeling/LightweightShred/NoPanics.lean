import LightweightShred.Sizes
import LightweightShred.Parsing
import LightweightShred.Hashing

/-!
# When recovery does not panic

The bounds that the parser proved about one shred carry the unchecked steps of the run: the
indices of the stubs, the accesses to the mask, the slices behind the guards. The codec and
the cache may return any error. What is left is `hashv`, which returns in some builds only.
-/
namespace LightweightShred
open ByteString Rust Codec Slots HashTree

section Stages
variable {stub : Nat → Result Shred} {stubAt : Nat → Shred} {n : Nat}

theorem noPanic_pushStubs (hstub : ∀ p < n, stub p = .ok (stubAt p)) {turns : Nat}
    {batch : List Shred} (h : batch.length + turns ≤ n) : NoPanic (pushStubs stub turns batch) :=
  noPanic_of_eq_ok (pushStubs_eq hstub h)

/-- Every access to the mask is below `n`, and every stub that is made is for a place below. -/
theorem noPanic_place_fill {signature : Signature} {l : List Shred}
    (hpos : ∀ s ∈ l, s.erasureShardIndex = .ok s.position)
    (hstub : ∀ p < n, stub p = .ok (stubAt p)) {batch : List Shred} {mask : List Bool}
    (hb : batch.length ≤ n) (hm : mask.length = n) :
    NoPanic (do
      let (batch, mask) ← placeShreds stub signature n l (batch, mask)
      let batch ← pushStubs stub (n - batch.length) batch
      pure (batch, mask)) := by
  induction l generalizing batch mask with
  | nil => exact (noPanic_pushStubs hstub (by omega)).bind fun _ _ => noPanic_pure _
  | cons s l ih =>
      rw [placeShreds_cons (hpos s List.mem_cons_self) hstub hm]
      split
      · exact noPanic_fail _
      · split
        · exact noPanic_fail _
        · rename_i hrange
          obtain ⟨hge, hlt⟩ := not_not.mp hrange
          exact ih (fun t ht => hpos t (List.mem_cons_of_mem _ ht)) (by rw [length_placed hge]; omega)
            (by rw [List.length_set, hm])

theorem noPanic_fillBatch {signature : Signature} {l : List Shred}
    (hpos : ∀ s ∈ l, s.erasureShardIndex = .ok s.position)
    (hstub : ∀ p < n, stub p = .ok (stubAt p)) : NoPanic (fillBatch stub signature n l) :=
  noPanic_place_fill hpos hstub (Nat.zero_le _) (List.length_replicate ..)

theorem noPanic_fillCounting {signature : Signature} {l : List Shred} (numDataShreds : Nat)
    (h : NoPanic (fillBatch stub signature n l)) :
    NoPanic (placeShredsCounting stub signature numDataShreds n l
        ([], List.replicate n false, 0)) ∧
      ∀ placed mask count, placeShredsCounting stub signature numDataShreds n l
          ([], List.replicate n false, 0) = .ok (placed, mask, count) →
        NoPanic (pushStubsCounting stub numDataShreds (n - placed.length) placed count) := by
  obtain ⟨hplace, hpush⟩ := noPanic_bind_iff.mp h
  rw [← placeShredsCounting_fst stub numDataShreds signature n l [] _ 0] at hplace
  refine ⟨noPanic_map_iff.mp hplace, fun placed mask count hp => ?_⟩
  have hfirst := placeShredsCounting_fst stub numDataShreds signature n l []
    (List.replicate n false) 0
  rw [hp] at hfirst
  have hnext := (noPanic_bind_iff.mp (hpush (placed, mask) hfirst.symm)).1
  rw [← pushStubsCounting_fst stub numDataShreds _ _ count] at hnext
  exact noPanic_map_iff.mp hnext

theorem noPanic_reconstructBatch {cache : ReedSolomonCache} {numData numCoding : Nat}
    {f : Nat → Shred} {m : Nat → Bool} (hf : ∀ i < n, (f i).Shaped) :
    NoPanic (reconstructBatch cache numData numCoding ((List.range n).map f)
      ((List.range n).map m)) := by
  rw [reconstructBatch_eq hf]
  exact (noPanic_liftErr _ _).bind fun _ _ => (noPanic_liftErr _ _).bind fun _ _ => noPanic_pure _

theorem noPanic_lastCodingShred (l : List Shred) : NoPanic (lastCodingShred l) := by
  unfold lastCodingShred
  split
  · exact noPanic_ok _
  · exact noPanic_fail _

theorem Shred.noPanic_sanitize (s : Shred) : NoPanic s.sanitize := by
  cases s with
  | shredCode s => exact s.noPanic_sanitize
  | shredData s => exact s.noPanic_sanitize

theorem noPanic_checkRecovered (numDataShreds index : Nat) (s : Shred) :
    NoPanic (checkRecovered numDataShreds index s) := by
  have hdone : ∀ t : Shred, NoPanic (do t.sanitize; pure t : Result Shred) :=
    fun t => t.noPanic_sanitize.bind fun _ _ => noPanic_pure _
  unfold checkRecovered
  split
  · cases s with
    | shredCode s => exact (noPanic_fail _).bind fun t _ => hdone t
    | shredData s =>
        exact (noPanic_liftErr _ _).bind fun h _ => NoPanic.guard fun _ => hdone _
  · cases s with
    | shredCode s => exact hdone _
    | shredData s => exact (noPanic_fail _).bind fun t _ => hdone t

theorem noPanic_recoveredNode (H : Hasher) (numDataShreds index : Nat) (s : Shred) (mask : Bool) :
    NoPanic (recoveredNode H numDataShreds index s mask) := by
  have hnode : ∀ t : Shred, NoPanic (do let node ← t.merkleNode H; pure (t, node)) :=
    fun t => (t.noPanic_merkleNode H).bind fun _ _ => noPanic_pure _
  unfold recoveredNode
  split
  · exact hnode s
  · exact (noPanic_checkRecovered _ _ _).bind fun t _ => hnode t

/-- The loops over the levels read nodes that are there; only a leaf can be an error. -/
theorem MerkleTree.noPanic_tryNew (H : Hasher) {shreds : List (Result Hash)}
    (h : ∀ x ∈ shreds, NoPanic x) : NoPanic (tryNew H shreds) := by
  by_cases hok : ∃ L, L ≠ [] ∧ shreds = L.map .ok
  · obtain ⟨L, hne, rfl⟩ := hok
    exact noPanic_of_eq_ok (tryNew_ok H hne)
  · refine NoPanic.guard fun hz => (noPanic_mapM h).bind fun L hL => ?_
    obtain rfl := mapM_id_eq_ok.mp hL
    exact (hok ⟨L, fun hnil => hz (by rw [hnil]; rfl), rfl⟩).elim

theorem MerkleTree.noPanic_root {H : Hasher} {shreds : List (Result Hash)} {t : MerkleTree}
    (h : tryNew H shreds = .ok t) : NoPanic t.root := by
  obtain ⟨L, hne, -, ht⟩ := (tryNew_eq_ok H).mp h
  obtain ⟨r, hr⟩ := exists_level_depth (scheme H).join hne
  exact noPanic_of_eq_ok (root_eq H ht hr)

theorem noPanic_writeProof (proofSize : Nat) (es : List MerkleProofEntry) (k : Nat)
    (buffer : Bytes) (position : Nat) :
    NoPanic (writeProof proofSize (es.map .ok) k buffer position) := by
  induction es generalizing k buffer position with
  | nil => exact noPanic_ok _
  | cons e es ih => exact NoPanic.guard fun _ => NoPanic.guard fun _ => ih _ _ _

/-- The write behind the proof's offset stays inside the payload and keeps its length. -/
theorem Shred.Shaped.noPanic_setMerkleProof {s : Shred} (h : s.Shaped)
    (es : List MerkleProofEntry) : NoPanic (s.setMerkleProof (es.map .ok)) := by
  by_cases hes : es.length = s.variant.proofSize.toNat
  · exact noPanic_of_eq_ok (h.setMerkleProof_eq_ok.mpr ⟨hes, rfl⟩)
  · have hlo := h.proof_le_length
    rw [ShredVariant.proofBytes, sizeOfMerkleProofEntry] at hlo
    have hget : s.payload.getMut (.rangeFrom (Region.proof.lo s.kind s.variant)) =
        some (PayloadMutGuard.new s.payload (.rangeFrom (Region.proof.lo s.kind s.variant))) := rfl
    rw [setMerkleProof, h.proofSize, h.proofOffset]
    simp only [bind, Except.bind, hget, okOr, h.deref_proof]
    refine (noPanic_writeProof _ es 0 _ 0).bind fun r hr => ?_
    obtain ⟨-, rfl⟩ := (writeProof_eq_ok
      (by rw [length_slice (Nat.le_refl _)]; omega) (Nat.zero_le _)).mp hr
    rw [if_pos (by simp only [sizeOfMerkleProofEntry]; omega)]
    exact noPanic_fail _

end Stages

section Runs
variable {H : Hasher} {cache : ReedSolomonCache} {srt : ShredSort} {l : List Shred}

theorem noPanic_fill_last (hl : ∀ s ∈ l, s.WellFormed) {L : ShredCode}
    (hlast : l.getLast? = some (.shredCode L)) :
    NoPanic (fillBatch (makeStubShred L.headersOf) L.commonHeader.signature L.numShards l) :=
  noPanic_fillBatch (fun s hs => (hl s hs).sane.erasureShardIndex)
    fun _ hp => makeStubShred_eq (hl _ (List.mem_of_getLast? hlast)) hp

theorem noPanic_reconstruct_filled (hl : ∀ s ∈ l, s.WellFormed) {L : ShredCode}
    (hlast : l.getLast? = some (.shredCode L)) {batch : List Shred} {mask : List Bool}
    (hfill : fillBatch (makeStubShred L.headersOf) L.commonHeader.signature L.numShards l =
      .ok (batch, mask)) :
    NoPanic (reconstructBatch cache L.codingHeader.numDataShreds.toNat
      L.codingHeader.numCodingShreds.toNat batch mask) := by
  have hL := hl _ (List.mem_of_getLast? hlast)
  obtain ⟨-, hr⟩ := (fillBatch_eq_ok (fun s hs => (hl s hs).sane.erasureShardIndex)
    fun _ hp => makeStubShred_eq hL hp).mp hfill
  cases hr
  exact noPanic_reconstructBatch fun i _ => shaped_fillAt hL.toShaped hl i

theorem noPanic_recover (hl : ∀ s ∈ l, s.WellFormed) : NoPanic (recover H cache srt l) := by
  have hsl := @wellFormed_sortShreds srt l hl
  unfold recover
  generalize sortShreds srt l = sl at hsl ⊢
  refine (noPanic_lastCodingShred sl).bind fun L hlast => ?_
  have hlast := lastCodingShred_eq_ok.mp hlast
  rw [stubHeaders_eq (hsl _ (List.mem_of_getLast? hlast))]
  refine (noPanic_ok _).bind fun headers hh => ?_
  cases hh
  refine (Shred.noPanic_merkleRoot H _).bind fun merkleRoot _ => NoPanic.guard fun _ => ?_
  refine (noPanic_fill_last hsl hlast).bind fun filled hfill => ?_
  refine (noPanic_reconstruct_filled hsl hlast hfill).bind fun batch _ => ?_
  have hnodes : ∀ node ∈ (batch.zip filled.2).mapIdx fun index x =>
      recoveredNode H L.codingHeader.numDataShreds.toNat index x.1 x.2, NoPanic node := by
    intro node hnode
    obtain ⟨i, hi, rfl⟩ := List.mem_mapIdx.mp hnode
    exact noPanic_recoveredNode _ _ _ _ _
  refine (MerkleTree.noPanic_tryNew H fun x hx => ?_).bind fun tree htree => ?_
  · obtain ⟨node, hnode, rfl⟩ := List.mem_map.mp hx
    exact (hnodes node hnode).map _
  refine (MerkleTree.noPanic_root htree).bind fun root _ => NoPanic.guard fun _ => ?_
  exact (noPanic_mapM fun node hnode => (hnodes node hnode).map _).bind fun _ _ => noPanic_pure _

theorem Recovers.noPanic_item {L : ShredCode} {shards : List Bytes} {root : Hash}
    {items : List (Result Shred)} (h : Recovers H cache l L shards root items)
    (hl : ∀ s ∈ l, s.WellFormed) {item : Result Shred} (hitem : item ∈ items) : NoPanic item := by
  rw [h.items] at hitem
  obtain ⟨i, hi, rfl⟩ := List.mem_map.mp hitem
  exact (h.shaped_completed hl (mem_missing_iff.mp hi).1).noPanic_setMerkleProof _

theorem noPanic_recoverDataOnly (hl : ∀ s ∈ l, s.WellFormed) :
    NoPanic (recoverDataOnly cache srt l) := by
  have hsl := @wellFormed_sortShreds srt l hl
  unfold recoverDataOnly
  generalize sortShreds srt l = sl at hsl ⊢
  refine (noPanic_lastCodingShred sl).bind fun L hlast => ?_
  have hlast := lastCodingShred_eq_ok.mp hlast
  rw [stubHeaders_eq (hsl _ (List.mem_of_getLast? hlast))]
  refine (noPanic_ok _).bind fun headers hh => ?_
  cases hh
  obtain ⟨hplace, hpush⟩ := noPanic_fillCounting L.codingHeader.numDataShreds.toNat
    (noPanic_fill_last hsl hlast)
  refine hplace.bind fun placed hp => (hpush _ _ _ hp).bind fun filled hf => ?_
  have hfill := (fillCounting_eq_ok (makeStubShred L.headersOf)
    L.codingHeader.numDataShreds.toNat).mp ⟨_, _, hp, _, hf⟩
  exact (noPanic_reconstruct_filled hsl hlast hfill).bind fun _ _ => noPanic_pure _

end Runs

section Builds
variable {V : Hashv} {cache : ReedSolomonCache} {srt : ShredSort} {l : List Shred} {s : Shred}

theorem Shred.WellFormed.merkleRoot_panics (h : s.WellFormed) (hV : V.Panics) :
    V.merkleRoot s = .error .panic := by
  obtain ⟨es, hes⟩ := h.exists_merkleProof
  rw [Shred.merkleProof, h.proofSize, h.proofOffset] at hes
  have hproof : getMerkleProof s.payload.bytes (Region.proof.lo s.kind s.variant)
      s.variant.proofSize = .ok es := hes
  rw [Hashv.merkleRoot, h.proofSize, h.sane.erasureShardIndex, h.proofOffset]
  simp only [bind, Except.bind, hproof, Hashv.getMerkleNode, h.slice?_leaf, okOr, hV _, unwrap]

/-- The first hash is the one for the root of the last coding shred. -/
theorem noPanic_recover_iff (hV : V.Panics) (hl : ∀ s ∈ l, s.WellFormed) :
    NoPanic (V.recover cache srt l) ↔ ∀ s ∈ l, s.kind = .data := by
  have hperm := sortShreds_perm srt l
  have hcode := exists_last_code (sorted_sortShreds srt l)
  by_cases hsome : ∃ L, (sortShreds srt l).getLast? = some (.shredCode L)
  · obtain ⟨s, hs, hk⟩ := hcode.mp hsome
    obtain ⟨L, hL⟩ := hsome
    have hwL := hl _ (hperm.mem_iff.mp (List.mem_of_getLast? hL))
    have hpanic : V.recover cache srt l = .error .panic := by
      rw [Hashv.recover, lastCodingShred_eq_ok.mpr hL]
      simp only [bind, Except.bind, stubHeaders_eq hwL, hwL.merkleRoot_panics hV]
    refine iff_of_false (fun h => h hpanic) fun hdata => ?_
    rw [hdata s (hperm.mem_iff.mp hs)] at hk
    cases hk
  · refine iff_of_true ?_ fun s hs => ?_
    · refine (noPanic_lastCodingShred _).bind fun L hL => ?_
      exact (hsome ⟨L, lastCodingShred_eq_ok.mp hL⟩).elim
    · cases hk : s.kind with
      | data => rfl
      | code => exact (hsome (hcode.mpr ⟨s, hperm.mem_iff.mpr hs, hk⟩)).elim

end Builds

/-- Both entry points end with a value or an error, so does every item of the iterator, and no sum
of sizes leaves the machine word. -/
structure RecoveryEnds (V : Hashv) (cache : ReedSolomonCache) (srt : ShredSort) (l : List Shred) :
    Prop where
  recover : NoPanic (V.recover cache srt l)
  items : ∀ items, V.recover cache srt l = .ok items → ∀ item ∈ items, NoPanic item
  dataOnly : NoPanic (recoverDataOnly cache srt l)
  sizes : ∀ L : ShredCode, .shredCode L ∈ l → SizesFit L.numDataShreds L.numShards

theorem recoveryEnds_of_returns {V : Hashv} {H : Hasher} (hV : V.Returns H)
    {cache : ReedSolomonCache} {srt : ShredSort} {l : List Shred} (hl : ∀ s ∈ l, s.WellFormed) :
    RecoveryEnds V cache srt l := by
  refine ⟨?_, fun items hr item hitem => ?_, noPanic_recoverDataOnly hl, fun L hL => ?_⟩
  · rw [hV.recover]
    exact noPanic_recover hl
  · rw [hV.recover] at hr
    obtain ⟨L, shards, root, hR⟩ := (recover_eq_ok hl).mp hr
    exact hR.noPanic_item (wellFormed_sortShreds hl) hitem
  · obtain ⟨-, -, -, hd, -, hn⟩ := numbers (hl _ hL).sane
    have h1 := L.codingHeader.numDataShreds.toNat_lt
    have h2 := L.codingHeader.numCodingShreds.toNat_lt
    rw [ShredCode.numDataShreds] at hd hn
    exact sizesFit (by omega) (by omega)

/-- On accepted shreds, in whatever mixture and order, recovery ends without a panic exactly if
the build turns the feature `sha2` of the hash function on, or there is no coding shred and so
nothing to hash. -/
theorem recovery_never_panics_iff (H : Hasher) (sha2 : Bool) (cache : ReedSolomonCache)
    (srt : ShredSort) (l : List Shred) (hl : ∀ s ∈ l, s.Accepted) :
    RecoveryEnds (H.hashv sha2) cache srt l ↔ sha2 = true ∨ ∀ s ∈ l, s.kind = .data := by
  have hwf : ∀ s ∈ l, s.WellFormed := fun s hs => Shred.accepted_iff.mp (hl s hs)
  cases sha2 with
  | true => exact iff_of_true (recoveryEnds_of_returns H.returns_hashv hwf) (.inl rfl)
  | false =>
      have hiff := @noPanic_recover_iff _ cache srt l H.panics_hashv hwf
      refine ⟨fun h => .inr (hiff.mp h.recover), ?_⟩
      rintro (hon | hdata)
      · cases hon
      · have hends := @recoveryEnds_of_returns _ H H.returns_hashv cache srt l hwf
        refine ⟨hiff.mpr hdata, fun items hr => ?_, hends.dataOnly, hends.sizes⟩
        obtain ⟨L, hL, -⟩ := bind_eq_ok.mp hr
        have hmem := List.mem_of_getLast? (lastCodingShred_eq_ok.mp hL)
        cases hdata _ ((sortShreds_perm srt l).mem_iff.mp hmem)

/-- Three copies of a data shred, with the feature and without it. -/
theorem recovery_never_panics_iff_copies :
    RecoveryEnds (sha256Hasher.hashv true) replicationCache stableSort threeCopies ∧
      ¬RecoveryEnds (sha256Hasher.hashv false) replicationCache stableSort threeCopies := by
  constructor
  · exact (recovery_never_panics_iff sha256Hasher true replicationCache stableSort _
      threeCopies_accepted).mpr (.inl rfl)
  · intro hends
    obtain ⟨L, hL⟩ := exists_code_threeCopies
    have hdata := ((recovery_never_panics_iff sha256Hasher false replicationCache stableSort _
      threeCopies_accepted).mp hends).resolve_left nofun
    cases hdata _ hL

/-- As shipped, the copy of a data shred is enough for a panic. -/
theorem recovery_panics_as_shipped :
    (∀ s ∈ (plainBatch sha256Hasher 0 1).drop 1, s.Accepted) ∧
    (sha256Hasher.hashv false).recover replicationCache stableSort
      ((plainBatch sha256Hasher 0 1).drop 1) = .error .panic := by
  have hacc := plainCopies_accepted sha256Hasher 0 (p := 1) le_rfl (by decide) (by decide)
  refine ⟨hacc, ?_⟩
  by_contra hnot
  obtain ⟨-, -, s, hs, hk⟩ := plainBatch_copies sha256Hasher 0 (p := 1) le_rfl
  have hdata := (noPanic_recover_iff sha256Hasher.panics_hashv
    fun s hs => Shred.accepted_iff.mp (hacc s hs)).mp hnot s hs
  rw [hk] at hdata
  cases hdata

end LightweightShred
