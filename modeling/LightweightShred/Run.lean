import LightweightShred.Completion

/-!
# A run of the recovery functions

Both functions place the sorted shreds, reconstruct the missing shards and complete the
batch. What each of them accepts and returns is then said about the completed batch.
-/
namespace LightweightShred
open ByteString Rust Codec Slots HashTree

/-- The shards that go into the codec, and which of them are given. -/
def codecInput (L : ShredCode) (l : List Shred) : List (Bytes × Bool) :=
  (List.range L.numShards).map fun i => ((fillAt L.stubAt l i).part .shard, present l i)

/-- The sorted list `l` with last shred `L` is placed, and the codec returns `shards`. -/
structure Reconstructs (cache : ReedSolomonCache) (l : List Shred) (L : ShredCode)
    (shards : List Bytes) : Prop where
  last : l.getLast? = some (.shredCode L)
  placeable : Placeable L.commonHeader.signature L.numShards l
  codec : ∃ codec, cache.new L.codingHeader.numDataShreds.toNat
    L.codingHeader.numCodingShreds.toNat = .ok codec ∧
      codec.reconstruct (codecInput L l) = .ok shards

/-- The shred at a position after reconstruction. -/
def rebuilt (L : ShredCode) (l : List Shred) (shards : List Bytes) (i : Nat) : Shred :=
  (fillAt L.stubAt l i).withPart .shard (shards.getD i [])

/-- The shred at a position once its data header has been read. -/
def completed (L : ShredCode) (l : List Shred) (shards : List Bytes) (i : Nat) : Shred :=
  (rebuilt L l shards i).reparsed

/-- The leaf nodes of the tree over the completed batch. -/
def leafNodes (H : Hasher) (L : ShredCode) (l : List Shred) (shards : List Bytes) : List Hash :=
  (List.range L.numShards).map fun i => H.sha256 (leafPreimage (completed L l shards i).leaf)

/-- The positions that are reconstructed. -/
def missingAt (L : ShredCode) (l : List Shred) : List Nat := missing Shred.position l L.numShards

/-- The reconstructed positions among the data shreds. -/
def missingData (L : ShredCode) (l : List Shred) : List Nat :=
  missing Shred.position l L.numDataShreds

/-- The proof that the tree over the completed batch has for a position. -/
def treeProof (H : Hasher) (L : ShredCode) (l : List Shred) (shards : List Bytes) (i : Nat) :
    List MerkleProofEntry :=
  (path (scheme H).join (depth L.numShards) i (leafNodes H L l shards)).map Hash.truncate

section Facts
variable {cache : ReedSolomonCache} {l : List Shred} {L : ShredCode} {shards : List Bytes} {i : Nat}

theorem Reconstructs.wellFormed_last (h : Reconstructs cache l L shards)
    (hl : ∀ s ∈ l, s.WellFormed) : (Shred.shredCode L).WellFormed :=
  hl _ (List.mem_of_getLast? h.last)

theorem Reconstructs.unique {L' : ShredCode} {shards' : List Bytes}
    (h : Reconstructs cache l L shards) (h' : Reconstructs cache l L' shards') :
    L' = L ∧ shards' = shards := by
  have hlast := h'.last
  rw [h.last] at hlast
  cases hlast
  obtain ⟨codec, hnew, hrec⟩ := h.codec
  obtain ⟨codec', hnew', hrec'⟩ := h'.codec
  rw [hnew] at hnew'
  cases hnew'
  rw [hrec] at hrec'
  exact ⟨rfl, (Except.ok.inj hrec').symm⟩

theorem fillAt_of_held {stubAt : Nat → Shred} {s : Shred} (h : held Shred.position l i = some s) :
    fillAt stubAt l i = s := by rw [fillAt, h, Option.getD_some]

theorem fillAt_of_missing {stubAt : Nat → Shred} (h : present l i = false) :
    fillAt stubAt l i = stubAt i := by
  rw [present, Option.isSome_eq_false_iff, Option.isNone_iff_eq_none] at h
  rw [fillAt, h, Option.getD_none]

theorem shaped_fillAt (hL : (Shred.shredCode L).Shaped) (hl : ∀ s ∈ l, s.WellFormed) (i : Nat) :
    (fillAt L.stubAt l i).Shaped := by
  unfold fillAt
  cases hh : held Shred.position l i with
  | none => exact shaped_stubAt hL i
  | some s => exact (hl s (mem_of_held hh)).toShaped

theorem Reconstructs.shard (h : Reconstructs cache l L shards) (hi : i < L.numShards) :
    (shards.getD i []).length = ((fillAt L.stubAt l i).part .shard).length ∧
      (present l i = true → shards.getD i [] = (fillAt L.stubAt l i).part .shard) := by
  obtain ⟨codec, -, hrec⟩ := h.codec
  exact (ReedSolomon.inPlace_range hrec).2 i hi

theorem Reconstructs.shard_fits (h : Reconstructs cache l L shards) (hl : ∀ s ∈ l, s.WellFormed)
    (hi : i < L.numShards) :
    Region.shard.lo (fillAt L.stubAt l i).kind (fillAt L.stubAt l i).variant +
        (shards.getD i []).length =
      Region.shard.hi (fillAt L.stubAt l i).kind (fillAt L.stubAt l i).variant := by
  have hs := shaped_fillAt (h.wellFormed_last hl).toShaped hl i
  have hle := Region.lo_le_hi (fillAt L.stubAt l i).kind hs.valid .shard
  rw [(h.shard hi).1, hs.length_part]
  omega

theorem Reconstructs.shaped_rebuilt (h : Reconstructs cache l L shards)
    (hl : ∀ s ∈ l, s.WellFormed) (hi : i < L.numShards) : (rebuilt L l shards i).Shaped :=
  (shaped_fillAt (h.wellFormed_last hl).toShaped hl i).withPart (h.shard_fits hl hi)

theorem Reconstructs.shaped_completed (h : Reconstructs cache l L shards)
    (hl : ∀ s ∈ l, s.WellFormed) (hi : i < L.numShards) : (completed L l shards i).Shaped :=
  (h.shaped_rebuilt hl hi).reparsed

theorem Reconstructs.rebuilt_of_held (h : Reconstructs cache l L shards)
    (hl : ∀ s ∈ l, s.WellFormed) (hi : i < L.numShards) {s : Shred}
    (hs : held Shred.position l i = some s) : rebuilt L l shards i = s := by
  have hp : present l i = true := by rw [present, hs]; rfl
  rw [rebuilt, (h.shard hi).2 hp, (shaped_fillAt (h.wellFormed_last hl).toShaped hl i).withPart_part,
    fillAt_of_held hs]

theorem Reconstructs.completed_of_held (h : Reconstructs cache l L shards)
    (hl : ∀ s ∈ l, s.WellFormed) (hi : i < L.numShards) {s : Shred}
    (hs : held Shred.position l i = some s) : completed L l shards i = s := by
  rw [completed, h.rebuilt_of_held hl hi hs, (hl s (mem_of_held hs)).reparsed]

theorem rebuilt_of_missing (hm : present l i = false) :
    rebuilt L l shards i = (L.stubAt i).withPart .shard (shards.getD i []) := by
  rw [rebuilt, fillAt_of_missing hm]

theorem Reconstructs.position_completed (h : Reconstructs cache l L shards)
    (hl : ∀ s ∈ l, s.WellFormed) (hi : i < L.numShards) : (completed L l shards i).position = i := by
  cases hh : held Shred.position l i with
  | some s => rw [h.completed_of_held hl hi hh, key_of_held hh]
  | none =>
      have hm : present l i = false := by rw [present, hh]; rfl
      rw [completed, Shred.position_reparsed, rebuilt_of_missing hm, Shred.position_withPart,
        position_stubAt (h.wellFormed_last hl).sane hi]

theorem kind_completed_missing (hm : present l i = false) :
    (completed L l shards i).kind = if i < L.numDataShreds then .data else .code := by
  rw [completed, Shred.kind_reparsed, rebuilt_of_missing hm, Shred.kind_withPart, kind_stubAt]

theorem Reconstructs.headers_rebuilt_code (h : Reconstructs cache l L shards)
    (hl : ∀ s ∈ l, s.WellFormed) (hi : i < L.numShards) (hm : present l i = false)
    (hk : (rebuilt L l shards i).kind = .code) :
    slice (rebuilt L l shards i).payload.bytes 0 (sizeOfHeaders (rebuilt L l shards i).kind) =
      (rebuilt L l shards i).writeHeaders := by
  have hL := (h.wellFormed_last hl).toShaped
  have hfront : (rebuilt L l shards i).part .front = L.stubFront i := by
    have hfits := h.shard_fits hl hi
    rw [fillAt_of_missing hm] at hfits
    rw [rebuilt_of_missing hm, (shaped_stubAt hL i).part_withPart_ne hfits (by decide),
      part_front_stubAt hL]
  have hge : ¬i < L.numDataShreds := by
    intro hlt
    rw [rebuilt_of_missing hm, Shred.kind_withPart, kind_stubAt, if_pos hlt] at hk
    cases hk
  have hw : (rebuilt L l shards i).writeHeaders = L.stubFront i := by
    rw [rebuilt_of_missing hm, Shred.writeHeaders_withPart, writeHeaders_stubAt, ShredCode.blank,
      ShredCode.stubFront, if_neg hge, if_neg hge]
    rfl
  rw [hw, ← hfront, Shred.part, hk]
  rfl

/-- Everything but the headers' own index and the shard is carried over from the last shred. -/
theorem Reconstructs.sameBatch_completed (h : Reconstructs cache l L shards)
    (hl : ∀ s ∈ l, s.WellFormed) (hi : i < L.numShards) (hm : present l i = false) :
    SameBatch (completed L l shards i) (.shredCode L) := by
  have hL := (h.wellFormed_last hl).toShaped
  have hfits := h.shard_fits hl hi
  rw [fillAt_of_missing hm] at hfits
  have hstub := stubAt_sameBatch hL i
  have hshaped := shaped_stubAt hL i
  rw [completed, rebuilt_of_missing hm]
  constructor
  · simpa only [Shred.signature, Shred.commonHeader_reparsed, Shred.commonHeader_withPart]
      using hstub.signature
  · simpa only [Shred.commonHeader_reparsed, Shred.commonHeader_withPart] using hstub.slot
  · simpa only [Shred.commonHeader_reparsed, Shred.commonHeader_withPart] using hstub.version
  · simpa only [Shred.fecSetIndex, Shred.commonHeader_reparsed, Shred.commonHeader_withPart]
      using hstub.fecSetIndex
  · simpa only [Shred.variant_reparsed, Shred.variant_withPart] using hstub.proofSize
  · simpa only [Shred.variant_reparsed, Shred.variant_withPart] using hstub.resigned
  · rw [Shred.part_reparsed, hshaped.part_withPart_ne hfits (by decide), hstub.chainedRoot]
  · rw [Shred.part_reparsed, hshaped.part_withPart_ne hfits (by decide), hstub.retransmitter]

end Facts

section Inversion
variable {H : Hasher} {cache : ReedSolomonCache} {l : List Shred} {L : ShredCode}
  {shards : List Bytes} {i : Nat}

theorem lastCodingShred_eq_ok : lastCodingShred l = .ok L ↔ l.getLast? = some (.shredCode L) := by
  unfold lastCodingShred
  split
  · rename_i s hs
    rw [hs, Except.ok.injEq, Option.some.injEq, Shred.shredCode.injEq]
  · rename_i hne
    constructor
    · intro h
      cases h
    · intro h
      exact (hne L h).elim

theorem reconstruct_filled (hl : ∀ s ∈ l, s.WellFormed) (hlast : l.getLast? = some (.shredCode L))
    {out : List Shred} {mask : List Bool} :
    (∃ batch, fillBatch (makeStubShred L.headersOf) L.commonHeader.signature L.numShards l =
        .ok (batch, mask) ∧
      reconstructBatch cache L.codingHeader.numDataShreds.toNat L.codingHeader.numCodingShreds.toNat
        batch mask = .ok out) ↔
      ∃ shards, Reconstructs cache l L shards ∧ mask = (List.range L.numShards).map (present l) ∧
        out = (List.range L.numShards).map (rebuilt L l shards) := by
  have hL : (Shred.shredCode L).WellFormed := hl _ (List.mem_of_getLast? hlast)
  have hfill := fun r => @fillBatch_eq_ok (makeStubShred L.headersOf) L.stubAt L.numShards
    L.commonHeader.signature l (fun s hs => (hl s hs).sane.erasureShardIndex)
    (fun p hp => makeStubShred_eq hL hp) r
  have hrec := fun o => @reconstructBatch_eq_ok cache L.numShards L.codingHeader.numDataShreds.toNat
    L.codingHeader.numCodingShreds.toNat (fillAt L.stubAt l) (present l)
    (fun i _ => shaped_fillAt hL.toShaped hl i) o
  constructor
  · rintro ⟨batch, hf, hr⟩
    obtain ⟨hplace, he⟩ := (hfill _).mp hf
    cases he
    obtain ⟨codec, shards, hnew, hcodec, rfl⟩ := (hrec _).mp hr
    exact ⟨shards, ⟨hlast, hplace, codec, hnew, hcodec⟩, rfl, rfl⟩
  · rintro ⟨shards, ⟨-, hplace, codec, hnew, hcodec⟩, rfl, rfl⟩
    exact ⟨_, (hfill _).mpr ⟨hplace, rfl⟩, (hrec _).mpr ⟨codec, shards, hnew, hcodec, rfl⟩⟩

theorem Reconstructs.recoveredNode_eq_ok (h : Reconstructs cache l L shards)
    (hl : ∀ s ∈ l, s.WellFormed) (hi : i < L.numShards) {r : Shred × Hash} :
    recoveredNode H L.codingHeader.numDataShreds.toNat i (rebuilt L l shards i) (present l i) =
        .ok r ↔
      (present l i = false → (completed L l shards i).WellFormed) ∧
        r = (completed L l shards i, H.sha256 (leafPreimage (completed L l shards i).leaf)) := by
  have hnode := (h.shaped_completed hl hi).merkleNode H
  cases hm : present l i with
  | true =>
      obtain ⟨s, hs⟩ := Option.isSome_iff_exists.mp hm
      have he : rebuilt L l shards i = completed L l shards i := by
        rw [h.rebuilt_of_held hl hi hs, h.completed_of_held hl hi hs]
      rw [recoveredNode, he]
      simp only [if_true, bind, Except.bind, pure, Except.pure, hnode, Except.ok.injEq,
        Bool.true_eq_false, false_implies, true_and]
      exact eq_comm
  | false =>
      have hkind : (rebuilt L l shards i).kind =
          if i < L.codingHeader.numDataShreds.toNat then .data else .code := by
        rw [← Shred.kind_reparsed]
        exact kind_completed_missing hm
      have hcheck := fun t => @checkRecovered_eq_ok L.codingHeader.numDataShreds.toNat i _ t
        (h.shaped_rebuilt hl hi) hkind (h.headers_rebuilt_code hl hi hm)
      rw [recoveredNode, if_neg (by decide)]
      simp only [bind_eq_ok, hcheck, pure, Except.pure, Except.ok.injEq]
      constructor
      · rintro ⟨t, ⟨rfl, hwf⟩, node, hn, rfl⟩
        refine ⟨fun _ => hwf, ?_⟩
        rw [completed] at hnode ⊢
        rw [hnode] at hn
        cases hn
        rfl
      · rintro ⟨hwf, rfl⟩
        exact ⟨_, ⟨rfl, hwf trivial⟩, _, hnode, rfl⟩

theorem Reconstructs.nodes_eq_ok (h : Reconstructs cache l L shards) (hl : ∀ s ∈ l, s.WellFormed)
    {nodes : List Hash} :
    ((List.range L.numShards).map fun i => (recoveredNode H L.codingHeader.numDataShreds.toNat i
        (rebuilt L l shards i) (present l i)).map Prod.snd) = nodes.map .ok ↔
      (∀ i ∈ missingAt L l, (completed L l shards i).WellFormed) ∧
        nodes = leafNodes H L l shards := by
  constructor
  · intro he
    have hlen : nodes.length = L.numShards := by
      have := congrArg List.length he
      simpa using this.symm
    have hat : ∀ i < L.numShards, ∃ node, nodes[i]? = some node ∧
        (recoveredNode H L.codingHeader.numDataShreds.toNat i (rebuilt L l shards i)
          (present l i)).map Prod.snd = .ok node := by
      intro i hi
      have hi' := congrArg (fun x => x[i]?) he
      obtain ⟨node, hnode⟩ : ∃ node, nodes[i]? = some node :=
        ⟨_, List.getElem?_eq_getElem (by omega)⟩
      refine ⟨node, hnode, ?_⟩
      simpa [hi, hnode] using hi'
    constructor
    · intro i hi
      obtain ⟨hin, hm⟩ := mem_missing_iff.mp hi
      obtain ⟨node, -, hr⟩ := hat i hin
      obtain ⟨r, hr, -⟩ := map_eq_ok.mp hr
      exact ((h.recoveredNode_eq_ok hl hin).mp hr).1 hm
    · apply List.ext_getElem?
      intro i
      rcases Nat.lt_or_ge i L.numShards with hi | hi
      · obtain ⟨node, hn, hr⟩ := hat i hi
        obtain ⟨r, hok, rfl⟩ := map_eq_ok.mp hr
        obtain ⟨-, rfl⟩ := (h.recoveredNode_eq_ok hl hi).mp hok
        simp [hn, leafNodes, hi]
      · rw [List.getElem?_eq_none (by omega), List.getElem?_eq_none (by simp [leafNodes, hi])]
  · rintro ⟨hwf, rfl⟩
    rw [leafNodes, List.map_map]
    apply List.map_congr_left
    intro i hi
    have hin := List.mem_range.mp hi
    rw [(h.recoveredNode_eq_ok hl hin).mpr
      ⟨fun hm => hwf i (mem_missing_iff.mpr ⟨hin, hm⟩), rfl⟩]
    rfl

theorem length_leafNodes (H : Hasher) (L : ShredCode) (l : List Shred) (shards : List Bytes) :
    (leafNodes H L l shards).length = L.numShards := by simp [leafNodes]

theorem transpose_insertProof {tree : MerkleTree}
    (ht : tree.nodes = flatten (scheme H).join (depth L.numShards) (leafNodes H L l shards))
    (hi : i < L.numShards) (s : Shred) (mask : Bool) :
    transpose (insertProof tree L.numShards i s mask) =
      if mask then none else some (s.setMerkleProof ((treeProof H L l shards i).map .ok)) := by
  have hlen := length_leafNodes H L l shards
  have hproof := @MerkleTree.makeMerkleProof_eq H (leafNodes H L l shards) tree i (by omega)
    (by rw [hlen]; exact ht)
  rw [hlen] at hproof
  cases mask with
  | true => rfl
  | false =>
      rw [insertProof, if_neg (by decide), if_neg (by decide), hproof, treeProof, List.map_map]
      change transpose ((s.setMerkleProof (List.map (Except.ok ∘ Hash.truncate) _)) >>= fun shred =>
        pure (some shred)) = _
      cases s.setMerkleProof (List.map (Except.ok ∘ Hash.truncate)
        (path (scheme H).join (depth L.numShards) i (leafNodes H L l shards))) <;> rfl

/-- The items are the missing positions in order, each with its proof written in. -/
theorem items_eq {tree : MerkleTree}
    (ht : tree.nodes = flatten (scheme H).join (depth L.numShards) (leafNodes H L l shards)) :
    ((((List.range L.numShards).map (completed L l shards)).zip
        ((List.range L.numShards).map (present l))).mapIdx
          fun index x => insertProof tree L.numShards index x.1 x.2).filterMap transpose =
      (missingAt L l).map fun i =>
        (completed L l shards i).setMerkleProof ((treeProof H L l shards i).map .ok) := by
  rw [List.zip_map', mapIdx_map_range, List.filterMap_map, missingAt, missing,
    ← List.filterMap_eq_map, List.filterMap_filter]
  apply List.filterMap_congr
  intro i hi
  rw [Function.comp_apply, transpose_insertProof ht (List.mem_range.mp hi), present]
  cases held Shred.position l i <;> rfl

theorem Reconstructs.leafNodes_ne (h : Reconstructs cache l L shards) (hl : ∀ s ∈ l, s.WellFormed) :
    leafNodes H L l shards ≠ [] := by
  intro hnil
  have hlen := length_leafNodes H L l shards
  have hnum := (numbers (h.wellFormed_last hl).sane).2.2.2
  rw [hnil, List.length_nil] at hlen
  omega

theorem Reconstructs.exists_top (h : Reconstructs cache l L shards) (hl : ∀ s ∈ l, s.WellFormed)
    (H : Hasher) : ∃ r, level (scheme H).join (depth L.numShards) (leafNodes H L l shards) = [r] := by
  have ht := exists_level_depth (scheme H).join (h.leafNodes_ne (H := H) hl)
  rwa [length_leafNodes] at ht

theorem Reconstructs.mapM_nodes (h : Reconstructs cache l L shards) (hl : ∀ s ∈ l, s.WellFormed)
    (hwf : ∀ i ∈ missingAt L l, (completed L l shards i).WellFormed) :
    ((List.range L.numShards).map fun i => recoveredNode H L.codingHeader.numDataShreds.toNat i
        (rebuilt L l shards i) (present l i)).mapM (fun node => node.map Prod.fst) =
      .ok ((List.range L.numShards).map (completed L l shards)) := by
  refine mapM_map_range fun i hi => ?_
  rw [(h.recoveredNode_eq_ok hl hi).mpr ⟨fun hm => hwf i (mem_missing_iff.mpr ⟨hi, hm⟩), rfl⟩]
  rfl

theorem Reconstructs.extracted_eq (h : Reconstructs cache l L shards)
    (hl : ∀ s ∈ l, s.WellFormed) :
    ((((List.range L.numShards).map (rebuilt L l shards)).zip
        ((List.range L.numShards).map (present l))).mapIdx fun index x =>
          extractRecovered L.codingHeader.numDataShreds.toNat index x.1 x.2).filterMap id =
      (missingData L l).filterMap fun i =>
        if (rebuilt L l shards i).HeaderKept then some (completed L l shards i) else none := by
  rw [List.zip_map', mapIdx_map_range, List.filterMap_map, missingData, missing,
    List.filterMap_filter, ShredCode.numShards, List.range_add, List.filterMap_append]
  have hcoding : ((List.range L.codingHeader.numCodingShreds.toNat).map fun x =>
      L.codingHeader.numDataShreds.toNat + x).filterMap (id ∘ fun i =>
        extractRecovered L.codingHeader.numDataShreds.toNat i (rebuilt L l shards i) (present l i)) =
      [] := by
    rw [List.filterMap_eq_nil_iff]
    intro i hi
    obtain ⟨k, -, rfl⟩ := List.mem_map.mp hi
    rw [Function.comp_apply, id, extractRecovered.eq_def, if_pos (by omega)]
  rw [hcoding, List.append_nil]
  apply List.filterMap_congr
  intro i hi
  have hi' := List.mem_range.mp hi
  have hin : i < L.numShards := Nat.lt_of_lt_of_le hi' (Nat.le_add_right _ _)
  rw [Function.comp_apply, id]
  cases hh : held Shred.position l i with
  | some s =>
      have hp : present l i = true := by rw [present, hh]; rfl
      rw [hp, extractRecovered.eq_def, if_pos (by simp)]
      rfl
  | none =>
      have hm : present l i = false := by rw [present, hh]; rfl
      have hkind : (rebuilt L l shards i).kind = .data := by
        have hk := @kind_completed_missing l L shards i hm
        rw [completed, Shred.kind_reparsed] at hk
        exact hk.trans (if_pos hi')
      rw [hm, extractRecovered_missing (h.shaped_rebuilt hl hin) hi' hkind]
      rfl

end Inversion

section Results
variable {H : Hasher} {cache : ReedSolomonCache} {srt : ShredSort} {l : List Shred}

theorem sortShreds_perm (srt : ShredSort) (l : List Shred) : (sortShreds srt l).Perm l := by
  unfold sortShreds
  split
  · exact .refl l
  · exact srt.perm l

theorem wellFormed_sortShreds (hl : ∀ s ∈ l, s.WellFormed) : ∀ s ∈ sortShreds srt l, s.WellFormed :=
  fun s hs => hl s ((sortShreds_perm srt l).mem_iff.mp hs)

/-- What a successful `recover` has established about the sorted list, and what it returns. -/
structure Recovers (H : Hasher) (cache : ReedSolomonCache) (l : List Shred) (L : ShredCode)
    (shards : List Bytes) (root : Hash) (items : List (Result Shred)) : Prop
    extends Reconstructs cache l L shards where
  wellFormed : ∀ i ∈ missingAt L l, (completed L l shards i).WellFormed
  tree : level (scheme H).join (depth L.numShards) (leafNodes H L l shards) = [root]
  root : (Shred.shredCode L).merkleRoot H = .ok root
  items : items = (missingAt L l).map fun i =>
    (completed L l shards i).setMerkleProof ((treeProof H L l shards i).map .ok)

/-- `recover`, inverted and put together again. -/
theorem recover_eq_ok (hl : ∀ s ∈ l, s.WellFormed) {items : List (Result Shred)} :
    recover H cache srt l = .ok items ↔
      ∃ L shards root, Recovers H cache (sortShreds srt l) L shards root items := by
  have hsl := @wellFormed_sortShreds srt l hl
  unfold recover
  generalize sortShreds srt l = sl at hsl ⊢
  simp only [bind_eq_ok, guard_eq_ok, Prod.exists, pure, Except.pure, Except.ok.injEq,
    lastCodingShred_eq_ok, not_not]
  constructor
  · rintro ⟨L, hlast, headers, hh, root, hroot, -, batch, mask, hfill, out, hrec, tree, htree, root',
      hroot', rfl, done, hdone, rfl⟩
    have hL : (Shred.shredCode L).WellFormed := hsl _ (List.mem_of_getLast? hlast)
    rw [stubHeaders_eq hL] at hh
    cases hh
    obtain ⟨shards, hR, rfl, rfl⟩ := (reconstruct_filled hsl hlast).mp ⟨batch, hfill, hrec⟩
    have hnum := (numbers hL.sane).2.2.2
    rw [List.zip_map', mapIdx_map_range] at htree hdone
    rw [List.map_map] at htree
    obtain ⟨nodes, -, hnodes, hflat⟩ := (MerkleTree.tryNew_eq_ok H).mp htree
    obtain ⟨hwf, rfl⟩ := (hR.nodes_eq_ok hsl).mp hnodes
    rw [length_leafNodes] at hflat
    cases Except.ok.inj ((hR.mapM_nodes hsl hwf).symm.trans hdone)
    obtain ⟨top, htop⟩ := hR.exists_top hsl H
    rw [MerkleTree.root_eq H (by rw [length_leafNodes]; exact hflat)
      (by rw [length_leafNodes]; exact htop)] at hroot'
    cases hroot'
    exact ⟨L, shards, root', hR, hwf, htop, hroot, items_eq hflat⟩
  · rintro ⟨L, shards, root, hR⟩
    have hL := hR.wellFormed_last hsl
    obtain ⟨batch, hfill, hrec⟩ := (reconstruct_filled hsl hR.last).mpr
      ⟨shards, hR.toReconstructs, rfl, rfl⟩
    have hne : leafNodes H L sl shards ≠ [] := hR.leafNodes_ne hsl
    have hflat := length_leafNodes H L sl shards
    refine ⟨L, hR.last, _, stubHeaders_eq hL, root, hR.root, ?_, batch, _, hfill, _, hrec,
      ⟨flatten (scheme H).join (depth L.numShards) (leafNodes H L sl shards)⟩, ?_, root, ?_, rfl,
      (List.range L.numShards).map (completed L sl shards), ?_, ?_⟩
    · intro hk
      have hcode : L.commonHeader.shredVariant.shredType = .code := hL.kind
      exact ShredType.noConfusion (hcode.symm.trans hk)
    · rw [List.zip_map', mapIdx_map_range, List.map_map, MerkleTree.tryNew_eq_ok]
      exact ⟨_, hne, (hR.nodes_eq_ok hsl).mpr ⟨hR.wellFormed, rfl⟩, by rw [hflat]⟩
    · exact MerkleTree.root_eq H (by rw [hflat]) (by rw [hflat]; exact hR.tree)
    · rw [List.zip_map', mapIdx_map_range]
      exact hR.mapM_nodes hsl hR.wellFormed
    · rw [hR.items]
      exact items_eq rfl

/-- The fast path, inverted and put together again. -/
theorem recoverDataOnly_eq_ok (hl : ∀ s ∈ l, s.WellFormed) {v : List Shred} :
    recoverDataOnly cache srt l = .ok v ↔
      ∃ L shards, Reconstructs cache (sortShreds srt l) L shards ∧
        v = (missingData L (sortShreds srt l)).filterMap fun i =>
          if (rebuilt L (sortShreds srt l) shards i).HeaderKept then
            some (completed L (sortShreds srt l) shards i) else none := by
  have hsl := @wellFormed_sortShreds srt l hl
  unfold recoverDataOnly
  generalize sortShreds srt l = sl at hsl ⊢
  simp only [bind_eq_ok, Prod.exists, pure, Except.pure, Except.ok.injEq, lastCodingShred_eq_ok]
  constructor
  · rintro ⟨L, hlast, headers, hh, placed, mask, count, hplace, batch, total, hpush, out, hrec, rfl⟩
    have hL : (Shred.shredCode L).WellFormed := hsl _ (List.mem_of_getLast? hlast)
    rw [stubHeaders_eq hL] at hh
    cases hh
    have hfill := (fillCounting_eq_ok _ _).mp ⟨placed, count, hplace, total, hpush⟩
    obtain ⟨shards, hR, rfl, rfl⟩ := (reconstruct_filled hsl hlast).mp ⟨batch, hfill, hrec⟩
    exact ⟨L, shards, hR, hR.extracted_eq hsl⟩
  · rintro ⟨L, shards, hR, rfl⟩
    have hL := hR.wellFormed_last hsl
    obtain ⟨batch, hfill, hrec⟩ := (reconstruct_filled hsl hR.last).mpr ⟨shards, hR, rfl, rfl⟩
    obtain ⟨placed, count, hplace, total, hpush⟩ :=
      (fillCounting_eq_ok _ L.codingHeader.numDataShreds.toNat).mpr hfill
    exact ⟨L, hR.last, _, stubHeaders_eq hL, placed, _, count, hplace, batch, total, hpush, _, hrec,
      hR.extracted_eq hsl⟩

end Results

end LightweightShred
