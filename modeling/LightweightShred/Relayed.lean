import LightweightShred.Verified
import LightweightShred.Setters

/-!
# Shreds that were relayed

Retransmitters sign what they pass on, so the shreds of one batch reach a receiver under
different signatures of retransmitters. Of these `recover` reads that of the last coding shred
only, and the batch is recovered from any verified part of it that is large enough.
-/
namespace LightweightShred
open ByteString Rust Codec Slots HashTree HashScheme

/-- Equal in all that `recover` reads of a shred that is not the last one. -/
structure ReadsAlike (s t : Shred) : Prop where
  position : s.position = t.position
  signature : s.signature = t.signature
  leaf : s.leaf = t.leaf
  shard : s.part .shard = t.part .shard

section Alike
variable {H : Hasher} {cache : ReedSolomonCache} {l l' : List Shred} {L : ShredCode}
  {shards : List Bytes} {root : Hash} {items : List (Result Shred)} {i : Nat}

theorem held_alike (h : List.Forall₂ ReadsAlike l l') (i : Nat) :
    (held Shred.position l i = none ∧ held Shred.position l' i = none) ∨
      ∃ s t, held Shred.position l i = some s ∧ held Shred.position l' i = some t ∧
        ReadsAlike s t := by
  induction h with
  | nil => exact .inl ⟨rfl, rfl⟩
  | @cons s t l l' hst _ ih =>
      by_cases hi : s.position = i
      · subst hi
        have ht : held Shred.position (t :: l') t.position = some t := held_cons_self t l'
        rw [← hst.position] at ht
        exact .inr ⟨s, t, held_cons_self s l, ht, hst⟩
      · have hj : t.position ≠ i := fun he => hi (hst.position.trans he)
        rwa [held_cons_ne hi, held_cons_ne hj]

theorem present_alike (h : List.Forall₂ ReadsAlike l l') (i : Nat) : present l i = present l' i := by
  rw [present, present]
  rcases held_alike h i with ⟨h1, h2⟩ | ⟨s, t, h1, h2, -⟩
  · rw [h1, h2]
  · rw [h1, h2]
    rfl

theorem missingAt_alike (h : List.Forall₂ ReadsAlike l l') : missingAt L l = missingAt L l' := by
  refine List.filter_congr fun i _ => ?_
  rcases held_alike h i with ⟨h1, h2⟩ | ⟨s, t, h1, h2, -⟩
  · rw [h1, h2]
  · rw [h1, h2]
    rfl

theorem codecInput_alike (h : List.Forall₂ ReadsAlike l l') : codecInput L l = codecInput L l' := by
  refine List.map_congr_left fun i _ => ?_
  rw [present_alike h i]
  rcases held_alike h i with ⟨h1, h2⟩ | ⟨s, t, h1, h2, hst⟩
  · rw [fillAt, fillAt, h1, h2]
  · rw [fillAt_of_held h1, fillAt_of_held h2, hst.shard]

theorem Placeable.alike {signature : Signature} {n : Nat} (h : Placeable signature n l)
    (ha : List.Forall₂ ReadsAlike l l') : Placeable signature n l' := by
  have hpos : l'.map Shred.position = l.map Shred.position := by
    clear h
    induction ha with
    | nil => rfl
    | cons hst _ ih => rw [List.map_cons, List.map_cons, ih, hst.position]
  refine ⟨fun t ht => ?_, ?_, fun t ht => ?_⟩
  · obtain ⟨s, hs, hst⟩ := forall₂_mem_right ha ht
    rw [← hst.signature]
    exact h.signature s hs
  · have hinc := List.pairwise_map.mpr h.increasing
    rw [← hpos] at hinc
    exact List.pairwise_map.mp hinc
  · obtain ⟨s, hs, hst⟩ := forall₂_mem_right ha ht
    rw [← hst.position]
    exact h.bound s hs

theorem Reconstructs.alike (h : Reconstructs cache l L shards) (ha : List.Forall₂ ReadsAlike l l')
    (hlast : l'.getLast? = some (.shredCode L)) : Reconstructs cache l' L shards where
  last := hlast
  placeable := h.placeable.alike ha
  codec := by
    rw [← codecInput_alike ha]
    exact h.codec

theorem completed_alike (ha : List.Forall₂ ReadsAlike l l') (hm : present l i = false) :
    completed L l shards i = completed L l' shards i := by
  have hm' : present l' i = false := by rw [← present_alike ha, hm]
  rw [completed, completed, rebuilt_of_missing hm, rebuilt_of_missing hm']

theorem leafNodes_alike (h : Reconstructs cache l L shards) (hl : ∀ s ∈ l, s.WellFormed)
    (hl' : ∀ s ∈ l', s.WellFormed) (ha : List.Forall₂ ReadsAlike l l')
    (hlast : l'.getLast? = some (.shredCode L)) :
    leafNodes H L l shards = leafNodes H L l' shards := by
  have h' := h.alike ha hlast
  refine List.map_congr_left fun i hi => ?_
  have hin := List.mem_range.mp hi
  rcases held_alike ha i with ⟨h1, -⟩ | ⟨s, t, h1, h2, hst⟩
  · rw [completed_alike ha (by rw [present, h1]; rfl)]
  · rw [h.completed_of_held hl hin h1, h'.completed_of_held hl' hin h2, hst.leaf]

/-- Of all shreds but the last `recover` reads place, signature, shard and leaf only. -/
theorem Recovers.alike (h : Recovers H cache l L shards root items) (hl : ∀ s ∈ l, s.WellFormed)
    (hl' : ∀ s ∈ l', s.WellFormed) (ha : List.Forall₂ ReadsAlike l l')
    (hlast : l'.getLast? = some (.shredCode L)) : Recovers H cache l' L shards root items where
  toReconstructs := h.toReconstructs.alike ha hlast
  wellFormed := by
    intro i hi
    rw [← missingAt_alike ha] at hi
    rw [← completed_alike ha (mem_missing_iff.mp hi).2]
    exact h.wellFormed i hi
  tree := by
    rw [← leafNodes_alike h.toReconstructs hl hl' ha hlast]
    exact h.tree
  root := h.root
  items := by
    rw [h.items, ← missingAt_alike ha]
    refine List.map_congr_left fun i hi => ?_
    rw [treeProof, treeProof, leafNodes_alike h.toReconstructs hl hl' ha hlast,
      completed_alike ha (mem_missing_iff.mp hi).2]

end Alike

section Relay
variable {H : Hasher} {s t b : Shred} {r : Bytes} {B : List Shred}

/-- The shred as another retransmitter passes it on. -/
def relay (r : Bytes) (s : Shred) : Shred := s.withPart .retransmitter r

/-- The bytes fill the place of the retransmitter's signature, which may be empty. -/
def Relays (r : Bytes) (s : Shred) : Prop :=
  Region.retransmitter.lo s.kind s.variant + r.length = Region.retransmitter.hi s.kind s.variant

theorem relays_of_signature (hs : s.variant.resigned = true) (g : Signature) : Relays g.1 s := by
  rw [Relays, g.2]
  simp only [Region.lo, Region.hi, ShredVariant.resignedBytes, hs, if_true]
  rfl

theorem relays_of_resigned (hs : s.variant.resigned = t.variant.resigned) (ht : t.Shaped) :
    Relays (t.part .retransmitter) s := by
  have hlen := ht.length_part .retransmitter
  rw [Relays, hlen]
  simp only [Region.lo, Region.hi, ShredVariant.resignedBytes, hs]
  omega

theorem Shred.WellFormed.relay (h : s.WellFormed) (hr : Relays r s) :
    (LightweightShred.relay r s).WellFormed := h.withPart_writable (.inr (.inr rfl)) hr

theorem position_relay (r : Bytes) (s : Shred) : (relay r s).position = s.position :=
  Shred.position_withPart ..

theorem variant_relay (r : Bytes) (s : Shred) : (relay r s).variant = s.variant :=
  Shred.variant_withPart ..

theorem Shred.Shaped.part_relay_ne (h : s.Shaped) (hr : Relays r s) {R : Region}
    (hR : .retransmitter ≠ R) : (relay r s).part R = s.part R := h.part_withPart_ne hr hR

theorem Shred.Shaped.leaf_relay (h : s.Shaped) (hr : Relays r s) : (relay r s).leaf = s.leaf := by
  simp only [relay, Shred.leaf, Shred.kind_withPart, Shred.variant_withPart]
  refine (h.agreeOn_withPart hr (.inl ?_)).slice_eq
  simp only [Region.lo]
  omega

theorem Shred.WellFormed.readsAlike_relay (h : s.WellFormed) (hr : Relays r s) :
    ReadsAlike (LightweightShred.relay r s) s where
  position := position_relay r s
  signature := congrArg ShredCommonHeader.signature (Shred.commonHeader_withPart ..)
  leaf := h.toShaped.leaf_relay hr
  shard := h.toShaped.part_relay_ne hr (by decide)

theorem Shred.WellFormed.storedProof_relay (h : s.WellFormed) (hr : Relays r s) :
    (LightweightShred.relay r s).storedProof = s.storedProof := by
  have hcongr := h.toShaped.merkleProof_congr (h.relay hr).toShaped (variant_relay r s)
    (h.toShaped.part_relay_ne hr (by decide))
  rw [Shred.storedProof, hcongr]
  rfl

theorem Shred.WellFormed.sameUnderRoot_relay (h : s.WellFormed) (hr : Relays r s) :
    SameUnderRoot (LightweightShred.relay r s) s :=
  sameUnderRoot_of_leaf (h.relay hr) h (by rw [variant_relay]) (h.toShaped.leaf_relay hr)
    (h.storedProof_relay hr)

theorem SameUnderRoot.commonHeader_eq (h : SameUnderRoot s b) (hsig : s.signature = b.signature) :
    s.commonHeader = b.commonHeader :=
  ShredCommonHeader.ext hsig h.variant h.slot h.index h.version h.fecSetIndex

/-- Under one signature, shreds that are the same under the root differ in one region only. -/
theorem SameUnderRoot.part_eq (h : SameUnderRoot s b) (hs : s.WellFormed) (hb : b.WellFormed)
    (hsig : s.signature = b.signature) {R : Region} (hR : .retransmitter ≠ R) :
    s.part R = b.part R := by
  cases R with
  | front =>
      have hkind := h.content.shredType
      rw [hs.part_front, hb.part_front]
      cases s with
      | shredCode c =>
          cases b with
          | shredCode d =>
              rw [Shred.writeHeaders, Shred.writeHeaders, h.codingHeader c d rfl rfl,
                show c.commonHeader = d.commonHeader from h.commonHeader_eq hsig]
          | shredData d => exact ShredType.noConfusion (hs.kind.symm.trans (hkind.trans hb.kind))
      | shredData c =>
          cases b with
          | shredCode d => exact ShredType.noConfusion (hs.kind.symm.trans (hkind.trans hb.kind))
          | shredData d => exact congrArg Subtype.val hsig
  | shard =>
      have heq := h.erasureShard
      rw [hs.erasureShard, hb.erasureShard] at heq
      exact Except.ok.inj heq
  | chainedRoot =>
      obtain ⟨root, hroot⟩ := hb.exists_chainedMerkleRoot
      rw [hb.chainedMerkleRoot_eq_ok.mp hroot,
        hs.chainedMerkleRoot_eq_ok.mp (h.chainedMerkleRoot.trans hroot)]
  | proof =>
      obtain ⟨es, hes⟩ := hb.exists_merkleProof
      rw [← (hb.merkleProof_eq_ok.mp hes).2, ← (hs.merkleProof_eq_ok.mp (h.merkleProof.trans hes)).2]
  | retransmitter => exact (hR rfl).elim

theorem SameUnderRoot.relay_eq (h : SameUnderRoot s b) (hs : s.WellFormed) (hb : b.WellFormed)
    (hsig : s.signature = b.signature) (hr : Relays r b) : relay r s = relay r b := by
  have hkind : s.kind = b.kind := by
    rw [← hs.kind, ← hb.kind]
    exact h.content.shredType
  have hvar : s.variant = b.variant := h.variant
  have hr' : Relays r s := by rwa [Relays, hkind, hvar]
  have hws := hs.relay hr'
  have hwb := hb.relay hr
  have hpay : (relay r s).payload = (relay r b).payload := by
    refine hws.toShaped.payload_ext hwb.toShaped ?_ ?_ fun R => ?_
    · simp only [relay, Shred.kind_withPart, hkind]
    · rw [variant_relay, variant_relay, hvar]
    · by_cases hR : .retransmitter = R
      · subst hR
        rw [relay, relay, hs.part_withPart hr', hb.part_withPart hr]
      · rw [hs.toShaped.part_relay_ne hr' hR, hb.toShaped.part_relay_ne hr hR]
        exact h.part_eq hs hb hsig hR
  have hparse := hws.reparse
  rw [hpay, hwb.reparse] at hparse
  exact (Except.ok.inj hparse).symm

theorem Shred.WellFormed.erasureShard_relay (h : s.WellFormed) (hr : Relays r s) :
    (LightweightShred.relay r s).erasureShard = s.erasureShard := by
  rw [(h.relay hr).erasureShard, h.erasureShard, h.toShaped.part_relay_ne hr (by decide)]

theorem Shred.WellFormed.merkleNode_relay (h : s.WellFormed) (hr : Relays r s) :
    (LightweightShred.relay r s).merkleNode H = s.merkleNode H := by
  rw [(h.relay hr).toShaped.merkleNode, h.toShaped.merkleNode, h.toShaped.leaf_relay hr]

theorem Shred.WellFormed.merkleProof_relay (h : s.WellFormed) (hr : Relays r s) :
    (LightweightShred.relay r s).merkleProof = s.merkleProof := by
  rw [(h.relay hr).merkleProof_eq, h.merkleProof_eq, h.storedProof_relay hr]

theorem SameBatch.relay (h : SameBatch s t) (hs : s.Shaped) (ht : t.Shaped) (hrs : Relays r s)
    (hrt : Relays r t) : SameBatch (LightweightShred.relay r s) (LightweightShred.relay r t) where
  signature := by
    simpa only [Shred.signature, LightweightShred.relay, Shred.commonHeader_withPart] using h.signature
  slot := by simpa only [LightweightShred.relay, Shred.commonHeader_withPart] using h.slot
  version := by simpa only [LightweightShred.relay, Shred.commonHeader_withPart] using h.version
  fecSetIndex := by
    simpa only [Shred.fecSetIndex, LightweightShred.relay, Shred.commonHeader_withPart]
      using h.fecSetIndex
  proofSize := by rw [variant_relay, variant_relay, h.proofSize]
  resigned := by rw [variant_relay, variant_relay, h.resigned]
  chainedRoot := by
    rw [hs.part_relay_ne hrs (by decide), ht.part_relay_ne hrt (by decide), h.chainedRoot]
  retransmitter := by
    rw [LightweightShred.relay, LightweightShred.relay, hs.part_withPart hrs, ht.part_withPart hrt]

end Relay

section Batch
variable {H : Hasher} {cache : ReedSolomonCache} {srt : ShredSort}
  {parity : List Bytes → List Bytes} {numData numCoding : Nat} {B l : List Shred} {r : Bytes}
  {s b : Shred}

theorem getElem?_relayed {i : Nat} (hb : B[i]? = some b) :
    (B.map (relay r))[i]? = some (relay r b) := by rw [List.getElem?_map, hb]; rfl

theorem CompleteBatch.relayed (hB : CompleteBatch H parity numData numCoding B)
    (hr : ∀ b ∈ B, Relays r b) : CompleteBatch H parity numData numCoding (B.map (relay r)) where
  counts := hB.counts
  length := by rw [List.length_map, hB.length]
  accepted := by
    intro s hs
    obtain ⟨b, hb, rfl⟩ := List.mem_map.mp hs
    exact Shred.accepted_iff.mpr ((hB.wellFormed hb).relay (hr b hb))
  shared := by
    intro s hs t ht
    obtain ⟨a, ha, rfl⟩ := List.mem_map.mp hs
    obtain ⟨b, hb, rfl⟩ := List.mem_map.mp ht
    have hwa := (hB.wellFormed ha).relay (hr a ha)
    have hwb := (hB.wellFormed hb).relay (hr b hb)
    have hsame := (hB.sameBatch ha hb).relay (hB.wellFormed ha).toShaped (hB.wellFormed hb).toShaped
      (hr a ha) (hr b hb)
    exact ⟨hsame.signature, hsame.slot, hsame.version, hsame.fecSetIndex, hsame.resigned,
      hsame.chainedMerkleRoot_eq hwa.toShaped hwb.toShaped,
      hsame.retransmitterSignature_eq hwa.toShaped hwb.toShaped⟩
  proofSize := by
    intro s hs
    obtain ⟨b, hb, rfl⟩ := List.mem_map.mp hs
    rw [((hB.wellFormed hb).relay (hr b hb)).proofSize, variant_relay, ← (hB.wellFormed hb).proofSize]
    exact hB.proofSize b hb
  data := by
    intro i hi
    obtain ⟨d, hd, hindex⟩ := hB.data i hi
    exact ⟨_, getElem?_relayed hd, hindex⟩
  coding := by
    obtain ⟨first, hcoding⟩ := hB.coding
    refine ⟨first, fun j hj => ?_⟩
    obtain ⟨c, hc, hfields⟩ := hcoding j hj
    exact ⟨_, getElem?_relayed hc, hfields⟩
  codeword := by
    obtain ⟨word, hword, hpar⟩ := hB.codeword
    refine ⟨word, mapM_eq_ok.mpr (List.forall₂_map_left_iff.mpr ?_), hpar⟩
    have hall := mapM_eq_ok.mp hword
    rw [List.forall₂_iff_get] at hall ⊢
    refine ⟨hall.1, fun i h1 h2 => ?_⟩
    have hmem := List.get_mem B ⟨i, h1⟩
    rw [(hB.wellFormed hmem).erasureShard_relay (hr _ hmem)]
    exact hall.2 i h1 h2
  proofs := by
    obtain ⟨tree, htree, hproofs⟩ := hB.proofs
    have hnodes : (B.map (relay r)).map (Shred.merkleNode H) = B.map (Shred.merkleNode H) := by
      rw [List.map_map]
      exact List.map_congr_left fun b hb => (hB.wellFormed hb).merkleNode_relay (hr b hb)
    refine ⟨tree, hnodes ▸ htree, fun i s hs => ?_⟩
    rw [List.getElem?_map, Option.map_eq_some_iff] at hs
    obtain ⟨b, hb, rfl⟩ := hs
    have hmem := List.mem_of_getElem? hb
    rw [(hB.wellFormed hmem).merkleProof_relay (hr b hmem)]
    exact hproofs i b hb

/-- Shreds at distinct places that are those of a batch, but for their retransmitters, are part of
the batch once all is passed on by one retransmitter. -/
theorem subperm_relayed (hB : CompleteBatch H parity numData numCoding B)
    (hr : ∀ b ∈ B, Relays r b) (hl : ∀ s ∈ l, s.WellFormed)
    (hsame : ∀ s ∈ l, ∃ b ∈ B, SameUnderRoot s b ∧ s.signature = b.signature)
    (hpos : (l.map Shred.position).Nodup) : (l.map (relay r)).Subperm (B.map (relay r)) := by
  refine List.subperm_of_subset ?_ ?_
  · have hmap : (l.map (relay r)).map Shred.position = l.map Shred.position := by
      rw [List.map_map]
      exact List.map_congr_left fun s _ => position_relay r s
    rw [← hmap] at hpos
    exact hpos.of_map _
  · intro x hx
    obtain ⟨s, hs, rfl⟩ := List.mem_map.mp hx
    obtain ⟨b, hb, hsb, hsig⟩ := hsame s hs
    rw [hsb.relay_eq (hl s hs) (hB.wellFormed hb) hsig (hr b hb)]
    exact List.mem_map_of_mem hb

theorem filter_relayed (hB : CompleteBatch H parity numData numCoding B)
    (hr : ∀ b ∈ B, Relays r b) (hl : ∀ s ∈ l, s.WellFormed)
    (hsame : ∀ s ∈ l, ∃ b ∈ B, SameUnderRoot s b ∧ s.signature = b.signature) :
    (B.map (relay r)).filter (· ∉ l.map (relay r)) =
      (B.filter fun b => b.position ∉ l.map Shred.position).map (relay r) := by
  rw [List.filter_map]
  congr 1
  refine List.filter_congr fun b hb => ?_
  rw [Function.comp_apply, decide_eq_decide, not_iff_not, List.mem_map, List.mem_map]
  constructor
  · rintro ⟨s, hs, heq⟩
    refine ⟨s, hs, ?_⟩
    rw [← position_relay r s, heq, position_relay]
  · rintro ⟨s, hs, heq⟩
    obtain ⟨c, hc, hsc, hsig⟩ := hsame s hs
    have hwc := hB.wellFormed hc
    obtain rfl : c = b :=
      hB.position_injective hc hb ((hsc.position (hl s hs) hwc).symm.trans heq)
    exact ⟨s, hs, hsc.relay_eq (hl s hs) hwc hsig (hr c hc)⟩

/-- Recovery from a part of the batch that may have passed through several retransmitters. -/
theorem CompleteBatch.recover_relayed (hB : CompleteBatch H parity numData numCoding B)
    (hcodec : CodecCorrect cache numData numCoding parity) (hl : ∀ s ∈ l, s.WellFormed)
    (hsame : ∀ s ∈ l, ∃ b ∈ B, SameUnderRoot s b ∧ s.signature = b.signature)
    (hpos : (l.map Shred.position).Nodup) (hn : numData ≤ l.length) (hcode : ∃ s ∈ l, s.kind = .code) :
    ∃ ys, recover H cache srt l = .ok (ys.map .ok) ∧
      List.Forall₂ (fun y b => SameUnderRoot y b ∧ y.signature = b.signature) ys
        (B.filter fun b => b.position ∉ l.map Shred.position) := by
  have hperm := sortShreds_perm srt l
  have hsl := @wellFormed_sortShreds srt l hl
  have hsorted := sorted_sortShreds srt l
  have hmem : ∀ s ∈ sortShreds srt l, s ∈ l := fun s hs => hperm.mem_iff.mp hs
  obtain ⟨c, hc, hk⟩ := hcode
  obtain ⟨L, hlast⟩ := (exists_last_code hsorted).mpr ⟨c, hperm.mem_iff.mpr hc, hk⟩
  have hL := hmem _ (List.mem_of_getLast? hlast)
  have hwL := hl _ hL
  obtain ⟨b₀, hb₀, hLb, -⟩ := hsame _ hL
  -- all is passed on by the retransmitter of the last coding shred
  obtain ⟨r, hrdef⟩ : ∃ r, r = (Shred.shredCode L).part .retransmitter := ⟨_, rfl⟩
  have hres : ∀ b ∈ B, b.variant.resigned = (Shred.shredCode L).variant.resigned := fun b hb =>
    (hB.sameBatch hb hb₀).resigned.trans (congrArg ShredVariant.resigned hLb.variant).symm
  have hr : ∀ b ∈ B, Relays r b := fun b hb => hrdef ▸ relays_of_resigned (hres b hb) hwL.toShaped
  have hrl : ∀ s ∈ sortShreds srt l, Relays r s := by
    intro s hs
    obtain ⟨b, hb, hsb, -⟩ := hsame s (hmem s hs)
    exact hrdef ▸ relays_of_resigned ((congrArg ShredVariant.resigned hsb.variant).trans (hres b hb))
      hwL.toShaped
  have hLfix : relay r (.shredCode L) = .shredCode L := by
    rw [hrdef]
    exact hwL.withPart_part .retransmitter
  have hB' := hB.relayed hr
  have hsame' : ∀ s ∈ sortShreds srt l, ∃ b ∈ B, SameUnderRoot s b ∧ s.signature = b.signature :=
    fun s hs => hsame s (hmem s hs)
  have hsub := subperm_relayed hB hr hsl hsame' ((hperm.map Shred.position).nodup_iff.mpr hpos)
  have hX : Sorted ((sortShreds srt l).map (relay r)) :=
    List.pairwise_map.mpr (hsorted.imp fun h => (isLe_withPart _ _ _ _ _ _).trans h)
  have hrun : recover H cache srt ((sortShreds srt l).map (relay r)) = .ok _ :=
    hB'.recover_eq hcodec hsub (by rwa [List.length_map, hperm.length_eq])
      ⟨_, List.mem_map_of_mem (List.mem_of_getLast? hlast), Shred.kind_withPart ..⟩
  have hwX : ∀ s ∈ (sortShreds srt l).map (relay r), s.WellFormed := fun s hs =>
    hB'.wellFormed (hsub.subset hs)
  obtain ⟨L', shards, root, hR⟩ := (recover_eq_ok hwX).mp hrun
  rw [sortShreds_of_sorted hX] at hR
  have hlast' := hR.last
  rw [List.getLast?_map, hlast, Option.map_some, hLfix] at hlast'
  cases hlast'
  have halike : List.Forall₂ ReadsAlike ((sortShreds srt l).map (relay r)) (sortShreds srt l) := by
    rw [List.forall₂_map_left_iff]
    exact List.forall₂_same.mpr fun s hs => (hsl s hs).readsAlike_relay (hrl s hs)
  refine ⟨_, (recover_eq_ok hl).mpr ⟨L, shards, root, hR.alike hwX hsl halike hlast⟩, ?_⟩
  have hfilter := filter_relayed hB hr hsl hsame'
  have hplaces : (B.filter fun b => b.position ∉ (sortShreds srt l).map Shred.position) =
      B.filter fun b => b.position ∉ l.map Shred.position :=
    List.filter_congr fun b _ => by rw [decide_eq_decide, (hperm.map Shred.position).mem_iff]
  rw [hfilter, hplaces, List.forall₂_map_left_iff]
  refine List.forall₂_same.mpr fun b hb => ?_
  have hbB := (List.mem_filter.mp hb).1
  exact ⟨(hB.wellFormed hbB).sameUnderRoot_relay (hr b hbB),
    ((hB.wellFormed hbB).readsAlike_relay (hr b hbB)).signature⟩

theorem PublishedBatch.same_of_no_collision (P : PublishedBatch H) (hl : ∀ s ∈ l, s.WellFormed)
    (hroot : ∀ s ∈ l, s.merkleRoot H = .ok P.root) (hsig : ∀ s ∈ l, s.signature = P.signature)
    (hno : ¬(scheme H).Collision (seenStrings H [P] l)) :
    ∀ s ∈ l, ∃ b ∈ P.shreds, SameUnderRoot s b ∧ s.signature = b.signature := by
  intro s hs
  obtain ⟨-, b, hb, hsb⟩ := (PublishedBatch.has_or_collision (List.mem_singleton_self P) hs
    (hl s hs) (hroot s hs) (hsig s hs)).resolve_right hno
  exact ⟨b, hb, hsb, (hsig s hs).trans (P.signed b hb).symm⟩

theorem nodup_positions (hl : ∀ s ∈ l, s.WellFormed)
    (h : (l.map Shred.erasureShardIndex).Nodup) : (l.map Shred.position).Nodup := by
  have hmap : l.map Shred.erasureShardIndex = (l.map Shred.position).map .ok := by
    rw [List.map_map]
    exact List.map_congr_left fun s hs => (hl s hs).sane.erasureShardIndex
  rw [hmap] at h
  exact h.of_map _

end Batch

/-- A receiver that holds enough accepted shreds under the root and the signature of a published
batch, at distinct places and with a coding shred among them, recovers all the other shreds of
the batch, in order and but for the retransmitter's signature, unless two of the hashed strings
collide. The shreds may come from any number of retransmitters. -/
theorem verified_recovery_complete (H : Hasher) (cache : ReedSolomonCache) (srt : ShredSort)
    (P : PublishedBatch H) (hcodec : CodecCorrect cache P.numData P.numCoding P.parity)
    (l : List Shred) (hl : ∀ s ∈ l, s.Accepted) (hroot : ∀ s ∈ l, s.merkleRoot H = .ok P.root)
    (hsig : ∀ s ∈ l, s.signature = P.signature)
    (hplaces : (l.map Shred.erasureShardIndex).Nodup) (hn : P.numData ≤ l.length)
    (hcode : ∃ s ∈ l, s.kind = .code) :
    (∃ ys, recover H cache srt l = .ok (ys.map .ok) ∧
      List.Forall₂ (fun y b => SameUnderRoot y b ∧ y.signature = b.signature) ys
        (P.shreds.filter fun b => b.position ∉ l.map Shred.position)) ∨
    (scheme H).Collision (seenStrings H [P] l) := by
  have hwf : ∀ s ∈ l, s.WellFormed := fun s hs => Shred.accepted_iff.mp (hl s hs)
  by_cases hcoll : (scheme H).Collision (seenStrings H [P] l)
  · exact .inr hcoll
  left
  exact P.complete.recover_relayed hcodec hwf (P.same_of_no_collision hwf hroot hsig hcoll)
    (nodup_positions hwf hplaces) hn hcode

section Two

/-- A data shred with room for two proof entries and for a retransmitter's signature. -/
def roomyData : ShredData :=
  dataShred { (plainData 0 88).commonHeader with shredVariant := .merkleData 2 true }
    (plainData 0 88).dataHeader (List.replicate 1115 0)

/-- It and three copies of it, sealed. -/
def roomyBatch : List Shred := sealBatch sha256Hasher (replicated roomyData 0 3)

theorem roomyData_wellFormed : (Shred.shredData roomyData).WellFormed :=
  plainVariant_wellFormed rfl (by decide : (2 : UInt8).toNat < 16)

theorem unsealedRoomyBatch_consistent : ConsistentBatch (copies 3) 1 3 (replicated roomyData 0 3) :=
  replicated_consistent roomyData_wellFormed rfl rfl (by decide) (by decide) (by decide)

theorem roomyBatch_complete : CompleteBatch sha256Hasher (copies 3) 1 3 roomyBatch :=
  unsealedRoomyBatch_consistent.complete sha256Hasher

theorem roomyBatch_resigned {s : Shred} (hs : s ∈ roomyBatch) : s.variant.resigned = true := by
  obtain ⟨b, hb, -, hsb⟩ := unsealedRoomyBatch_consistent.sealable.exists_sameBatch hs
  obtain ⟨-, hbd, -⟩ := of_mem_replicated roomyData_wellFormed rfl (by decide) (by decide) hb
  exact hsb.resigned.trans hbd.resigned

theorem relay_of_mem_roomyBatch {P : PublishedBatch sha256Hasher} (hP : P.shreds = roomyBatch)
    {s : Shred} (hs : s ∈ roomyBatch) (g : Signature) : (relay g.1 s).WellFormed ∧
      (relay g.1 s).merkleRoot sha256Hasher = .ok P.root ∧
      (relay g.1 s).signature = P.signature ∧ (relay g.1 s).retransmitterSignature = .ok g := by
  have hws := roomyBatch_complete.wellFormed hs
  have hr : Relays g.1 s := relays_of_signature (roomyBatch_resigned hs) g
  have hwf := hws.relay hr
  refine ⟨hwf, ?_, ?_, hwf.toShaped.retransmitterSignature_eq_ok.mpr ⟨?_, ?_⟩⟩
  · exact (hws.sameUnderRoot_relay hr).merkleRoot_eq hwf hws
      (P.complete.merkleRoot_eq P.hasRoot (hP ▸ hs))
  · rw [(hws.readsAlike_relay hr).signature]
    exact P.signed s (hP ▸ hs)
  · rw [variant_relay, roomyBatch_resigned hs]
  · exact hws.toShaped.part_withPart hr

/-- Two copies arrive, each from a retransmitter of its own. -/
theorem verified_recovery_complete_two : ∃ (P : PublishedBatch sha256Hasher) (x y : Shred),
    P.shreds = roomyBatch ∧
      x.retransmitterSignature = .ok (plainData 0 88).commonHeader.signature ∧
      y.retransmitterSignature = .ok twosSignature ∧
      ((∃ ys, recover sha256Hasher replicationCache stableSort [x, y] = .ok (ys.map .ok) ∧
        List.Forall₂ (fun y b => SameUnderRoot y b ∧ y.signature = b.signature) ys
          (roomyBatch.filter fun b => b.position ∉ [x, y].map Shred.position)) ∨
      (scheme sha256Hasher).Collision (seenStrings sha256Hasher [P] [x, y])) := by
  obtain ⟨P, hshreds, hparity, hdata, hcoding⟩ := roomyBatch_complete.exists_published
  obtain ⟨first, hcode⟩ := roomyBatch_complete.coding
  obtain ⟨c, hc, -⟩ := hcode 0 (by decide)
  obtain ⟨d, hd, -⟩ := hcode 1 (by decide)
  have hcodec : CodecCorrect replicationCache P.numData P.numCoding P.parity := by
    rw [hparity, hdata, hcoding]
    exact replicationCache_three
  obtain ⟨hwx, hxr, hxs, hxg⟩ := relay_of_mem_roomyBatch hshreds (List.mem_of_getElem? hc)
    (plainData 0 88).commonHeader.signature
  obtain ⟨hwy, hyr, hys, hyg⟩ := relay_of_mem_roomyBatch hshreds (List.mem_of_getElem? hd)
    twosSignature
  have hpos := hwx.sane.erasureShardIndex
  have hpos' := hwy.sane.erasureShardIndex
  rw [position_relay, roomyBatch_complete.position_getElem? hc] at hpos
  rw [position_relay, roomyBatch_complete.position_getElem? hd] at hpos'
  refine ⟨P, _, _, hshreds, hxg, hyg, ?_⟩
  rw [← hshreds]
  refine verified_recovery_complete sha256Hasher replicationCache stableSort P hcodec _ ?_ ?_ ?_ ?_ ?_
    ⟨_, List.mem_cons_self, Shred.kind_withPart ..⟩
  · simp [Shred.accepted_iff, hwx, hwy]
  · simp [hxr, hyr]
  · simp [hxs, hys]
  · simp [hpos, hpos']
  · simp [hdata]

end Two

end LightweightShred
