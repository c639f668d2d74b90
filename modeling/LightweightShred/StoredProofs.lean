import LightweightShred.Commitment

/-!
# The proofs of the given shreds

`recover` reads the proof of the last coding shred only, and no leaf holds a proof. The others
may be anything. They are right where no two given shreds contradict each other: a leaf with its
proof speaks of nodes of the tree, and the last coding shred of those below the root.
-/
namespace LightweightShred
open ByteString Rust Codec Slots HashTree HashScheme

/-- What `recover` asserts in debug builds: each given shred stores the proof that the tree
over the completed batch has for its position. -/
def ProofsConfirmed (H : Hasher) (L : ShredCode) (l : List Shred) (shards : List Bytes) : Prop :=
  ∃ tree, MerkleTree.tryNew H ((leafNodes H L l shards).map .ok) = .ok tree ∧
    ∀ s ∈ l, ∃ i es, s.erasureShardIndex = .ok i ∧ s.merkleProof = .ok es ∧
      tree.makeMerkleProof i L.numShards = es.map .ok

/-- What the leaf of a shred with its stored proof says of the nodes below the root: that the node
`index` of a level has these twenty bytes. -/
def Shred.Says (H : Hasher) (s : Shred) : (level index : Nat) → MerkleProofEntry → Prop :=
  HashTree.Says Hash.truncate (scheme H).pair s.position (leafNode H s) s.storedProof

/-- No two shreds of a list say different things of one node. -/
def ProofsFit (H : Hasher) (l : List Shred) : Prop :=
  ∀ s ∈ l, ∀ t ∈ l, ∀ level index v w, s.Says H level index v → t.Says H level index w → v = w

section
variable {H : Hasher} {l : List Shred} {s t : Shred} {root : Hash}

theorem ProofsFit.mono {m : List Shred} (h : ProofsFit H l) (hsub : ∀ s ∈ m, s ∈ l) :
    ProofsFit H m :=
  fun s hs t ht => h s (hsub s hs) t (hsub t ht)

theorem proofsFit_of_paths {M : List Hash} {d : Nat}
    (h : ∀ s ∈ l, M[s.position]? = some (leafNode H s) ∧
      s.storedProof = (path (scheme H).join d s.position M).map Hash.truncate) :
    ProofsFit H l := by
  intro s hs t ht level index v w hv hw
  obtain ⟨hsl, hsp⟩ := h s hs
  obtain ⟨htl, htp⟩ := h t ht
  rw [Shred.Says, hsp] at hv
  rw [Shred.Says, htp] at hw
  exact Says.unique_of_path _ _ hsl htl hv hw

/-- A shred that is not the first of its batch has a proof, if it vouches for a root at all. -/
theorem Shred.WellFormed.position_lt_of_root (h : s.WellFormed)
    (hroot : s.merkleRoot H = .ok root) : s.position < 2 ^ s.storedProof.length := by
  have hfst := climb_fst Hash.truncate (scheme H).pair s.position (leafNode H s) s.storedProof
  rw [h.merkleRoot_eq_ok.mp hroot] at hfst
  exact (Nat.div_eq_zero_iff_lt (Nat.two_pow_pos _)).mp hfst.symm

/-- Proofs that fit, of one length, end in one root: it joins the two nodes below it, and both
shreds speak of both. -/
theorem ProofsFit.merkleRoot_eq (h : ProofsFit H l) (hs : s ∈ l) (ht : t ∈ l)
    (hws : s.WellFormed) (hwt : t.WellFormed)
    (hlen : s.storedProof.length = t.storedProof.length) (hle : s.position ≤ t.position)
    (hpos : 0 < t.position) (hroot : t.merkleRoot H = .ok root) : s.merkleRoot H = .ok root := by
  have hlt := hwt.position_lt_of_root hroot
  obtain ⟨k, hk⟩ : ∃ k, t.storedProof.length = k + 1 := by
    refine Nat.exists_eq_succ_of_ne_zero fun hzero => ?_
    rw [hzero, pow_zero] at hlt
    omega
  rw [hk] at hlt
  obtain ⟨v, w, hv, hw, htop⟩ := exists_says_top Hash.truncate (scheme H).pair
    (a := leafNode H t) hk hlt
  obtain ⟨v', w', hv', hw', htop'⟩ := exists_says_top Hash.truncate (scheme H).pair
    (a := leafNode H s) (hlen.trans hk) (hle.trans_lt hlt)
  obtain rfl := h t ht s hs _ _ _ _ hv hv'
  obtain rfl := h t ht s hs _ _ _ _ hw hw'
  rw [hwt.merkleRoot_eq_ok, htop] at hroot
  rw [hws.merkleRoot_eq_ok, htop', hroot]

end

section
variable {H : Hasher} {cache : ReedSolomonCache} {l : List Shred} {L : ShredCode}
  {shards : List Bytes} {root : Hash} {items : List (Result Shred)} {s : Shred}

theorem Reconstructs.proofsConfirmed_iff (h : Reconstructs cache l L shards)
    (hl : ∀ s ∈ l, s.WellFormed) : ProofsConfirmed H L l shards ↔
      ∀ s ∈ l, s.storedProof = treeProof H L l shards s.position := by
  have hlen := length_leafNodes H L l shards
  have htree := MerkleTree.tryNew_ok H (h.leafNodes_ne hl (H := H))
  have hmake : ∀ s ∈ l, (MerkleTree.mk (flatten (scheme H).join (depth (leafNodes H L l shards).length)
      (leafNodes H L l shards))).makeMerkleProof s.position L.numShards =
        (treeProof H L l shards s.position).map .ok := by
    intro s hs
    have hpath := MerkleTree.makeMerkleProof_eq H (i := s.position)
      (by rw [hlen]; exact h.placeable.bound s hs) rfl
    rw [hlen] at hpath
    rw [hlen, hpath, treeProof, List.map_map]
    rfl
  constructor
  · rintro ⟨tree, ht, hall⟩ s hs
    rw [htree] at ht
    cases ht
    obtain ⟨i, es, hi, hes, hmk⟩ := hall s hs
    rw [(hl s hs).sane.erasureShardIndex] at hi
    cases hi
    rw [(hl s hs).toShaped.merkleProof_eq] at hes
    cases hes
    rw [hmake s hs] at hmk
    exact (List.map_injective_iff.mpr (fun _ _ h => Except.ok.inj h) hmk).symm
  · intro hall
    refine ⟨_, htree, fun s hs => ⟨s.position, s.storedProof, (hl s hs).sane.erasureShardIndex,
      (hl s hs).toShaped.merkleProof_eq, ?_⟩⟩
    rw [hmake s hs, hall s hs]

theorem Recovers.merkleRoot_given (h : Recovers H cache l L shards root items)
    (hl : ∀ s ∈ l, s.WellFormed) (hs : s ∈ l)
    (hproof : s.storedProof = treeProof H L l shards s.position) : s.merkleRoot H = .ok root := by
  have hwf := hl s hs
  have hlt := h.placeable.bound s hs
  refine merkleRoot_of_treeProof hwf.toShaped hlt hwf.sane.erasureShardIndex ?_ ?_ h.tree
  · rw [h.completed_of_held hl hlt (held_of_mem h.placeable.increasing hs)]
  · rw [hwf.toShaped.merkleProof_eq, hproof]

theorem Recovers.proofsFit (h : Recovers H cache l L shards root items)
    (hl : ∀ s ∈ l, s.WellFormed)
    (hproofs : ∀ s ∈ l, s.storedProof = treeProof H L l shards s.position) : ProofsFit H l := by
  refine proofsFit_of_paths (M := leafNodes H L l shards) (d := depth L.numShards) fun s hs =>
    ⟨?_, hproofs s hs⟩
  have hlt := h.placeable.bound s hs
  have hheld := h.completed_of_held hl hlt (held_of_mem h.placeable.increasing hs)
  rw [leafNodes, List.getElem?_map, List.getElem?_range hlt, Option.map_some, hheld]
  rfl

/-- Of proofs that fit, the last one brings all to the root of the tree. -/
theorem Recovers.merkleRoot_of_fit (h : Recovers H cache l L shards root items)
    (hl : ∀ s ∈ l, s.WellFormed) (hag : Agreeing l) (hfit : ProofsFit H l) (hs : s ∈ l) :
    s.merkleRoot H = .ok root := by
  have hmem := List.mem_of_getLast? h.last
  have hL := hl _ hmem
  have hlen : s.storedProof.length = (Shred.shredCode L).storedProof.length := by
    rw [(hl s hs).toShaped.length_storedProof, hL.toShaped.length_storedProof,
      (hag.variant s hs _ hmem).1]
  have hpos : 0 < (Shred.shredCode L).position := by
    obtain ⟨-, -, -, hd, -, -⟩ := numbers hL.sane
    rw [ShredCode.numDataShreds] at hd
    simp only [Shred.position]
    omega
  exact hfit.merkleRoot_eq hs hmem (hl s hs) hL hlen (h.placeable.increasing.le_last h.last hs)
    hpos h.root

/-- Shreds that vouch for the root store their proofs, unless strings collide that the tree
or their own roots are made from. -/
theorem Recovers.confirmed_of_roots (h : Recovers H cache l L shards root items)
    (hl : ∀ s ∈ l, s.WellFormed) (hroot : ∀ s ∈ l, s.merkleRoot H = .ok root) :
    (∀ s ∈ l, s.storedProof = treeProof H L l shards s.position) ∨
      (scheme H).Collision (l.flatMap (Shred.rootHashes H) ++ treeHashes H L l shards) := by
  by_cases hall : ∀ s ∈ l, s.storedProof = treeProof H L l shards s.position
  · exact .inl hall
  · simp only [not_forall] at hall
    obtain ⟨s, hs, hne⟩ := hall
    rcases h.storedProof_eq hl (hl s hs) (h.placeable.bound s hs) (hroot s hs) with heq | hcoll
    · exact (hne heq).elim
    · right
      refine hcoll.mono fun m hm => List.mem_append.mpr ?_
      exact (List.mem_append.mp hm).imp_left fun hm => List.mem_flatMap.mpr ⟨s, hs, hm⟩

end

/-- Whether a successful `recover` confirms the proofs it was given: only if the given shreds
do not contradict each other, and then always, collisions apart. -/
theorem recover_confirms_fitting_proofs (H : Hasher) (cache : ReedSolomonCache) (srt : ShredSort)
    (l : List Shred) (hl : ∀ s ∈ l, s.Accepted) (hag : Agreeing l) (items : List (Result Shred))
    (hr : recover H cache srt l = .ok items) :
    ∃ L shards root, Reconstructs cache (sortShreds srt l) L shards ∧
      (Shred.shredCode L).merkleRoot H = .ok root ∧
      (ProofsConfirmed H L (sortShreds srt l) shards →
        ProofsFit H l ∧ ∀ s ∈ l, s.merkleRoot H = .ok root) ∧
      (ProofsFit H l →
        (ProofsConfirmed H L (sortShreds srt l) shards ∧ ∀ s ∈ l, s.merkleRoot H = .ok root) ∨
          (scheme H).Collision ((sortShreds srt l).flatMap (Shred.rootHashes H) ++
            treeHashes H L (sortShreds srt l) shards)) := by
  have hwf : ∀ s ∈ l, s.WellFormed := fun s hs => Shred.accepted_iff.mp (hl s hs)
  have hsl := @wellFormed_sortShreds srt l hwf
  have hperm := sortShreds_perm srt l
  obtain ⟨L, shards, root, hR⟩ := (recover_eq_ok hwf).mp hr
  refine ⟨L, shards, root, hR.toReconstructs, hR.root, ?_, ?_⟩
  · intro hconfirmed
    have hproofs := (hR.proofsConfirmed_iff hsl).mp hconfirmed
    refine ⟨?_, fun s hs => hR.merkleRoot_given hsl (hperm.mem_iff.mpr hs)
      (hproofs s (hperm.mem_iff.mpr hs))⟩
    exact (hR.proofsFit hsl hproofs).mono fun s hs => hperm.mem_iff.mpr hs
  · intro hfit
    have hall : ∀ s ∈ sortShreds srt l, s.merkleRoot H = .ok root := fun s hs =>
      hR.merkleRoot_of_fit hsl (hag.perm hperm) (hfit.mono fun s hs => hperm.mem_iff.mp hs) hs
    refine (hR.confirmed_of_roots hsl hall).imp_left fun hproofs =>
      ⟨(hR.proofsConfirmed_iff hsl).mpr hproofs, fun s hs => hall s (hperm.mem_iff.mpr hs)⟩

namespace CompleteBatch
variable {H : Hasher} {parity : List Bytes → List Bytes} {numData numCoding : Nat}
  {B : List Shred} {i : Nat} {b : Shred}

theorem ne_nil (hB : CompleteBatch H parity numData numCoding B) : B ≠ [] := by
  have hlen := hB.length
  have hcounts := hB.counts
  intro hnil
  rw [hnil, List.length_nil] at hlen
  omega

theorem nodes_eq (hB : CompleteBatch H parity numData numCoding B) :
    B.map (Shred.merkleNode H) = (B.map (leafNode H)).map .ok := by
  rw [List.map_map]
  exact List.map_congr_left fun s hs => (hB.wellFormed hs).toShaped.merkleNode H

theorem storedProof_eq (hB : CompleteBatch H parity numData numCoding B) (hb : B[i]? = some b) :
    b.storedProof = batchProof H B i := by
  obtain ⟨tree, htree, hproofs⟩ := hB.proofs
  obtain ⟨es, hes, hpath⟩ := hproofs i b hb
  have hne : B.map (leafNode H) ≠ [] := fun hnil => hB.ne_nil (List.map_eq_nil_iff.mp hnil)
  have hlen : (B.map (leafNode H)).length = B.length := List.length_map ..
  rw [hB.nodes_eq, MerkleTree.tryNew_ok H hne] at htree
  have hmake := MerkleTree.makeMerkleProof_eq H (L := B.map (leafNode H)) (i := i)
    (by rw [hlen]; exact (List.getElem?_eq_some_iff.mp hb).1)
    (congrArg MerkleTree.nodes (Except.ok.inj htree)).symm
  rw [hlen, hB.length, hpath] at hmake
  have hes' : es = batchProof H B i := by
    apply List.map_injective_iff.mpr (fun a b h => Except.ok.inj h : Function.Injective
      (Except.ok : MerkleProofEntry → Result MerkleProofEntry))
    rw [hmake, batchProof, hB.length, List.map_map]
    rfl
  rw [Shred.storedProof, hes, hes']
  rfl

theorem merkleRoot_of_level (hB : CompleteBatch H parity numData numCoding B) {root : Hash}
    (htop : level (scheme H).join (depth B.length) (B.map (leafNode H)) = [root]) (hb : b ∈ B) :
    b.merkleRoot H = .ok root := by
  obtain ⟨i, hi⟩ := List.mem_iff_getElem?.mp hb
  have hwf := hB.wellFormed hb
  have hlen : (B.map (leafNode H)).length = B.length := List.length_map ..
  have hpath := @getMerkleRoot_path H (B.map (leafNode H)) i (leafNode H b) root
    (by rw [List.getElem?_map, hi]; rfl) (by rw [hlen]; exact htop)
  rw [hlen] at hpath
  refine hwf.toShaped.merkleRoot_eq_ok.mpr ⟨i, _, ?_, hwf.toShaped.merkleProof_eq, ?_⟩
  · rw [hwf.sane.erasureShardIndex, hB.position_getElem? hi]
  · rw [hB.storedProof_eq hi]
    exact hpath

theorem proofsFit {l : List Shred} (hB : CompleteBatch H parity numData numCoding B)
    (hsub : ∀ s ∈ l, s ∈ B) : ProofsFit H l := by
  refine proofsFit_of_paths (M := B.map (leafNode H)) (d := depth B.length) fun s hs => ?_
  have hget := hB.getElem?_position (hsub s hs)
  refine ⟨?_, hB.storedProof_eq hget⟩
  rw [List.getElem?_map, hget, Option.map_some]

end CompleteBatch

/-- Three copies of a data shred: their proofs fit. -/
theorem recover_confirms_fitting_proofs_copies : ∃ L shards,
    Reconstructs replicationCache (sortShreds stableSort threeCopies) L shards ∧
    (ProofsConfirmed sha256Hasher L (sortShreds stableSort threeCopies) shards ∨
      (scheme sha256Hasher).Collision
        ((sortShreds stableSort threeCopies).flatMap (Shred.rootHashes sha256Hasher) ++
          treeHashes sha256Hasher L (sortShreds stableSort threeCopies) shards)) := by
  obtain ⟨L, shards, root, hR, -, -, hfits⟩ := recover_confirms_fitting_proofs sha256Hasher
    replicationCache stableSort threeCopies threeCopies_accepted threeCopies_agreeing _
    recover_threeCopies
  have hfit := threeCopies_complete.proofsFit fun _ => mem_of_threeCopies
  exact ⟨L, shards, hR, (hfits hfit).imp_left And.left⟩

section Tampered

/-- The first shred with every byte of its proof changed. -/
def tampered (l : List Shred) : List Shred :=
  l.modifyHead fun s => s.withPart .proof ((s.part .proof).map (· + 1))

section
variable {H : Hasher} {s : Shred} {l : List Shred}

theorem Shred.Shaped.tampered_fits (h : s.Shaped) : Region.proof.lo s.kind s.variant +
    ((s.part .proof).map (· + 1)).length = Region.proof.hi s.kind s.variant := by
  have hle := Region.lo_le_hi s.kind h.valid .proof
  rw [List.length_map, h.length_part]
  omega

theorem reproved_tampered (hl : ∀ s ∈ l, s.WellFormed) : Reproved (tampered l) l := by
  have hself : ∀ s : Shred, s.WellFormed → ∃ d : Bytes, s = s.withPart .proof d ∧
      Region.proof.lo s.kind s.variant + d.length = Region.proof.hi s.kind s.variant := by
    intro s hs
    have hle := Region.lo_le_hi s.kind hs.valid .proof
    refine ⟨s.part .proof, (hs.withPart_part .proof).symm, ?_⟩
    rw [hs.length_part]
    omega
  cases l with
  | nil => exact .nil
  | cons x l =>
      refine .cons ⟨_, rfl, (hl x List.mem_cons_self).tampered_fits⟩ ?_
      exact List.forall₂_same.mpr fun s hs => hself s (hl s (List.mem_cons_of_mem _ hs))

theorem Reproved.trans {m B : List Shred} (h : Reproved l m) (h' : Reproved m B)
    (hB : ∀ b ∈ B, b.WellFormed) : Reproved l B := by
  induction h generalizing B with
  | nil => exact h'
  | cons hsm _ ih =>
      cases h' with
      | cons hmb htail =>
          obtain ⟨d, rfl, hd⟩ := hsm
          obtain ⟨e, rfl, he⟩ := hmb
          simp only [Shred.kind_withPart, Shred.variant_withPart] at hd
          have hb := (hB _ List.mem_cons_self).toShaped
          exact .cons ⟨d, hb.withPart_withPart he hd, hd⟩
            (ih htail fun b hb => hB b (List.mem_cons_of_mem _ hb))

theorem getElem?_tampered_zero {x : Shred} (hx : l[0]? = some x) :
    (tampered l)[0]? = some (x.withPart .proof ((x.part .proof).map (· + 1))) := by
  cases l with
  | nil => cases hx
  | cons y l =>
      cases hx
      rfl

theorem getElem?_tampered_succ (l : List Shred) (k : Nat) :
    (tampered l)[k + 1]? = l[k + 1]? := by
  cases l <;> rfl

theorem storedProof_tampered {x : Shred} (hx : x.Shaped) (hne : x.part .proof ≠ []) :
    (x.withPart .proof ((x.part .proof).map (· + 1))).storedProof ≠ x.storedProof := by
  intro heq
  have hy := hx.withPart hx.tampered_fits
  have h1 := (hx.merkleProof_eq_ok.mp hx.merkleProof_eq).2
  have h2 := (hy.merkleProof_eq_ok.mp hy.merkleProof_eq).2
  rw [heq, h1, hx.part_withPart hx.tampered_fits] at h2
  cases hp : x.part .proof with
  | nil => exact hne hp
  | cons a rest =>
      rw [hp, List.map_cons, List.cons.injEq] at h2
      have ha := congrArg UInt8.toNat h2.1
      rw [UInt8.toNat_add, UInt8.toNat_one] at ha
      omega

end

end Tampered

/-- Two copies and their data shred, sealed; then every byte of the data shred's proof is
changed. `recover` succeeds, and the proof is not that of the tree. -/
theorem recover_unconfirmed :
    (∀ s ∈ tampered (sealBatch sha256Hasher (twoCopies 10 11)), s.Accepted) ∧
    Agreeing (tampered (sealBatch sha256Hasher (twoCopies 10 11))) ∧
    recover sha256Hasher replicationCache stableSort
      (tampered (sealBatch sha256Hasher (twoCopies 10 11))) = .ok [] ∧
    ∃ L shards, Reconstructs replicationCache
        (sortShreds stableSort (tampered (sealBatch sha256Hasher (twoCopies 10 11)))) L shards ∧
      ¬ProofsConfirmed sha256Hasher L
        (sortShreds stableSort (tampered (sealBatch sha256Hasher (twoCopies 10 11)))) shards := by
  have hseal := twoCopies_sealable (show (10 : UInt32).toNat ≤ 32766 by decide)
    (show 1 ≤ (11 : UInt32).toNat ∧ (11 : UInt32).toNat ≤ 32767 by decide)
  have hwf : ∀ b ∈ twoCopies 10 11, b.WellFormed := fun b hb => (hseal b hb).1
  have hwfS : ∀ s ∈ sealBatch sha256Hasher (twoCopies 10 11), s.WellFormed :=
    fun s hs => hseal.wellFormed hs
  have hrep : Reproved (tampered (sealBatch sha256Hasher (twoCopies 10 11))) (twoCopies 10 11) :=
    (reproved_tampered hwfS).trans (hseal.reproved _) hwf
  have hwfT := hrep.wellFormed hwf
  obtain ⟨x, L, hx, hsize, hL⟩ : ∃ (x : Shred) (L : ShredCode),
      (sealBatch sha256Hasher (twoCopies 10 11))[0]? = some x ∧ x.variant.proofSize = 2 ∧
      (sealBatch sha256Hasher (twoCopies 10 11))[2]? = some (.shredCode L) := ⟨_, _, rfl, rfl, rfl⟩
  have hok : recover sha256Hasher replicationCache stableSort
      (tampered (sealBatch sha256Hasher (twoCopies 10 11))) = .ok [] :=
    recover_twoCopies_reproved (by decide) (by decide) (by decide) hrep
      ((getElem?_tampered_succ _ 1).trans hL) (hseal.merkleProof hL)
  refine ⟨fun s hs => Shred.accepted_iff.mpr (hwfT s hs), hrep.agreeing (twoCopies_agreeing _ _),
    hok, ?_⟩
  obtain ⟨M, shards, root, hR⟩ := (recover_eq_ok hwfT).mp hok
  refine ⟨M, shards, hR.toReconstructs, ?_⟩
  rw [hR.toReconstructs.proofsConfirmed_iff (wellFormed_sortShreds hwfT)]
  have hsorted := hrep.sorted (twoCopies_sorted (show (10 : UInt32).toNat ≤ (11 : UInt32).toNat by
    decide))
  rw [sortShreds_of_sorted hsorted] at hR ⊢
  intro hall
  have hfull : (tampered (sealBatch sha256Hasher (twoCopies 10 11))).length = M.numShards := by
    have hnone := congrArg List.length hR.items
    rw [List.length_map, missingAt] at hnone
    have hlen := length_missing hR.placeable.increasing hR.placeable.bound
    rw [← hnone] at hlen
    exact hlen
  have hx' := getElem?_tampered_zero hx
  have hproof := hall _ (List.mem_of_getElem? hx')
  rw [hrep.position twoCopies_position hx', hR.treeProof_given hwfT hfull, hrep.batchProof hwf]
    at hproof
  have hshaped := (hwfS x (List.mem_of_getElem? hx)).toShaped
  have hown := hseal.merkleProof hx
  rw [hshaped.merkleProof_eq, Except.ok.injEq] at hown
  refine storedProof_tampered hshaped ?_ (hproof.trans hown.symm)
  intro hnil
  have hlen := hshaped.length_part .proof
  simp [hnil, Region.lo, Region.hi, ShredVariant.proofBytes, hsize, sizeOfMerkleProofEntry] at hlen

end LightweightShred
