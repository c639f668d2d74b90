import LightweightShred.Replication

/-!
# What the Merkle root commits to

The tree over the completed batch and the proof that a shred stores both explain the root,
as terms over the hashed strings. Two explanations of one root agree, unless two of the
strings collide in the part of the hash that is kept.
-/
namespace LightweightShred
open ByteString Rust Codec Slots HashTree HashScheme

def Shred.storedProof (s : Shred) : List MerkleProofEntry := s.merkleProof.toOption.getD []

/-- What `merkle_root` of a shred hashes: its leaf, and a node for each entry of its proof. -/
def Shred.rootHashes (H : Hasher) (s : Shred) : List Bytes :=
  leafPreimage s.leaf :: Term.chainMsgs (scheme H) s.position (leafNode H s) s.storedProof

def leaves (L : ShredCode) (l : List Shred) (shards : List Bytes) : List Bytes :=
  (List.range L.numShards).map fun i => (completed L l shards i).leaf

/-- What is hashed for the tree: the leaves, and the nodes of every level above them. -/
def treeHashes (H : Hasher) (L : ShredCode) (l : List Shred) (shards : List Bytes) : List Bytes :=
  leafTreeMsgs (scheme H) (leaves L l shards)

/-- What a run of `recover` hashes: the root of the last coding shred, then the tree. -/
def runHashes (H : Hasher) (L : ShredCode) (l : List Shred) (shards : List Bytes) : List Bytes :=
  (Shred.shredCode L).rootHashes H ++ treeHashes H L l shards

/-- The path that the proof of a shred spans above its leaf. -/
def Shred.proofTerm (s : Shred) : Term Bytes MerkleProofEntry :=
  Term.chain s.position (.leaf s.leaf) s.storedProof

section Proofs
variable {H : Hasher} {s : Shred} {root : Hash}

theorem Shred.Shaped.merkleProof_eq (h : s.Shaped) : s.merkleProof = .ok s.storedProof := by
  obtain ⟨es, hes⟩ := h.exists_merkleProof
  rw [Shred.storedProof, hes]
  rfl

theorem Shred.Shaped.length_storedProof (h : s.Shaped) :
    s.storedProof.length = s.variant.proofSize.toNat :=
  (h.merkleProof_eq_ok.mp h.merkleProof_eq).1

theorem Shred.WellFormed.merkleRoot_eq_ok (h : s.WellFormed) : s.merkleRoot H = .ok root ↔
    climb Hash.truncate (scheme H).pair s.position (leafNode H s) s.storedProof = (0, root) := by
  rw [h.toShaped.merkleRoot_eq_ok, h.sane.erasureShardIndex, h.toShaped.merkleProof_eq]
  constructor
  · rintro ⟨i, es, hi, hes, hroot⟩
    cases hi
    cases hes
    exact (getMerkleRoot_eq_ok H).mp hroot
  · intro hclimb
    exact ⟨_, _, rfl, rfl, (getMerkleRoot_eq_ok H).mpr hclimb⟩

theorem Shred.WellFormed.root_hashed (h : s.WellFormed) (hroot : s.merkleRoot H = .ok root) :
    (s.rootHashes H).getLast?.map H.sha256 = some root := by
  have hlast := Term.getLast_chainMsgs (scheme H) s.position (leafPreimage s.leaf) s.storedProof
  have hclimb := h.merkleRoot_eq_ok.mp hroot
  exact hlast.trans (congrArg (fun r => some r.2) hclimb)

theorem Shred.WellFormed.tag_proofTerm (h : s.WellFormed) (hroot : s.merkleRoot H = .ok root) :
    s.proofTerm.tag (scheme H) = root.truncate := by
  have htag := Term.tag_chain (scheme H) s.position (u := .leaf s.leaf) (a := leafNode H s) rfl
    s.storedProof
  have hclimb := h.merkleRoot_eq_ok.mp hroot
  rw [Shred.proofTerm, htag]
  exact congrArg (fun r => Hash.truncate r.2) hclimb

theorem mem_rootHashes {m : Bytes} (hm : m ∈ s.proofTerm.msgs (scheme H)) :
    m ∈ s.rootHashes H := by
  rcases Term.mem_msgs_chain (scheme H) (u := .leaf s.leaf) (a := leafNode H s) rfl hm with hu | hc
  · rw [List.mem_singleton.mp hu]
    exact List.mem_cons_self
  · exact List.mem_cons_of_mem _ hc

end Proofs

section Tree
variable {H : Hasher} {cache : ReedSolomonCache} {l : List Shred} {L : ShredCode}
  {shards : List Bytes} {root : Hash} {items : List (Result Shred)} {s : Shred}

theorem length_leaves (L : ShredCode) (l : List Shred) (shards : List Bytes) :
    (leaves L l shards).length = L.numShards := by simp [leaves]

theorem leafDigest_leaves :
    (leaves L l shards).map (scheme H).leafDigest = leafNodes H L l shards := by
  rw [leaves, List.map_map]
  rfl

theorem Reconstructs.nodes_hashed (h : Reconstructs cache l L shards) (hl : ∀ s ∈ l, s.WellFormed) :
    MerkleTree.tryNew H ((leafNodes H L l shards).map .ok) =
      .ok ⟨(treeHashes H L l shards).map H.sha256⟩ := by
  have hnodes := flatten_eq_map_hash (scheme H) (leaves L l shards)
  rw [leafDigest_leaves, length_leaves] at hnodes
  rw [MerkleTree.tryNew_ok H (h.leafNodes_ne hl), length_leafNodes, hnodes]
  rfl

theorem Recovers.exists_term (h : Recovers H cache l L shards root items)
    (hl : ∀ s ∈ l, s.WellFormed) :
    ∃ t : Term Bytes MerkleProofEntry,
      level .node (depth L.numShards) ((leaves L l shards).map .leaf) = [t] ∧
      t.tag (scheme H) = root.truncate ∧ t.Perfect (depth L.numShards) ∧
      ∀ m ∈ t.msgs (scheme H), m ∈ treeHashes H L l shards := by
  have hne : leaves L l shards ≠ [] := by
    intro hnil
    apply h.leafNodes_ne hl (H := H)
    rw [← leafDigest_leaves, hnil, List.map_nil]
  obtain ⟨t, r, ht, hr, htag, hperfect, hmsgs⟩ := exists_top (scheme H) hne
  rw [length_leaves] at ht hr hperfect
  rw [leafDigest_leaves, h.tree] at hr
  cases hr
  exact ⟨t, ht, htag, hperfect, hmsgs⟩

theorem Recovers.storedProof_eq (h : Recovers H cache l L shards root items)
    (hl : ∀ s ∈ l, s.WellFormed) (hs : s.WellFormed) (hpos : s.position < L.numShards)
    (hroot : s.merkleRoot H = .ok root) :
    s.storedProof = treeProof H L l shards s.position ∨
      (scheme H).Collision (s.rootHashes H ++ treeHashes H L l shards) := by
  obtain ⟨t, ht, htag, hperfect, hmsgs⟩ := h.exists_term hl
  rcases Term.agree_or_collision (scheme H) ((hs.tag_proofTerm hroot).trans htag.symm)
    with hagree | hcoll
  · left
    have hlen := Term.Agree.length_eq (scheme H) hagree hperfect
    obtain ⟨-, hes⟩ := Term.Agree.path (scheme H)
      (E := (leaves L l shards).map .leaf) (by simpa [length_leaves] using hpos)
      (by rw [hlen]; exact ht) hagree
    have hpath := Explains.path (scheme H) (explains_leaves (scheme H) (leaves L l shards))
      (depth L.numShards) s.position
    rw [hlen, hpath, leafDigest_leaves] at hes
    exact hes
  · right
    refine hcoll.mono fun m hm => List.mem_append.mpr ?_
    exact (List.mem_append.mp hm).imp mem_rootHashes (hmsgs m)

theorem toNat_getProofSize (hL : (Shred.shredCode L).Sane) :
    (getProofSize L.numShards).toNat = depth L.numShards := by
  obtain ⟨-, -, -, hd, -, hn⟩ := numbers hL
  have h1 := L.codingHeader.numDataShreds.toNat_lt
  have h2 := L.codingHeader.numCodingShreds.toNat_lt
  exact getProofSize_eq_depth (by omega) (by rw [hn, ShredCode.numDataShreds]; omega)

/-- The proofs have the size of the tree, although nothing in the code compares the two. -/
theorem Recovers.proofSize_eq (h : Recovers H cache l L shards root items)
    (hl : ∀ s ∈ l, s.WellFormed) :
    L.commonHeader.shredVariant.proofSize = getProofSize L.numShards ∨
      (scheme H).Collision (runHashes H L l shards) := by
  have hL := h.wellFormed_last hl
  refine (h.storedProof_eq hl hL (h.placeable.bound _ (List.mem_of_getLast? h.last)) h.root).imp_left
    fun hes => ?_
  have hlen := congrArg List.length hes
  rw [hL.toShaped.length_storedProof, length_treeProof h.toReconstructs hl,
    ← toNat_getProofSize hL.sane] at hlen
  exact UInt8.toNat_inj.mp hlen

theorem Recovers.items_ok (h : Recovers H cache l L shards root items)
    (hl : ∀ s ∈ l, s.WellFormed)
    (hps : L.commonHeader.shredVariant.proofSize = getProofSize L.numShards) :
    ∀ x ∈ items, ∃ s, x = .ok s := by
  intro x hx
  rw [h.items] at hx
  obtain ⟨i, hi, rfl⟩ := List.mem_map.mp hx
  obtain ⟨hin, hm⟩ := mem_missing_iff.mp hi
  refine ⟨_, (h.shaped_completed hl hin).setMerkleProof_eq_ok.mpr ⟨?_, rfl⟩⟩
  rw [length_treeProof h.toReconstructs hl, (h.sameBatch_completed hl hin hm).proofSize,
    ← toNat_getProofSize (h.wellFormed_last hl).sane, ← hps]
  rfl

theorem Recovers.leaves_eq {cache' : ReedSolomonCache} {l' : List Shred} {L' : ShredCode}
    {shards' : List Bytes} {items' : List (Result Shred)}
    (h : Recovers H cache l L shards root items) (hl : ∀ s ∈ l, s.WellFormed)
    (h' : Recovers H cache' l' L' shards' root items') (hl' : ∀ s ∈ l', s.WellFormed)
    (hn : L'.numShards = L.numShards) :
    leaves L l shards = leaves L' l' shards' ∨
      (scheme H).Collision (treeHashes H L l shards ++ treeHashes H L' l' shards') := by
  obtain ⟨t, ht, htag, -, hmsgs⟩ := h.exists_term hl
  obtain ⟨t', ht', htag', -, hmsgs'⟩ := h'.exists_term hl'
  rw [hn] at ht'
  have hlen : (leaves L l shards).length = (leaves L' l' shards').length := by
    rw [length_leaves, length_leaves, hn]
  rcases Term.agree_or_collision (scheme H) (htag.trans htag'.symm) with hagree | hcoll
  · left
    apply List.ext_getElem hlen
    intro i h1 h2
    have hu : ((leaves L l shards).map (Term.leaf : Bytes → Term Bytes MerkleProofEntry))[i]? =
        some (.leaf (leaves L l shards)[i]) := by
      rw [List.getElem?_map, List.getElem?_eq_getElem h1]
      rfl
    have hv : ((leaves L' l' shards').map (Term.leaf : Bytes → Term Bytes MerkleProofEntry))[i]? =
        some (.leaf (leaves L' l' shards')[i]) := by
      rw [List.getElem?_map, List.getElem?_eq_getElem h2]
      rfl
    exact Term.Agree.leaves (scheme H) (by rw [List.length_map, List.length_map, hlen]) ht ht'
      hagree hu hv
  · right
    refine hcoll.mono fun m hm => List.mem_append.mpr ?_
    exact (List.mem_append.mp hm).imp (hmsgs m) (hmsgs' m)

end Tree

end LightweightShred
