import LightweightShred.StoredProofs
import LightweightShred.Setters
import LightweightShred.Binding
import LightweightShred.ZeroCopy
import LightweightShred.Lib.HashLeaves

/-!
# What equal roots mean

Two shreds at one place of trees of one root are the same behind the signature, proof
included, and two trees of one root stand over the same leaves, up to the repetition of the
last node on odd levels. The proofs may be any: they need not come from a tree.
-/
namespace LightweightShred
open ByteString Rust Codec HashTree HashScheme

/-- Equal in all that the root covers, and in the proof. -/
structure SameUnderRoot (s t : Shred) : Prop where
  content : SameContent s t
  variant : s.commonHeader.shredVariant = t.commonHeader.shredVariant
  slot : s.commonHeader.slot = t.commonHeader.slot
  index : s.commonHeader.index = t.commonHeader.index
  version : s.commonHeader.version = t.commonHeader.version
  fecSetIndex : s.commonHeader.fecSetIndex = t.commonHeader.fecSetIndex
  dataHeader : ∀ a b, s = .shredData a → t = .shredData b → a.dataHeader = b.dataHeader
  codingHeader : ∀ a b, s = .shredCode a → t = .shredCode b → a.codingHeader = b.codingHeader
  erasureShard : s.erasureShard = t.erasureShard
  chainedMerkleRoot : s.chainedMerkleRoot = t.chainedMerkleRoot
  merkleProof : s.merkleProof = t.merkleProof

section Positions
variable {H : Hasher} {s t : Shred}

/-- The length of the leaf tells whether a second signature stands behind the proof. -/
theorem resigned_eq_of_leaf (hs : s.Shaped) (ht : t.Shaped)
    (hps : s.variant.proofSize = t.variant.proofSize) (hleaf : s.leaf = t.leaf) :
    s.variant.resigned = t.variant.resigned := by
  have bytes : ∀ v : ShredVariant, (v.resigned = true ∧ v.resignedBytes = 64) ∨
      (v.resigned = false ∧ v.resignedBytes = 0) := by
    intro v
    unfold ShredVariant.resignedBytes
    cases v.resigned <;> simp [sizeOfSignature]
  have hlen := congrArg List.length hleaf
  have hbs := bodyEnd_add s.kind hs.valid
  have hbt := bodyEnd_add t.kind ht.valid
  have hls := lt_bodyEnd s.kind hs.valid
  have hlt := lt_bodyEnd t.kind ht.valid
  have hsz := sizes s.kind
  have htz := sizes t.kind
  rw [hs.length_leaf, ht.length_leaf] at hlen
  simp only [Region.lo, ShredVariant.proofBytes, hps, sizeOfSignature,
    sizeOfMerkleRoot] at hlen hbs hbt
  rcases bytes s.variant with ⟨hr, hrs⟩ | ⟨hr, hrs⟩ <;>
    rcases bytes t.variant with ⟨hq, hqs⟩ | ⟨hq, hqs⟩ <;> rw [hr, hq]
  · omega
  · omega

theorem sameUnderRoot_of_leaf (hs : s.WellFormed) (ht : t.WellFormed)
    (hps : s.variant.proofSize = t.variant.proofSize) (hleaf : s.leaf = t.leaf)
    (hes : s.storedProof = t.storedProof) : SameUnderRoot s t := by
  have hcontent := sameContent_of_leaf hs.toShaped ht.toShaped hps
    (resigned_eq_of_leaf hs.toShaped ht.toShaped hps hleaf) hleaf
  obtain ⟨offset, hoffset, hagree⟩ := hcontent.content
  rw [hs.proofOffset] at hoffset
  obtain rfl := Except.ok.inj hoffset
  have hlo := lt_bodyEnd s.kind hs.valid
  have hkind : s.kind = t.kind := by
    rw [← hs.kind, ← ht.kind]
    exact hcontent.shredType
  have hvar : s.variant = t.variant := ShredVariant.eq_of_fields hcontent.shredType hps
    (resigned_eq_of_leaf hs.toShaped ht.toShaped hps hleaf)
  simp only [sizeOfSignature, Region.lo] at hagree
  have same : ∀ lo hi, 64 ≤ lo → hi ≤ 700 → AgreeOn s.payload.bytes t.payload.bytes lo hi :=
    fun lo hi h1 h2 i h3 h4 => hagree i (by omega) (by omega)
  have part : ∀ R : Region, 64 ≤ R.lo s.kind s.variant →
      R.hi s.kind s.variant ≤ bodyEnd s.kind s.variant + sizeOfMerkleRoot → s.part R = t.part R := by
    intro R h1 h2
    have hsub : AgreeOn s.payload.bytes t.payload.bytes (R.lo s.kind s.variant)
        (R.hi s.kind s.variant) := fun i h3 h4 => hagree i (by omega) (by omega)
    rw [Shred.part, hsub.slice_eq, Shred.part, hkind, hvar]
  obtain ⟨hslot, hindex, hversion, hfec⟩ := (commonHeader_at hs.reparse).eq_of_agreeOn
    (commonHeader_at ht.reparse) (same 64 83 (by decide) (by decide))
  refine
    { content := hcontent
      variant := hvar
      slot := hslot
      index := hindex
      version := hversion
      fecSetIndex := hfec
      dataHeader := ?_
      codingHeader := ?_
      erasureShard := ?_
      chainedMerkleRoot := ?_
      merkleProof := by rw [hs.merkleProof_eq, ht.merkleProof_eq, hes] }
  · rintro a b rfl rfl
    obtain ⟨-, -, -, -, ⟨-, ha⟩, -⟩ := Shred.newFromSerializedShred_eq_ok_iff.mp hs.reparse
    obtain ⟨-, -, -, -, ⟨-, hb⟩, -⟩ := Shred.newFromSerializedShred_eq_ok_iff.mp ht.reparse
    exact ha.eq_of_agreeOn hb (same 83 88 (by decide) (by decide))
  · rintro a b rfl rfl
    obtain ⟨-, -, -, -, ⟨-, ha⟩, -⟩ := Shred.newFromSerializedShred_eq_ok_iff.mp hs.reparse
    obtain ⟨-, -, -, -, ⟨-, hb⟩, -⟩ := Shred.newFromSerializedShred_eq_ok_iff.mp ht.reparse
    exact ha.eq_of_agreeOn hb (same 83 89 (by decide) (by decide))
  · rw [hs.erasureShard, ht.erasureShard, part .shard ?_ ?_]
    · have hsz := sizes s.kind
      simp only [Region.lo]
      omega
    · simp only [Region.hi]
      omega
  · obtain ⟨root, hroot⟩ := hs.exists_chainedMerkleRoot
    rw [hroot, eq_comm, ht.chainedMerkleRoot_eq_ok, ← part .chainedRoot ?_ ?_]
    · exact hs.chainedMerkleRoot_eq_ok.mp hroot
    · simp only [Region.lo]
      omega
    · simp only [Region.hi]
      omega

/-- The place in the batch is part of the leaf. -/
theorem SameUnderRoot.position (h : SameUnderRoot s t) (hs : s.WellFormed) (ht : t.WellFormed) :
    s.position = t.position := by
  have hkind : s.kind = t.kind := by
    rw [← hs.kind, ← ht.kind]
    exact h.content.shredType
  cases s with
  | shredCode a =>
      cases t with
      | shredCode b => simp only [Shred.position, h.codingHeader a b rfl rfl]
      | shredData b => cases hkind
  | shredData a =>
      cases t with
      | shredCode b => cases hkind
      | shredData b =>
          have hindex := h.index
          have hfec := h.fecSetIndex
          simp only [Shred.commonHeader] at hindex hfec
          simp only [Shred.position, hindex, hfec]

theorem SameUnderRoot.leaf_eq {s t : Shred} (h : SameUnderRoot s t) (hs : s.WellFormed)
    (ht : t.WellFormed) : s.leaf = t.leaf := by
  obtain ⟨offset, hoffset, hagree⟩ := h.content.content
  rw [hs.proofOffset] at hoffset
  obtain rfl := Except.ok.inj hoffset
  have hkind : s.kind = t.kind := by
    rw [← hs.kind, ← ht.kind]
    exact h.content.shredType
  have hvar : s.variant = t.variant := h.variant
  rw [Shred.leaf, Shred.leaf, ← hkind, ← hvar]
  exact hagree.slice_eq

theorem SameUnderRoot.merkleRoot_eq {H : Hasher} {s t : Shred} {root : Hash} (h : SameUnderRoot s t)
    (hs : s.WellFormed) (ht : t.WellFormed) (hroot : t.merkleRoot H = .ok root) :
    s.merkleRoot H = .ok root := by
  have hes : s.storedProof = t.storedProof := by rw [Shred.storedProof, h.merkleProof]; rfl
  rw [hs.merkleRoot_eq_ok, h.position hs ht, hes, leafNode, h.leaf_eq hs ht]
  exact ht.merkleRoot_eq_ok.mp hroot

theorem Shred.WellFormed.sameUnderRoot_withSignature (h : s.WellFormed) (g : Signature) :
    SameUnderRoot (s.withSignature g) s := by
  have hwf := h.withSignature g
  have hvar := s.variant_withSignature g
  have hleaf : (s.withSignature g).leaf = s.leaf := by
    rw [Shred.leaf, Shred.leaf, hvar, Shred.kind_withSignature]
    exact (h.toShaped.agreeOn_withSignature g (Nat.le_refl 64)).slice_eq
  refine sameUnderRoot_of_leaf hwf h (by rw [hvar]) hleaf ?_
  have hcongr := h.toShaped.merkleProof_congr hwf.toShaped hvar
    (h.toShaped.part_withSignature g (by decide))
  rw [Shred.storedProof, hcongr]
  rfl

end Positions

/-- Two accepted shreds with proofs of one size, at one place of the batch, have one root only
if they are the same behind the signature and in the proof, or two of the strings hashed for
the two roots collide. -/
theorem merkle_root_binds_content (H : Hasher) (s t : Shred) (hs : s.Accepted) (ht : t.Accepted)
    (hps : s.proofSize = t.proofSize) (hindex : s.erasureShardIndex = t.erasureShardIndex)
    (root : Hash) (hsr : s.merkleRoot H = .ok root) (htr : t.merkleRoot H = .ok root) :
    SameUnderRoot s t ∨ (scheme H).Collision (s.rootHashes H ++ t.rootHashes H) := by
  have hsw := Shred.accepted_iff.mp hs
  have htw := Shred.accepted_iff.mp ht
  rw [hsw.proofSize, htw.proofSize, Except.ok.injEq] at hps
  rw [hsw.sane.erasureShardIndex, htw.sane.erasureShardIndex, Except.ok.injEq] at hindex
  rcases Term.agree_or_collision (scheme H)
    ((hsw.tag_proofTerm hsr).trans (htw.tag_proofTerm htr).symm) with hagree | hcoll
  · left
    rw [Shred.proofTerm, Shred.proofTerm, hindex] at hagree
    obtain ⟨hleaf, hes⟩ := hagree.chains (scheme H)
      (by rw [hsw.length_storedProof, htw.length_storedProof, hps])
    exact sameUnderRoot_of_leaf hsw htw hps hleaf hes
  · right
    refine hcoll.mono fun m hm => List.mem_append.mpr ?_
    exact (List.mem_append.mp hm).imp mem_rootHashes mem_rootHashes

theorem exists_signature_ne_twos :
    ∃ s ∈ plainBatch sha256Hasher 0 3, s.signature ≠ twosSignature := by
  obtain ⟨d, hd, -⟩ := threeCopies_complete.data 0 (by decide)
  refine ⟨_, List.mem_of_getElem? hd, ?_⟩
  obtain ⟨b, hb, heq⟩ := getElem?_sealBatch hd
  cases hb
  rw [heq, Shred.signature, Shred.commonHeader_withPart]
  decide

/-- A sealed data shred, and the same under another signature. -/
theorem merkle_root_binds_content_signed : ∃ s ∈ plainBatch sha256Hasher 0 3,
    s.proofSize = .ok 2 ∧ s.signature ≠ twosSignature ∧
      (SameUnderRoot (s.withSignature twosSignature) s ∨
        (scheme sha256Hasher).Collision ((s.withSignature twosSignature).rootHashes sha256Hasher ++
          s.rootHashes sha256Hasher)) := by
  obtain ⟨s, hmem, hsig⟩ := exists_signature_ne_twos
  have hwf := threeCopies_complete.wellFormed hmem
  have hsigned := hwf.withSignature twosSignature
  have hne : (plainBatch sha256Hasher 0 3).map (leafNode sha256Hasher) ≠ [] :=
    fun hnil => threeCopies_complete.ne_nil (List.map_eq_nil_iff.mp hnil)
  obtain ⟨root, htop⟩ := exists_level_depth (scheme sha256Hasher).join hne
  rw [List.length_map] at htop
  have hroot := threeCopies_complete.merkleRoot_of_level htop hmem
  have hsame := hwf.sameUnderRoot_withSignature twosSignature
  refine ⟨s, hmem, threeCopies_complete.proofSize s hmem, hsig, ?_⟩
  refine merkle_root_binds_content sha256Hasher _ _ (Shred.accepted_iff.mpr hsigned)
    (Shred.accepted_iff.mpr hwf) ?_ ?_ root (hsame.merkleRoot_eq hsigned hwf hroot) hroot
  · rw [hsigned.proofSize, hwf.proofSize, Shred.variant_withSignature]
  · rw [hsigned.sane.erasureShardIndex, hwf.sane.erasureShardIndex, hsame.position hsigned hwf]

section Leaves
variable (H : Hasher)

def nodesOf (xs : List Bytes) : List (Result Hash) :=
  xs.map fun x => .ok (H.sha256 (leafPreimage x))

/-- What is hashed for the tree over the strings: they, and the nodes of every level above. -/
def treeStrings (xs : List Bytes) : List Bytes := leafTreeMsgs (scheme H) xs

/-- The tree over the strings is built, from the hashes of `treeStrings`, with the root `r`. -/
def HasTreeRoot (xs : List Bytes) (r : Hash) : Prop :=
  ∃ t, MerkleTree.tryNew H (nodesOf H xs) = .ok t ∧ t.root = .ok r ∧
    t.nodes = (treeStrings H xs).map H.sha256

theorem exists_tree {xs : List Bytes} (hx : xs ≠ []) :
    ∃ r, HasTreeRoot H xs r ∧
      level (scheme H).join (depth xs.length) (xs.map (scheme H).leafDigest) = [r] := by
  obtain ⟨-, r, hr, -⟩ := exists_root (scheme H) hx
  have hne : xs.map (scheme H).leafDigest ≠ [] := by simpa using hx
  have htree := MerkleTree.tryNew_ok H hne
  have hnodes := flatten_eq_map_hash (scheme H) xs
  rw [List.length_map, List.map_map] at htree
  exact ⟨r, ⟨_, htree, MerkleTree.root_eq H (by rw [List.length_map]) (by rwa [List.length_map]),
    hnodes⟩, hr⟩

/-- The same list, once the last node of every odd level stands twice. So lists of one length
are equal, and of two others one is the front of the other. -/
structure SpreadAlike (xs ys : List Bytes) : Prop where
  spread : spread xs = spread ys
  eq_of_length : xs.length = ys.length → xs = ys
  front : xs <+: ys ∨ ys <+: xs

/-- The trees over two non-empty lists of strings have one root exactly if the lists spread
alike, unless two of the strings hashed for the trees collide. -/
theorem tree_root_binds_leaves (H : Hasher) (xs ys : List Bytes) (hx : xs ≠ []) (hy : ys ≠ []) :
    ∃ r q, HasTreeRoot H xs r ∧ HasTreeRoot H ys q ∧
      (r = q → SpreadAlike xs ys ∨ (scheme H).Collision (treeStrings H xs ++ treeStrings H ys)) ∧
      (SpreadAlike xs ys → r = q) := by
  obtain ⟨r, htr, hr⟩ := exists_tree H hx
  obtain ⟨q, htq, hq⟩ := exists_tree H hy
  refine ⟨r, q, htr, htq, ?_, ?_⟩
  · rintro rfl
    refine (spread_eq_or_collision (scheme H) hx hy hr hq).imp_left fun hs => ?_
    exact ⟨hs, eq_of_spread_eq hs, prefix_or_prefix_of_spread_eq hs⟩
  · intro hs
    have hroots := root_eq_of_spread_eq (scheme H) hx hy hs.spread
    rw [hr, hq] at hroots
    exact List.singleton_inj.mp hroots

/-- Five strings and the same with the last one twice have one root, as they spread alike. -/
theorem tree_root_binds_leaves_five : ∃ r,
    HasTreeRoot sha256Hasher [[0], [1], [2], [3], [4]] r ∧
    HasTreeRoot sha256Hasher [[0], [1], [2], [3], [4], [4]] r ∧
    (SpreadAlike [[0], [1], [2], [3], [4]] [[0], [1], [2], [3], [4], [4]] ∨
      (scheme sha256Hasher).Collision (treeStrings sha256Hasher [[0], [1], [2], [3], [4]] ++
        treeStrings sha256Hasher [[0], [1], [2], [3], [4], [4]])) := by
  obtain ⟨r, q, hr, hq, hbind, hback⟩ := tree_root_binds_leaves sha256Hasher
    [[0], [1], [2], [3], [4]] [[0], [1], [2], [3], [4], [4]] (List.cons_ne_nil _ _)
    (List.cons_ne_nil _ _)
  have hspread : SpreadAlike [[0], [1], [2], [3], [4]] [[0], [1], [2], [3], [4], [4]] :=
    ⟨by decide, by decide, .inl ⟨[[4]], rfl⟩⟩
  obtain rfl := hback hspread
  exact ⟨r, hr, hq, hbind rfl⟩

/-- Three strings and the same with the last one twice have one root, and no two of the strings
hashed for it collide. -/
theorem tree_root_repeated_leaf :
    ([[0], [1], [2]] : List Bytes) ≠ [[0], [1], [2], [2]] ∧
      (∃ r, HasTreeRoot sha256Hasher [[0], [1], [2]] r ∧
        HasTreeRoot sha256Hasher [[0], [1], [2], [2]] r) ∧
      ¬(scheme sha256Hasher).Collision (treeStrings sha256Hasher [[0], [1], [2]] ++
        treeStrings sha256Hasher [[0], [1], [2], [2]]) := by
  have hx : ([[0], [1], [2]] : List Bytes) ≠ [] := List.cons_ne_nil _ _
  have hy : ([[0], [1], [2], [2]] : List Bytes) ≠ [] := List.cons_ne_nil _ _
  have hspread : spread ([[0], [1], [2]] : List Bytes) = spread [[0], [1], [2], [2]] := by decide
  refine ⟨by decide, ?_, ?_⟩
  · obtain ⟨r, htr, hr⟩ := exists_tree sha256Hasher hx
    obtain ⟨q, htq, hq⟩ := exists_tree sha256Hasher hy
    have hroots := root_eq_of_spread_eq (scheme sha256Hasher) hx hy hspread
    rw [hr, hq] at hroots
    exact ⟨r, htr, List.singleton_inj.mp hroots ▸ htq⟩
  · -- all the strings are among those of the longer list, and these have distinct hashes
    have hsub : treeStrings sha256Hasher [[0], [1], [2]] ⊆
        treeStrings sha256Hasher [[0], [1], [2], [2]] := by
      have hnodes : treeMsgs (scheme sha256Hasher) (depth 3)
          ([[0], [1], [2]].map (scheme sha256Hasher).leafDigest) =
        treeMsgs (scheme sha256Hasher) (depth 4)
          ([[0], [1], [2], [2]].map (scheme sha256Hasher).leafDigest) := by
        rw [show depth 3 = 2 by decide, show depth 4 = 2 by decide]
        rfl
      intro m hm
      rcases List.mem_append.mp hm with hleaf | hnode
      · refine List.mem_append_left _ (List.map_subset _ ?_ hleaf)
        decide
      · exact List.mem_append_right _ (hnodes ▸ hnode)
    have hdistinct : ∀ x ∈ treeStrings sha256Hasher [[0], [1], [2], [2]],
        ∀ y ∈ treeStrings sha256Hasher [[0], [1], [2], [2]],
        (sha256Hasher.sha256 x).truncate = (sha256Hasher.sha256 y).truncate → x = y := by
      decide +kernel
    rintro ⟨x, hx, y, hy, hne, heq⟩
    rw [List.mem_append] at hx hy
    exact hne (hdistinct x (hx.elim (fun h => hsub h) id) y (hy.elim (fun h => hsub h) id) heq)

end Leaves

end LightweightShred
