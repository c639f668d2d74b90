import LightweightShred.Chaining
import LightweightShred.Resigning

/-!
# What a duplicate proves

Two shreds of one identity that `is_shred_duplicate` tells apart are evidence against the leader
only if nobody else can make them. Signed by the leader, they come from two batches of his, and
any two shreds of one identity from two batches are told apart.
-/
namespace LightweightShred
open ByteString Rust Codec HashTree HashScheme

section
variable {H : Hasher} {parity : List Bytes → List Bytes} {numData numCoding : Nat}
  {B : List Shred} {s t : Shred}

theorem SameUnderRoot.kind_eq (h : SameUnderRoot s t) (hs : s.WellFormed) (ht : t.WellFormed) :
    s.kind = t.kind := by
  rw [← hs.kind, ← ht.kind]
  exact h.content.shredType

theorem SameUnderRoot.id_eq (h : SameUnderRoot s t) : s.id = t.id := by
  rw [Shred.id, Shred.id, h.slot, h.index, h.variant]

theorem ConsistentBatch.eq_of_id (hB : ConsistentBatch parity numData numCoding B) (hs : s ∈ B)
    (ht : t ∈ B) (hid : s.id = t.id) : s = t := by
  have hindex : s.commonHeader.index.toNat = t.commonHeader.index.toNat :=
    congrArg (fun x : ShredId => x.index.toNat) hid
  have hkind := (hB.wellFormed hs).toShaped.kind_of_id (hB.wellFormed ht).toShaped hid
  have hle : isLe s t = true := isLe_iff.mpr (.inr ⟨hkind, Nat.le_of_eq hindex⟩)
  have hge : isLe t s = true := isLe_iff.mpr (.inr ⟨hkind.symm, Nat.le_of_eq hindex.symm⟩)
  exact hB.position_injective hs ht
    (Nat.le_antisymm (hB.position_le_of_isLe hs ht hle) (hB.position_le_of_isLe ht hs hge))

theorem SameUnderRoot.not_differs (h : SameUnderRoot s t) (hs : s.WellFormed) (ht : t.WellFormed)
    (hsig : s.signature = t.signature) : ¬s.DiffersFrom t := by
  have hkind := h.kind_eq hs ht
  have hvar : s.variant = t.variant := h.variant
  rw [← hs.front_ne_iff ht hkind, not_not, ← Shred.compareEnd_congr hkind hvar]
  have hrt : Relays (t.part .retransmitter) t := relays_of_resigned rfl ht.toShaped
  have hrs : Relays (t.part .retransmitter) s := by rwa [Relays, hkind, hvar]
  have hrelayed := h.relay_eq hs ht hsig hrt
  -- both agree with their common relayed copy, up to the signature of the retransmitter
  have hend : s.compareEnd ≤ Region.retransmitter.lo s.kind s.variant := by
    unfold Shred.compareEnd
    split
    · exact Nat.le_refl _
    · rename_i hr
      have hadd := bodyEnd_add s.kind hs.valid
      rw [ShredVariant.resignedBytes, if_neg hr] at hadd
      exact Nat.le_of_eq hadd.symm
  have hags : AgreeOn (relay (t.part .retransmitter) s).payload.bytes s.payload.bytes 0 s.compareEnd :=
    hs.toShaped.agreeOn_withPart hrs (.inl hend)
  have hagt : AgreeOn (relay (t.part .retransmitter) t).payload.bytes t.payload.bytes 0 s.compareEnd :=
    ht.toShaped.agreeOn_withPart hrt (.inl (hkind ▸ hvar ▸ hend))
  rw [hrelayed] at hags
  exact hags.slice_eq.symm.trans hagt.slice_eq

end

section
variable {H : Hasher} {published : List (PublishedBatch H)}
  {verifySignature : Signature → Pubkey → Hash → Bool} {pubkey : Pubkey} {P Q : PublishedBatch H}
  {s t : Shred}

theorem PublishedBatch.not_differs (hs : s.WellFormed) (ht : t.WellFormed) (hPs : P.Has s)
    (hPt : P.Has t) (hid : s.id = t.id) : ¬s.DiffersFrom t := by
  obtain ⟨hsigs, b, hb, hsb⟩ := hPs
  obtain ⟨hsigt, d, hd, htd⟩ := hPt
  have hbd : b.id = d.id := hsb.id_eq.symm.trans (hid.trans htd.id_eq)
  obtain rfl := P.complete.eq_of_id hb hd hbd
  have hwb := P.complete.wellFormed hb
  have hleaf := (hsb.leaf_eq hs hwb).trans (htd.leaf_eq ht hwb).symm
  have hsame : SameUnderRoot s t := by
    refine sameUnderRoot_of_leaf hs ht ?_ hleaf ?_
    · exact congrArg ShredVariant.proofSize (hsb.variant.trans htd.variant.symm)
    · rw [Shred.storedProof, Shred.storedProof, hsb.merkleProof, htd.merkleProof]
  exact hsame.not_differs hs ht (hsigs.trans hsigt.symm)

theorem PublishedBatch.duplicate_iff (hs : s.WellFormed) (ht : t.WellFormed)
    (hrs : s.merkleRoot H = .ok P.root) (hrt : t.merkleRoot H = .ok Q.root) (hPs : P.Has s)
    (hQt : Q.Has t) (hone : P.root = Q.root → P.signature = Q.signature → P.Has t) :
    s.isShredDuplicate t = .ok true ↔
      s.id = t.id ∧ (P.root ≠ Q.root ∨ P.signature ≠ Q.signature) := by
  have hexact := hs.duplicateExact ht H
  constructor
  · intro hdup
    obtain ⟨hid, hdiffers⟩ := hexact.flagged.mp hdup
    refine ⟨hid, ?_⟩
    by_contra hsame
    obtain ⟨hroot, hsig⟩ := not_or.mp hsame
    exact PublishedBatch.not_differs hs ht hPs (hone (not_not.mp hroot) (not_not.mp hsig)) hid hdiffers
  · rintro ⟨hid, hne⟩
    by_contra hnot
    have hdiffers : ¬s.DiffersFrom t := fun hd => hnot (hexact.flagged.mpr ⟨hid, hd⟩)
    obtain ⟨hsig, hroot, -⟩ := hexact.same hid (hexact.unflagged.mpr fun h => hdiffers h.2)
    rw [hrs, hrt, Except.ok.injEq] at hroot
    rw [hPs.1, hQt.1] at hsig
    exact hne.elim (fun h => h hroot) fun h => h hsig

end

/-- A duplicate proves that the leader has signed twice, and no double signing goes unnoticed: two
accepted shreds that verify are shreds of published batches, and `is_shred_duplicate` holds of
them exactly if they have one identity and two roots or signatures. Otherwise one of the
signatures is a forgery, or two of the hashed strings collide. -/
theorem duplicate_iff_signed_twice (H : Hasher) (published : List (PublishedBatch H))
    (verifySignature : Signature → Pubkey → Hash → Bool) (pubkey : Pubkey) (s t : Shred)
    (hs : s.Accepted) (ht : t.Accepted) (hvs : s.verify H verifySignature pubkey = .ok true)
    (hvt : t.verify H verifySignature pubkey = .ok true) :
    (∃ P ∈ published, ∃ Q ∈ published, P.Has s ∧ Q.Has t ∧ (s.isShredDuplicate t = .ok true ↔
      s.id = t.id ∧ (P.root ≠ Q.root ∨ P.signature ≠ Q.signature))) ∨
    (Forged H published verifySignature pubkey s ∨ Forged H published verifySignature pubkey t) ∨
    (scheme H).Collision (seenStrings H published [s, t]) := by
  have hws := Shred.accepted_iff.mp hs
  have hwt := Shred.accepted_iff.mp ht
  have hms : s ∈ [s, t] := List.mem_cons_self
  have hmt : t ∈ [s, t] := List.mem_cons_of_mem _ List.mem_cons_self
  rcases exists_published hvs with ⟨P, hP, hroots, hsigs⟩ | hforged
  · rcases exists_published hvt with ⟨Q, hQ, hroott, hsigt⟩ | hforged
    · by_cases hcoll : (scheme H).Collision (seenStrings H published [s, t])
      · exact .inr (.inr hcoll)
      · left
        have hPs := (PublishedBatch.has_or_collision hP hms hws hroots hsigs).resolve_right hcoll
        have hQt := (PublishedBatch.has_or_collision hQ hmt hwt hroott hsigt).resolve_right hcoll
        refine ⟨P, hP, Q, hQ, hPs, hQt, ?_⟩
        refine PublishedBatch.duplicate_iff hws hwt hroots hroott hPs hQt fun hroot hsig => ?_
        exact (PublishedBatch.has_or_collision hP hmt hwt (hroot ▸ hroott)
          (hsigt.trans hsig.symm)).resolve_right hcoll
    · exact .inr (.inl (.inr hforged))
  · exact .inr (.inl (.inl hforged))

/-- Two batches that differ in the root they carry on, and the shred of one identity in each. -/
theorem duplicate_iff_signed_twice_two : ∃ (P Q : PublishedBatch sha256Hasher)
    (verifySignature : Signature → Pubkey → Hash → Bool) (pubkey : Pubkey),
    ∃ s ∈ P.shreds, ∃ t ∈ Q.shreds, s.id = t.id ∧ P.shreds ≠ Q.shreds ∧
      s.verify sha256Hasher verifySignature pubkey = .ok true ∧
      t.verify sha256Hasher verifySignature pubkey = .ok true ∧
      (s.isShredDuplicate t = .ok true ∨
        (scheme sha256Hasher).Collision (seenStrings sha256Hasher [P, Q] [s, t])) := by
  obtain ⟨P, hP, s, hs, hids⟩ := exists_chained sha256Hasher plainHash
  obtain ⟨Q, hQ, t, ht, hidt⟩ := exists_chained sha256Hasher
    ⟨List.replicate 32 1, List.length_replicate ..⟩
  -- the two roots that are carried on tell the batches apart
  have hapart : ∀ u : Shred, u.chainedMerkleRoot = .ok plainHash →
      u.chainedMerkleRoot ≠ .ok ⟨List.replicate 32 1, List.length_replicate ..⟩ := by
    intro u hu hu'
    rw [hu, Except.ok.injEq] at hu'
    exact absurd hu' (by decide)
  have hsP : ∀ u, (∃ b ∈ P.shreds, SameUnderRoot u b) → u.chainedMerkleRoot = .ok plainHash :=
    fun u ⟨b, hb, hsame⟩ => hsame.chainedMerkleRoot.trans (hP b hb)
  have hsQ : ∀ u, (∃ b ∈ Q.shreds, SameUnderRoot u b) →
      u.chainedMerkleRoot = .ok ⟨List.replicate 32 1, List.length_replicate ..⟩ :=
    fun u ⟨b, hb, hsame⟩ => hsame.chainedMerkleRoot.trans (hQ b hb)
  have hvs : s.verify sha256Hasher (fun g _ root => decide ((g = P.signature ∧ root = P.root) ∨
      (g = Q.signature ∧ root = Q.root))) plainHash = .ok true :=
    P.verify_eq_true hs (decide_eq_true (.inl ⟨rfl, rfl⟩))
  have hvt : t.verify sha256Hasher (fun g _ root => decide ((g = P.signature ∧ root = P.root) ∨
      (g = Q.signature ∧ root = Q.root))) plainHash = .ok true :=
    Q.verify_eq_true ht (decide_eq_true (.inr ⟨rfl, rfl⟩))
  have hforged : ∀ u, ¬Forged sha256Hasher [P, Q] (fun g _ root =>
      decide ((g = P.signature ∧ root = P.root) ∨ (g = Q.signature ∧ root = Q.root))) plainHash u := by
    rintro u ⟨root, -, hv, hnone⟩
    rcases of_decide_eq_true hv with ⟨hg, hr⟩ | ⟨hg, hr⟩
    · exact hnone P (by simp) ⟨hr.symm, hg.symm⟩
    · exact hnone Q (by simp) ⟨hr.symm, hg.symm⟩
  refine ⟨P, Q, _, _, s, hs, t, ht, hids.trans hidt.symm, ?_, hvs, hvt, ?_⟩
  · intro heq
    exact hapart s (hP s hs) (hQ s (heq ▸ hs))
  have hws := P.complete.wellFormed hs
  have hwt := Q.complete.wellFormed ht
  by_cases hcoll : (scheme sha256Hasher).Collision (seenStrings sha256Hasher [P, Q] [s, t])
  · exact .inr hcoll
  left
  rcases duplicate_iff_signed_twice sha256Hasher [P, Q] _ _ s t (P.complete.accepted s hs)
      (Q.complete.accepted t ht) hvs hvt with ⟨R, hR, S, hS, hRs, hSt, hiff⟩ | (hf | hf) | hc
  · refine hiff.mpr ⟨hids.trans hidt.symm, .inl fun hroot => ?_⟩
    -- one root for both would put the shred of one batch into the other
    have hRP : R = P := by
      rcases List.mem_pair.mp hR with rfl | rfl
      · rfl
      · exact (hapart s (hP s hs) (hsQ s hRs.2)).elim
    have hSQ : S = Q := by
      rcases List.mem_pair.mp hS with rfl | rfl
      · exact (hapart t (hsP t hSt.2) (hQ t ht)).elim
      · rfl
    rw [hRP, hSQ] at hroot
    have hrt := Q.complete.merkleRoot_eq Q.hasRoot ht
    have hsame := (PublishedBatch.same_or_collision (List.mem_cons_self (l := [Q]))
      (List.mem_cons_of_mem s (List.mem_singleton_self t)) hwt
      (hrt.trans (congrArg Except.ok hroot.symm))).resolve_right hcoll
    exact hapart t (hsP t hsame) (hQ t ht)
  · exact (hforged s hf).elim
  · exact (hforged t hf).elim
  · exact (hcoll hc).elim

end LightweightShred
