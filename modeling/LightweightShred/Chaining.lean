import LightweightShred.Relayed

/-!
# Chained batches

Every shred carries the Merkle root of the previous erasure batch. So the signature on one shred
of the newest batch vouches for all the batches before it: whoever follows the roots backwards
from a verified shred meets the shreds of the leader and no others.
-/
namespace LightweightShred
open ByteString Rust Codec HashTree HashScheme

section
variable {H : Hasher}

/-- Batches from the newest to the oldest, each with the root of the one before it. -/
def Chained (C : List (PublishedBatch H)) : Prop :=
  C.IsChain fun P Q => ∀ b ∈ P.shreds, b.chainedMerkleRoot = .ok Q.root

variable (H) in
/-- Each shred carries the root that the next one vouches for. -/
def Follows (l : List Shred) : Prop :=
  l.IsChain fun s t => ∃ root, s.chainedMerkleRoot = .ok root ∧ t.merkleRoot H = .ok root

variable {published C : List (PublishedBatch H)} {seen l : List Shred} {s : Shred}

theorem Follows.within (hC : Chained C) (hl : Follows H l) (hpub : C ⊆ published) (hseen : l ⊆ seen)
    (hwf : ∀ s ∈ l, s.WellFormed) (hno : ¬(scheme H).Collision (seenStrings H published seen))
    (hhead : ∀ s P, l.head? = some s → C.head? = some P → s.merkleRoot H = .ok P.root) :
    ∀ (k : Nat) (s : Shred) (P : PublishedBatch H), l[k]? = some s → C[k]? = some P →
      ∃ b ∈ P.shreds, SameUnderRoot s b := by
  induction l generalizing C with
  | nil =>
      intro k s P hs
      cases hs
  | cons t l ih =>
      cases C with
      | nil =>
          intro k s P _ hP
          cases hP
      | cons Q C =>
          have hfirst : ∃ b ∈ Q.shreds, SameUnderRoot t b :=
            (PublishedBatch.same_or_collision (hpub List.mem_cons_self) (hseen List.mem_cons_self)
              (hwf t List.mem_cons_self) (hhead t Q rfl rfl)).resolve_right hno
          have hrest := ih hC.tail hl.tail (fun P hP => hpub (List.mem_cons_of_mem _ hP))
            (fun s hs => hseen (List.mem_cons_of_mem _ hs))
            (fun s hs => hwf s (List.mem_cons_of_mem _ hs)) ?_
          · intro k s P hs hP
            cases k with
            | zero =>
                cases hs
                cases hP
                exact hfirst
            | succ k => exact hrest k s P hs hP
          · -- both chains go on with the root that the two heads carry
            intro u P hu hP
            obtain ⟨l', rfl⟩ := List.head?_eq_some_iff.mp hu
            obtain ⟨C', rfl⟩ := List.head?_eq_some_iff.mp hP
            obtain ⟨b, hb, hsame⟩ := hfirst
            obtain ⟨root, hchained, hroot⟩ := (List.isChain_cons_cons.mp hl).1
            have hnext := (List.isChain_cons_cons.mp hC).1 b hb
            rw [hsame.chainedMerkleRoot, hnext, Except.ok.injEq] at hchained
            rw [hroot, hchained]

theorem Chained.drop (h : Chained C) (n : Nat) : Chained (C.drop n) := List.IsChain.drop h n

end

/-- One signature vouches for the whole chain: where a receiver verifies the newest of a list of
accepted shreds and follows the chained roots through the others, they are shreds of consecutive
batches of the leader's chain, as far as it goes back. Otherwise the one signature is a forgery,
or two of the hashed strings collide. -/
theorem chain_authenticates (H : Hasher) (C : List (PublishedBatch H)) (hC : Chained C)
    (verifySignature : Signature → Pubkey → Hash → Bool) (pubkey : Pubkey) (s : Shred)
    (l : List Shred) (hl : ∀ t ∈ s :: l, t.Accepted)
    (hv : s.verify H verifySignature pubkey = .ok true) (hfollows : Follows H (s :: l)) :
    (∃ n < C.length, ∀ (k : Nat) (t : Shred) (P : PublishedBatch H), (s :: l)[k]? = some t →
      C[n + k]? = some P → ∃ b ∈ P.shreds, SameUnderRoot t b) ∨
    Forged H C verifySignature pubkey s ∨ (scheme H).Collision (seenStrings H C (s :: l)) := by
  by_cases hcoll : (scheme H).Collision (seenStrings H C (s :: l))
  · exact .inr (.inr hcoll)
  rcases exists_published hv with ⟨P, hP, hroot, -⟩ | hforged
  · left
    obtain ⟨n, hn, rfl⟩ := List.getElem_of_mem hP
    refine ⟨n, hn, fun k t P ht hPk => ?_⟩
    refine Follows.within (hC.drop n) hfollows (List.drop_subset n C) (List.Subset.refl _)
      (fun t ht => Shred.accepted_iff.mp (hl t ht)) hcoll (fun u Q hu hQ => ?_) k t P ht ?_
    · cases hu
      rw [List.head?_drop, List.getElem?_eq_getElem hn] at hQ
      cases hQ
      exact hroot
    · rw [List.getElem?_drop]
      exact hPk
  · exact .inr (.inl hforged)

/-- The plain data shred, behind a batch of the given root. -/
def chainedData (root : Hash) : ShredData :=
  { plainData 1 88 with
    payload := ((Shred.shredData (plainData 1 88)).withPart .chainedRoot root.1).payload }

theorem exists_chained (H : Hasher) (root : Hash) :
    ∃ P : PublishedBatch H, (∀ b ∈ P.shreds, b.chainedMerkleRoot = .ok root) ∧
      ∃ s ∈ P.shreds, s.id = (Shred.shredData (plainData 1 88)).id := by
  have hplain : (Shred.shredData (plainData 1 88)).WellFormed :=
    plainData_wellFormed (by decide) (by decide)
  have hfits : Region.chainedRoot.lo .data (Shred.shredData (plainData 1 88)).variant +
      root.1.length = Region.chainedRoot.hi .data (Shred.shredData (plainData 1 88)).variant := by
    rw [root.2]
    rfl
  have hwf : (Shred.shredData (chainedData root)).WellFormed :=
    hplain.withPart_writable (.inl rfl) hfits
  have hpart : (Shred.shredData (chainedData root)).part .chainedRoot = root.1 :=
    hplain.toShaped.part_withPart hfits
  have hps : (1 : UInt8) = getProofSize (1 + 1) := by decide
  have hB : ConsistentBatch (copies 1) 1 1 (replicated (chainedData root) 0 1) :=
    replicated_consistent hwf rfl hps (Nat.le_refl 1) (by decide) (by decide)
  obtain ⟨P, hP, -⟩ := (hB.complete H).exists_published
  obtain ⟨s, hs⟩ : ∃ s, (sealBatch H (replicated (chainedData root) 0 1))[0]? = some s := ⟨_, rfl⟩
  obtain ⟨d, hd, hsd⟩ := getElem?_sealBatch hs
  cases hd
  have hid : s.id = (Shred.shredData (plainData 1 88)).id := by
    have hcommon : s.commonHeader = (plainData 1 88).commonHeader := by
      rw [hsd, Shred.commonHeader_withPart]
      simp only [Shred.commonHeader, chainedData]
    rw [Shred.id, Shred.id, hcommon]
    simp only [Shred.commonHeader]
  refine ⟨P, fun b hb => ?_, s, hP ▸ List.mem_of_getElem? hs, hid⟩
  rw [hP] at hb
  obtain ⟨d, hd, hwd, hsame⟩ := hB.sealable.exists_sameBatch hb
  have hdata := (of_mem_replicated hwf rfl (by decide) (by decide) hd).2.1
  refine ((hB.sealable.wellFormed hb).toShaped.chainedMerkleRoot_eq_ok).mpr ?_
  rw [hsame.chainedRoot, hdata.chainedRoot, hpart]

/-- A chain of two batches, followed by one shred of each. -/
theorem chain_authenticates_two : ∃ (P Q : PublishedBatch sha256Hasher)
    (verifySignature : Signature → Pubkey → Hash → Bool) (pubkey : Pubkey),
    ∃ s ∈ P.shreds, ∃ t ∈ Q.shreds, s.verify sha256Hasher verifySignature pubkey = .ok true ∧
      ((∃ n < [P, Q].length, ∀ (k : Nat) (u : Shred) (R : PublishedBatch sha256Hasher),
        [s, t][k]? = some u → [P, Q][n + k]? = some R → ∃ b ∈ R.shreds, SameUnderRoot u b) ∨
      Forged sha256Hasher [P, Q] verifySignature pubkey s ∨
      (scheme sha256Hasher).Collision (seenStrings sha256Hasher [P, Q] [s, t])) := by
  obtain ⟨Q, -⟩ := exists_chained sha256Hasher plainHash
  obtain ⟨P, hP, -⟩ := exists_chained sha256Hasher Q.root
  obtain ⟨s, hs⟩ := List.exists_mem_of_ne_nil P.shreds P.complete.ne_nil
  obtain ⟨t, ht⟩ := List.exists_mem_of_ne_nil Q.shreds Q.complete.ne_nil
  have hv : s.verify sha256Hasher (fun g _ root => decide (g = P.signature ∧ root = P.root))
      plainHash = .ok true := P.verify_eq_true hs (decide_eq_true ⟨rfl, rfl⟩)
  have hchained : Chained [P, Q] := List.isChain_pair.mpr hP
  have hfollows : Follows sha256Hasher [s, t] :=
    List.isChain_pair.mpr ⟨Q.root, hP s hs, Q.complete.merkleRoot_eq Q.hasRoot ht⟩
  refine ⟨P, Q, _, _, s, hs, t, ht, hv, ?_⟩
  refine chain_authenticates sha256Hasher [P, Q] hchained _ _ s [t] (fun u hu => ?_) hv hfollows
  rcases List.mem_cons.mp hu with rfl | hu
  · exact P.complete.accepted _ hs
  · rw [List.mem_singleton.mp hu]
    exact Q.complete.accepted t ht

end LightweightShred
