import LightweightShred.Membership
import LightweightShred.EndToEnd
import LightweightShred.MerkleProofs

/-!
# Recovery from verified shreds

What a receiver gets that knows nothing but the public key of the leader, and feeds `recover`
with accepted shreds that verify: nothing but shreds of batches that the leader has signed,
unless somebody has forged a signature or found a collision.
-/
namespace LightweightShred
open ByteString Rust Codec Slots HashTree HashScheme

/-- A batch as a leader publishes it: complete, with one root and one signature. -/
structure PublishedBatch (H : Hasher) where
  parity : List Bytes → List Bytes
  numData : Nat
  numCoding : Nat
  shreds : List Shred
  complete : CompleteBatch H parity numData numCoding shreds
  root : Hash
  hasRoot : HasTreeRoot H (shreds.map Shred.leaf) root
  signature : Signature
  signed : ∀ s ∈ shreds, s.signature = signature

/-- One of the shreds of the batch, but for the signature of the retransmitter. -/
def PublishedBatch.Has {H : Hasher} (P : PublishedBatch H) (s : Shred) : Prop :=
  s.signature = P.signature ∧ ∃ b ∈ P.shreds, SameUnderRoot s b

section
variable (H : Hasher) (published : List (PublishedBatch H))
  (verifySignature : Signature → Pubkey → Hash → Bool) (pubkey : Pubkey)

/-- The signature of the shred verifies, and is not one that the leader has made. -/
def Forged (s : Shred) : Prop :=
  ∃ root, s.merkleRoot H = .ok root ∧ verifySignature s.signature pubkey root = true ∧
    ∀ P ∈ published, ¬(P.root = root ∧ P.signature = s.signature)

/-- All that is hashed for the trees of the batches and for the roots of the shreds. -/
def seenStrings (shreds : List Shred) : List Bytes :=
  shreds.flatMap (Shred.rootHashes H) ++
    published.flatMap fun P => treeStrings H (P.shreds.map Shred.leaf)

end

section
variable {H : Hasher} {published : List (PublishedBatch H)}
  {verifySignature : Signature → Pubkey → Hash → Bool} {pubkey : Pubkey} {l : List Shred}
  {s : Shred} {root : Hash}

theorem Shred.verify_eq_true : s.verify H verifySignature pubkey = .ok true ↔
    ∃ root, s.merkleRoot H = .ok root ∧ verifySignature s.signature pubkey root = true := by
  unfold Shred.verify Shred.signedData
  cases hroot : s.merkleRoot H with
  | ok root => simp [toOption, bind, Except.bind, pure, Except.pure]
  | error e =>
      cases e with
      | err e => simp [toOption, bind, Except.bind, pure, Except.pure]
      | panic => simp [toOption, bind, Except.bind]

theorem rootHashes_subset (hs : s ∈ l) : s.rootHashes H ⊆ seenStrings H published l := by
  intro m hm
  exact List.mem_append_left _ (List.mem_flatMap.mpr ⟨s, hs, hm⟩)

theorem treeStrings_subset {P : PublishedBatch H} (hP : P ∈ published) :
    treeStrings H (P.shreds.map Shred.leaf) ⊆ seenStrings H published l := by
  intro m hm
  exact List.mem_append_right _ (List.mem_flatMap.mpr ⟨P, hP, hm⟩)

/-- A shred under the root of a published batch is one of the batch, but for the signatures. -/
theorem PublishedBatch.same_or_collision {P : PublishedBatch H} (hP : P ∈ published) (hl : s ∈ l)
    (hs : s.WellFormed) (hroot : s.merkleRoot H = .ok P.root) :
    (∃ b ∈ P.shreds, SameUnderRoot s b) ∨ (scheme H).Collision (seenStrings H published l) := by
  rcases P.complete.exists_same P.hasRoot hs hroot with hsame | hcoll
  · exact .inl hsame
  · right
    refine hcoll.mono fun m hm => ?_
    rcases List.mem_append.mp hm with hm | hm
    · exact rootHashes_subset hl hm
    · exact treeStrings_subset hP hm

/-- A shred under the signature and the root of a published batch is one of the batch. -/
theorem PublishedBatch.has_or_collision {P : PublishedBatch H} (hP : P ∈ published) (hl : s ∈ l)
    (hs : s.WellFormed) (hroot : s.merkleRoot H = .ok P.root) (hsig : s.signature = P.signature) :
    P.Has s ∨ (scheme H).Collision (seenStrings H published l) :=
  (PublishedBatch.same_or_collision hP hl hs hroot).imp_left fun hsame => ⟨hsig, hsame⟩

theorem exists_published (hv : s.verify H verifySignature pubkey = .ok true) :
    (∃ P ∈ published, s.merkleRoot H = .ok P.root ∧ s.signature = P.signature) ∨
      Forged H published verifySignature pubkey s := by
  obtain ⟨root, hroot, hsig⟩ := Shred.verify_eq_true.mp hv
  by_cases hforged : Forged H published verifySignature pubkey s
  · exact .inr hforged
  · left
    simp only [Forged, not_exists, not_and, not_forall, not_not] at hforged
    obtain ⟨P, hP, rfl, hs⟩ := hforged root hroot hsig
    exact ⟨P, hP, hroot, hs.symm⟩

end

theorem CompleteBatch.exists_published {H : Hasher} {parity : List Bytes → List Bytes}
    {numData numCoding : Nat} {B : List Shred} (hB : CompleteBatch H parity numData numCoding B) :
    ∃ P : PublishedBatch H, P.shreds = B ∧ P.parity = parity ∧ P.numData = numData ∧
      P.numCoding = numCoding := by
  have hne : B.map Shred.leaf ≠ [] := fun hnil => hB.ne_nil (List.map_eq_nil_iff.mp hnil)
  obtain ⟨root, hroot, -⟩ := exists_tree H hne
  obtain ⟨b, hb⟩ := List.exists_mem_of_ne_nil B hB.ne_nil
  exact ⟨⟨parity, numData, numCoding, B, hB, root, hroot, b.signature,
    fun s hs => (hB.shared s hs b hb).1⟩, rfl, rfl, rfl, rfl⟩

theorem PublishedBatch.verify_eq_true {H : Hasher} (P : PublishedBatch H)
    {verifySignature : Signature → Pubkey → Hash → Bool} {pubkey : Pubkey} {s : Shred}
    (hs : s ∈ P.shreds) (hv : verifySignature P.signature pubkey P.root = true) :
    s.verify H verifySignature pubkey = .ok true := by
  refine Shred.verify_eq_true.mpr ⟨P.root, P.complete.merkleRoot_eq P.hasRoot hs, ?_⟩
  rwa [P.signed s hs]

/-- From verified shreds `recover` yields shreds of one batch that the leader has published, and
all it was given are shreds of published batches, unless a signature on one of the given shreds
is a forgery, or two of the hashed strings collide. -/
theorem verified_recovery_authentic (H : Hasher) (cache : ReedSolomonCache) (srt : ShredSort)
    (published : List (PublishedBatch H)) (verifySignature : Signature → Pubkey → Hash → Bool)
    (pubkey : Pubkey) (l : List Shred) (hl : ∀ s ∈ l, s.Accepted)
    (hv : ∀ s ∈ l, s.verify H verifySignature pubkey = .ok true) (items : List (Result Shred))
    (hr : recover H cache srt l = .ok items) (ys : List Shred) (hys : ∀ y ∈ ys, .ok y ∈ items) :
    ((∀ s ∈ l, ∃ P ∈ published, P.Has s) ∧ ∃ P ∈ published, ∀ y ∈ ys, P.Has y) ∨
    (∃ s ∈ l, Forged H published verifySignature pubkey s) ∨
    (scheme H).Collision (seenStrings H published (l ++ ys)) := by
  have hwf : ∀ s ∈ l, s.WellFormed := fun s hs => Shred.accepted_iff.mp (hl s hs)
  have hsl := @wellFormed_sortShreds srt l hwf
  by_cases hforged : ∃ s ∈ l, Forged H published verifySignature pubkey s
  · exact .inr (.inl hforged)
  by_cases hcoll : (scheme H).Collision (seenStrings H published (l ++ ys))
  · exact .inr (.inr hcoll)
  left
  have hpub : ∀ s ∈ l, ∃ P ∈ published, s.merkleRoot H = .ok P.root ∧ s.signature = P.signature :=
    fun s hs => (exists_published (hv s hs)).resolve_right fun hf => hforged ⟨s, hs, hf⟩
  constructor
  · intro s hs
    obtain ⟨P, hP, hroot, hsig⟩ := hpub s hs
    exact ⟨P, hP, (PublishedBatch.has_or_collision hP (List.mem_append_left ys hs) (hwf s hs) hroot
      hsig).resolve_right hcoll⟩
  · obtain ⟨L, shards, root, hR⟩ := (recover_eq_ok hwf).mp hr
    have hL := (sortShreds_perm srt l).mem_iff.mp (List.mem_of_getLast? hR.last)
    obtain ⟨P, hP, hroot, hsig⟩ := hpub _ hL
    obtain rfl : root = P.root := Except.ok.inj (hR.root.symm.trans hroot)
    refine ⟨P, hP, fun y hy => ?_⟩
    -- what is yielded vouches for the root of the last coding shred, under its signature
    obtain ⟨k, hk⟩ := List.mem_iff_getElem?.mp (hys y hy)
    exact (PublishedBatch.has_or_collision hP (List.mem_append_right l hy)
      (hR.item_wellFormed hsl hk) (hR.item_merkleRoot hsl hk)
      ((hR.item_sameBatch hsl hk).signature.trans hsig)).resolve_right hcoll

/-- A batch of a data shred and its three copies, of which the copies arrive. -/
theorem verified_recovery_authentic_copies : ∃ (P : PublishedBatch sha256Hasher)
    (verifySignature : Signature → Pubkey → Hash → Bool) (pubkey : Pubkey),
    P.shreds = plainBatch sha256Hasher 0 3 ∧
      (∀ s ∈ threeCopies, s.verify sha256Hasher verifySignature pubkey = .ok true) ∧
      (((∀ s ∈ threeCopies, P.Has s) ∧
          ∀ y ∈ (plainBatch sha256Hasher 0 3).filter (· ∉ threeCopies), P.Has y) ∨
        (∃ s ∈ threeCopies, Forged sha256Hasher [P] verifySignature pubkey s) ∨
        (scheme sha256Hasher).Collision (seenStrings sha256Hasher [P]
          (threeCopies ++ (plainBatch sha256Hasher 0 3).filter (· ∉ threeCopies)))) := by
  obtain ⟨P, hshreds, -⟩ := threeCopies_complete.exists_published
  have hv : ∀ s ∈ threeCopies,
      s.verify sha256Hasher (fun g _ root => decide (g = P.signature ∧ root = P.root))
        plainHash = .ok true := fun s hs =>
    P.verify_eq_true (hshreds ▸ mem_of_threeCopies hs) (decide_eq_true ⟨rfl, rfl⟩)
  refine ⟨P, _, _, hshreds, hv, ?_⟩
  refine (verified_recovery_authentic sha256Hasher replicationCache stableSort [P] _ _ _
    threeCopies_accepted hv _ recover_threeCopies _
    (fun y hy => List.mem_map_of_mem hy)).imp_left ?_
  rintro ⟨hgiven, Q, hQ, hyielded⟩
  rw [List.mem_singleton.mp hQ] at hyielded
  refine ⟨fun s hs => ?_, hyielded⟩
  obtain ⟨Q', hQ', hs'⟩ := hgiven s hs
  rwa [List.mem_singleton.mp hQ'] at hs'

end LightweightShred
