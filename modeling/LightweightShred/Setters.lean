import LightweightShred.Lib.Runs
import LightweightShred.RoundTrip

/-!
# The setters of a shred

Four writers share one payload. Each of them fills one region, or the signature in front of
all of them, so that what one has written the others leave alone.
-/
namespace LightweightShred
open ByteString Rust Codec Runs

/-- A call of a setter, with its argument. -/
inductive SetterCall where
  | signature (g : Signature)
  | chainedMerkleRoot (root : Hash)
  | merkleProof (proof : List (Result MerkleProofEntry))
  | retransmitterSignature (g : Signature)

namespace SetterCall

def run (s : Shred) : SetterCall → Result Shred
  | .signature g => s.setSignature g
  | .chainedMerkleRoot root => s.setChainedMerkleRoot root
  | .merkleProof proof => s.setMerkleProof proof
  | .retransmitterSignature g => s.setRetransmitterSignature g

/-- What the call makes `signature()` return, if it writes it. -/
def signature? : SetterCall → Option Signature
  | .signature g => some g
  | _ => none

/-- What the call makes `chained_merkle_root()` return, if it writes it. -/
def chainedMerkleRoot? : SetterCall → Option (Result Hash)
  | .chainedMerkleRoot root => some (.ok root)
  | _ => none

/-- What the call makes `merkle_proof()` return, if it writes it. -/
def merkleProof? : SetterCall → Option (Result (List MerkleProofEntry))
  | .merkleProof proof => some (proof.mapM id)
  | _ => none

/-- What the call makes `retransmitter_signature()` return, if it writes it. -/
def retransmitterSignature? : SetterCall → Option (Result Signature)
  | .retransmitterSignature g => some (.ok g)
  | _ => none

/-- What the call needs of the variant. -/
def Fits (v : ShredVariant) : SetterCall → Prop
  | .signature _ | .chainedMerkleRoot _ => True
  | .merkleProof proof => ∃ es : List MerkleProofEntry, proof = es.map .ok ∧
    es.length = v.proofSize.toNat
  | .retransmitterSignature _ => v.resigned = true

end SetterCall

namespace Shred
variable {s t : Shred}

/-- The shred with its signature replaced, in the payload and in the header. -/
def withSignature (s : Shred) (g : Signature) : Shred :=
  (s.setPayload ⟨splice s.payload.bytes 0 g.1⟩).setHeaderSignature g

section Signature
variable (s) (g : Signature)

@[simp] theorem kind_withSignature : (s.withSignature g).kind = s.kind := by
  cases s <;> rfl

@[simp] theorem variant_withSignature : (s.withSignature g).variant = s.variant := by
  cases s <;> rfl

@[simp] theorem payload_withSignature :
    (s.withSignature g).payload = ⟨splice s.payload.bytes 0 g.1⟩ := by
  cases s <;> rfl

@[simp] theorem signature_withSignature : (s.withSignature g).signature = g := by
  cases s <;> rfl

@[simp] theorem sane_withSignature : (s.withSignature g).Sane ↔ s.Sane := by
  cases s <;> rfl

theorem writeHeaders_withSignature :
    (s.withSignature g).writeHeaders = splice s.writeHeaders 0 g.1 := by
  have common : ∀ (h : ShredCommonHeader) (rest : Bytes),
      { h with signature := g }.write ++ rest = splice (h.write ++ rest) 0 g.1 := by
    intro h rest
    simp only [ShredCommonHeader.write, splice, List.take_zero, List.nil_append, Nat.zero_add,
      List.append_assoc]
    rw [List.drop_left' (h.signature.2.trans g.2.symm)]
  cases s with
  | shredCode c => exact common _ _
  | shredData d => exact common _ _

end Signature

theorem Shaped.le_length (h : s.Shaped) (g : Signature) : 0 + g.1.length ≤ s.payload.bytes.length := by
  have hsz := sizes s.kind
  rw [h.length, g.2]
  omega

theorem Shaped.setSignature (h : s.Shaped) (g : Signature) :
    s.setSignature g = .ok (s.withSignature g) := by
  have hfit := h.le_length g
  have h64 : sizeOfSignature ≤ s.payload.bytes.length := by
    rw [g.2, Nat.zero_add] at hfit
    exact hfit
  have hderef : s.payload.asMut.deref = .ok s.payload.bytes := by
    rw [Payload.asMut, PayloadMutGuard.deref_new (Nat.zero_le _) (Nat.le_refl _)]
    exact congrArg Except.ok (slice_zero_length _)
  have hlen : g.1.length = (slice s.payload.bytes 0 sizeOfSignature).length := by
    rw [length_slice h64, g.2]
    rfl
  have hcopy := @PayloadMutGuard.copyFromSlice_new s.payload .rangeFull
    (splice s.payload.bytes 0 g.1) ((Nat.zero_add _).trans (length_splice hfit)) (Nat.le_refl _)
  have hall : splice s.payload.bytes 0 (splice s.payload.bytes 0 g.1) =
      splice s.payload.bytes 0 g.1 := by
    have htail := splice_tail s.payload.bytes g.1 0 hfit
    rwa [slice_zero_length] at htail
  rw [Shred.setSignature, hderef]
  simp only [bind, Except.bind, slice?_of_le (Nat.zero_le _) h64, unwrap]
  rw [if_pos hlen, Payload.asMut, hcopy]
  simp only [pure, Except.pure, PayloadMutGuard.drop, withSignature]
  exact congrArg (fun b => Except.ok ((s.setPayload ⟨b⟩).setHeaderSignature g)) hall

theorem Shaped.agreeOn_withSignature (h : s.Shaped) (g : Signature) {lo hi : Nat} (hlo : 64 ≤ lo) :
    AgreeOn (s.withSignature g).payload.bytes s.payload.bytes lo hi := by
  rw [payload_withSignature]
  exact agreeOn_splice (h.le_length g) (.inr (by rw [g.2]; omega))

theorem Shaped.withSignature (h : s.Shaped) (g : Signature) : (s.withSignature g).Shaped where
  kind := by simpa using h.kind
  valid := by simpa using h.valid
  length := by
    rw [payload_withSignature, kind_withSignature]
    exact (length_splice (h.le_length g)).trans h.length

theorem WellFormed.withSignature (h : s.WellFormed) (g : Signature) :
    (s.withSignature g).WellFormed where
  toShaped := h.toShaped.withSignature g
  headers := by
    have hsz := sizes s.kind
    have hlen := h.length
    rw [kind_withSignature, payload_withSignature, writeHeaders_withSignature, ← h.headers]
    apply List.ext_getElem?
    intro i
    have hcut : 0 + g.1.length ≤ (slice s.payload.bytes 0 (sizeOfHeaders s.kind)).length := by
      rw [length_slice (by omega), g.2]
      omega
    rw [getElem?_slice, getElem?_splice (h.toShaped.le_length g), getElem?_splice hcut,
      getElem?_slice, Nat.zero_add, Nat.zero_add, g.2]
    by_cases hi : i < sizeOfHeaders s.kind
    · rw [if_pos hi, if_pos hi]
    · rw [if_neg hi, if_neg hi, if_neg (by omega)]
  sane := (sane_withSignature s g).mpr h.sane

theorem Shaped.part_withSignature (h : s.Shaped) (g : Signature) {R : Region} (hR : R ≠ .front) :
    (s.withSignature g).part R = s.part R := by
  simp only [part, kind_withSignature, variant_withSignature]
  exact (h.agreeOn_withSignature g (Region.signature_le_lo s.kind h.valid hR)).slice_eq

end Shred

section Getters
namespace Shred
variable {s t : Shred}

theorem Shaped.chainedMerkleRoot_congr (hs : s.Shaped) (ht : t.Shaped)
    (h : t.part .chainedRoot = s.part .chainedRoot) : t.chainedMerkleRoot = s.chainedMerkleRoot := by
  obtain ⟨root, hroot⟩ := hs.exists_chainedMerkleRoot
  rw [hroot, ht.chainedMerkleRoot_eq_ok, h, hs.chainedMerkleRoot_eq_ok.mp hroot]

theorem Shaped.merkleProof_congr (hs : s.Shaped) (ht : t.Shaped) (hv : t.variant = s.variant)
    (h : t.part .proof = s.part .proof) : t.merkleProof = s.merkleProof := by
  obtain ⟨es, hes⟩ := hs.exists_merkleProof
  rw [hes, ht.merkleProof_eq_ok, hv, h]
  exact hs.merkleProof_eq_ok.mp hes

theorem Shaped.retransmitterSignature_congr (hs : s.Shaped) (ht : t.Shaped)
    (hv : t.variant = s.variant) (h : t.part .retransmitter = s.part .retransmitter) :
    t.retransmitterSignature = s.retransmitterSignature := by
  cases hr : s.variant.resigned with
  | true =>
      obtain ⟨g, hg⟩ := hs.exists_retransmitterSignature hr
      rw [hg, ht.retransmitterSignature_eq_ok, hv, h]
      exact hs.retransmitterSignature_eq_ok.mp hg
  | false =>
      rw [hs.retransmitterSignature_fail hr, ht.retransmitterSignature_fail (hv ▸ hr)]

end Shred
end Getters

/-- A region that one of the setters writes. -/
def Region.Writable (R : Region) : Prop := R = .chainedRoot ∨ R = .proof ∨ R = .retransmitter

theorem Region.Writable.bodyEnd_le {R : Region} (h : R.Writable) (ty : ShredType)
    (v : ShredVariant) : bodyEnd ty v ≤ R.lo ty v := by
  rcases h with rfl | rfl | rfl <;> simp only [Region.lo] <;> omega

/-- What a successful call has done to a shred. -/
structure SetterEffect (c : SetterCall) (s t : Shred) : Prop where
  wellFormed : t.WellFormed
  kind : t.kind = s.kind
  variant : t.variant = s.variant
  body : AgreeOn t.payload.bytes s.payload.bytes sizeOfSignature (bodyEnd s.kind s.variant)
  signature : t.signature = c.signature?.getD s.signature
  chainedMerkleRoot : t.chainedMerkleRoot = c.chainedMerkleRoot?.getD s.chainedMerkleRoot
  merkleProof : t.merkleProof = c.merkleProof?.getD s.merkleProof
  retransmitterSignature :
    t.retransmitterSignature = c.retransmitterSignature?.getD s.retransmitterSignature

section Effects
variable {s : Shred} {R : Region} {b : Bytes}

theorem Shred.WellFormed.withPart_writable (h : s.WellFormed) (hR : R.Writable)
    (hb : R.lo s.kind s.variant + b.length = R.hi s.kind s.variant) :
    (s.withPart R b).WellFormed := by
  have hle := (headers_le_bodyEnd s.kind h.valid).trans (hR.bodyEnd_le s.kind s.variant)
  exact h.withPart hle hb

theorem effect_signature (h : s.WellFormed) (g : Signature) :
    SetterEffect (.signature g) s (s.withSignature g) where
  wellFormed := h.withSignature g
  kind := Shred.kind_withSignature s g
  variant := Shred.variant_withSignature s g
  body := h.agreeOn_withSignature g (Nat.le_refl _)
  signature := Shred.signature_withSignature s g
  chainedMerkleRoot := h.chainedMerkleRoot_congr (h.toShaped.withSignature g)
    (h.part_withSignature g (by decide))
  merkleProof := h.merkleProof_congr (h.toShaped.withSignature g) (Shred.variant_withSignature s g)
    (h.part_withSignature g (by decide))
  retransmitterSignature := h.retransmitterSignature_congr (h.toShaped.withSignature g)
    (Shred.variant_withSignature s g) (h.part_withSignature g (by decide))

theorem SetterEffect.of_withPart {c : SetterCall} (h : s.WellFormed) (hR : R.Writable)
    (hb : R.lo s.kind s.variant + b.length = R.hi s.kind s.variant) (hc : c.signature? = none)
    (hroot : (s.withPart R b).chainedMerkleRoot = c.chainedMerkleRoot?.getD s.chainedMerkleRoot)
    (hproof : (s.withPart R b).merkleProof = c.merkleProof?.getD s.merkleProof)
    (hretransmitter : (s.withPart R b).retransmitterSignature =
      c.retransmitterSignature?.getD s.retransmitterSignature) :
    SetterEffect c s (s.withPart R b) where
  wellFormed := h.withPart_writable hR hb
  kind := Shred.kind_withPart ..
  variant := Shred.variant_withPart ..
  body := h.agreeOn_withPart hb (.inl (hR.bodyEnd_le s.kind s.variant))
  signature := by
    rw [hc, Option.getD_none]
    exact congrArg ShredCommonHeader.signature (Shred.commonHeader_withPart ..)
  chainedMerkleRoot := hroot
  merkleProof := hproof
  retransmitterSignature := hretransmitter

theorem effect_chainedMerkleRoot (h : s.WellFormed) (root : Hash) :
    SetterEffect (.chainedMerkleRoot root) s (s.withPart .chainedRoot root.1) := by
  have hb : Region.chainedRoot.lo s.kind s.variant + root.1.length =
      Region.chainedRoot.hi s.kind s.variant := by rw [root.2]; rfl
  have ht := h.toShaped.withPart hb
  have hv : (s.withPart .chainedRoot root.1).variant = s.variant := Shred.variant_withPart ..
  refine .of_withPart h (.inl rfl) hb rfl ?_ ?_ ?_
  · exact ht.chainedMerkleRoot_eq_ok.mpr (h.part_withPart hb)
  · exact h.merkleProof_congr ht hv (h.part_withPart_ne hb (by decide))
  · exact h.retransmitterSignature_congr ht hv (h.part_withPart_ne hb (by decide))

theorem effect_merkleProof (h : s.WellFormed) {es : List MerkleProofEntry}
    (hes : es.length = s.variant.proofSize.toNat) :
    SetterEffect (.merkleProof (es.map .ok)) s
      (s.withPart .proof (es.map Subtype.val).flatten) := by
  have hb := proof_fits hes
  have ht := h.toShaped.withPart hb
  have hv : (s.withPart .proof (es.map Subtype.val).flatten).variant = s.variant :=
    Shred.variant_withPart ..
  have hwritten : (es.map .ok : List (Result MerkleProofEntry)).mapM id = .ok es :=
    mapM_id_eq_ok.mpr rfl
  refine .of_withPart h (.inr (.inl rfl)) hb rfl ?_ ?_ ?_
  · exact h.chainedMerkleRoot_congr ht (h.part_withPart_ne hb (by decide))
  · refine (ht.merkleProof_eq_ok.mpr ⟨?_, (h.part_withPart hb).symm⟩).trans hwritten.symm
    rw [hv, hes]
  · exact h.retransmitterSignature_congr ht hv (h.part_withPart_ne hb (by decide))

theorem effect_retransmitterSignature (h : s.WellFormed) (hr : s.variant.resigned = true)
    (g : Signature) :
    SetterEffect (.retransmitterSignature g) s (s.withPart .retransmitter g.1) := by
  have hb := Shred.signature_fits hr g
  have ht := h.toShaped.withPart hb
  have hv : (s.withPart .retransmitter g.1).variant = s.variant := Shred.variant_withPart ..
  refine .of_withPart h (.inr (.inr rfl)) hb rfl ?_ ?_ ?_
  · exact h.chainedMerkleRoot_congr ht (h.part_withPart_ne hb (by decide))
  · exact h.merkleProof_congr ht hv (h.part_withPart_ne hb (by decide))
  · exact ht.retransmitterSignature_eq_ok.mpr ⟨hv.symm ▸ hr, h.part_withPart hb⟩

end Effects

theorem exists_entries_of_writeProof {n k position : Nat} {buffer : Bytes}
    {proof : List (Result MerkleProofEntry)} {r : Bytes × Nat}
    (h : writeProof n proof k buffer position = .ok r) : ∃ es : List MerkleProofEntry, proof = es.map .ok := by
  induction proof generalizing k position buffer with
  | nil => exact ⟨[], rfl⟩
  | cons entry proof ih =>
      rw [writeProof, guard_eq_ok, bind_eq_ok] at h
      obtain ⟨-, e, rfl, h⟩ := h
      obtain ⟨es, rfl⟩ := ih (guard_eq_ok.mp h).2
      exact ⟨e :: es, rfl⟩

/-- A proof is accepted iff it has exactly the entries the header announces, none an error. -/
theorem Shred.Shaped.setMerkleProof_eq_ok_iff {s t : Shred} (h : s.Shaped)
    {proof : List (Result MerkleProofEntry)} : s.setMerkleProof proof = .ok t ↔
      ∃ es : List MerkleProofEntry, proof = es.map .ok ∧ es.length = s.variant.proofSize.toNat ∧
        t = s.withPart .proof (es.map Subtype.val).flatten := by
  constructor
  · intro hset
    have hentries : ∃ es : List MerkleProofEntry, proof = es.map .ok := by
      obtain ⟨p, -, hset⟩ := bind_eq_ok.mp hset
      obtain ⟨o, -, hset⟩ := bind_eq_ok.mp hset
      obtain ⟨g, -, hset⟩ := bind_eq_ok.mp hset
      obtain ⟨b, -, hset⟩ := bind_eq_ok.mp hset
      obtain ⟨r, hwrite, -⟩ := bind_eq_ok.mp hset
      exact exists_entries_of_writeProof hwrite
    obtain ⟨es, rfl⟩ := hentries
    exact ⟨es, rfl, h.setMerkleProof_eq_ok.mp hset⟩
  · rintro ⟨es, rfl, hes⟩
    exact h.setMerkleProof_eq_ok.mpr hes

namespace SetterCall
variable {s t : Shred} {c : SetterCall} {calls : List SetterCall}

/-- The step lemma: a call succeeds iff its argument fits, and then has its effect. -/
theorem exists_run_iff (h : s.WellFormed) : (∃ t, c.run s = .ok t) ↔ c.Fits s.variant := by
  cases c with
  | signature g => exact iff_of_true ⟨_, h.setSignature g⟩ trivial
  | chainedMerkleRoot root => exact iff_of_true ⟨_, h.setChainedMerkleRoot root⟩ trivial
  | merkleProof proof =>
      simp only [run, h.setMerkleProof_eq_ok_iff, Fits]
      constructor
      · rintro ⟨t, es, hp, hes, -⟩
        exact ⟨es, hp, hes⟩
      · rintro ⟨es, hp, hes⟩
        exact ⟨_, es, hp, hes, rfl⟩
  | retransmitterSignature g =>
      simp only [run, h.setRetransmitterSignature_eq_ok, Fits]
      exact ⟨fun ⟨_, hr, _⟩ => hr, fun hr => ⟨_, hr, rfl⟩⟩

theorem effect (h : s.WellFormed) (hrun : c.run s = .ok t) : SetterEffect c s t := by
  cases c with
  | signature g =>
      obtain rfl := Except.ok.inj ((h.setSignature g).symm.trans hrun)
      exact effect_signature h g
  | chainedMerkleRoot root =>
      obtain rfl := Except.ok.inj ((h.setChainedMerkleRoot root).symm.trans hrun)
      exact effect_chainedMerkleRoot h root
  | merkleProof proof =>
      obtain ⟨es, rfl, hes, rfl⟩ := h.setMerkleProof_eq_ok_iff.mp hrun
      exact effect_merkleProof h hes
  | retransmitterSignature g =>
      obtain ⟨hr, rfl⟩ := h.setRetransmitterSignature_eq_ok.mp hrun
      exact effect_retransmitterSignature h hr g

end SetterCall

/-- The node of a shred, from its payload and a chained root to put in the place of its own. -/
def nodeWithRoot (H : Hasher) (payload : Bytes) (root : Result Hash) : Result Hash := do
  let variant ← getShredVariant payload
  let offset ← getChainedMerkleRootOffset variant.shredType variant.proofSize variant.resigned
  let root ← root
  pure (H.sha256 (leafPreimage (slice payload sizeOfSignature offset ++ root.1)))

/-- What a run of successful calls leaves of a shred `s`, and what it makes of it. -/
structure Undisturbed (H : Hasher) (calls : List SetterCall) (s t : Shred) : Prop where
  length : t.payload.len = s.payload.len
  headers : t.HeadersDecoded
  sanitize : t.sanitize = .ok ()
  erasureShard : ∃ shard, s.erasureShard = .ok shard ∧ t.erasureShard = .ok shard
  signature : t.signature = lastWritten SetterCall.signature? s.signature calls
  chainedMerkleRoot : t.chainedMerkleRoot =
    lastWritten SetterCall.chainedMerkleRoot? s.chainedMerkleRoot calls
  merkleProof : t.merkleProof = lastWritten SetterCall.merkleProof? s.merkleProof calls
  retransmitterSignature : t.retransmitterSignature =
    lastWritten SetterCall.retransmitterSignature? s.retransmitterSignature calls
  merkleNode : t.merkleNode H = nodeWithRoot H s.payload.bytes
    (lastWritten SetterCall.chainedMerkleRoot? s.chainedMerkleRoot calls)
  succeeds : ∀ c : SetterCall, (∃ u, c.run t = .ok u) ↔ c.Fits s.commonHeader.shredVariant

section Node
variable {s t : Shred} {H : Hasher}

theorem Shred.Shaped.leaf_eq (h : s.Shaped) : s.leaf =
    slice s.payload.bytes sizeOfSignature (bodyEnd s.kind s.variant) ++ s.part .chainedRoot := by
  have hlt := lt_bodyEnd s.kind h.valid
  have h64 : sizeOfSignature ≤ bodyEnd s.kind s.variant := by
    rw [sizeOfSignature]
    omega
  exact (slice_append_slice s.payload.bytes h64 (Nat.le_add_right _ _)).symm

theorem Shred.Shaped.merkleNode_of_body (hs : s.WellFormed) (ht : t.Shaped) (hk : t.kind = s.kind)
    (hv : t.variant = s.variant)
    (hbody : slice t.payload.bytes sizeOfSignature (bodyEnd s.kind s.variant) =
      slice s.payload.bytes sizeOfSignature (bodyEnd s.kind s.variant)) :
    t.merkleNode H = nodeWithRoot H s.payload.bytes t.chainedMerkleRoot := by
  obtain ⟨root, hroot⟩ := ht.exists_chainedMerkleRoot
  have hoffset : getChainedMerkleRootOffset s.variant.shredType s.variant.proofSize
      s.variant.resigned = .ok (bodyEnd s.kind s.variant) := by
    rw [hs.kind]
    exact getChainedMerkleRootOffset_eq hs.valid
  have hvariant := hs.getShredVariant (List.take_of_length_le (Nat.le_of_eq hs.length)).symm
  rw [ht.merkleNode H, ht.leaf_eq, hk, hv, hbody, ht.chainedMerkleRoot_eq_ok.mp hroot,
    nodeWithRoot, hvariant, hroot]
  simp only [bind, Except.bind, hoffset]
  rfl

end Node

/-- Between the first call and the last the shred stays one of the same layout. -/
def SameLayout (s t : Shred) : Prop := t.WellFormed ∧ t.kind = s.kind ∧ t.variant = s.variant

theorem SameLayout.step {s m t : Shred} {c : SetterCall} (hm : SameLayout s m)
    (h : c.run m = .ok t) : SameLayout s t := by
  obtain ⟨hwf, hk, hv⟩ := hm
  have heffect := SetterCall.effect hwf h
  exact ⟨heffect.wellFormed, heffect.kind.trans hk, heffect.variant.trans hv⟩

/-- After any run of successful calls of the setters the shred is still one that the parser and
the codec know, every getter returns what was last written for it, and the node depends on the
chained root alone. -/
theorem setters_do_not_interfere (H : Hasher) {s t : Shred} {calls : List SetterCall}
    (hs : s.Accepted) (hrun : runAll SetterCall.run s calls = .ok t) : Undisturbed H calls s t := by
  have hwf := Shred.accepted_iff.mp hs
  have hstart : SameLayout s s := ⟨hwf, rfl, rfl⟩
  have step : ∀ (m : Shred) (c : SetterCall) (u : Shred), SameLayout s m → c.run m = .ok u →
      SameLayout s u := fun _ _ _ hm h => hm.step h
  obtain ⟨hwft, hk, hv⟩ := runAll_invariant step hstart hrun
  have hbody : slice t.payload.bytes sizeOfSignature (bodyEnd s.kind s.variant) =
      slice s.payload.bytes sizeOfSignature (bodyEnd s.kind s.variant) := by
    refine runAll_kept (fun u : Shred => slice u.payload.bytes sizeOfSignature
      (bodyEnd s.kind s.variant)) step ?_ hstart hrun
    rintro m c u ⟨hm, hmk, hmv⟩ h
    have heffect := SetterCall.effect hm h
    rw [← hmk, ← hmv]
    exact heffect.body.slice_eq
  have hshard : t.part .shard = s.part .shard := by
    have hsz := sizes s.kind
    have hle : sizeOfSignature ≤ erasureShardStartOffset s.kind := by
      rw [sizeOfSignature]
      omega
    simp only [Shred.part, hk, hv]
    exact ((agreeOn_of_slice_eq hbody).mono hle (Nat.le_refl _)).slice_eq
  have hroot : t.chainedMerkleRoot =
      lastWritten SetterCall.chainedMerkleRoot? s.chainedMerkleRoot calls :=
    runAll_written Shred.chainedMerkleRoot SetterCall.chainedMerkleRoot? step
      (fun _ _ _ hm h => (SetterCall.effect hm.1 h).chainedMerkleRoot) hstart hrun
  have hpayload : t.payload.bytes.length = s.payload.bytes.length := by
    rw [hwft.length, hwf.length, hk]
  exact
    { length := hpayload
      headers := hwft.headersDecoded
      sanitize := hwft.sanitize_eq_ok.mpr hwft.sane
      erasureShard := ⟨_, hwf.erasureShard, by rw [hwft.erasureShard, hshard]⟩
      signature := runAll_written Shred.signature SetterCall.signature? step
        (fun _ _ _ hm h => (SetterCall.effect hm.1 h).signature) hstart hrun
      chainedMerkleRoot := hroot
      merkleProof := runAll_written Shred.merkleProof SetterCall.merkleProof? step
        (fun _ _ _ hm h => (SetterCall.effect hm.1 h).merkleProof) hstart hrun
      retransmitterSignature := runAll_written Shred.retransmitterSignature
        SetterCall.retransmitterSignature? step
        (fun _ _ _ hm h => (SetterCall.effect hm.1 h).retransmitterSignature) hstart hrun
      merkleNode := hroot ▸ hwft.merkleNode_of_body hwf hk hv hbody
      succeeds := fun c => by
        rw [SetterCall.exists_run_iff hwft, hv]
        rfl }

/-- A plain data shred with room for one proof entry and for a retransmitter's signature. -/
def resignedData : ShredData :=
  dataShred { (plainData 0 88).commonHeader with shredVariant := .merkleData 1 true }
    (plainData 0 88).dataHeader (List.replicate 1115 0)

theorem plainVariant_wellFormed {v : ShredVariant} (hk : v.shredType = .data) (hvalid : v.Valid) :
    (Shred.shredData (dataShred { (plainData 0 88).commonHeader with shredVariant := v }
      (plainData 0 88).dataHeader (List.replicate 1115 0))).WellFormed := by
  have hplain : (Shred.shredData (plainData 0 88)).WellFormed :=
    plainData_wellFormed (by decide) (by decide)
  obtain ⟨hindex, hfec, hflags, hsize, hparent⟩ := hplain.sane
  have hfits : (88 : UInt16).toNat ≤ bodyEnd .data v :=
    Nat.le_trans (by decide) (Nat.le_of_lt (lt_bodyEnd .data hvalid))
  exact dataShred_wellFormed hk hvalid (List.length_replicate ..)
    ⟨hindex, hfec, hflags, ⟨hsize.1, hfits⟩, hparent⟩

theorem resignedData_wellFormed : (Shred.shredData resignedData).WellFormed :=
  plainVariant_wellFormed rfl (by decide : (1 : UInt8).toNat < 16)

def twosSignature : Signature := ⟨List.replicate 64 2, List.length_replicate ..⟩

def resignedCalls : List SetterCall :=
  [.chainedMerkleRoot (sha256Hasher.sha256 [1]), .retransmitterSignature twosSignature,
    .merkleProof [.ok (sha256Hasher.sha256 [1]).truncate], .signature twosSignature,
    .chainedMerkleRoot (sha256Hasher.sha256 [])]

theorem setters_do_not_interfere_resigned : ∃ t,
    runAll SetterCall.run (.shredData resignedData) resignedCalls = .ok t ∧
      Undisturbed sha256Hasher resignedCalls (.shredData resignedData) t := by
  have hwf := resignedData_wellFormed
  have hstart : SameLayout (.shredData resignedData) (.shredData resignedData) := ⟨hwf, rfl, rfl⟩
  have step : ∀ (m : Shred) (c : SetterCall) (u : Shred), SameLayout (.shredData resignedData) m →
      c.run m = .ok u → SameLayout (.shredData resignedData) u := fun _ _ _ hm h => hm.step h
  have fits : ∀ c ∈ resignedCalls, c.Fits (Shred.shredData resignedData).variant := by
    intro c hc
    simp only [resignedCalls, List.mem_cons, List.not_mem_nil, or_false] at hc
    rcases hc with rfl | rfl | rfl | rfl | rfl
    · trivial
    · exact rfl
    · exact ⟨[(sha256Hasher.sha256 [1]).truncate], rfl, rfl⟩
    · trivial
    · trivial
  obtain ⟨t, ht⟩ := exists_runAll step
    (fun m hm c hc => (SetterCall.exists_run_iff hm.1).mpr (hm.2.2 ▸ fits c hc)) hstart
  exact ⟨t, ht, setters_do_not_interfere sha256Hasher (Shred.accepted_iff.mpr hwf) ht⟩

end LightweightShred
