import LightweightShred.ZeroCopy
import LightweightShred.Hashing

/-!
# Accessors on untrusted bytes

The accessors of the `wire` module are called on packets that nobody has looked at yet. All but
two answer on every byte string. `get_erasure_config` unwraps the type, and so wants to be called
behind a check of the variant. `get_merkle_root` answers where `hashv` returns.
-/
namespace LightweightShred
open ByteString Rust Codec

section Accessors
variable {b : Bytes}

theorem noPanic_arrayFromSlice {n lo hi : Nat} {bytes : Bytes} (hn : hi - lo = n)
    (h : slice? b lo hi = some bytes) : NoPanic (arrayFromSlice n bytes) := by
  rw [slice?] at h
  split at h
  · rename_i hle
    rw [← Option.some.inj h, arrayFromSlice, dif_pos (by rw [length_slice hle.2, hn])]
    exact noPanic_ok _
  · cases h

theorem noPanic_getArray (b : Bytes) (n lo : Nat) : NoPanic (getArray n b lo) := by
  refine NoPanic.andThen (noPanic_pure _) fun bytes h => ?_
  exact (noPanic_arrayFromSlice (Nat.add_sub_cancel_left lo n) (Except.ok.inj h)).bind
    fun _ _ => noPanic_pure _

theorem noPanic_number {n : Nat} {α : Type} (b : Bytes) (lo : Nat) (f : Fixed n → α) :
    NoPanic (andThen (getArray n b lo) fun bytes => (pure (some (f bytes)) : Result (Option α))) :=
  NoPanic.andThen (noPanic_getArray b n lo) fun _ _ => noPanic_pure _

theorem noPanic_getShredType (b : Bytes) : NoPanic (Wire.getShredType b) :=
  (noPanic_getShredVariant b).bind fun _ _ => noPanic_pure _

theorem noPanic_getShredSize (b : Bytes) : NoPanic (Wire.getShredSize b) := by
  refine (noPanic_getShredVariant b).toOption.andThen fun v _ => ?_
  cases v with
  | merkleCode p r => exact noPanic_pure _
  | merkleData p r => exact noPanic_pure _

theorem noPanic_getFlags (b : Bytes) : NoPanic (Wire.getFlags b) := by
  refine (noPanic_getShredType b).bind fun ty _ => ?_
  cases ty with
  | code => exact noPanic_fail _
  | data => exact (noPanic_okOr _ _).bind fun _ _ => noPanic_okOr _ _

theorem noPanic_getDataSize (b : Bytes) : NoPanic (Wire.getDataSize b) := by
  refine (noPanic_okOr _ _).bind fun bytes h => ?_
  exact (noPanic_arrayFromSlice rfl (okOr_eq_ok.mp h)).bind fun _ _ => noPanic_pure _

theorem noPanic_getData (b : Bytes) : NoPanic (Wire.getData b) := by
  refine (noPanic_getShredVariant b).bind fun v _ => ?_
  cases v with
  | merkleCode p r => exact noPanic_fail _
  | merkleData p r =>
      exact (noPanic_getDataSize b).bind fun _ _ => (noPanic_capacity _ _ _).bind fun _ _ =>
        noPanic_okOr _ _

/-- Only the unwrapped type can panic. -/
theorem noPanic_getErasureConfig_iff :
    NoPanic (Wire.getErasureConfig b) ↔ ∃ v, getShredVariant b = .ok v := by
  have htype : (∃ ty, Wire.getShredType b = .ok ty) ↔ ∃ v, getShredVariant b = .ok v := by
    constructor
    · rintro ⟨ty, h⟩
      obtain ⟨v, hv, -⟩ := bind_eq_ok.mp h
      exact ⟨v, hv⟩
    · rintro ⟨v, hv⟩
      exact ⟨v.shredType, bind_eq_ok.mpr ⟨v, hv, rfl⟩⟩
  rw [Wire.getErasureConfig, noPanic_bind_iff, noPanic_unwrapResult, htype]
  refine and_iff_left fun ty _ => NoPanic.guard fun _ => ?_
  refine (noPanic_okOr _ _).bind fun _ _ => (noPanic_okOr _ _).bind fun _ _ => ?_
  exact (noPanic_okOr _ _).bind fun _ _ => (noPanic_okOr _ _).bind fun _ _ => noPanic_pure _

theorem noPanic_getShredId (b : Bytes) : NoPanic (Wire.getShredId b) :=
  (noPanic_number b 65 u64FromLeBytes).andThen fun _ _ =>
    (noPanic_number b 73 u32FromLeBytes).andThen fun _ _ =>
      (noPanic_getShredType b).toOption.andThen fun _ _ => noPanic_pure _

theorem noPanic_getReferenceTick (b : Bytes) : NoPanic (Wire.getReferenceTick b) :=
  (noPanic_getShredType b).bind fun _ _ => NoPanic.guard fun _ =>
    (noPanic_okOr _ _).bind fun _ _ => noPanic_pure _

theorem noPanic_merkleRootAt (H : Hasher) (ty : ShredType) (b : Bytes) (p : UInt8) (r : Bool)
    (index : Nat) : NoPanic (Wire.merkleRootAt H ty b p r index) := by
  refine (noPanic_getProofOffset ty p r).toOption.andThen fun offset _ => ?_
  refine (noPanic_getMerkleProof b offset p).toOption.andThen fun proof _ => ?_
  exact (noPanic_getMerkleNode H b _ _).toOption.andThen fun _ _ => (noPanic_okOr _ _).toOption

theorem noPanic_wireMerkleRoot (H : Hasher) (b : Bytes) : NoPanic (Wire.getMerkleRoot H b) := by
  refine (noPanic_getShredVariant b).toOption.andThen fun v _ => ?_
  cases v with
  | merkleCode p r =>
      refine NoPanic.andThen ?_ fun index _ => noPanic_merkleRootAt H .code b p r index
      refine NoPanic.andThen (noPanic_pure _) fun _ _ => NoPanic.andThen (noPanic_pure _) ?_
      exact fun _ _ => NoPanic.andThen (noPanic_pure _) fun _ _ =>
        NoPanic.andThen (noPanic_pure _) fun _ _ => noPanic_pure _
  | merkleData p r =>
      refine NoPanic.andThen ?_ fun index _ => noPanic_merkleRootAt H .data b p r index
      exact (noPanic_number b 79 u32FromLeBytes).andThen fun _ _ =>
        (noPanic_number b 73 u32FromLeBytes).andThen fun _ _ => noPanic_pure _

theorem noPanic_getChainedMerkleRoot (b : Bytes) : NoPanic (Wire.getChainedMerkleRoot b) := by
  refine (noPanic_getShredVariant b).toOption.andThen fun v _ => ?_
  refine NoPanic.andThen (NoPanic.toOption ?_) fun offset _ => noPanic_getArray b 32 offset
  exact (noPanic_capacity _ _ _).bind fun _ _ => noPanic_pure _

theorem noPanic_getRetransmitterSignatureOffset (b : Bytes) :
    NoPanic (Wire.getRetransmitterSignatureOffset b) :=
  (noPanic_getShredVariant b).bind fun _ _ => NoPanic.guard fun _ =>
    (noPanic_getProofOffset _ _ _).bind fun _ _ => noPanic_pure _

theorem noPanic_getRetransmitterSignature (b : Bytes) :
    NoPanic (Wire.getRetransmitterSignature b) := by
  refine (noPanic_getRetransmitterSignatureOffset b).bind fun offset _ => ?_
  exact (noPanic_okOr _ _).bind fun bytes h =>
    noPanic_arrayFromSlice (Nat.add_sub_cancel_left offset 64) (okOr_eq_ok.mp h)

/-- The signature has the length of the slice that it is copied into. -/
theorem noPanic_wireSetRetransmitterSignature (b : Bytes) (signature : Signature) :
    NoPanic (Wire.setRetransmitterSignature b signature).1 := by
  have hoffset := noPanic_getRetransmitterSignatureOffset b
  rw [Wire.setRetransmitterSignature]
  split
  · rename_i e he
    rw [he] at hoffset
    exact fun h => hoffset (congrArg Except.error (Except.error.inj h))
  · rename_i offset hoffset
    split
    · exact noPanic_fail _
    · rename_i buffer hbuffer
      rw [slice?] at hbuffer
      split at hbuffer
      · rename_i hle
        have hlen : buffer.length = sizeOfSignature := by
          rw [← Option.some.inj hbuffer, length_slice hle.2, Nat.add_sub_cancel_left]
        rw [if_pos (signature.2.trans hlen.symm)]
        exact noPanic_ok _
      · cases hbuffer

theorem wireMerkleRootAt_panics {V : Hashv} {s : Shred} (hV : V.Panics)
    (h : Shred.newFromSerializedShred b = .ok s) : V.wireMerkleRootAt s.kind b s.variant.proofSize
      s.variant.resigned s.position = .error .panic := by
  have hwf := (Shred.newFromSerializedShred_eq_ok.mp h).1
  obtain ⟨es, -, hproof⟩ := getMerkleProof_eq h
  have hnode : V.getMerkleNode b sizeOfSignature (Region.proof.lo s.kind s.variant) =
      .error .panic := by
    rw [Hashv.getMerkleNode, slice?_leaf_eq h]
    simp only [bind, Except.bind, okOr, hV _, unwrap]
  rw [Hashv.wireMerkleRootAt, getProofOffset_eq hwf.valid, toOption, andThen_some, hproof, toOption,
    andThen_some, hnode]
  rfl

theorem wireMerkleRoot_panics {V : Hashv} {s : Shred} (hV : V.Panics)
    (h : Shred.newFromSerializedShred b = .ok s) : V.wireMerkleRoot b = .error .panic := by
  have hat := wireMerkleRootAt_panics hV h
  have hk := (Shred.newFromSerializedShred_eq_ok.mp h).1.kind
  rw [Hashv.wireMerkleRoot, variant_at h, toOption, andThen_some]
  cases s with
  | shredCode c =>
      cases hvar : (Shred.shredCode c).variant with
      | merkleCode p r =>
          rw [hvar] at hat
          simp only [codeIndex_eq h, andThen_some]
          exact hat
      | merkleData p r =>
          rw [hvar] at hk
          cases hk
  | shredData d =>
      cases hvar : (Shred.shredData d).variant with
      | merkleData p r =>
          rw [hvar] at hat
          simp only [dataIndex_eq h, andThen_some]
          exact hat
      | merkleCode p r =>
          rw [hvar] at hk
          cases hk

/-- No accessor but `get_merkle_root` and `get_erasure_config` panics, nor does the one writer. -/
structure Answers (b : Bytes) : Prop where
  getShredFromBuf : NoPanic (Wire.getShredFromBuf b)
  getShredMut : NoPanic (Wire.getShredMut b)
  getCommonHeaderBytes : NoPanic (Wire.getCommonHeaderBytes b)
  getSignature : NoPanic (Wire.getSignature b)
  getShredVariant : NoPanic (getShredVariant b)
  getShredType : NoPanic (Wire.getShredType b)
  getSlot : NoPanic (Wire.getSlot b)
  getIndex : NoPanic (Wire.getIndex b)
  getVersion : NoPanic (Wire.getVersion b)
  getFecSetIndex : NoPanic (Wire.getFecSetIndex b)
  getParentOffset : NoPanic (Wire.getParentOffset b)
  getFlags : NoPanic (Wire.getFlags b)
  getDataSize : NoPanic (Wire.getDataSize b)
  getData : NoPanic (Wire.getData b)
  getShredId : NoPanic (Wire.getShredId b)
  getReferenceTick : NoPanic (Wire.getReferenceTick b)
  getChainedMerkleRoot : NoPanic (Wire.getChainedMerkleRoot b)
  getRetransmitterSignature : NoPanic (Wire.getRetransmitterSignature b)
  isRetransmitterSignedVariant : NoPanic (Wire.isRetransmitterSignedVariant b)
  setRetransmitterSignature : ∀ signature, NoPanic (Wire.setRetransmitterSignature b signature).1

end Accessors

/-- On every byte string the accessors of the `wire` module answer and the writer comes to an end.
Of the two that may panic, `get_merkle_root` answers where `hashv` returns, and panics on every
shred where `hashv` panics; `get_erasure_config` panics on exactly the strings whose variant byte
is missing or unknown. -/
theorem wire_answers (V : Hashv) (b : Bytes) :
    Answers b ∧
    (∀ H : Hasher, V.Returns H → NoPanic (V.wireMerkleRoot b)) ∧
    (V.Panics → (∃ s, Shred.newFromSerializedShred b = .ok s) →
      V.wireMerkleRoot b = .error .panic) ∧
    (Wire.getErasureConfig b = .error .panic ↔ ¬∃ v, getShredVariant b = .ok v) := by
  have hroot : ∀ H : Hasher, V.Returns H → NoPanic (V.wireMerkleRoot b) := by
    intro H hV
    rw [hV.wireMerkleRoot]
    exact noPanic_wireMerkleRoot H b
  refine ⟨?_, hroot, fun hV ⟨s, hs⟩ => wireMerkleRoot_panics hV hs,
    by rw [← noPanic_getErasureConfig_iff, NoPanic, not_not]⟩
  exact {
    getShredFromBuf := (noPanic_getShredSize b).andThen fun _ _ => noPanic_pure _
    getShredMut := (noPanic_getShredSize b).andThen fun _ _ => noPanic_pure _
    getCommonHeaderBytes := noPanic_pure _
    getSignature := noPanic_getArray b 64 0
    getShredVariant := noPanic_getShredVariant b
    getShredType := noPanic_getShredType b
    getSlot := noPanic_number b 65 _
    getIndex := noPanic_number b 73 _
    getVersion := noPanic_number b 77 _
    getFecSetIndex := noPanic_number b 79 _
    getParentOffset := noPanic_number b 83 _
    getFlags := noPanic_getFlags b
    getDataSize := noPanic_getDataSize b
    getData := noPanic_getData b
    getShredId := noPanic_getShredId b
    getReferenceTick := noPanic_getReferenceTick b
    getChainedMerkleRoot := noPanic_getChainedMerkleRoot b
    getRetransmitterSignature := noPanic_getRetransmitterSignature b
    isRetransmitterSignedVariant := (noPanic_getShredVariant b).bind fun _ _ => noPanic_pure _
    setRetransmitterSignature := noPanic_wireSetRetransmitterSignature b }

end LightweightShred
