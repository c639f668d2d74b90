import LightweightShred.Resigning
import LightweightShred.IngressStats
import LightweightShred.Lib.Runs

/-!
# Packets over many hops

On its way from the leader a packet is signed by one retransmitter after another. Whatever the
number of hops, the last one is all that shows: the bytes behind the shred stay, and the filter,
the parser, the leader's signature and duplicate detection see what the leader sent.
-/
namespace LightweightShred
open ByteString Rust Codec Runs

/-- A retransmitter signs the shred at the front of a packet. -/
def Wire.resign (packet : Bytes) (signature : Signature) : Result Bytes := do
  match ← Wire.getShredMut packet with
  | none => fail .invalidPacketSize
  | some (shred, behind) =>
    match Wire.setRetransmitterSignature shred signature with
    | (.ok (), shred) => pure (shred ++ behind)
    | (.error e, _) => .error e

/-- The packet as it arrives after some hops. -/
def hops (packet : Bytes) (signatures : List Signature) : Result Bytes :=
  runAll Wire.resign packet signatures

section
variable {b d : Bytes} {g : Signature} {signatures : List Signature} {v : ShredVariant}

theorem bodyEnd_le_retransmitter (ty : ShredType) (v : ShredVariant) :
    bodyEnd ty v ≤ Region.retransmitter.lo ty v := by
  simp only [Region.lo]
  omega

theorem getShredMut_eq (hv : getShredVariant b = .ok v) : Wire.getShredMut b =
    .ok (if sizeOfPayload v.shredType ≤ b.length then
      some (b.take (sizeOfPayload v.shredType), b.drop (sizeOfPayload v.shredType)) else none) := by
  rw [Wire.getShredMut, getShredSize_eq hv, andThen_some]
  rfl

theorem getShredVariant_take (hv : getShredVariant b = .ok v) :
    getShredVariant (b.take (sizeOfPayload v.shredType)) = .ok v := by
  obtain ⟨t, ht, htv⟩ := getShredVariant_iff.mp hv
  have hsize := sizes v.shredType
  refine getShredVariant_iff.mpr ⟨t, ?_, htv⟩
  rwa [List.getElem?_take_of_lt (by omega)]

theorem resign_eq_ok : Wire.resign b g = .ok d ↔
    ∃ v, getShredVariant b = .ok v ∧ v.resigned = true ∧ sizeOfPayload v.shredType ≤ b.length ∧
      d = splice b (Region.retransmitter.lo v.shredType v) g.1 := by
  constructor
  · intro h
    obtain ⟨front, hfront, h⟩ := bind_eq_ok.mp h
    cases hv : getShredVariant b with
    | error e =>
        obtain ⟨e, he⟩ := (noPanic_getShredVariant b).eq_fail (by simp [hv])
        rw [Wire.getShredMut, Wire.getShredSize, he] at hfront
        cases hfront
        cases h
    | ok v =>
        rw [getShredMut_eq hv] at hfront
        split at hfront
        · rename_i hle
          cases hfront
          rcases setRetransmitterSignature_cases (b.take (sizeOfPayload v.shredType)) g with
            ⟨e, hfail⟩ | ⟨w, hw, hr, -, hset⟩
          · simp only [hfail] at h
            cases h
          · obtain rfl : v = w := Except.ok.inj ((getShredVariant_take hv).symm.trans hw)
            simp only [hset] at h
            have hsplit := splice_append (b.drop (sizeOfPayload v.shredType))
              (signature_fits_buffer (g := g) hw hr (by rw [List.length_take]; omega))
            rw [List.take_append_drop] at hsplit
            exact ⟨v, rfl, hr, hle, (Except.ok.inj h).symm.trans hsplit.symm⟩
        · cases hfront
          cases h
  · rintro ⟨v, hv, hr, hle, rfl⟩
    have hvt := getShredVariant_take hv
    have hlen : sizeOfPayload v.shredType ≤ (b.take (sizeOfPayload v.shredType)).length := by
      rw [List.length_take]
      omega
    have hsplit := splice_append (b.drop (sizeOfPayload v.shredType))
      (signature_fits_buffer (g := g) hvt hr hlen)
    rw [List.take_append_drop] at hsplit
    simp only [Wire.resign, getShredMut_eq hv, if_pos hle, bind, Except.bind,
      setRetransmitterSignature_eq hvt hr hlen, hsplit]
    rfl

theorem resign_again {e : Bytes} {g' : Signature} (h : Wire.resign b g = .ok d)
    (h' : Wire.resign d g' = .ok e) : Wire.resign b g' = .ok e := by
  obtain ⟨v, hv, hr, hle, rfl⟩ := resign_eq_ok.mp h
  obtain ⟨w, hw, -, -, rfl⟩ := resign_eq_ok.mp h'
  have hlo := bodyEnd_le_retransmitter v.shredType v
  obtain rfl : v = w :=
    Except.ok.inj (((sameFront_splice hv hr hle).getShredVariant_ok hv hlo).symm.trans hw)
  refine resign_eq_ok.mpr ⟨v, hv, hr, hle, ?_⟩
  rw [splice_again (signature_fits_buffer hv hr hle) (g'.2.trans g.2.symm)]

/-- Whether a packet can be signed depends on no signature, written or to be written. -/
theorem exists_resign {g' : Signature} (h : Wire.resign b g = .ok d) :
    (∃ e, Wire.resign b g' = .ok e) ∧ ∃ e, Wire.resign d g' = .ok e := by
  obtain ⟨v, hv, hr, hle, rfl⟩ := resign_eq_ok.mp h
  have hlo := bodyEnd_le_retransmitter v.shredType v
  have hsame := sameFront_splice (g := g) hv hr hle
  exact ⟨⟨_, resign_eq_ok.mpr ⟨v, hv, hr, hle, rfl⟩⟩,
    _, resign_eq_ok.mpr ⟨v, hsame.getShredVariant_ok hv hlo, hr, hsame.length ▸ hle, rfl⟩⟩

theorem resign_of_hops (hlast : signatures.getLast? = some g) (h : hops b signatures = .ok d) :
    Wire.resign b g = .ok d := by
  have hhistory : (signatures = [] ∧ d = b) ∨
      ∃ g, signatures.getLast? = some g ∧ Wire.resign b g = .ok d := by
    refine runAll_history (fun past t => (past = [] ∧ t = b) ∨
      ∃ g, past.getLast? = some g ∧ Wire.resign b g = .ok t) (.inl ⟨rfl, rfl⟩) ?_ h
    intro past s c t hpast hstep
    refine .inr ⟨c, List.getLast?_concat .., ?_⟩
    rcases hpast with ⟨-, rfl⟩ | ⟨g, -, hg⟩
    · exact hstep
    · exact resign_again hg hstep
  rcases hhistory with ⟨rfl, -⟩ | ⟨g', hlast', hg'⟩
  · cases hlast
  · obtain rfl : g = g' := Option.some.inj (hlast.symm.trans hlast')
    exact hg'

/-- A run of hops is its last hop. -/
theorem hops_eq_ok (hlast : signatures.getLast? = some g) :
    hops b signatures = .ok d ↔ Wire.resign b g = .ok d := by
  refine ⟨resign_of_hops hlast, fun h => ?_⟩
  obtain ⟨e, he⟩ := @exists_runAll Bytes Signature _ Wire.resign
    (fun t => t = b ∨ ∃ g, Wire.resign b g = .ok t) b signatures
    (fun s c t hs hstep => .inr (hs.elim (fun hs => ⟨c, hs ▸ hstep⟩)
      fun ⟨g, hg⟩ => ⟨c, resign_again hg hstep⟩))
    (fun s hs c _ => hs.elim (fun hs => hs ▸ (exists_resign h).1) fun ⟨g, hg⟩ => (exists_resign hg).2)
    (.inl rfl)
  rw [show hops b signatures = .ok e from he]
  exact congrArg Except.ok (Except.ok.inj ((resign_of_hops hlast he).symm.trans h))

/-- What a run of hops leaves to be seen by everyone further on. -/
structure Transparent (H : Hasher) (b d : Bytes) : Prop where
  filter : ∀ root maxSlot shredVersion discardUnexpected stats,
    shouldDiscardShred d root maxSlot shredVersion discardUnexpected stats =
      shouldDiscardShred b root maxSlot shredVersion discardUnexpected stats
  parsed : ∀ x, Shred.newFromSerializedShred b = .ok x → ∃ y,
    Shred.newFromSerializedShred d = .ok y ∧ y.id = x.id ∧
      (∀ verifySignature pubkey, y.verify H verifySignature pubkey =
        x.verify H verifySignature pubkey) ∧
      x.isShredDuplicate y = .ok false ∧ y.isShredDuplicate x = .ok false
  rejected : (∃ y, Shred.newFromSerializedShred d = .ok y) → ∃ x,
    Shred.newFromSerializedShred b = .ok x

theorem transparent_of_resign (H : Hasher) (h : Wire.resign b g = .ok d) : Transparent H b d := by
  obtain ⟨v, hv, hr, hle, rfl⟩ := resign_eq_ok.mp h
  have hvalid := valid_of_getShredVariant hv
  have hlt := lt_bodyEnd v.shredType hvalid
  have hlo := bodyEnd_le_retransmitter v.shredType v
  have hsame := sameFront_splice (g := g) hv hr hle
  have hset := setRetransmitterSignature_eq (g := g) hv hr hle
  constructor
  · intro root maxSlot shredVersion discardUnexpected stats
    have hagree := hsame.symm.agree.mono (Nat.zero_le 64) (show 88 ≤ _ by omega)
    rw [shouldDiscardShred_eq, shouldDiscardShred_eq, outcome_congr hsame.symm.length hagree]
  · intro x hx
    have hy := hsame.newFromSerializedShred (by omega) hx
    have hwx := (Shred.newFromSerializedShred_eq_ok.mp hx).1
    have hwy := (Shred.newFromSerializedShred_eq_ok.mp hy).1
    have hid : ∀ p, x.id = (x.setPayload p).id := fun p => by
      simp only [Shred.id, Shred.commonHeader_setPayload]
    obtain ⟨hdup, hdup'⟩ := not_duplicate_of_parsed hset hx hy
    obtain ⟨hsig, hroot, -⟩ := (hwx.duplicateExact hwy H).same (hid _) hdup
    refine ⟨_, hy, (hid _).symm, fun verifySignature pubkey => ?_, hdup, hdup'⟩
    rw [Shred.verify, Shred.verify, Shred.signedData, Shred.signedData, hroot, hsig]
  · rintro ⟨y, hy⟩
    exact ⟨_, hsame.symm.newFromSerializedShred (by omega) hy⟩

theorem resigned_of_resign (H : Hasher) (h : Wire.resign b g = .ok d) : Resigned H b d g := by
  obtain ⟨v, hv, hr, hle, rfl⟩ := resign_eq_ok.mp h
  exact resigned_splice H hv hr hle

end

/-- A packet that has passed any number of retransmitters differs from the one the leader sent in
the bytes of the retransmitter's signature alone, which is that of the last hop; and the filter,
the parser, the verification of the leader's signature and duplicate detection tell the two
apart by nothing. A packet that one retransmitter can sign, all can. -/
theorem hops_transparent (H : Hasher) (packet : Bytes) (signatures : List Signature)
    (g : Signature) (hlast : signatures.getLast? = some g) :
    ((∃ arrived, hops packet signatures = .ok arrived) ↔ ∃ signed, Wire.resign packet g = .ok signed) ∧
    ∀ arrived, hops packet signatures = .ok arrived →
      Resigned H packet arrived g ∧ Transparent H packet arrived := by
  refine ⟨exists_congr fun d => hops_eq_ok hlast, fun arrived h => ?_⟩
  have hlasthop := resign_of_hops hlast h
  exact ⟨resigned_of_resign H hlasthop, transparent_of_resign H hlasthop⟩

theorem exists_resign_resignedPacket (g : Signature) : ∃ d, Wire.resign resignedPacket g = .ok d := by
  obtain ⟨v, hv, hr, hle⟩ := resignedPacket_resigned
  exact ⟨_, resign_eq_ok.mpr ⟨v, hv, hr, hle, rfl⟩⟩

/-- Two retransmitters sign it. -/
theorem hops_transparent_two : ∃ arrived,
    hops resignedPacket [(plainData 0 88).commonHeader.signature, twosSignature] = .ok arrived ∧
      Resigned sha256Hasher resignedPacket arrived twosSignature ∧
      Transparent sha256Hasher resignedPacket arrived := by
  obtain ⟨hiff, hall⟩ := hops_transparent sha256Hasher resignedPacket
    [(plainData 0 88).commonHeader.signature, twosSignature] twosSignature rfl
  obtain ⟨arrived, harrived⟩ := hiff.mpr (exists_resign_resignedPacket twosSignature)
  exact ⟨arrived, harrived, hall arrived harrived⟩

end LightweightShred
