import LightweightShred.Hops
import LightweightShred.Delivery
import LightweightShred.Equivocation

/-!
# From the leader to the receiver

The leader sends the shreds of a batch, each at the front of a packet. Packets are lost, come in
any order and are signed by the retransmitters on their ways. What arrives is compared with what was
sent byte by byte, so nothing is assumed of the hash.
-/
namespace LightweightShred
open ByteString Rust

/-- A packet of the shred, with anything behind it, as it arrives after any number of hops. -/
def Arrives (s : Shred) (packet : Bytes) : Prop :=
  ∃ behind signatures, hops (s.payload.bytes ++ behind) signatures = .ok packet

/-- What the receiver has of a shred of the leader. -/
structure Received (H : Hasher) (x s : Shred) : Prop where
  sent : s.WellFormed
  wellFormed : x.WellFormed
  sameUnderRoot : SameUnderRoot x s
  signature : x.signature = s.signature
  verify : ∀ verifySignature pubkey, x.verify H verifySignature pubkey = s.verify H verifySignature pubkey

section
variable {H : Hasher} {b d packet : Bytes} {g : Signature} {s x : Shred}

theorem parsed_of_resign (h : Wire.resign b g = .ok d) (hx : Shred.newFromSerializedShred b = .ok x) :
    Relays g.1 x ∧ Shred.newFromSerializedShred d = .ok (relay g.1 x) := by
  obtain ⟨v, hv, hr, hle, rfl⟩ := resign_eq_ok.mp h
  obtain ⟨hwx, hlex, hpx⟩ := Shred.newFromSerializedShred_eq_ok.mp hx
  obtain rfl : x.variant = v := Except.ok.inj ((variant_at hx).symm.trans hv)
  have hkind : x.variant.shredType = x.kind := hwx.kind
  rw [hkind] at hle ⊢
  have hrelays : Relays g.1 x := relays_of_signature hr g
  -- the packet is the shred and what is behind it, and only the shred is written to
  have hfit := hwx.toShaped.fits hrelays
  have hsplit : splice b (Region.retransmitter.lo x.kind x.variant) g.1 =
      (relay g.1 x).payload.bytes ++ b.drop (sizeOfPayload x.kind) := by
    rw [relay, Shred.withPart, Shred.payload_setPayload, ← splice_append _ hfit, hpx,
      List.take_append_drop]
  have hwr := hwx.relay hrelays
  rw [hsplit]
  refine ⟨hrelays, Shred.newFromSerializedShred_eq_ok.mpr ⟨hwr, ?_, ?_⟩⟩
  · rw [List.length_append, hwr.length]
    exact Nat.le_add_right _ _
  · exact (List.take_left' hwr.length).symm

theorem Shred.WellFormed.received (h : s.WellFormed) : Received H s s where
  sent := h
  wellFormed := h
  sameUnderRoot := sameUnderRoot_of_leaf h h rfl rfl rfl
  signature := rfl
  verify _ _ := rfl

theorem Arrives.received (H : Hasher) (h : Arrives s packet) (hs : s.WellFormed) :
    ∃ x, Shred.newFromSerializedShred packet = .ok x ∧ Received H x s := by
  obtain ⟨behind, signatures, hhops⟩ := h
  have hsent : Shred.newFromSerializedShred (s.payload.bytes ++ behind) = .ok s := by
    refine Shred.newFromSerializedShred_eq_ok.mpr ⟨hs, ?_, (List.take_left' hs.length).symm⟩
    rw [List.length_append, hs.length]
    exact Nat.le_add_right _ _
  cases hlast : signatures.getLast? with
  | none =>
      rw [List.getLast?_eq_none_iff] at hlast
      subst hlast
      cases hhops
      exact ⟨s, hsent, hs.received⟩
  | some g =>
      have hlasthop := resign_of_hops hlast hhops
      obtain ⟨hrelays, hparse⟩ := parsed_of_resign hlasthop hsent
      obtain ⟨y, hy, -, hverify, -⟩ := (transparent_of_resign H hlasthop).parsed s hsent
      obtain rfl := Except.ok.inj (hparse.symm.trans hy)
      exact ⟨_, hparse, hs, hs.relay hrelays, hs.sameUnderRoot_relay hrelays,
        (hs.readsAlike_relay hrelays).signature, hverify⟩

/-- Any number of retransmitters can sign the packet of a shred that is to be signed. -/
theorem Shred.WellFormed.exists_hops (h : s.WellFormed) (hr : s.variant.resigned = true)
    (behind : Bytes) (signatures : List Signature) :
    ∃ packet, hops (s.payload.bytes ++ behind) signatures = .ok packet := by
  cases hlast : signatures.getLast? with
  | none =>
      rw [List.getLast?_eq_none_iff] at hlast
      subst hlast
      exact ⟨_, rfl⟩
  | some g =>
      have hsize := sizes s.kind
      obtain ⟨t, ht, htv⟩ := getShredVariant_iff.mp (variant_at h.reparse)
      refine ⟨_, (hops_eq_ok hlast).mpr (resign_eq_ok.mpr ⟨_, ?_, hr, ?_, rfl⟩)⟩
      · refine getShredVariant_iff.mpr ⟨t, ?_, htv⟩
        rwa [List.getElem?_append_left (by rw [h.length]; omega)]
      · rw [h.kind, List.length_append, h.length]
        exact Nat.le_add_right _ _

theorem exists_received {arrivals : List (Shred × Bytes)}
    (h : ∀ p ∈ arrivals, p.1.WellFormed ∧ Arrives p.1 p.2) : ∃ l,
    arrivals.mapM (fun p => Shred.newFromSerializedShred p.2) = .ok l ∧
      List.Forall₂ (fun x p => Received H x p.1) l arrivals := by
  induction arrivals with
  | nil => exact ⟨[], rfl, .nil⟩
  | cons p arrivals ih =>
      obtain ⟨hp, harrivals⟩ := List.forall_mem_cons.mp h
      obtain ⟨x, hx, hreceived⟩ := hp.2.received H hp.1
      obtain ⟨l, hl, hall⟩ := ih harrivals
      refine ⟨x :: l, ?_, .cons hreceived hall⟩
      rw [mapM_eq_ok] at hl ⊢
      exact .cons hx hl

theorem positions_received {arrivals : List (Shred × Bytes)} {l : List Shred}
    (h : List.Forall₂ (fun x p => Received H x p.1) l arrivals) :
    l.map Shred.position = (arrivals.map Prod.fst).map Shred.position := by
  induction h with
  | nil => rfl
  | cons hx _ ih =>
      rw [List.map_cons, List.map_cons, List.map_cons, ih,
        hx.sameUnderRoot.position hx.wellFormed hx.sent]

end

/-- Of the packets that the leader sends for a batch let enough arrive, in any order, signed by any
retransmitters, at distinct places and with a coding shred among them. They all parse, they verify as
what was sent does, `recover` yields the rest of the batch and `recover_data_only` the rest of its
data. -/
theorem transmission_delivers (H : Hasher) (cache : ReedSolomonCache) (srt : ShredSort)
    (parity : List Bytes → List Bytes) (numData numCoding : Nat) (B : List Shred)
    (hB : CompleteBatch H parity numData numCoding B)
    (hcodec : CodecCorrect cache numData numCoding parity) (arrivals : List (Shred × Bytes))
    (harrives : ∀ p ∈ arrivals, p.1 ∈ B ∧ Arrives p.1 p.2) (hplaces : (arrivals.map Prod.fst).Nodup)
    (hn : numData ≤ arrivals.length) (hcode : ∃ p ∈ arrivals, p.1.kind = .code) :
    ∃ l ys v, arrivals.mapM (fun p => Shred.newFromSerializedShred p.2) = .ok l ∧
      List.Forall₂ (fun x p => Received H x p.1) l arrivals ∧
      recover H cache srt l = .ok (ys.map .ok) ∧
      List.Forall₂ (fun y b => SameUnderRoot y b ∧ y.signature = b.signature) ys
        (B.filter (· ∉ arrivals.map Prod.fst)) ∧
      recoverDataOnly cache srt l = .ok v ∧
      List.Forall₂ Delivers v ((B.take numData).filter (· ∉ arrivals.map Prod.fst)) := by
  obtain ⟨l, hparse, hl⟩ := @exists_received H arrivals fun p hp =>
    ⟨hB.wellFormed (harrives p hp).1, (harrives p hp).2⟩
  have hpositions := positions_received hl
  have hsent : ∀ s ∈ arrivals.map Prod.fst, s ∈ B := by
    intro s hs
    obtain ⟨p, hp, rfl⟩ := List.mem_map.mp hs
    exact (harrives p hp).1
  have hfree : ∀ b ∈ B, decide (b.position ∉ l.map Shred.position) =
      decide (b ∉ arrivals.map Prod.fst) := by
    intro b hb
    rw [hpositions, decide_eq_decide, not_iff_not]
    refine ⟨fun h => ?_, fun h => List.mem_map_of_mem h⟩
    obtain ⟨s, hs, hpos⟩ := List.mem_map.mp h
    rwa [hB.position_injective hb (hsent s hs) hpos.symm]
  have hwf : ∀ x ∈ l, x.WellFormed := by
    intro x hx
    obtain ⟨p, -, h⟩ := forall₂_mem_right hl.flip hx
    exact h.wellFormed
  have hsame : ∀ x ∈ l, ∃ b ∈ B, SameUnderRoot x b ∧ x.signature = b.signature := by
    intro x hx
    obtain ⟨p, hp, h⟩ := forall₂_mem_right hl.flip hx
    exact ⟨p.1, (harrives p hp).1, h.sameUnderRoot, h.signature⟩
  have hnodup : (l.map Shred.position).Nodup := by
    rw [hpositions]
    exact hplaces.map_on fun s hs t ht hpos => hB.position_injective (hsent s hs) (hsent t ht) hpos
  have hcode : ∃ x ∈ l, x.kind = .code := by
    obtain ⟨p, hp, hk⟩ := hcode
    obtain ⟨x, hx, h⟩ := forall₂_mem_right hl hp
    exact ⟨x, hx, (h.sameUnderRoot.kind_eq h.wellFormed h.sent).trans hk⟩
  rw [← hl.length_eq] at hn
  obtain ⟨ys, hr, hys⟩ := @CompleteBatch.recover_relayed H cache srt _ _ _ _ _ hB hcodec hwf hsame
    hnodup hn hcode
  obtain ⟨v, hv, hvs⟩ := @CompleteBatch.dataOnly_relayed H cache srt _ _ _ _ _ hB hcodec hwf hsame
    hnodup hn hcode
  rw [List.filter_congr hfree] at hys
  rw [List.filter_congr fun b hb => hfree b (List.mem_of_mem_take hb)] at hvs
  exact ⟨l, ys, v, hparse, hl, hr, hys, hv, hvs⟩

section Two

theorem dataOfSet_resignedData : DataOfSet resignedData [resignedData] where
  mem := List.mem_singleton_self _
  wellFormed s hs := by
    rw [List.mem_singleton.mp hs]
    exact resignedData_wellFormed
  sameBatch s hs := by
    rw [List.mem_singleton.mp hs]
    exact ⟨rfl, rfl, rfl, rfl, rfl, rfl, rfl, rfl⟩
  index i s hs := by
    obtain ⟨hi, rfl⟩ := List.getElem?_eq_some_iff.mp hs
    obtain rfl : i = 0 := Nat.lt_one_iff.mp hi
    rfl

/-- A data shred and a coding shred, both with room for a retransmitter's signature. -/
noncomputable def resignedBatch : List Shred :=
  sealBatch sha256Hasher (encoded (codeParity 1 1) resignedData [resignedData] 0 1)

theorem encodes_resignedData : Encodes (codeParity 1 1) [resignedData] 1 :=
  @encodes_codeParity [resignedData] 1 (List.cons_ne_nil _ _)

theorem unsealedResignedBatch_consistent :
    ConsistentBatch (codeParity 1 1) 1 1 (encoded (codeParity 1 1) resignedData [resignedData] 0 1) :=
  dataOfSet_resignedData.consistent encodes_resignedData (show 1 + 1 ≤ 256 by decide) (Nat.le_refl 1)
    (show 0 + 1 ≤ 32768 by decide) (show (1 : UInt8) = getProofSize 2 by decide)

theorem resignedBatch_complete :
    CompleteBatch sha256Hasher (codeParity 1 1) 1 1 resignedBatch :=
  unsealedResignedBatch_consistent.complete sha256Hasher

theorem resignedBatch_resigned {s : Shred} (hs : s ∈ resignedBatch) : s.variant.resigned = true := by
  obtain ⟨b, hb, -, hsb⟩ := unsealedResignedBatch_consistent.sealable.exists_sameBatch hs
  obtain ⟨-, hbd⟩ := dataOfSet_resignedData.of_mem_encoded encodes_resignedData (by decide)
    (by decide) hb
  exact hsb.resigned.trans hbd.resigned

/-- Only the coding shred arrives, and was signed twice on its way. -/
theorem transmission_delivers_two : ∃ c packet ys v x, c ∈ resignedBatch ∧
    hops (c.payload.bytes ++ [1, 2, 3, 4]) [(plainData 0 88).commonHeader.signature, twosSignature] =
      .ok packet ∧
    Shred.newFromSerializedShred packet = .ok x ∧
    recover sha256Hasher interpolationCache stableSort [x] = .ok (ys.map .ok) ∧
    List.Forall₂ (fun y b => SameUnderRoot y b ∧ y.signature = b.signature) ys
      (resignedBatch.filter (· ∉ [c])) ∧
    recoverDataOnly interpolationCache stableSort [x] = .ok v ∧
    List.Forall₂ Delivers v ((resignedBatch.take 1).filter (· ∉ [c])) := by
  obtain ⟨first, hcoding⟩ := resignedBatch_complete.coding
  obtain ⟨c, hget, -⟩ := hcoding 0 (by decide)
  have hc : .shredCode c ∈ resignedBatch := List.mem_of_getElem? hget
  have hwf := resignedBatch_complete.wellFormed hc
  obtain ⟨packet, hpacket⟩ := hwf.exists_hops (resignedBatch_resigned hc) [1, 2, 3, 4]
    [(plainData 0 88).commonHeader.signature, twosSignature]
  obtain ⟨l, ys, v, hparse, hl, hr, hys, hv, hvs⟩ := transmission_delivers sha256Hasher
    interpolationCache stableSort (codeParity 1 1) 1 1 resignedBatch resignedBatch_complete
    (interpolationCache_correct (by decide) (by decide) (by decide)) [(.shredCode c, packet)]
    (fun p hp => by
      rw [List.mem_singleton.mp hp]
      exact ⟨hc, _, _, hpacket⟩)
    (List.nodup_singleton _) (Nat.le_refl 1) ⟨_, List.mem_singleton_self _, rfl⟩
  cases mapM_eq_ok.mp hparse with
  | cons hx hnil =>
      cases hnil
      exact ⟨_, packet, ys, v, _, hc, hpacket, hx, hr, hys, hv, hvs⟩

end Two

end LightweightShred
