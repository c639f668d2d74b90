import LightweightShred.Hops
import LightweightShred.MerkleProofs

/-!
# Seeds

The seed of a shred decides which nodes it is sent through. It is hashed from the identifier and
the leader alone, so a retransmitted copy has the seed of the original, and two shreds have one
seed only as one.
-/
namespace LightweightShred
open ByteString Rust

namespace ShredId

/-- What `seed` hashes. -/
def seedPreimage (id : ShredId) (leader : Pubkey) : Bytes :=
  leBytes 8 id.slot.toNat ++ leBytes 1 id.shredType.toU8.toNat ++ leBytes 4 id.index.toNat ++ leader.1

def seed (H : Hasher) (id : ShredId) (leader : Pubkey) : Hash := H.sha256 (id.seedPreimage leader)

variable {i j : ShredId} {p q : Pubkey}

theorem shredType_of_byte {a b : ShredType} (h : leBytes 1 a.toU8.toNat = leBytes 1 b.toU8.toNat) :
    a = b := by
  revert h
  cases a <;> cases b <;> decide

/-- Fields of fixed widths: each can be read off. -/
theorem seedPreimage_injective (h : i.seedPreimage p = j.seedPreimage q) : i = j ∧ p = q := by
  obtain ⟨h, hleader⟩ := List.append_inj h (by simp only [List.length_append, length_leBytes])
  obtain ⟨h, hindex⟩ := List.append_inj h (by simp only [List.length_append, length_leBytes])
  obtain ⟨hslot, htype⟩ := List.append_inj h (by simp only [length_leBytes])
  have hindex := congrArg leNat hindex
  have hslot := congrArg leNat hslot
  rw [leNat_leBytes i.index.toNat_lt, leNat_leBytes j.index.toNat_lt] at hindex
  rw [leNat_leBytes i.slot.toNat_lt, leNat_leBytes j.slot.toNat_lt] at hslot
  refine ⟨?_, Subtype.ext hleader⟩
  calc i = ⟨i.slot, i.index, i.shredType⟩ := rfl
    _ = ⟨j.slot, j.index, j.shredType⟩ := by
        rw [UInt64.toNat_inj.mp hslot, UInt32.toNat_inj.mp hindex, shredType_of_byte htype]
    _ = j := rfl

/-- Two distinct messages of one digest. -/
def SeedCollision (H : Hasher) (i : ShredId) (p : Pubkey) (j : ShredId) (q : Pubkey) : Prop :=
  i.seedPreimage p ≠ j.seedPreimage q ∧ H.sha256 (i.seedPreimage p) = H.sha256 (j.seedPreimage q)

theorem seed_eq_iff {H : Hasher} :
    i.seed H p = j.seed H q ↔ (i = j ∧ p = q) ∨ SeedCollision H i p j q := by
  constructor
  · intro h
    by_cases hm : i.seedPreimage p = j.seedPreimage q
    · exact .inl (seedPreimage_injective hm)
    · exact .inr ⟨hm, h⟩
  · rintro (⟨rfl, rfl⟩ | ⟨-, h⟩)
    · rfl
    · exact h

end ShredId

section
variable {b d : Bytes} {signatures : List Signature} {s : Shred}

/-- Behind any number of hops, none included, the packet parses as the same shred, and its
identifier stands where it stood. -/
theorem id_of_hops (hs : Shred.newFromSerializedShred b = .ok s) (h : hops b signatures = .ok d) :
    (∃ t, Shred.newFromSerializedShred d = .ok t ∧ t.id = s.id) ∧
      Wire.getShredId d = .ok (some s.id) := by
  have hparsed : ∃ t, Shred.newFromSerializedShred d = .ok t ∧ t.id = s.id := by
    cases hlast : signatures.getLast? with
    | none =>
        rw [List.getLast?_eq_none_iff] at hlast
        subst hlast
        cases h
        exact ⟨s, hs, rfl⟩
    | some g =>
        obtain ⟨t, ht, hid, -⟩ :=
          (transparent_of_resign sha256Hasher (resign_of_hops hlast h)).parsed s hs
        exact ⟨t, ht, hid⟩
  obtain ⟨t, ht, hid⟩ := hparsed
  exact ⟨⟨t, ht, hid⟩, hid ▸ getShredId_eq ht⟩

end

/-- However many retransmitters two packets pass, the identifiers their bytes then show give the
seeds of the shreds the leaders sent; and the two seeds are equal for one shred of one leader
alone, two messages of one digest apart. -/
theorem seed_binds (H : Hasher) (leader leader' : Pubkey) (packet packet' arrived arrived' : Bytes)
    (signatures signatures' : List Signature) (s t : Shred)
    (hs : Shred.newFromSerializedShred packet = .ok s)
    (ht : Shred.newFromSerializedShred packet' = .ok t)
    (h : hops packet signatures = .ok arrived) (h' : hops packet' signatures' = .ok arrived') :
    ∃ i j, Wire.getShredId arrived = .ok (some i) ∧ Wire.getShredId arrived' = .ok (some j) ∧
      i.seed H leader = s.id.seed H leader ∧ j.seed H leader' = t.id.seed H leader' ∧
      (i.seed H leader = j.seed H leader' ↔
        (s.id = t.id ∧ leader = leader') ∨ ShredId.SeedCollision H s.id leader t.id leader') :=
  ⟨s.id, t.id, (id_of_hops hs h).2, (id_of_hops ht h').2, rfl, rfl, ShredId.seed_eq_iff⟩

/-- A packet signed once, beside itself as the leader sent it. -/
theorem seed_binds_once : ∃ (arrived : Bytes) (i j : ShredId),
    Wire.getShredId arrived = .ok (some i) ∧ Wire.getShredId resignedPacket = .ok (some j) ∧
      i.seed sha256Hasher plainHash = j.seed sha256Hasher plainHash := by
  obtain ⟨arrived, harrived⟩ := exists_resign_resignedPacket twosSignature
  obtain ⟨i, j, hi, hj, -, -, hiff⟩ := seed_binds sha256Hasher plainHash plainHash resignedPacket
    resignedPacket arrived resignedPacket [twosSignature] [] _ _ parse_resignedPacket
    parse_resignedPacket ((hops_eq_ok rfl).mpr harrived) rfl
  exact ⟨arrived, i, j, hi, hj, hiff.mpr (.inl ⟨rfl, rfl⟩)⟩

end LightweightShred
