import LightweightShred.Lib.Rust

/-!
# Sequential readers of fixed-width fields

A reader takes its field off the front of a byte string. `Inverts` says that it
accepts exactly what the writer puts there, which composes field by field.
-/
namespace Codec
open ByteString Rust

/-- The reasons a read fails: the input ends too early, or a tag has no meaning. -/
inductive ReadError where
  | io
  | invalidTagEncoding (tag : Nat)
  deriving DecidableEq, Repr

/-- The one reason a write fails: the buffer is too small. -/
inductive WriteError where
  | io
  deriving DecidableEq, Repr

abbrev Reader (α : Type) := List UInt8 → Except ReadError (α × List UInt8)

/-- The reader accepts a string iff it starts with what is written for a valid value. -/
def Inverts {α : Type} (read : Reader α) (Valid : α → Prop) (write : α → List UInt8) : Prop :=
  ∀ b a rest, read b = .ok (a, rest) ↔ Valid a ∧ b = write a ++ rest

def readBytes (n : Nat) : Reader (Fixed n) := fun b =>
  if h : n ≤ b.length then .ok (⟨b.take n, List.length_take_of_le h⟩, b.drop n) else .error .io

def readU8 : Reader UInt8 := fun b => do
  let (x, b) ← readBytes 1 b
  pure (UInt8.ofNat (leNat x.1), b)

def readU16 : Reader UInt16 := fun b => do
  let (x, b) ← readBytes 2 b
  pure (UInt16.ofNat (leNat x.1), b)

def readU32 : Reader UInt32 := fun b => do
  let (x, b) ← readBytes 4 b
  pure (UInt32.ofNat (leNat x.1), b)

def readU64 : Reader UInt64 := fun b => do
  let (x, b) ← readBytes 8 b
  pure (UInt64.ofNat (leNat x.1), b)

/-- A value with nothing after it that matters. -/
def deserialize {α : Type} (read : Reader α) (b : List UInt8) : Except ReadError α :=
  (read b).map Prod.fst

/-- A tuple: its first component, then its second. -/
def readPair {α β : Type} (r : Reader α) (s : Reader β) : Reader (α × β) := fun b => do
  let (x, b) ← r b
  let (y, b) ← s b
  pure ((x, y), b)

/-- Write at the front of a buffer. -/
def serializeInto (buffer bytes : List UInt8) : Except WriteError (List UInt8) :=
  if bytes.length ≤ buffer.length then .ok (splice buffer 0 bytes) else .error .io

theorem readBytes_inverts (n : Nat) : Inverts (readBytes n) (fun _ => True) (fun x => x.1) := by
  intro b x rest
  unfold readBytes
  split
  · rename_i h
    constructor
    · intro he
      cases he
      exact ⟨trivial, (List.take_append_drop n b).symm⟩
    · rintro ⟨-, rfl⟩
      congr 2
      · exact Subtype.ext (List.take_left' x.2)
      · exact List.drop_left' x.2
  · rename_i h
    constructor
    · intro he
      cases he
    · rintro ⟨-, rfl⟩
      exact (h (by rw [List.length_append, x.2]; omega)).elim

theorem number_inverts {α : Type} {w : Nat} (ofNat : Nat → α) (toNat : α → Nat)
    (lt : ∀ a, toNat a < 256 ^ w) (left : ∀ a, ofNat (toNat a) = a)
    (right : ∀ n, n < 256 ^ w → toNat (ofNat n) = n) :
    Inverts (fun b => do
        let (x, b) ← readBytes w b
        pure (ofNat (leNat x.1), b)) (fun _ => True) (fun a => leBytes w (toNat a)) := by
  intro b a rest
  simp only [bind_eq_ok, Prod.exists]
  constructor
  · rintro ⟨x, b', hx, h⟩
    cases h
    refine ⟨trivial, ?_⟩
    have hlt : leNat x.1 < 256 ^ w := by simpa only [x.2] using leNat_lt x.1
    rw [right _ hlt, leBytes_leNat x.2]
    exact ((readBytes_inverts w _ _ _).mp hx).2
  · rintro ⟨-, rfl⟩
    refine ⟨⟨leBytes w (toNat a), length_leBytes _ _⟩, rest,
      (readBytes_inverts w _ _ _).mpr ⟨trivial, rfl⟩, ?_⟩
    rw [leNat_leBytes (lt a), left]
    rfl

theorem readU8_inverts : Inverts readU8 (fun _ => True) (fun a => leBytes 1 a.toNat) :=
  number_inverts _ _ (fun a => a.toNat_lt) (fun _ => UInt8.ofNat_toNat)
    (fun _ h => UInt8.toNat_ofNat_of_lt' h)

theorem readU16_inverts : Inverts readU16 (fun _ => True) (fun a => leBytes 2 a.toNat) :=
  number_inverts _ _ (fun a => a.toNat_lt) (fun _ => UInt16.ofNat_toNat)
    (fun _ h => UInt16.toNat_ofNat_of_lt' h)

theorem readU32_inverts : Inverts readU32 (fun _ => True) (fun a => leBytes 4 a.toNat) :=
  number_inverts _ _ (fun a => a.toNat_lt) (fun _ => UInt32.ofNat_toNat)
    (fun _ h => UInt32.toNat_ofNat_of_lt' h)

theorem readU64_inverts : Inverts readU64 (fun _ => True) (fun a => leBytes 8 a.toNat) :=
  number_inverts _ _ (fun a => a.toNat_lt) (fun _ => UInt64.ofNat_toNat)
    (fun _ h => UInt64.toNat_ofNat_of_lt' h)

theorem readPair_inverts {α β : Type} {r : Reader α} {s : Reader β} {V : α → Prop} {W : β → Prop}
    {f : α → List UInt8} {g : β → List UInt8} (hr : Inverts r V f) (hs : Inverts s W g) :
    Inverts (readPair r s) (fun p => V p.1 ∧ W p.2) (fun p => f p.1 ++ g p.2) := by
  intro b p rest
  simp only [readPair, bind_eq_ok, Prod.exists]
  constructor
  · rintro ⟨x, b1, h1, y, b2, h2, he⟩
    cases he
    obtain ⟨hx, rfl⟩ := (hr _ _ _).mp h1
    obtain ⟨hy, rfl⟩ := (hs _ _ _).mp h2
    exact ⟨⟨hx, hy⟩, (List.append_assoc _ _ _).symm⟩
  · rintro ⟨⟨hx, hy⟩, rfl⟩
    exact ⟨p.1, _, (hr _ _ _).mpr ⟨hx, List.append_assoc _ _ _⟩,
      p.2, _, (hs _ _ _).mpr ⟨hy, rfl⟩, rfl⟩

theorem leBytes_one (a : UInt8) : leBytes 1 a.toNat = [a] := by
  simp only [leBytes, UInt8.ofNat_toNat]

theorem deserialize_eq_ok {α : Type} {read : Reader α} {Valid : α → Prop}
    {write : α → List UInt8} (h : Inverts read Valid write) {b : List UInt8} {a : α} :
    deserialize read b = .ok a ↔
      Valid a ∧ (write a).length ≤ b.length ∧ slice b 0 (write a).length = write a := by
  rw [deserialize, map_eq_ok]
  constructor
  · rintro ⟨⟨a', rest⟩, hr, rfl⟩
    obtain ⟨hv, rfl⟩ := (h _ _ _).mp hr
    refine ⟨hv, by simp, ?_⟩
    rw [slice_append_left (Nat.le_refl _), slice_zero_length]
  · rintro ⟨hv, hle, hs⟩
    refine ⟨(a, b.drop (write a).length), (h _ _ _).mpr ⟨hv, ?_⟩, rfl⟩
    have hs' : b.take (write a).length = write a := by simpa [slice] using hs
    conv_lhs => rw [← List.take_append_drop (write a).length b, hs']

/-- Reader and writer are inverse to each other between the valid values and their encodings of
`n` bytes, with `Good` telling which long enough strings are read. -/
structure Exact {α : Type} (read : Reader α) (write : α → List UInt8) (Valid : α → Prop) (n : Nat)
    (Good : List UInt8 → Prop) : Prop where
  length_write : ∀ a, Valid a → (write a).length = n
  read_write : ∀ a rest, Valid a → deserialize read (write a ++ rest) = .ok a
  write_read : ∀ b, n ≤ b.length → Good b →
    ∃ a, deserialize read b = .ok a ∧ Valid a ∧ write a = b.take n
  fails : ∀ b, ¬(n ≤ b.length ∧ Good b) → ∃ e, deserialize read b = .error e

/-- A reader that inverts a writer of fixed length is exact, if every good string starts with
the encoding of a valid value and every string that does is good. -/
theorem Inverts.exact {α : Type} {read : Reader α} {Valid : α → Prop} {write : α → List UInt8}
    {n : Nat} {Good : List UInt8 → Prop} (h : Inverts read Valid write)
    (length : ∀ a, (write a).length = n)
    (good : ∀ b a, Valid a → n ≤ b.length → slice b 0 n = write a → Good b)
    (total : ∀ b, n ≤ b.length → Good b → ∃ a, Valid a ∧ slice b 0 n = write a) :
    Exact read write Valid n Good where
  length_write a _ := length a
  read_write a rest ha := by
    rw [deserialize, (h _ a rest).mpr ⟨ha, rfl⟩]
    rfl
  write_read b hb hg := by
    obtain ⟨a, ha, hw⟩ := total b hb hg
    refine ⟨a, (deserialize_eq_ok h).mpr ⟨ha, ?_, ?_⟩, ha, ?_⟩
    · rw [length a]
      exact hb
    · rw [length a]
      exact hw
    · rw [← hw, slice, List.drop_zero, Nat.sub_zero]
  fails b hno := by
    cases hr : deserialize read b with
    | error e => exact ⟨e, rfl⟩
    | ok a =>
        obtain ⟨ha, hle, hw⟩ := (deserialize_eq_ok h).mp hr
        rw [length a] at hle hw
        exact (hno ⟨hle, good b a ha hle hw⟩).elim

theorem serializeInto_eq_ok {buffer bytes b : List UInt8} :
    serializeInto buffer bytes = .ok b ↔
      bytes.length ≤ buffer.length ∧ splice buffer 0 bytes = b := by
  unfold serializeInto
  split <;> simp_all

end Codec
