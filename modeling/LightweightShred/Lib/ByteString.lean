import Mathlib

/-!
# Byte strings

Slices, in-place writes and fixed-width little-endian numbers over plain lists.
Agreement on an index range is the one notion every frame fact is stated in.
-/
namespace ByteString

section Slices
variable {α : Type*}

/-- The elements at `lo .. hi`, cut short at the end of the list. -/
def slice (b : List α) (lo hi : Nat) : List α := (b.drop lo).take (hi - lo)

/-- `b.get(lo..hi)`: nothing for a decreasing range or one past the end. -/
def slice? (b : List α) (lo hi : Nat) : Option (List α) :=
  if lo ≤ hi ∧ hi ≤ b.length then some (slice b lo hi) else none

/-- `b` with `new` written over the positions from `off` on. -/
def splice (b : List α) (off : Nat) (new : List α) : List α :=
  b.take off ++ new ++ b.drop (off + new.length)

/-- The two lists hold the same elements at every index of `lo .. hi`. -/
def AgreeOn (b d : List α) (lo hi : Nat) : Prop := ∀ i, lo ≤ i → i < hi → b[i]? = d[i]?

theorem getElem?_slice (b : List α) (lo hi i : Nat) :
    (slice b lo hi)[i]? = if lo + i < hi then b[lo + i]? else none := by
  simp only [slice, List.getElem?_take, List.getElem?_drop]
  by_cases h : lo + i < hi
  · rw [if_pos (by omega), if_pos h]
  · rw [if_neg (by omega), if_neg h]

theorem length_slice {b : List α} {lo hi : Nat} (h : hi ≤ b.length) :
    (slice b lo hi).length = hi - lo := by
  simp only [slice, List.length_take, List.length_drop]
  omega

theorem slice?_of_le {b : List α} {lo hi : Nat} (hl : lo ≤ hi) (hh : hi ≤ b.length) :
    slice? b lo hi = some (slice b lo hi) := if_pos ⟨hl, hh⟩

theorem slice_slice (b : List α) (lo hi lo' hi' : Nat) (h : lo + hi' ≤ hi) :
    slice (slice b lo hi) lo' hi' = slice b (lo + lo') (lo + hi') := by
  apply List.ext_getElem?
  intro i
  simp only [getElem?_slice]
  by_cases hi1 : lo' + i < hi'
  · rw [if_pos hi1, if_pos (by omega), if_pos (by omega), Nat.add_assoc]
  · rw [if_neg hi1, if_neg (by omega)]

theorem slice_append_left {b d : List α} {lo hi : Nat} (h : hi ≤ b.length) :
    slice (b ++ d) lo hi = slice b lo hi := by
  apply List.ext_getElem?
  intro i
  simp only [getElem?_slice]
  split
  · exact List.getElem?_append_left (by omega)
  · rfl

theorem slice_append_right {b d : List α} {lo hi : Nat} (h : b.length ≤ lo) :
    slice (b ++ d) lo hi = slice d (lo - b.length) (hi - b.length) := by
  apply List.ext_getElem?
  intro i
  simp only [getElem?_slice]
  by_cases hi1 : lo + i < hi
  · rw [if_pos hi1, if_pos (by omega), List.getElem?_append_right (by omega)]
    congr 1
    omega
  · rw [if_neg hi1, if_neg (by omega)]

theorem slice_drop (b : List α) (n lo hi : Nat) :
    slice (b.drop n) lo hi = slice b (n + lo) (n + hi) := by
  rw [slice, slice, List.drop_drop, Nat.add_sub_add_left]

theorem slice_append_slice (b : List α) {lo mid hi : Nat} (h1 : lo ≤ mid) (h2 : mid ≤ hi) :
    slice b lo mid ++ slice b mid hi = slice b lo hi := by
  simp only [slice]
  rw [show hi - lo = (mid - lo) + (hi - mid) by omega, List.take_add, List.drop_drop,
    show lo + (mid - lo) = mid by omega]

theorem slice_eq_append_iff {b x y : List α} {lo hi : Nat} (hx : lo + x.length ≤ hi)
    (hh : hi ≤ b.length) :
    slice b lo hi = x ++ y ↔ slice b lo (lo + x.length) = x ∧ slice b (lo + x.length) hi = y := by
  rw [← slice_append_slice b (Nat.le_add_right lo x.length) hx]
  have hlen : (slice b lo (lo + x.length)).length = x.length := by
    rw [length_slice (by omega), Nat.add_sub_cancel_left]
  exact ⟨fun h => List.append_inj h hlen, fun h => by rw [h.1, h.2]⟩

theorem slice_eq_singleton_iff {b : List α} {lo : Nat} {x : α} :
    slice b lo (lo + 1) = [x] ↔ b[lo]? = some x := by
  rw [slice, Nat.add_sub_cancel_left]
  cases h : b.drop lo with
  | nil =>
      have hle := List.drop_eq_nil_iff.mp h
      rw [List.getElem?_eq_none hle]
      simp
  | cons y rest =>
      have hy : b[lo]? = some y := by
        have h0 := congrArg (fun l => l[0]?) h
        rwa [List.getElem?_drop, Nat.add_zero] at h0
      rw [hy]
      simp

theorem slice_zero_length (b : List α) : slice b 0 b.length = b := by simp [slice]

theorem slice_full {b : List α} {n : Nat} (h : b.length = n) : slice b 0 n = b :=
  h ▸ slice_zero_length b

theorem length_splice {b new : List α} {off : Nat} (h : off + new.length ≤ b.length) :
    (splice b off new).length = b.length := by
  simp only [splice, List.length_append, List.length_take, List.length_drop]
  omega

theorem getElem?_splice {b new : List α} {off : Nat} (h : off + new.length ≤ b.length) (i : Nat) :
    (splice b off new)[i]? =
      if off ≤ i ∧ i < off + new.length then new[i - off]? else b[i]? := by
  have hlen : (b.take off).length = off := by simp only [List.length_take]; omega
  unfold splice
  rcases Nat.lt_or_ge i off with hi | hi
  · rw [if_neg (by omega), List.append_assoc, List.getElem?_append_left (by omega),
      List.getElem?_take, if_pos hi]
  · rcases Nat.lt_or_ge i (off + new.length) with hj | hj
    · rw [if_pos ⟨hi, hj⟩, List.getElem?_append_left (by simp only [List.length_append]; omega),
        List.getElem?_append_right (by omega), hlen]
    · rw [if_neg (by omega), List.getElem?_append_right (by simp only [List.length_append]; omega),
        List.getElem?_drop]
      congr 1
      simp only [List.length_append]
      omega

theorem AgreeOn.append {b d : List α} {lo mid hi : Nat} (h : AgreeOn b d lo mid)
    (k : AgreeOn b d mid hi) : AgreeOn b d lo hi := by
  intro i hl hh
  rcases Nat.lt_or_ge i mid with hm | hm
  · exact h i hl hm
  · exact k i hm hh

theorem AgreeOn.slice_eq {b d : List α} {lo hi : Nat} (h : AgreeOn b d lo hi) :
    slice b lo hi = slice d lo hi := by
  apply List.ext_getElem?
  intro i
  simp only [getElem?_slice]
  split
  · exact h _ (by omega) (by assumption)
  · rfl

theorem AgreeOn.symm {b d : List α} {lo hi : Nat} (h : AgreeOn b d lo hi) : AgreeOn d b lo hi :=
  fun i hl hh => (h i hl hh).symm

theorem AgreeOn.mono {b d : List α} {lo hi lo' hi' : Nat} (h : AgreeOn b d lo hi) (hl : lo ≤ lo')
    (hh : hi' ≤ hi) : AgreeOn b d lo' hi' :=
  fun i h1 h2 => h i (Nat.le_trans hl h1) (Nat.lt_of_lt_of_le h2 hh)

theorem AgreeOn.slice?_eq {b d : List α} {lo hi : Nat} (h : AgreeOn b d lo hi)
    (hlen : b.length = d.length) : slice? b lo hi = slice? d lo hi := by
  rw [slice?, slice?, hlen, h.slice_eq]

theorem agreeOn_of_slice_eq {b d : List α} {lo hi : Nat} (h : slice b lo hi = slice d lo hi) :
    AgreeOn b d lo hi := by
  intro i hl hh
  have hi := congrArg (fun l => l[i - lo]?) h
  simp only [getElem?_slice] at hi
  rw [if_pos (by omega), if_pos (by omega), show lo + (i - lo) = i by omega] at hi
  exact hi

theorem AgreeOn.eq {b d : List α} {n : Nat} (hb : b.length = n) (hc : d.length = n)
    (h : AgreeOn b d 0 n) : b = d := by
  rw [← slice_full hb, ← slice_full hc, h.slice_eq]

theorem agreeOn_splice {b new : List α} {off lo hi : Nat} (h : off + new.length ≤ b.length)
    (apart : hi ≤ off ∨ off + new.length ≤ lo) : AgreeOn (splice b off new) b lo hi := by
  intro i hl hh
  rw [getElem?_splice h, if_neg (by omega)]

theorem slice_splice {b new : List α} {off hi : Nat} (h : off + new.length ≤ b.length)
    (hhi : hi = off + new.length) : slice (splice b off new) off hi = new := by
  subst hhi
  apply List.ext_getElem?
  intro i
  rw [getElem?_slice]
  split
  · rw [getElem?_splice h, if_pos (by omega)]
    congr 1
    omega
  · exact (List.getElem?_eq_none (by omega)).symm

theorem splice_of_slice {b new : List α} {off hi : Nat} (h : off + new.length ≤ b.length)
    (hhi : hi = off + new.length) (hs : slice b off hi = new) : splice b off new = b := by
  apply AgreeOn.eq (length_splice h) rfl
  intro i _ hi1
  rw [getElem?_splice h]
  split
  · rename_i hin
    rw [← hs, getElem?_slice, if_pos (by omega)]
    congr 1
    omega
  · rfl

theorem splice_append {b new : List α} (c : List α) {off : Nat}
    (h : off + new.length ≤ b.length) : splice (b ++ c) off new = splice b off new ++ c := by
  rw [splice, splice, List.take_append_of_le_length (by omega), List.drop_append_of_le_length h,
    ← List.append_assoc]

theorem splice_again {b new more : List α} {off : Nat} (h : off + new.length ≤ b.length)
    (hlen : more.length = new.length) : splice (splice b off new) off more = splice b off more := by
  have hmore : off + more.length ≤ b.length := by omega
  apply List.ext_getElem?
  intro i
  rw [getElem?_splice (by rw [length_splice h]; omega), getElem?_splice hmore, getElem?_splice h,
    hlen]
  split_ifs <;> rfl

theorem splice_nil (b : List α) (off : Nat) : splice b off [] = b := by simp [splice]

theorem splice_splice (b new more : List α) (off : Nat)
    (h : off + new.length + more.length ≤ b.length) :
    splice (splice b off new) (off + new.length) more = splice b off (new ++ more) := by
  have hnew : off + new.length ≤ b.length := by omega
  have hall : off + (new ++ more).length ≤ b.length := by rw [List.length_append]; omega
  have hmore : off + new.length + more.length ≤ (splice b off new).length := by
    rw [length_splice hnew]
    omega
  apply List.ext_getElem?
  intro i
  rw [getElem?_splice hmore, getElem?_splice hnew, getElem?_splice hall, List.length_append]
  by_cases h1 : off ≤ i ∧ i < off + new.length
  · rw [if_neg (by omega), if_pos h1, if_pos (by omega), List.getElem?_append_left (by omega)]
  · by_cases h2 : off + new.length ≤ i ∧ i < off + new.length + more.length
    · rw [if_pos h2, if_pos (by omega), List.getElem?_append_right (by omega)]
      congr 1
      omega
    · rw [if_neg h2, if_neg h1, if_neg (by omega)]

theorem splice_tail (b new : List α) (off : Nat) (h : off + new.length ≤ b.length) :
    splice b off (splice (slice b off b.length) 0 new) = splice b off new := by
  have hlen : (slice b off b.length).length = b.length - off := length_slice (Nat.le_refl _)
  have hnew : 0 + new.length ≤ (slice b off b.length).length := by omega
  have htail : (splice (slice b off b.length) 0 new).length = b.length - off := by
    rw [length_splice hnew, hlen]
  apply List.ext_getElem?
  intro i
  rw [getElem?_splice (by omega), getElem?_splice h, getElem?_splice hnew, htail, getElem?_slice]
  by_cases h1 : off ≤ i ∧ i < off + new.length
  · rw [if_pos (by omega), if_pos (by omega), if_pos h1, Nat.sub_zero]
  · rw [if_neg h1]
    by_cases h2 : off ≤ i ∧ i < b.length
    · rw [if_pos (by omega), if_neg (by omega), if_pos (by omega)]
      congr 1
      omega
    · rw [if_neg (by omega)]

theorem mapIdx_map_range {β γ : Type*} (n : Nat) (g : Nat → β) (f : Nat → β → γ) :
    ((List.range n).map g).mapIdx f = (List.range n).map fun i => f i (g i) := by
  apply List.ext_getElem (by simp)
  intro i h1 h2
  simp

theorem eq_map_range {b : List α} {n : Nat} (h : b.length = n) (d : α) :
    b = (List.range n).map fun i => b.getD i d := by
  apply List.ext_getElem (by simp [h])
  intro i h1 h2
  simp [h1]

/-- Cut a list into pieces of `n`, the last one possibly shorter. -/
def chunks (n : Nat) (b : List α) : List (List α) :=
  (List.range ((b.length + n - 1) / n)).map fun k => slice b (n * k) (n * k + n)

theorem chunks_flatten_of_length {n k : Nat} {b : List α} (hn : 0 < n) (hb : b.length = k * n) :
    chunks n b = (List.range k).map fun j => slice b (n * j) (n * j + n) := by
  have hk : (b.length + n - 1) / n = k := by
    rw [hb, Nat.add_sub_assoc hn, Nat.mul_comm, Nat.mul_add_div hn,
      Nat.div_eq_of_lt (by omega), Nat.add_zero]
  rw [chunks, hk]

end Slices

section LittleEndian

/-- The `w` low bytes of a number, least significant first. -/
def leBytes : Nat → Nat → List UInt8
  | 0, _ => []
  | w + 1, n => UInt8.ofNat n :: leBytes w (n / 256)

/-- The number whose base-256 digits are the given bytes. -/
def leNat (b : List UInt8) : Nat := Nat.ofDigits 256 (b.map UInt8.toNat)

@[simp] theorem length_leBytes (w n : Nat) : (leBytes w n).length = w := by
  induction w generalizing n with
  | zero => rfl
  | succ w ih => simp only [leBytes, List.length_cons, ih]

theorem leNat_cons (x : UInt8) (b : List UInt8) : leNat (x :: b) = x.toNat + 256 * leNat b := by
  simp only [leNat, List.map_cons, Nat.ofDigits_cons]

theorem leNat_lt (b : List UInt8) : leNat b < 256 ^ b.length := by
  have hb : ∀ d ∈ b.map UInt8.toNat, d < 256 := by
    intro d hd
    obtain ⟨x, -, rfl⟩ := List.mem_map.mp hd
    exact x.toNat_lt
  simpa only [leNat, List.length_map] using Nat.ofDigits_lt_base_pow_length (by decide) hb

theorem leNat_leBytes {w n : Nat} (h : n < 256 ^ w) : leNat (leBytes w n) = n := by
  induction w generalizing n with
  | zero =>
      have hn : n = 0 := by simpa using h
      subst hn
      rfl
  | succ w ih =>
      have hq : n / 256 < 256 ^ w := by
        rw [Nat.div_lt_iff_lt_mul (by decide), ← pow_succ]
        exact h
      rw [leBytes, leNat_cons, ih hq, UInt8.toNat_ofNat']
      omega

theorem leBytes_leNat {w : Nat} {b : List UInt8} (h : b.length = w) : leBytes w (leNat b) = b := by
  subst h
  induction b with
  | nil => rfl
  | cons x b ih =>
      have hx := x.toNat_lt
      rw [List.length_cons, leBytes, leNat_cons]
      congr 1
      · apply UInt8.toNat_inj.mp
        rw [UInt8.toNat_ofNat']
        omega
      · rw [show (x.toNat + 256 * leNat b) / 256 = leNat b by omega]
        exact ih

/-- The little-endian number at `lo .. hi`. -/
def numberAt (b : List UInt8) (lo hi : Nat) : Nat := leNat (slice b lo hi)

theorem numberAt_lt {b : List UInt8} {lo hi : Nat} (h : hi ≤ b.length) :
    numberAt b lo hi < 256 ^ (hi - lo) := by
  have hlt := leNat_lt (slice b lo hi)
  rwa [length_slice h] at hlt

theorem slice_eq_leBytes_iff {b : List UInt8} {lo w n : Nat} (h : lo + w ≤ b.length)
    (hn : n < 256 ^ w) : slice b lo (lo + w) = leBytes w n ↔ numberAt b lo (lo + w) = n := by
  constructor
  · intro hs
    rw [numberAt, hs, leNat_leBytes hn]
  · intro hs
    rw [← hs, numberAt, leBytes_leNat (by rw [length_slice h, Nat.add_sub_cancel_left])]

end LittleEndian

/-- A byte string of a fixed length. -/
abbrev Fixed (n : Nat) := {b : List UInt8 // b.length = n}

end ByteString
