import LightweightShred.Payload

/-!
# Access to a payload through `get_mut`

Between `get_mut` and the drop of the guard the payload itself is empty, and all reads and
writes slice the bytes the guard took. They panic exactly for the ranges that `get_mut` lets
pass with a start behind their end.
-/
namespace LightweightShred
open ByteString Rust

/-- A change of a slice in place, which keeps its length. -/
def InPlace : Type := { write : Bytes → Bytes // ∀ b, (write b).length = b.length }

/-- `copy_from_slice`, which panics on a slice of another length and leaves it. -/
def InPlace.copy (src : Bytes) : InPlace :=
  ⟨fun b => if src.length = b.length then src else b, by
    intro b
    by_cases h : src.length = b.length
    · exact (congrArg List.length (if_pos h)).trans h
    · exact congrArg List.length (if_neg h)⟩

namespace PayloadMutGuard

/-- One write through `deref_mut`, which slices like `deref`. -/
def derefMut (g : PayloadMutGuard) (change : InPlace) : Result PayloadMutGuard := do
  let target ← g.deref
  pure { g with bytesMut := splice g.bytesMut g.sliceIndex.lo (change.1 target) }

/-- The bytes a guard over the range `r` of `p` holds after it was written: `content` in the
range, and those of `p` elsewhere. -/
structure Holds (p : Payload) (r : RangeBounds) (content : Bytes) (g : PayloadMutGuard) : Prop where
  index : g.sliceIndex = r
  length : g.bytesMut.length = p.len
  inside : slice? g.bytesMut r.lo (r.hi p.len) = some content
  elsewhere : ∀ i, i < r.lo ∨ r.hi p.len ≤ i → g.bytesMut[i]? = p.bytes[i]?

section
variable {p : Payload} {r : RangeBounds} {content src : Bytes} {g g' : PayloadMutGuard}

theorem Holds.deref (h : g.Holds p r content) : g.deref = .ok content := by
  rw [PayloadMutGuard.deref, h.index, h.length, h.inside]
  rfl

theorem Holds.derefMut (h : g.Holds p r content) (change : InPlace) :
    ∃ g', g.derefMut change = .ok g' ∧ g'.Holds p r (change.1 content) := by
  obtain ⟨⟨hl, hh⟩, hc⟩ := Option.ite_none_right_eq_some.mp h.inside
  have hcontent := congrArg List.length (Option.some.inj hc)
  rw [length_slice hh] at hcontent
  rw [h.length] at hh
  have hlen : r.lo + (change.1 content).length = r.hi p.len := by
    rw [change.2, ← hcontent, Nat.add_sub_cancel' hl]
  have hfit : r.lo + (change.1 content).length ≤ g.bytesMut.length := by
    rw [hlen, h.length]
    exact hh
  refine ⟨{ g with bytesMut := splice g.bytesMut g.sliceIndex.lo (change.1 content) }, ?_, ?_⟩
  · rw [PayloadMutGuard.derefMut, h.deref]
    rfl
  · rw [h.index]
    refine ⟨rfl, (length_splice hfit).trans h.length, ?_, ?_⟩
    · rw [slice?_of_le hl (by rw [length_splice hfit, h.length]; exact hh), slice_splice hfit hlen.symm]
    · intro i hi
      rw [getElem?_splice hfit, if_neg (by omega)]
      exact h.elsewhere i hi

theorem derefMut_of_copyFromSlice (h : g.copyFromSlice src = .ok g') :
    g.derefMut (.copy src) = .ok g' := by
  obtain ⟨target, htarget, hsrc⟩ := bind_eq_ok.mp h
  by_cases hlen : src.length = target.length
  · rw [if_pos hlen] at hsrc
    have hcopy : (InPlace.copy src).1 target = src := if_pos hlen
    rw [PayloadMutGuard.derefMut, htarget]
    change Except.ok _ = _
    rw [hcopy]
    exact hsrc
  · rw [if_neg hlen] at hsrc
    cases hsrc

theorem Holds.foldlM (h : g.Holds p r content) (changes : List InPlace) :
    ∃ g', changes.foldlM PayloadMutGuard.derefMut g = .ok g' ∧
      g'.Holds p r (changes.foldl (fun b change => change.1 b) content) := by
  induction changes generalizing g content with
  | nil => exact ⟨g, rfl, h⟩
  | cons change changes ih =>
      obtain ⟨g', hstep, hnext⟩ := h.derefMut change
      obtain ⟨g'', hrest, hlast⟩ := ih hnext
      exact ⟨g'', by rw [List.foldlM_cons, hstep]; exact hrest, hlast⟩

end

end PayloadMutGuard

namespace Payload

/-- `payload.get(range)`. -/
def sliceGet (p : Payload) (r : RangeBounds) : Option Bytes := p.get r.lo (r.hi p.len)

/-- `get_mut` together with the payload it leaves behind: the guard takes the bytes out. -/
def getMutInPlace (p : Payload) (index : RangeBounds) : Option PayloadMutGuard × Payload :=
  match p.getMut index with
  | none => (none, p)
  | some guard => (some guard, ⟨[]⟩)

section
variable (p : Payload) (r : RangeBounds)

/-- The check of `get_mut` is about the end of the range alone. -/
theorem getMut_eq :
    p.getMut r = if r.hi p.len ≤ p.len then some (PayloadMutGuard.new p r) else none := by
  obtain ⟨start, stop⟩ := r
  cases stop with
  | included stop =>
      change (if stop ≥ p.len then none else _) = if stop + 1 ≤ p.len then _ else _
      by_cases h : stop ≥ p.len
      · rw [if_pos h, if_neg (Nat.not_le.mpr (Nat.lt_succ_of_le h))]
      · rw [if_neg h, if_pos (show stop + 1 ≤ p.len from Nat.not_le.mp h)]
  | excluded stop =>
      change (if stop > p.len then none else _) = if stop ≤ p.len then _ else _
      by_cases h : stop > p.len
      · rw [if_pos h, if_neg (Nat.not_le.mpr h)]
      · rw [if_neg h, if_pos (Nat.not_lt.mp h)]
  | unbounded => exact (if_pos (Nat.le_refl _)).symm

theorem getMutInPlace_eq : p.getMutInPlace r =
    if r.hi p.len ≤ p.len then (some (PayloadMutGuard.new p r), ⟨[]⟩) else (none, p) := by
  rw [getMutInPlace, getMut_eq]
  by_cases hend : r.hi p.len ≤ p.len
  · rw [if_pos hend, if_pos hend]
  · rw [if_neg hend, if_neg hend]

theorem sliceGet_eq_ite : p.sliceGet r =
    if r.lo ≤ r.hi p.len ∧ r.hi p.len ≤ p.len then some (slice p.bytes r.lo (r.hi p.len)) else none :=
  rfl

/-- A range that starts behind its end, but ends inside the payload, gets a guard that cannot
be read: for `a..` with `a` behind the payload, `set_merkle_proof` never sees its error. -/
theorem getMutInPlace_of_decreasing (hend : r.hi p.len ≤ p.len) (hstart : r.hi p.len < r.lo) :
    p.sliceGet r = none ∧ ∃ g, (p.getMutInPlace r).1 = some g ∧ g.deref = .error .panic := by
  have hnone : p.sliceGet r = none := by
    rw [sliceGet_eq_ite, if_neg (fun hin => Nat.not_le.mpr hstart hin.1)]
  refine ⟨hnone, PayloadMutGuard.new p r, ?_, ?_⟩
  · rw [getMutInPlace_eq, if_pos hend]
  · exact congrArg unwrap hnone

end

end Payload

/-- What a checked mutable access is: it is granted exactly for the ranges that `slice::get`
grants. Then no read or write panics, however many there are, and the dropped guard leaves the
payload at its length with the written bytes in the range and its own elsewhere. When it is
not granted, the payload stays as it is. -/
structure CheckedAccess (p : Payload) (r : RangeBounds) : Prop where
  granted : (p.getMutInPlace r).1.isSome = (p.sliceGet r).isSome
  writable : ∀ g, (p.getMutInPlace r).1 = some g → ∃ content, p.sliceGet r = some content ∧
    g.deref = .ok content ∧ ∀ changes : List InPlace, ∃ g' written,
      written = changes.foldl (fun b change => change.1 b) content ∧
      changes.foldlM PayloadMutGuard.derefMut g = .ok g' ∧ g'.deref = .ok written ∧
      g'.drop.len = p.len ∧ g'.drop.sliceGet r = some written ∧
      ∀ i, i < r.lo ∨ r.hi p.len ≤ i → g'.drop.bytes[i]? = p.bytes[i]?
  refused : (p.getMutInPlace r).1 = none → (p.getMutInPlace r).2 = p

section
variable {p : Payload} {r : RangeBounds}

theorem PayloadMutGuard.Holds.sliceGet_drop {content : Bytes} {g : PayloadMutGuard}
    (h : g.Holds p r content) : g.drop.sliceGet r = some content := by
  have hlen : g.drop.len = p.len := h.length
  rw [Payload.sliceGet, hlen]
  exact h.inside

theorem checkedAccess_of_inside (hstart : r.lo ≤ r.hi p.len) (hend : r.hi p.len ≤ p.len) :
    CheckedAccess p r := by
  have hmut : p.getMutInPlace r = (some (PayloadMutGuard.new p r), ⟨[]⟩) := by
    rw [Payload.getMutInPlace_eq, if_pos hend]
  have hget : p.sliceGet r = some (slice p.bytes r.lo (r.hi p.len)) := slice?_of_le hstart hend
  refine ⟨?_, ?_, ?_⟩
  · rw [hmut, hget]
    rfl
  · intro g hg
    rw [hmut] at hg
    obtain rfl := Option.some.inj hg
    have hnew : (PayloadMutGuard.new p r).Holds p r (slice p.bytes r.lo (r.hi p.len)) :=
      ⟨rfl, rfl, hget, fun _ _ => rfl⟩
    refine ⟨_, hget, hnew.deref, fun changes => ?_⟩
    obtain ⟨g', hrun, hlast⟩ := hnew.foldlM changes
    exact ⟨g', _, rfl, hrun, hlast.deref, hlast.length, hlast.sliceGet_drop, hlast.elsewhere⟩
  · intro hnone
    rw [hmut] at hnone
    cases hnone

theorem checkedAccess_of_past (hend : ¬ r.hi p.len ≤ p.len) : CheckedAccess p r := by
  have hmut : p.getMutInPlace r = (none, p) := by rw [Payload.getMutInPlace_eq, if_neg hend]
  have hget : p.sliceGet r = none := by
    rw [Payload.sliceGet_eq_ite, if_neg (fun hin => hend hin.2)]
  refine ⟨?_, ?_, ?_⟩
  · rw [hmut, hget]
    rfl
  · intro g hg
    rw [hmut] at hg
    cases hg
  · intro _
    rw [hmut]

end

/-- The access through `get_mut` is a checked one exactly if the range does not start behind
its end, or ends behind the payload, where the end of an open range is the payload's. -/
theorem checkedAccess_iff (p : Payload) (r : RangeBounds) :
    CheckedAccess p r ↔ (r.hi p.len ≤ p.len → r.lo ≤ r.hi p.len) := by
  constructor
  · intro h hend
    have hgranted := h.granted
    rw [Payload.getMutInPlace_eq, if_pos hend] at hgranted
    by_contra hstart
    rw [(Payload.getMutInPlace_of_decreasing p r hend (Nat.not_le.mp hstart)).1] at hgranted
    cases hgranted
  · intro hstart
    by_cases hend : r.hi p.len ≤ p.len
    · exact checkedAccess_of_inside (hstart hend) hend
    · exact checkedAccess_of_past hend

/-- Four bytes and the range `3..2`: a guard is handed out, and its first read panics. -/
theorem not_checkedAccess_decreasing : ¬ CheckedAccess ⟨[0, 0, 0, 0]⟩ (.range 3 2) := by
  intro h
  exact absurd h.granted (by decide)

end LightweightShred
