import LightweightShred.Header

/-!
# Payload bytes and the guard that writes them

`get_mut` looks at the end of the range only; the slicing itself happens later, when the
guard is read or written, and panics on a range that is not inside the bytes.
-/
namespace LightweightShred
open ByteString Rust

inductive Bound where
  | included (n : Nat)
  | excluded (n : Nat)
  | unbounded
  deriving DecidableEq, Repr

/-- A value of one of the range types, by its two bounds. -/
structure RangeBounds where
  startBound : Bound
  endBound : Bound
  deriving DecidableEq, Repr

namespace RangeBounds

/-- `a..b`. -/
def range (a b : Nat) : RangeBounds := ⟨.included a, .excluded b⟩

/-- `a..=b`. -/
def rangeInclusive (a b : Nat) : RangeBounds := ⟨.included a, .included b⟩

/-- `a..`. -/
def rangeFrom (a : Nat) : RangeBounds := ⟨.included a, .unbounded⟩

/-- `..b`. -/
def rangeTo (b : Nat) : RangeBounds := ⟨.unbounded, .excluded b⟩

/-- `..`. -/
def rangeFull : RangeBounds := ⟨.unbounded, .unbounded⟩

/-- The first index of the range. -/
def lo (r : RangeBounds) : Nat :=
  match r.startBound with
  | .included a => a
  | .excluded a => a + 1
  | .unbounded => 0

/-- The index after the last one, in a slice of the given length. -/
def hi (r : RangeBounds) (len : Nat) : Nat :=
  match r.endBound with
  | .included b => b + 1
  | .excluded b => b
  | .unbounded => len

end RangeBounds

structure Payload where
  bytes : Bytes
  deriving DecidableEq, Repr

structure PayloadMutGuard where
  bytesMut : Bytes
  sliceIndex : RangeBounds
  deriving DecidableEq, Repr

namespace PayloadMutGuard

/-- Takes the bytes out of the payload; `drop` puts them back. -/
def new (payload : Payload) (sliceIndex : RangeBounds) : PayloadMutGuard :=
  ⟨payload.bytes, sliceIndex⟩

def drop (g : PayloadMutGuard) : Payload := ⟨g.bytesMut⟩

def deref (g : PayloadMutGuard) : Result Bytes :=
  unwrap (slice? g.bytesMut g.sliceIndex.lo (g.sliceIndex.hi g.bytesMut.length))

/-- `copy_from_slice` through `deref_mut`; it panics unless the lengths agree. -/
def copyFromSlice (g : PayloadMutGuard) (src : Bytes) : Result PayloadMutGuard := do
  let target ← g.deref
  if src.length = target.length then
    pure { g with bytesMut := splice g.bytesMut g.sliceIndex.lo src }
  else .error .panic

end PayloadMutGuard

namespace Payload

def len (p : Payload) : Nat := p.bytes.length

/-- `payload.get(lo..hi)`. -/
def get (p : Payload) (lo hi : Nat) : Option Bytes := slice? p.bytes lo hi

def asMut (p : Payload) : PayloadMutGuard := PayloadMutGuard.new p .rangeFull

def getMut (p : Payload) (index : RangeBounds) : Option PayloadMutGuard :=
  match index.endBound with
  | .included stop => if stop ≥ p.len then none else some (PayloadMutGuard.new p index)
  | .excluded stop => if stop > p.len then none else some (PayloadMutGuard.new p index)
  | .unbounded => some (PayloadMutGuard.new p index)

def truncate (p : Payload) (len : Nat) : Payload := ⟨p.bytes.take len⟩

end Payload

theorem Payload.getMut_range {p : Payload} {a b : Nat} (h : b ≤ p.len) :
    p.getMut (.range a b) = some (PayloadMutGuard.new p (.range a b)) := if_neg (by omega)

theorem PayloadMutGuard.deref_new {p : Payload} {r : RangeBounds} (hl : r.lo ≤ r.hi p.len)
    (hh : r.hi p.len ≤ p.len) :
    (PayloadMutGuard.new p r).deref = .ok (slice p.bytes r.lo (r.hi p.len)) :=
  unwrap_eq_ok.mpr (slice?_of_le hl hh)

theorem PayloadMutGuard.copyFromSlice_new {p : Payload} {r : RangeBounds} {src : Bytes}
    (hl : r.lo + src.length = r.hi p.len) (hh : r.hi p.len ≤ p.len) :
    (PayloadMutGuard.new p r).copyFromSlice src =
      .ok { bytesMut := splice p.bytes r.lo src, sliceIndex := r } := by
  have hlen : src.length = (slice p.bytes r.lo (r.hi p.len)).length := by
    rw [length_slice hh]
    omega
  rw [copyFromSlice, deref_new (by omega) hh]
  exact if_pos hlen

end LightweightShred
