import LightweightShred.ZeroCopy

/-!
# The ingress filter

`should_discard_shred` decides over a raw packet by the bytes of its headers, and counts what
it decides. Here it is cut in four: what follows the sizing of the packet, the two arms of the
match on the shred type, and what follows the match.
-/
namespace LightweightShred
open ByteString Rust Codec

/-- The counters that the filter touches. -/
inductive FetchCounter where
  | indexOverrun
  | numShredsMerkleCodeChained
  | numShredsMerkleDataChained
  | indexBadDeserialize
  | indexOutOfBounds
  | slotBadDeserialize
  | slotOutOfRange
  | badShredType
  | shredVersionMismatch
  | badParentOffset
  | fecSetIndexBadDeserialize
  | misalignedFecSet
  | erasureConfigBadDeserialize
  | misalignedErasureConfig
  | shredFlagsBadDeserialize
  | misalignedLastDataIndex
  | unexpectedDataCompleteShred
  deriving DecidableEq, Repr

/-- All fields of the source; an instant is opaque. -/
structure ShredFetchStats where
  indexOverrun : UInt64
  shredCount : UInt64
  numShredsMerkleCodeChained : UInt64
  numShredsMerkleDataChained : UInt64
  pingCount : UInt64
  pingErrVerifyCount : UInt64
  indexBadDeserialize : UInt64
  indexOutOfBounds : UInt64
  slotBadDeserialize : UInt64
  slotOutOfRange : UInt64
  badShredType : UInt64
  shredVersionMismatch : UInt64
  badParentOffset : UInt64
  fecSetIndexBadDeserialize : UInt64
  misalignedFecSet : UInt64
  erasureConfigBadDeserialize : UInt64
  misalignedErasureConfig : UInt64
  shredFlagsBadDeserialize : UInt64
  misalignedLastDataIndex : UInt64
  unexpectedDataCompleteShred : UInt64
  since : Option Nat
  overflowShreds : UInt64
  deriving DecidableEq, Repr

namespace ShredFetchStats

def default : ShredFetchStats :=
  ⟨0, 0, 0, 0, 0, 0, 0, 0, 0, 0, 0, 0, 0, 0, 0, 0, 0, 0, 0, 0, none, 0⟩

def get (s : ShredFetchStats) : FetchCounter → UInt64
  | .indexOverrun => s.indexOverrun
  | .numShredsMerkleCodeChained => s.numShredsMerkleCodeChained
  | .numShredsMerkleDataChained => s.numShredsMerkleDataChained
  | .indexBadDeserialize => s.indexBadDeserialize
  | .indexOutOfBounds => s.indexOutOfBounds
  | .slotBadDeserialize => s.slotBadDeserialize
  | .slotOutOfRange => s.slotOutOfRange
  | .badShredType => s.badShredType
  | .shredVersionMismatch => s.shredVersionMismatch
  | .badParentOffset => s.badParentOffset
  | .fecSetIndexBadDeserialize => s.fecSetIndexBadDeserialize
  | .misalignedFecSet => s.misalignedFecSet
  | .erasureConfigBadDeserialize => s.erasureConfigBadDeserialize
  | .misalignedErasureConfig => s.misalignedErasureConfig
  | .shredFlagsBadDeserialize => s.shredFlagsBadDeserialize
  | .misalignedLastDataIndex => s.misalignedLastDataIndex
  | .unexpectedDataCompleteShred => s.unexpectedDataCompleteShred

def set (s : ShredFetchStats) (n : UInt64) : FetchCounter → ShredFetchStats
  | .indexOverrun => { s with indexOverrun := n }
  | .numShredsMerkleCodeChained => { s with numShredsMerkleCodeChained := n }
  | .numShredsMerkleDataChained => { s with numShredsMerkleDataChained := n }
  | .indexBadDeserialize => { s with indexBadDeserialize := n }
  | .indexOutOfBounds => { s with indexOutOfBounds := n }
  | .slotBadDeserialize => { s with slotBadDeserialize := n }
  | .slotOutOfRange => { s with slotOutOfRange := n }
  | .badShredType => { s with badShredType := n }
  | .shredVersionMismatch => { s with shredVersionMismatch := n }
  | .badParentOffset => { s with badParentOffset := n }
  | .fecSetIndexBadDeserialize => { s with fecSetIndexBadDeserialize := n }
  | .misalignedFecSet => { s with misalignedFecSet := n }
  | .erasureConfigBadDeserialize => { s with erasureConfigBadDeserialize := n }
  | .misalignedErasureConfig => { s with misalignedErasureConfig := n }
  | .shredFlagsBadDeserialize => { s with shredFlagsBadDeserialize := n }
  | .misalignedLastDataIndex => { s with misalignedLastDataIndex := n }
  | .unexpectedDataCompleteShred => { s with unexpectedDataCompleteShred := n }

/-- `stats.c += 1`, which wraps in a release build. -/
def bump (s : ShredFetchStats) (c : FetchCounter) : ShredFetchStats := s.set (s.get c + 1) c

/-- `stats.c = stats.c.saturating_add(1)`. -/
def bumpSaturating (s : ShredFetchStats) (c : FetchCounter) : ShredFetchStats :=
  s.set (saturatingAddSize (s.get c) 1) c

end ShredFetchStats

/-- `verify_shred_slots`, the replacement for the one of the block store. -/
def verifyShredSlots (slot parent root : UInt64) : Bool :=
  if slot = 0 ∧ parent = 0 ∧ root = 0 then true else root ≤ parent ∧ parent < slot

/-- The FEC set is aligned, and the index is one of its thirty-two. -/
def checkFixedFecSet (index fecSetIndex : UInt32) : Bool :=
  (checkedAdd fecSetIndex (UInt32.ofNat dataShredsPerFecBlock)).any fun fecSetEndExclusive =>
    index ≥ fecSetIndex && index < fecSetEndExclusive &&
      fecSetIndex % UInt32.ofNat dataShredsPerFecBlock == 0

/-- The last data shred of a slot is the last one of its FEC set. -/
def checkLastDataShredIndex (index : UInt32) : Result Bool := do
  let next ← addU32 index 1
  pure (next % UInt32.ofNat dataShredsPerFecBlock == 0)

/-- `stats.c += 1; return true;` -/
def discard (stats : ShredFetchStats) (c : FetchCounter) : Result (Bool × ShredFetchStats) :=
  pure (true, stats.bump c)

/-- The counter of the kept shreds of a type. -/
def keptCounter : ShredType → FetchCounter
  | .code => .numShredsMerkleCodeChained
  | .data => .numShredsMerkleDataChained

namespace ShouldDiscard

/-- What follows the match on the shred type. -/
def rest (ty : ShredType) (index fecSetIndex : UInt32) (stats : ShredFetchStats) :
    Result (Bool × ShredFetchStats) :=
  if !checkFixedFecSet index fecSetIndex then discard stats .misalignedFecSet
  else pure (false, stats.bumpSaturating (keptCounter ty))

/-- The arm of coding shreds. -/
def code (shred : Bytes) (root slot : UInt64) (index fecSetIndex : UInt32)
    (stats : ShredFetchStats) : Result (Bool × ShredFetchStats) :=
  if index ≥ UInt32.ofNat maxCodeShredsPerSlot then discard stats .indexOutOfBounds
  else if slot ≤ root then discard stats .slotOutOfRange
  else letElse (toOption (Wire.getErasureConfig shred))
      (discard stats .erasureConfigBadDeserialize) fun erasureConfig =>
    if !erasureConfig.isFixed then discard stats .misalignedErasureConfig
    else rest .code index fecSetIndex stats

/-- The arm of data shreds; `&&` looks at its second part only if the first one is true. -/
def data (shred : Bytes) (root slot : UInt64) (index fecSetIndex : UInt32)
    (discardUnexpectedDataCompleteShreds : UInt64 → Bool) (stats : ShredFetchStats) :
    Result (Bool × ShredFetchStats) :=
  if index ≥ UInt32.ofNat maxDataShredsPerSlot then discard stats .indexOutOfBounds
  else letElse (Wire.getParentOffset shred) (discard stats .badParentOffset) fun parentOffset =>
    letElse (pure (checkedSub64 slot parentOffset.toUInt64))
        (discard stats .badParentOffset) fun parent =>
      if !verifyShredSlots slot parent root then discard stats .slotOutOfRange
      else letElse (toOption (Wire.getFlags shred))
          (discard stats .shredFlagsBadDeserialize) fun shredFlags => do
        let expectedDataCompleteIndex :=
          (checkedAdd fecSetIndex (UInt32.ofNat dataShredsPerFecBlock)).bind fun index =>
            checkedSub index 1
        let unexpected := shredFlags.contains .dataCompleteShred &&
          decide (expectedDataCompleteIndex ≠ some index)
        let stats := if unexpected then stats.bump .unexpectedDataCompleteShred else stats
        if unexpected && discardUnexpectedDataCompleteShreds slot then
          pure (true, stats)
        else
          let last ← if shredFlags.contains .lastShredInSlot then checkLastDataShredIndex index
            else pure true
          if !last then discard stats .misalignedLastDataIndex
          else rest .data index fecSetIndex stats

/-- What follows the sizing of the packet. -/
def sized (shred : Bytes) (root maxSlot : UInt64) (shredVersion : UInt16)
    (discardUnexpectedDataCompleteShreds : UInt64 → Bool) (stats : ShredFetchStats) :
    Result (Bool × ShredFetchStats) :=
  letElse (Wire.getVersion shred) (discard stats .indexOverrun) fun version =>
    if version ≠ shredVersion then discard stats .shredVersionMismatch
    else letElse (toOption (getShredVariant shred)) (discard stats .badShredType) fun shredVariant =>
      letElse (Wire.getSlot shred) (discard stats .slotBadDeserialize) fun slot =>
        if slot > maxSlot then discard stats .slotOutOfRange
        else letElse (Wire.getIndex shred) (discard stats .indexBadDeserialize) fun index =>
          letElse (Wire.getFecSetIndex shred)
              (discard stats .fecSetIndexBadDeserialize) fun fecSetIndex =>
            match shredVariant.shredType with
            | .code => code shred root slot index fecSetIndex stats
            | .data => data shred root slot index fecSetIndex
                discardUnexpectedDataCompleteShreds stats

end ShouldDiscard

/-- Accepts shreds in the slot range from `root + 1` to `maxSlot`. -/
def shouldDiscardShred (shred : Bytes) (root maxSlot : UInt64) (shredVersion : UInt16)
    (discardUnexpectedDataCompleteShreds : UInt64 → Bool) (stats : ShredFetchStats) :
    Result (Bool × ShredFetchStats) :=
  letElse (Wire.getShredFromBuf shred) (discard stats .indexOverrun) fun shred =>
    ShouldDiscard.sized shred root maxSlot shredVersion discardUnexpectedDataCompleteShreds stats

end LightweightShred
