import LightweightShred.Shred

/-!
# Recovery of an erasure batch

`recover` and its fast path `recover_data_only`, stage by stage in the order of the source.
The Reed-Solomon library, the hash function and the choice that an unstable sort makes
among equal elements are parameters.
-/
namespace LightweightShred
open ByteString Rust Codec

/-- A codec of the Reed-Solomon library. `reconstruct` works in place on slices, so no shard
changes its length, and it writes to shards marked missing only. -/
structure ReedSolomon where
  reconstruct : List (Bytes × Bool) → Except ErasureError (List Bytes)
  inPlace : ∀ shards out, reconstruct shards = .ok out →
    List.Forall₂ (fun shard o => o.length = shard.1.length ∧ (shard.2 = true → o = shard.1))
      shards out

/-- The cache returns what `ReedSolomon::new` gives for the key, now or on an earlier call. -/
structure ReedSolomonCache where
  new : (dataShards parityShards : Nat) → Except ErasureError ReedSolomon

def ReedSolomonCache.get (cache : ReedSolomonCache) (dataShards parityShards : Nat) :
    Except ErasureError ReedSolomon := cache.new dataShards parityShards

def cmpShredErasureShardIndex : Shred → Shred → Ordering
  | .shredCode _, .shredData _ => .gt
  | .shredData _, .shredCode _ => .lt
  | .shredCode a, .shredCode b => compare a.commonHeader.index.toNat b.commonHeader.index.toNat
  | .shredData a, .shredData b => compare a.commonHeader.index.toNat b.commonHeader.index.toNat

/-- `cmp_shred_erasure_shard_index(a, b).is_le()`. -/
def isLe (a b : Shred) : Bool := (cmpShredErasureShardIndex a b).isLE

abbrev ShredSort := UnstableSort Shred isLe

def sortShreds (srt : ShredSort) (shreds : List Shred) : List Shred :=
  if allWindows isLe shreds then shreds else srt.run shreds

/-- What a stub takes over from the last coding shred. -/
structure StubHeaders where
  commonHeader : ShredCommonHeader
  codingHeader : CodingShredHeader
  chainedMerkleRoot : Option Hash
  retransmitterSignature : Option Signature
  deriving DecidableEq

/-- `payload[..src.len()].copy_from_slice(src)`. -/
def copyToFront (payload src : Bytes) : Result Bytes :=
  if src.length ≤ payload.length then .ok (splice payload 0 src) else .error .panic

def makeStubCode (headers : StubHeaders) (position : Nat) : Result Shred := do
  let position ← okOr (tryU16 position) (.erasure .invalidIndex)
  let index ← addU32 headers.commonHeader.index position.toUInt32
  let commonHeader := { headers.commonHeader with index }
  let codingHeader := { headers.codingHeader with position }
  let payload ← liftErr .wincodeWrite (serializeInto (List.replicate (sizeOfPayload .code) 0)
    (writeCodingHeaders (commonHeader, codingHeader)))
  pure (.shredCode { commonHeader, codingHeader, payload := ⟨payload⟩ })

def makeStubData (headers : StubHeaders) (erasureShardIndex : Nat) : Result Shred := do
  match headers.commonHeader.shredVariant with
  | .merkleCode proofSize _ =>
    let shredVariant := .merkleData proofSize headers.retransmitterSignature.isSome
    let offset ← okOr (tryU32 erasureShardIndex) (.erasure .invalidIndex)
    let index ← addU32 headers.commonHeader.fecSetIndex offset
    let commonHeader := { headers.commonHeader with shredVariant, index }
    let dataHeader : DataShredHeader := { parentOffset := 0, flags := .empty, size := 0 }
    let payload ← copyToFront (List.replicate (sizeOfPayload .data) 0) commonHeader.signature.1
    pure (.shredData { commonHeader, dataHeader, payload := ⟨payload⟩ })
  | .merkleData _ _ => fail .invalidShredVariant

def makeStubShred (headers : StubHeaders) (erasureShardIndex : Nat) : Result Shred := do
  let shred ← match checkedSubSize erasureShardIndex headers.codingHeader.numDataShreds.toNat with
    | some position => makeStubCode headers position
    | none => makeStubData headers erasureShardIndex
  let shred ← match headers.chainedMerkleRoot with
    | some root => shred.setChainedMerkleRoot root
    | none => pure shred
  match headers.retransmitterSignature with
  | some signature => shred.setRetransmitterSignature signature
  | none => pure shred

/-- `while batch.len() < upTo { batch.push(stub(batch.len())?) }`, with `upTo - batch.len()`
turns to go. -/
def pushStubs (stub : Nat → Result Shred) : (turns : Nat) → List Shred → Result (List Shred)
  | 0, batch => .ok batch
  | turns + 1, batch => do
    let shred ← stub batch.length
    pushStubs stub turns (batch ++ [shred])

/-- `mask[i] = true`. -/
def setMask (mask : List Bool) (i : Nat) : Result (List Bool) :=
  if i < mask.length then .ok (mask.set i true) else .error .panic

/-- The loop that moves the sorted shreds to their places, with stubs in the gaps. -/
def placeShreds (stub : Nat → Result Shred) (signature : Signature) (numShards : Nat) :
    List Shred → List Shred × List Bool → Result (List Shred × List Bool)
  | [], st => .ok st
  | shred :: rest, (batch, mask) => do
    if shred.signature ≠ signature then
      fail .invalidMerkleRoot
    let erasureShardIndex ← shred.erasureShardIndex
    if ¬(batch.length ≤ erasureShardIndex ∧ erasureShardIndex < numShards) then
      fail (.erasure .invalidIndex)
    let batch ← pushStubs stub (erasureShardIndex - batch.length) batch
    let mask ← setMask mask erasureShardIndex
    placeShreds stub signature numShards rest (batch ++ [shred], mask)

/-- The batch with a shred at every position, and the mask of those that were given. -/
def fillBatch (stub : Nat → Result Shred) (signature : Signature) (numShards : Nat)
    (shreds : List Shred) : Result (List Shred × List Bool) := do
  let (batch, mask) ← placeShreds stub signature numShards shreds
    ([], List.replicate numShards false)
  let batch ← pushStubs stub (numShards - batch.length) batch
  pure (batch, mask)

/-- Reconstruction in place, through the guards of the erasure shards. -/
def reconstructBatch (cache : ReedSolomonCache) (numDataShreds numCodingShreds : Nat)
    (shreds : List Shred) (mask : List Bool) : Result (List Shred) := do
  let shards ← (shreds.zip mask).mapM fun (shred, mask) => do
    let shard ← shred.erasureShardMut
    pure (shard, mask)
  let codec ← liftErr .erasure (cache.get numDataShreds numCodingShreds)
  let slices ← shards.mapM fun (shard, mask) => do
    let bytes ← shard.deref
    pure (bytes, mask)
  let out ← liftErr .erasure (codec.reconstruct slices)
  let shards ← (shards.zip out).mapM fun ((shard, _), bytes) => shard.copyFromSlice bytes
  pure (List.zipWith (fun shred shard => shred.setPayload shard.drop) shreds shards)

/-- The header check on the last coding shred, common to both entry points. -/
def stubHeaders (shred : ShredCode) : Result StubHeaders := do
  let position := shred.codingHeader.position.toUInt32
  let index ← okOr (checkedSub shred.commonHeader.index position) (.erasure .invalidIndex)
  let chainedMerkleRoot ← toOption (Shred.shredCode shred).chainedMerkleRoot
  let retransmitterSignature ← toOption (Shred.shredCode shred).retransmitterSignature
  pure { commonHeader := { shred.commonHeader with index }
         codingHeader := { shred.codingHeader with position := 0 }
         chainedMerkleRoot, retransmitterSignature }

def lastCodingShred (shreds : List Shred) : Result ShredCode :=
  match shreds.getLast? with
  | some (.shredCode shred) => .ok shred
  | _ => fail (.erasure .tooFewParityShards)

section
variable (H : Hasher)

/-- The header checks on a reconstructed shred. -/
def checkRecovered (numDataShreds index : Nat) (shred : Shred) : Result Shred := do
  let shred ← if index < numDataShreds then
      match shred with
      | .shredData s => do
        let (commonHeader, dataHeader) ← liftErr .wincodeRead
          (deserialize readDataHeaders s.payload.bytes)
        if s.commonHeader ≠ commonHeader then
          fail .invalidRecoveredShred
        pure (.shredData { s with dataHeader })
      | .shredCode _ => fail .invalidRecoveredShred
    else
      match shred with
      | .shredCode s => pure (.shredCode s)
      | .shredData _ => fail .invalidRecoveredShred
  shred.sanitize
  pure shred

/-- One item of the node iterator, with the shred as its closure leaves it. -/
def recoveredNode (numDataShreds index : Nat) (shred : Shred) (mask : Bool) :
    Result (Shred × Hash) := do
  let shred ← if mask then pure shred else checkRecovered numDataShreds index shred
  let node ← shred.merkleNode H
  pure (shred, node)

/-- One item of the returned iterator, before `filter_map`. -/
def insertProof (tree : MerkleTree) (numShards index : Nat) (shred : Shred) (mask : Bool) :
    Result (Option Shred) :=
  if mask then .ok none
  else do
    let shred ← shred.setMerkleProof (tree.makeMerkleProof index numShards)
    pure (some shred)

/-- `Result::transpose`. -/
def transpose {α : Type} : Result (Option α) → Option (Result α)
  | .ok none => none
  | .ok (some a) => some (.ok a)
  | .error e => some (.error e)

/-- The iterator that `recover` returns, as the list of its items. -/
def recover (cache : ReedSolomonCache) (srt : ShredSort) (shreds : List Shred) :
    Result (List (Result Shred)) := do
  let shreds := sortShreds srt shreds
  let last ← lastCodingShred shreds
  let headers ← stubHeaders last
  let merkleRoot ← (Shred.shredCode last).merkleRoot H
  if headers.commonHeader.shredVariant.shredType = .data then
    fail .invalidShredVariant
  let numDataShreds := headers.codingHeader.numDataShreds.toNat
  let numCodingShreds := headers.codingHeader.numCodingShreds.toNat
  let numShards := numDataShreds + numCodingShreds
  let (batch, mask) ← fillBatch (makeStubShred headers) headers.commonHeader.signature numShards
    shreds
  let batch ← reconstructBatch cache numDataShreds numCodingShreds batch mask
  let nodes := (batch.zip mask).mapIdx fun index (shred, mask) =>
    recoveredNode H numDataShreds index shred mask
  let tree ← MerkleTree.tryNew H (nodes.map fun node => node.map Prod.snd)
  let root ← tree.root
  if root ≠ merkleRoot then
    fail .invalidMerkleRoot
  let batch ← nodes.mapM fun node => node.map Prod.fst
  let items := (batch.zip mask).mapIdx fun index (shred, mask) =>
    insertProof tree numShards index shred mask
  pure (items.filterMap transpose)

end

section DataOnly

/-- The first inner loop of the fast path, which also counts missing data shreds. -/
def pushStubsCounting (stub : Nat → Result Shred) (numDataShreds : Nat) :
    (turns : Nat) → List Shred → Nat → Result (List Shred × Nat)
  | 0, batch, numMissingData => .ok (batch, numMissingData)
  | turns + 1, batch, numMissingData => do
    let numMissingData := if batch.length < numDataShreds then numMissingData + 1
      else numMissingData
    let shred ← stub batch.length
    pushStubsCounting stub numDataShreds turns (batch ++ [shred]) numMissingData

def placeShredsCounting (stub : Nat → Result Shred) (signature : Signature)
    (numDataShreds numShards : Nat) :
    List Shred → List Shred × List Bool × Nat → Result (List Shred × List Bool × Nat)
  | [], st => .ok st
  | shred :: rest, (batch, mask, numMissingData) => do
    if shred.signature ≠ signature then
      fail .invalidMerkleRoot
    let idx ← shred.erasureShardIndex
    if ¬(batch.length ≤ idx ∧ idx < numShards) then
      fail (.erasure .invalidIndex)
    let (batch, numMissingData) ←
      pushStubsCounting stub numDataShreds (idx - batch.length) batch numMissingData
    let mask ← setMask mask idx
    placeShredsCounting stub signature numDataShreds numShards rest
      (batch ++ [shred], mask, numMissingData)

/-- The last loop of the fast path at one position: the shred to push, if any. -/
def extractRecovered (numDataShreds index : Nat) (shred : Shred) (wasPresent : Bool) :
    Option Shred :=
  if wasPresent ∨ index ≥ numDataShreds then none
  else
    match shred with
    | .shredCode _ => none
    | .shredData s =>
      match deserialize readDataHeaders s.payload.bytes with
      | .ok (hdr, dataHdr) =>
        if s.commonHeader = hdr then some (.shredData { s with dataHeader := dataHdr }) else none
      | .error _ => none

def recoverDataOnly (cache : ReedSolomonCache) (srt : ShredSort) (shreds : List Shred) :
    Result (List Shred) := do
  let shreds := sortShreds srt shreds
  let last ← lastCodingShred shreds
  let headers ← stubHeaders last
  let numDataShreds := headers.codingHeader.numDataShreds.toNat
  let numCodingShreds := headers.codingHeader.numCodingShreds.toNat
  let numShards := numDataShreds + numCodingShreds
  let (batch, mask, numMissingData) ← placeShredsCounting (makeStubShred headers)
    headers.commonHeader.signature numDataShreds numShards shreds
    ([], List.replicate numShards false, 0)
  -- the count only sizes the result vector
  let (batch, _) ← pushStubsCounting (makeStubShred headers) numDataShreds
    (numShards - batch.length) batch numMissingData
  let batch ← reconstructBatch cache numDataShreds numCodingShreds batch mask
  pure (((batch.zip mask).mapIdx fun index (shred, wasPresent) =>
    extractRecovered numDataShreds index shred wasPresent).filterMap id)

end DataOnly

end LightweightShred
