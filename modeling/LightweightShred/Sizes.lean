import LightweightShred.RoundTrip

/-!
# The sizes of a run

Sizes and offsets are natural numbers in this model, and `usize` in the source, where sums
can wrap. The sums of a run stay far below the width of a machine word, since all of them are
bounded by the two shard counts of one header, by the size of a proof, or by the tree.
-/
namespace LightweightShred
open ByteString Rust HashTree

/-- The value of a `usize`. -/
def FitsUsize (n : Nat) : Prop := n < 2 ^ 64

/-- Every sum and product of sizes that the source computes without a check, in a run on
`numShards` shards of which `numDataShreds` hold data. -/
structure SizesFit (numDataShreds numShards : Nat) : Prop where
  /-- `num_data_shreds + num_coding_shreds`, and all lengths and positions up to it -/
  batch : FitsUsize numShards
  /-- `num_missing_data += 1`, in the loop over the shreds and in the one behind it -/
  missing : ∀ stub signature l placed,
    placeShredsCounting stub signature numDataShreds numShards l
      ([], List.replicate numShards false, 0) = .ok placed → FitsUsize placed.2.2 ∧
    ∀ filled, pushStubsCounting stub numDataShreds (numShards - placed.1.length) placed.1
      placed.2.2 = .ok filled → FitsUsize filled.2
  /-- what `capacity` subtracts -/
  capacity : ∀ (ty : ShredType) (proofSize : UInt8) (resigned : Bool),
    FitsUsize (sizeOfHeaders ty + sizeOfMerkleRoot + proofSize.toNat * sizeOfMerkleProofEntry +
      if resigned then sizeOfSignature else 0)
  /-- the ends of the chained root, the proof and the retransmitter's signature -/
  offsets : ∀ ty proofSize resigned cap, LightweightShred.capacity ty proofSize resigned = .ok cap →
    FitsUsize (sizeOfHeaders ty + cap + sizeOfMerkleRoot +
      proofSize.toNat * sizeOfMerkleProofEntry + sizeOfSignature)
  /-- `offset + size` and `index + 1` in `try_new`, where `offset + size` is `nodes.len()` -/
  building : ∀ H (leaves : List Hash) k nodes, leaves.length = numShards →
    ((MerkleTree.levelSizes numShards).take k).foldlM (MerkleTree.pushLevel H) leaves =
      .ok nodes → FitsUsize (nodes.length + 1)
  /-- `offset += size`, `size + 1` and `offset + 1` in the iterator of a proof -/
  proving : ∀ H (leaves : List Hash) tree, leaves.length = numShards →
    MerkleTree.tryNew H (leaves.map .ok) = .ok tree → ∀ index k it,
      (MerkleTree.ProofIter.step tree)^[k] (MerkleTree.ProofIter.init tree index numShards) = it →
        FitsUsize (it.offset + it.size + 1)

section Counting
variable {stub : Nat → Result Shred} {numDataShreds n : Nat}

theorem pushStubsCounting_count {turns count : Nat} {batch : List Shred}
    {r : List Shred × Nat} (h : count ≤ batch.length)
    (hr : pushStubsCounting stub numDataShreds turns batch count = .ok r) :
    r.2 ≤ r.1.length ∧ r.1.length = batch.length + turns := by
  induction turns generalizing batch count with
  | zero =>
      cases hr
      exact ⟨h, rfl⟩
  | succ turns ih =>
      obtain ⟨s, -, hr⟩ := bind_eq_ok.mp hr
      have hcount : (if batch.length < numDataShreds then count + 1 else count) ≤
          (batch ++ [s]).length := by
        rw [List.length_append, List.length_singleton]
        split <;> omega
      obtain ⟨h1, h2⟩ := ih hcount hr
      rw [List.length_append, List.length_singleton] at h2
      exact ⟨h1, by omega⟩

theorem placeShredsCounting_count {signature : Signature} {l batch : List Shred}
    {mask : List Bool} {count : Nat} {r : List Shred × List Bool × Nat} (h : count ≤ batch.length)
    (hb : batch.length ≤ n)
    (hr : placeShredsCounting stub signature numDataShreds n l (batch, mask, count) = .ok r) :
    r.2.2 ≤ r.1.length ∧ r.1.length ≤ n := by
  induction l generalizing batch mask count with
  | nil =>
      cases hr
      exact ⟨h, hb⟩
  | cons s l ih =>
      rw [placeShredsCounting, guard_eq_ok] at hr
      obtain ⟨i, -, hr⟩ := bind_eq_ok.mp hr.2
      rw [guard_eq_ok, not_not] at hr
      obtain ⟨⟨hle, hlt⟩, hr⟩ := hr
      obtain ⟨pushed, hpush, hr⟩ := bind_eq_ok.mp hr
      obtain ⟨mask', -, hr⟩ := bind_eq_ok.mp hr
      obtain ⟨h1, h2⟩ := pushStubsCounting_count h hpush
      refine ih ?_ ?_ hr
      · rw [List.length_append, List.length_singleton]
        omega
      · rw [List.length_append, List.length_singleton]
        omega

end Counting

section Tree
variable {H : Hasher}

theorem foldlM_length_le {α β ε : Type} {f : List β → α → Except ε (List β)}
    (hf : ∀ st a st', f st a = .ok st' → st.length ≤ st'.length) {l : List α} {st st' : List β}
    (h : l.foldlM f st = .ok st') : st.length ≤ st'.length := by
  induction l generalizing st with
  | nil =>
      cases h
      exact Nat.le_refl _
  | cons a l ih =>
      rw [List.foldlM_cons] at h
      obtain ⟨mid, hmid, h⟩ := bind_eq_ok.mp h
      exact Nat.le_trans (hf _ _ _ hmid) (ih h)

namespace MerkleTree

theorem pushLevel_length_le {nodes nodes' : List Hash} {size : Nat}
    (h : pushLevel H nodes size = .ok nodes') : nodes.length ≤ nodes'.length := by
  obtain ⟨offset, -, h⟩ := bind_eq_ok.mp h
  refine foldlM_length_le (fun st index st' hst => ?_) h
  obtain ⟨node, -, hst⟩ := bind_eq_ok.mp hst
  obtain ⟨other, -, hst⟩ := bind_eq_ok.mp hst
  cases hst
  rw [List.length_append]
  omega

/-- The tree is complete after its last level, and not larger before. -/
theorem levels_length_le {leaves nodes : List Hash} (hne : leaves ≠ []) {k : Nat}
    (h : ((levelSizes leaves.length).take k).foldlM (pushLevel H) leaves = .ok nodes) :
    nodes.length ≤ (flatten (scheme H).join (depth leaves.length) leaves).length := by
  have hall := tryNew_ok H hne
  rw [tryNew, List.length_map] at hall
  obtain ⟨nodes', hids, hall⟩ := bind_eq_ok.mp (guard_eq_ok.mp hall).2
  cases List.map_injective_iff.mpr (fun _ _ h => Except.ok.inj h) (mapM_id_eq_ok.mp hids)
  obtain ⟨done, hdone, hall⟩ := bind_eq_ok.mp hall
  cases hall
  rw [← List.take_append_drop k (levelSizes leaves.length), List.foldlM_append, h] at hdone
  exact foldlM_length_le (fun _ _ _ => pushLevel_length_le) hdone

/-- The iterator stands at the start of a level, and knows its size. -/
def ProofIter.AtLevel (H : Hasher) (t : MerkleTree) (it : ProofIter) : Prop :=
  ∃ done lvl : List Hash, t.nodes = done ++ flatten (scheme H).join (depth lvl.length) lvl ∧
    it.offset = done.length ∧ it.size = lvl.length

theorem ProofIter.AtLevel.step {t : MerkleTree} {it : ProofIter} (h : it.AtLevel H t) :
    (it.step t).AtLevel H t := by
  obtain ⟨done, lvl, ht, ho, hs⟩ := h
  unfold ProofIter.step ProofIter.next
  split
  · rename_i hsize
    split
    · exact ⟨done, lvl, ht, ho, hs⟩
    · refine ⟨done ++ lvl, parents (scheme H).join lvl, ?_, ?_, ?_⟩
      · rw [depth_of_two_le (by omega), flatten, ← length_parents (scheme H).join] at ht
        rw [ht, List.append_assoc]
      · rw [List.length_append, ho, hs]
      · rw [length_parents, hs]
  · split <;> exact ⟨done, lvl, ht, ho, hs⟩

theorem ProofIter.AtLevel.offset_add_size {t : MerkleTree} {it : ProofIter}
    (h : it.AtLevel H t) : it.offset + it.size ≤ t.nodes.length := by
  obtain ⟨done, lvl, ht, ho, hs⟩ := h
  have hle := length_le_flatten (scheme H).join (depth lvl.length) lvl
  rw [ht, List.length_append]
  omega

theorem ProofIter.step_offset_add_size {leaves : List Hash} {t : MerkleTree}
    (ht : t.nodes = flatten (scheme H).join (depth leaves.length) leaves) (index k : Nat) :
    ((step t)^[k] (init t index leaves.length)).offset +
      ((step t)^[k] (init t index leaves.length)).size ≤ t.nodes.length := by
  unfold init
  split
  · have hstay : step t ⟨index, 0, t.nodes.length⟩ = ⟨index, 0, t.nodes.length⟩ := by
      rw [step, ProofIter.next, if_neg (by simp), if_neg (by simp)]
    rw [Function.iterate_fixed hstay]
    exact Nat.le_refl _
  · have hstart : (⟨index, leaves.length, 0⟩ : ProofIter).AtLevel H t := ⟨[], leaves, ht, rfl, rfl⟩
    refine ProofIter.AtLevel.offset_add_size (H := H) ?_
    induction k with
    | zero => exact hstart
    | succ k ih =>
        rw [Function.iterate_succ_apply']
        exact ih.step

end MerkleTree

theorem length_flatten_depth_le {leaves : List Hash} (h : leaves.length < 2 ^ 17) :
    (flatten (scheme H).join (depth leaves.length) leaves).length ≤ 2 * leaves.length + 17 := by
  have hle := length_flatten_le (scheme H).join (depth leaves.length) leaves
  have hd : depth leaves.length ≤ 17 := Nat.clog_le_of_le_pow (by omega)
  omega

end Tree

theorem sizesFit {numDataShreds numShards : Nat} (h1 : 1 ≤ numShards) (h2 : numShards < 2 ^ 17) :
    SizesFit numDataShreds numShards where
  batch := by
    unfold FitsUsize
    omega
  missing := by
    intro stub signature l placed hp
    obtain ⟨hc, hlen⟩ := placeShredsCounting_count (Nat.le_refl 0) (Nat.zero_le _) hp
    unfold FitsUsize
    refine ⟨by omega, fun filled hf => ?_⟩
    obtain ⟨hc', hlen'⟩ := pushStubsCounting_count hc hf
    omega
  capacity := by
    intro ty proofSize resigned
    have hp := proofSize.toNat_lt
    have hh : sizeOfHeaders ty ≤ 89 := by cases ty <;> decide
    have hr : (if resigned then sizeOfSignature else 0) ≤ 64 := by cases resigned <;> decide
    rw [FitsUsize, sizeOfMerkleRoot, sizeOfMerkleProofEntry]
    omega
  offsets := by
    intro ty proofSize resigned cap hcap
    have hp := proofSize.toNat_lt
    have hh : sizeOfPayload ty ≤ 1228 := by cases ty <;> decide
    have hsum := checkedSubSize_eq_some.mp (okOr_eq_ok.mp hcap)
    rw [sizeOfMerkleRoot, sizeOfMerkleProofEntry] at hsum
    rw [FitsUsize, sizeOfMerkleRoot, sizeOfMerkleProofEntry, sizeOfSignature]
    omega
  building := by
    intro H leaves k nodes hlen hk
    have hne : leaves ≠ [] := List.length_pos_iff.mp (by omega)
    subst hlen
    have h := MerkleTree.levels_length_le hne hk
    have hle := @length_flatten_depth_le H leaves h2
    unfold FitsUsize
    omega
  proving := by
    rintro H leaves tree hlen ht index k it rfl
    subst hlen
    obtain ⟨L, hne, hL, hnodes⟩ := (MerkleTree.tryNew_eq_ok H).mp ht
    cases List.map_injective_iff.mpr (fun _ _ h => Except.ok.inj h) hL
    have h := MerkleTree.ProofIter.step_offset_add_size hnodes index k
    have hle := @length_flatten_depth_le H leaves h2
    rw [hnodes] at h
    unfold FitsUsize
    omega

end LightweightShred
