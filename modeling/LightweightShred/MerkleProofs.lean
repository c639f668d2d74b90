import LightweightShred.RootBinding

/-!
# Proofs of a tree

`make_merkle_proof` and `get_merkle_root` are inverse: for every leaf of a tree the iterator
yields a proof of the size that `get_proof_size` gives, and the proof folds to the root.
-/
namespace LightweightShred
open ByteString Rust HashTree

namespace MerkleTree

section
variable {t : MerkleTree} {it : ProofIter}

theorem ProofIter.step_of_no_entry (h : ∀ entry, (it.next t).1 ≠ some (.ok entry)) :
    it.step t = it := by
  unfold ProofIter.step
  unfold ProofIter.next at h ⊢
  split
  · rename_i hsize
    rw [if_pos hsize] at h
    split
    · rfl
    · rename_i node hnode
      rw [hnode] at h
      exact (h _ rfl).elim
  · split <;> rfl

theorem ProofIter.next_of_items_append {fuel : Nat} {es : List MerkleProofEntry}
    {rest : List (Result MerkleProofEntry)}
    (h : ProofIter.items t fuel it = es.map .ok ++ rest) (hf : es.length < fuel) :
    ProofIter.items t (fuel - es.length) ((ProofIter.step t)^[es.length] it) = rest ∧
      ∀ k entry, es[k]? = some entry →
        (((ProofIter.step t)^[k] it).next t).1 = some (.ok entry) := by
  induction es generalizing it fuel with
  | nil => exact ⟨h, fun k entry hk => by cases hk⟩
  | cons e es ih =>
      cases fuel with
      | zero => exact (Nat.not_lt_zero _ hf).elim
      | succ fuel =>
          unfold ProofIter.items at h
          split at h
          · cases h
          · cases h
          · rename_i entry it' hn
            rw [List.map_cons, List.cons_append, List.cons.injEq] at h
            have hstep : ProofIter.step t it = it' := congrArg Prod.snd hn
            obtain ⟨hrest, hentries⟩ := ih h.2 (Nat.lt_of_succ_lt_succ hf)
            constructor
            · rw [List.length_cons, Nat.add_sub_add_right, Function.iterate_succ_apply, hstep]
              exact hrest
            · intro k entry' hk
              cases k with
              | zero =>
                  obtain rfl := Option.some.inj hk
                  rw [Function.iterate_zero_apply, hn]
                  exact congrArg some h.1
              | succ k =>
                  rw [Function.iterate_succ_apply, hstep]
                  exact hentries k entry' hk

theorem ProofIter.next_of_no_entry {n k : Nat} (hk : n ≤ k)
    (h : ∀ entry, (((ProofIter.step t)^[n] it).next t).1 ≠ some (.ok entry)) :
    (((ProofIter.step t)^[k] it).next t).1 = (((ProofIter.step t)^[n] it).next t).1 := by
  obtain ⟨m, rfl⟩ := Nat.exists_eq_add_of_le' hk
  rw [Function.iterate_add_apply, Function.iterate_fixed (ProofIter.step_of_no_entry h)]

theorem ProofIter.next_of_items {fuel : Nat} {es : List MerkleProofEntry}
    (h : ProofIter.items t fuel it = es.map .ok) (hf : es.length < fuel) (k : Nat) :
    (((ProofIter.step t)^[k] it).next t).1 = es[k]?.map .ok := by
  obtain ⟨hrest, hentries⟩ := ProofIter.next_of_items_append (by rw [h, List.append_nil]) hf
  rcases Nat.lt_or_ge k es.length with hk | hk
  · rw [List.getElem?_eq_getElem hk]
    exact hentries k _ (List.getElem?_eq_getElem hk)
  · have hnone : (((ProofIter.step t)^[es.length] it).next t).1 = none := by
      obtain ⟨left, hleft⟩ := Nat.exists_eq_add_of_lt hf
      rw [show fuel - es.length = left + 1 by omega] at hrest
      unfold ProofIter.items at hrest
      split at hrest
      · rename_i hn
        rw [hn]
      · cases hrest
      · cases hrest
    rw [List.getElem?_eq_none hk, ProofIter.next_of_no_entry hk (by simp [hnone]), hnone]
    rfl

end

end MerkleTree

/-- The iterator that `make_merkle_proof` returns yields the entries of the proof and ends. -/
def YieldsProof (t : MerkleTree) (index size : Nat) (proof : List MerkleProofEntry) : Prop :=
  t.makeMerkleProof index size = proof.map .ok ∧
    ∀ k, (((MerkleTree.ProofIter.step t)^[k] (MerkleTree.ProofIter.init t index size)).next t).1 =
      proof[k]?.map .ok

theorem yieldsProof_path (H : Hasher) {leaves : List Hash} {t : MerkleTree} {i : Nat}
    (hne : leaves ≠ []) (ht : t.nodes = flatten (scheme H).join (depth leaves.length) leaves)
    (hi : i < leaves.length) :
    YieldsProof t i leaves.length
      ((path (scheme H).join (depth leaves.length) i leaves).map Hash.truncate) := by
  have hitems : t.makeMerkleProof i leaves.length =
      ((path (scheme H).join (depth leaves.length) i leaves).map Hash.truncate).map .ok := by
    rw [MerkleTree.makeMerkleProof_eq H hi ht, List.map_map]
    rfl
  refine ⟨hitems, MerkleTree.ProofIter.next_of_items hitems ?_⟩
  rw [List.length_map, length_path (scheme H).join hne]
  exact Nat.lt_succ_of_le (depth_le leaves.length)

/-- For every leaf of a tree the iterator yields a proof of the size of the tree, which folds
from the leaf to the root. The number of leaves is a `usize`. -/
theorem make_merkle_proof_verifies (H : Hasher) (leaves : List Hash) (hne : leaves ≠ [])
    (hsize : leaves.length < 2 ^ 64) (i : Nat) (leaf : Hash) (hi : leaves[i]? = some leaf) :
    ∃ tree root proof, MerkleTree.tryNew H (leaves.map .ok) = .ok tree ∧ tree.root = .ok root ∧
      YieldsProof tree i leaves.length proof ∧
      proof.length = (getProofSize leaves.length).toNat ∧
      getMerkleRoot H i leaf proof = .ok root := by
  have hpos : 1 ≤ leaves.length := List.length_pos_iff.mpr hne
  have hlt : i < leaves.length := (List.getElem?_eq_some_iff.mp hi).1
  obtain ⟨root, hroot⟩ := exists_level_depth (scheme H).join hne
  refine ⟨_, root, (path (scheme H).join (depth leaves.length) i leaves).map Hash.truncate,
    MerkleTree.tryNew_ok H hne, MerkleTree.root_eq H rfl hroot, yieldsProof_path H hne rfl hlt, ?_,
    getMerkleRoot_path H hi hroot⟩
  rw [List.length_map, length_path (scheme H).join hne, getProofSize_eq_depth hpos hsize]

/-- A hash of zeros. -/
def plainHash : Hash := ⟨List.replicate 32 0, List.length_replicate ..⟩

/-- The middle one of three leaves. -/
theorem make_merkle_proof_verifies_middle :
    ∃ tree root proof, MerkleTree.tryNew sha256Hasher ((List.replicate 3 (plainHash)).map .ok) =
        .ok tree ∧ tree.root = .ok root ∧ YieldsProof tree 1 (List.replicate 3 plainHash).length proof ∧
      proof.length = (getProofSize (List.replicate 3 plainHash).length).toNat ∧
      getMerkleRoot sha256Hasher 1 plainHash proof = .ok root :=
  make_merkle_proof_verifies sha256Hasher (List.replicate 3 plainHash) (by decide) (by decide) 1 _ rfl

end LightweightShred
