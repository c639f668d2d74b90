import LightweightShred.MerkleProofs

/-!
# The node vector, level by level

`try_new` reads the offset of each level off the length of the growing vector. What it leaves
is one level after another, from the leaves to the root.
-/
namespace LightweightShred
open ByteString Rust HashTree

/-- The levels over `leaves`: each node joins two nodes of the level below, the last one of an
odd level with itself, up to the single `root`. -/
structure LevelByLevel (H : Hasher) (leaves : List Hash) (root : Hash)
    (levels : List (List Hash)) : Prop where
  first : levels[0]? = some leaves
  next : ∀ (k : Nat) (lvl up : List Hash), levels[k]? = some lvl →
    levels[k + 1]? = some up → 2 ≤ lvl.length ∧ up.length = (lvl.length + 1) / 2 ∧
      ∀ j, j < up.length → ∃ node other : Hash, lvl[2 * j]? = some node ∧
        lvl[min (2 * j + 1) (lvl.length - 1)]? = some other ∧
          up[j]? = some (joinNodes H node.1 other.1)
  last : levels.getLast? = some [root]

section
variable (H : Hasher)

theorem scheme_join : (scheme H).join = fun a b => joinNodes H a.1 b.1 := by
  funext a b
  exact (joinNodes_eq_join H a b).symm

theorem sum_successors {fuel n : Nat} (hf : n < fuel) :
    (successors (fun k => if k > 1 then some ((k + 1) / 2) else none) fuel (some n)).sum =
      total n := by
  induction fuel generalizing n with
  | zero => exact (Nat.not_lt_zero n hf).elim
  | succ fuel ih =>
      rw [successors, List.sum_cons]
      rcases Nat.lt_or_ge 1 n with hgt | hle
      · rw [if_pos hgt, ih (by omega), total_of_two_le hgt]
      · rw [if_neg (Nat.not_lt.mpr hle), total_of_le_one hle]
        cases fuel <;> rfl

theorem getMerkleTreeSize_eq (n : Nat) : getMerkleTreeSize n = total n :=
  sum_successors (Nat.lt_succ_self n)

theorem successors_eq_lengths {fuel : Nat} {lvl : List Hash} (h2 : 2 ≤ lvl.length)
    (hf : lvl.length ≤ fuel) :
    successors (fun k => if k > 2 then some ((k + 1) / 2) else none) fuel (some lvl.length) =
      ((levels (scheme H).join (depth lvl.length) lvl).map List.length).dropLast := by
  induction fuel generalizing lvl with
  | zero => omega
  | succ fuel ih =>
      have hlen := length_parents (scheme H).join lvl
      have hup : (levels (scheme H).join (depth ((lvl.length + 1) / 2))
          (parents (scheme H).join lvl)).map List.length ≠ [] := by
        rw [Ne, List.map_eq_nil_iff, ← List.length_eq_zero_iff, length_levels]
        exact Nat.succ_ne_zero _
      rw [successors, depth_of_two_le h2, levels, List.map_cons, List.dropLast_cons_of_ne_nil hup]
      by_cases hgt : lvl.length > 2
      · rw [if_pos hgt, ← hlen, ih (by omega) (by omega)]
      · rw [if_neg hgt, depth_of_le_one (by omega), levels]
        cases fuel <;> rfl

theorem levelSizes_eq (leaves : List Hash) :
    MerkleTree.levelSizes leaves.length =
      ((levels (scheme H).join (depth leaves.length) leaves).map List.length).dropLast := by
  unfold MerkleTree.levelSizes
  by_cases h1 : leaves.length > 1
  · rw [if_pos h1, successors_eq_lengths H h1 (Nat.le_refl _)]
  · rw [if_neg h1, depth_of_le_one (by omega), levels]
    cases leaves.length <;> rfl

theorem two_le_of_mem_successors {fuel n size : Nat} (h2 : 2 ≤ n)
    (h : size ∈ successors (fun k => if k > 2 then some ((k + 1) / 2) else none) fuel (some n)) :
    2 ≤ size := by
  induction fuel generalizing n with
  | zero => cases h
  | succ fuel ih =>
      rw [successors, List.mem_cons] at h
      rcases h with rfl | h
      · exact h2
      · by_cases hgt : n > 2
        · rw [if_pos hgt] at h
          exact ih (by omega) h
        · rw [if_neg hgt] at h
          cases fuel <;> cases h

theorem two_le_of_mem_levelSizes {size n : Nat} (h : size ∈ MerkleTree.levelSizes n) :
    2 ≤ size := by
  unfold MerkleTree.levelSizes at h
  by_cases h1 : n > 1
  · rw [if_pos h1] at h
    exact two_le_of_mem_successors h1 h
  · rw [if_neg h1] at h
    cases n <;> cases h

theorem levels_levelByLevel {leaves : List Hash} {root : Hash}
    (hroot : level (scheme H).join (depth leaves.length) leaves = [root]) :
    LevelByLevel H leaves root (levels (scheme H).join (depth leaves.length) leaves) where
  first := getElem?_levels (scheme H).join (Nat.zero_le _) leaves
  next := by
    intro k lvl up hlvl hup
    have hk : k + 1 < (levels (scheme H).join (depth leaves.length) leaves).length :=
      (List.getElem?_eq_some_iff.mp hup).1
    rw [length_levels] at hk
    have hdepth : k < depth leaves.length := Nat.lt_of_succ_lt_succ hk
    rw [getElem?_levels (scheme H).join hdepth.le, Option.some.injEq] at hlvl
    rw [getElem?_levels (scheme H).join hdepth, Option.some.injEq, level_succ, hlvl] at hup
    subst hlvl hup
    refine ⟨two_le_length_level (scheme H).join hdepth, length_parents (scheme H).join _, ?_⟩
    intro j hj
    obtain ⟨node, other, hnode, hother, hparent⟩ := getElem?_parents_of_lt (scheme H).join hj
    exact ⟨node, other, hnode, hother, by rw [hparent, joinNodes_eq_join]⟩
  last := by
    rw [List.getLast?_eq_getElem?, length_levels, Nat.add_sub_cancel,
      getElem?_levels (scheme H).join (Nat.le_refl _), hroot]

end

/-- For any number of leaves the node vector is the concatenation of all levels, of the size
that `get_merkle_tree_size` gives and as many levels above the leaves as `get_proof_size` says;
its last node is the root of the tree, computed from the levels upwards or from the halves
downwards. No level that is read has less than two nodes, so nothing underflows. -/
theorem try_new_is_level_by_level (H : Hasher) (leaves : List Hash) (hne : leaves ≠ [])
    (hsize : leaves.length < 2 ^ 64) :
    ∃ tree root levels, MerkleTree.tryNew H (leaves.map .ok) = .ok tree ∧
      LevelByLevel H leaves root levels ∧ tree.nodes = levels.flatten ∧
      MerkleTree.levelSizes leaves.length = (levels.map List.length).dropLast ∧
      (∀ size ∈ MerkleTree.levelSizes leaves.length, 2 ≤ size) ∧
      tree.nodes.length = getMerkleTreeSize leaves.length ∧
      levels.length = (getProofSize leaves.length).toNat + 1 ∧ tree.root = .ok root ∧
      rootOf (fun a b => joinNodes H a.1 b.1) leaves = some root ∧
      subtree (fun a b => joinNodes H a.1 b.1) (getProofSize leaves.length).toNat leaves =
        some root := by
  have hpos : 1 ≤ leaves.length := List.length_pos_iff.mpr hne
  obtain ⟨root, hroot⟩ := exists_level_depth (scheme H).join hne
  rw [getProofSize_eq_depth hpos hsize, ← scheme_join]
  refine ⟨_, root, levels (scheme H).join (depth leaves.length) leaves,
    MerkleTree.tryNew_ok H hne, levels_levelByLevel H hroot, (flatten_levels _ _ _).symm,
    levelSizes_eq H leaves, fun size => two_le_of_mem_levelSizes, ?_, length_levels _ _ _,
    MerkleTree.root_eq H rfl hroot, rootOf_eq _ hroot,
    subtree_eq _ (Nat.le_pow_clog (by decide) _) hroot⟩
  rw [getMerkleTreeSize_eq]
  exact length_flatten_depth (scheme H).join leaves

/-- Levels of five, three, two and one: two of them are odd and have a level above. -/
theorem try_new_is_level_by_level_five :
    ∃ tree root levels,
      MerkleTree.tryNew sha256Hasher ((List.replicate 5 plainHash).map .ok) = .ok tree ∧
      LevelByLevel sha256Hasher (List.replicate 5 plainHash) root levels ∧
      tree.nodes = levels.flatten ∧
      MerkleTree.levelSizes 5 = (levels.map List.length).dropLast ∧
      (∀ size ∈ MerkleTree.levelSizes 5, 2 ≤ size) ∧
      tree.nodes.length = getMerkleTreeSize 5 ∧
      levels.length = (getProofSize 5).toNat + 1 ∧ tree.root = .ok root ∧
      rootOf (fun a b => joinNodes sha256Hasher a.1 b.1) (List.replicate 5 plainHash) = some root ∧
      subtree (fun a b => joinNodes sha256Hasher a.1 b.1) (getProofSize 5).toNat
        (List.replicate 5 plainHash) = some root :=
  try_new_is_level_by_level sha256Hasher (List.replicate 5 plainHash) (by decide) (by decide)

end LightweightShred
