import LightweightShred.MerkleTree

/-!
# The flat node vector is the tree

`try_new` produces the levels of the abstract tree one after another, a proof is the
path of siblings, and the fold of a proof is the climb along it.
-/
namespace LightweightShred
open ByteString Rust HashTree

/-- The hash scheme of shreds: leaf and node prefixes, truncation to twenty bytes. -/
def scheme (H : Hasher) : HashScheme.Scheme Bytes Bytes Hash MerkleProofEntry where
  hash := H.sha256
  trunc := Hash.truncate
  leafMsg := leafPreimage
  nodeMsg a b := joinPreimage a.1 b.1
  leafMsg_inj := fun _ _ h => List.append_cancel_left h
  nodeMsg_inj := by
    intro a b x y h
    have ha : a.1.take 20 = a.1 := List.take_of_length_le (by rw [a.2])
    have hb : b.1.take 20 = b.1 := List.take_of_length_le (by rw [b.2])
    have hx : x.1.take 20 = x.1 := List.take_of_length_le (by rw [x.2])
    have hy : y.1.take 20 = y.1 := List.take_of_length_le (by rw [y.2])
    unfold joinPreimage sizeOfMerkleProofEntry at h
    rw [ha, hb, hx, hy, List.append_assoc, List.append_assoc] at h
    obtain ⟨h1, h2⟩ := List.append_inj (List.append_cancel_left h) (by rw [a.2, x.2])
    exact ⟨Subtype.ext h1, Subtype.ext h2⟩
  leaf_ne_node := by
    intro x a b h
    have h0 := congrArg List.head? h
    simp [leafPreimage, joinPreimage, merkleHashPrefixLeaf, merkleHashPrefixNode] at h0

variable (H : Hasher)

theorem joinPreimage_take (a b : Bytes) :
    joinPreimage (a.take 20) (b.take 20) = joinPreimage a b := by
  simp only [joinPreimage, sizeOfMerkleProofEntry, List.take_take, Nat.min_self]

theorem joinNodes_eq_join (a b : Hash) : joinNodes H a.1 b.1 = (scheme H).join a b := by
  exact congrArg H.sha256 (joinPreimage_take a.1 b.1).symm

theorem joinNodes_entry_right (a : Hash) (e : MerkleProofEntry) :
    joinNodes H a.1 e.1 = (scheme H).pair a.truncate e := by
  have h : joinPreimage (a.1.take 20) e.1 = joinPreimage a.1 e.1 := by
    simp only [joinPreimage, sizeOfMerkleProofEntry, List.take_take, Nat.min_self]
  exact congrArg H.sha256 h.symm

theorem joinNodes_entry_left (a : Hash) (e : MerkleProofEntry) :
    joinNodes H e.1 a.1 = (scheme H).pair e a.truncate := by
  have h : joinPreimage e.1 (a.1.take 20) = joinPreimage e.1 a.1 := by
    simp only [joinPreimage, sizeOfMerkleProofEntry, List.take_take, Nat.min_self]
  exact congrArg H.sha256 h.symm

namespace MerkleTree

/-- The inner loop appends the parents of the level it reads, left to right. -/
theorem foldlM_pushParent (done lvl : List Hash) (k : Nat) (hk : k ≤ (lvl.length + 1) / 2) :
    ((List.range k).map fun j => done.length + 2 * j).foldlM
        (pushParent H done.length lvl.length) (done ++ lvl) =
      (.ok (done ++ lvl ++ (parents (scheme H).join lvl).take k) : Result (List Hash)) := by
  induction k with
  | zero => simp [pure, Except.pure]
  | succ k ih =>
      have hp : k < (parents (scheme H).join lvl).length := by rw [length_parents]; omega
      obtain ⟨a, b, ha, hb, hab⟩ := getElem?_parents_of_lt (scheme H).join hp
      have hnode : ∀ tail : List Hash, (done ++ lvl ++ tail)[done.length + 2 * k]? = some a := by
        intro tail
        rw [List.append_assoc, List.getElem?_append_right (by omega), Nat.add_sub_cancel_left,
          List.getElem?_append_left (by omega), ha]
      have hother : ∀ tail : List Hash,
          (done ++ lvl ++ tail)[min (done.length + 2 * k + 1) (done.length + lvl.length - 1)]? =
            some b := by
        intro tail
        rw [show min (done.length + 2 * k + 1) (done.length + lvl.length - 1) =
            done.length + min (2 * k + 1) (lvl.length - 1) by omega,
          List.append_assoc, List.getElem?_append_right (by omega), Nat.add_sub_cancel_left,
          List.getElem?_append_left (by omega), hb]
      rw [List.range_succ, List.map_append, List.foldlM_append, ih (by omega)]
      simp only [List.map_cons, List.map_nil, List.foldlM_cons, List.foldlM_nil, pushParent,
        hnode, hother, unwrap, bind, Except.bind, pure, Except.pure, joinNodes_eq_join]
      rw [List.take_add_one, hab]
      simp only [Option.toList_some, List.append_assoc]

theorem pushLevel_append (done lvl : List Hash) :
    pushLevel H (done ++ lvl) lvl.length =
      .ok (done ++ lvl ++ parents (scheme H).join lvl) := by
  have hoff : checkedSubSize (done ++ lvl).length lvl.length = some done.length :=
    checkedSubSize_eq_some.mpr (by rw [List.length_append]; omega)
  have hall := foldlM_pushParent H done lvl ((lvl.length + 1) / 2) (Nat.le_refl _)
  rw [List.take_of_length_le (by rw [length_parents])] at hall
  rw [pushLevel, hoff]
  exact hall

theorem foldlM_pushLevel {fuel : Nat} {done lvl : List Hash} (h2 : 2 ≤ lvl.length)
    (hf : lvl.length ≤ fuel) :
    (successors (fun k => if k > 2 then some ((k + 1) / 2) else none) fuel
        (some lvl.length)).foldlM (pushLevel H) (done ++ lvl) =
      .ok (done ++ flatten (scheme H).join (depth lvl.length) lvl) := by
  induction fuel generalizing done lvl with
  | zero => omega
  | succ fuel ih =>
      have hlen := length_parents (scheme H).join lvl
      rw [successors, List.foldlM_cons, pushLevel_append, depth_of_two_le h2, flatten]
      simp only [bind, Except.bind]
      by_cases hgt : lvl.length > 2
      · rw [if_pos hgt, ← hlen, ih (by omega) (by omega), List.append_assoc]
      · have h1 : (lvl.length + 1) / 2 = 1 := by omega
        rw [if_neg hgt, h1, depth_of_le_one (by omega), flatten]
        cases fuel <;> simp [successors, pure, Except.pure]

theorem tryNew_ok {L : List Hash} (h : L ≠ []) :
    tryNew H (L.map .ok) = .ok ⟨flatten (scheme H).join (depth L.length) L⟩ := by
  have hpos : 0 < L.length := List.length_pos_iff.mpr h
  have hids : (L.map .ok : List (Result Hash)).mapM id = .ok L := mapM_id_eq_ok.mpr rfl
  have hlevels : (levelSizes L.length).foldlM (pushLevel H) L =
      .ok (flatten (scheme H).join (depth L.length) L) := by
    unfold levelSizes
    by_cases h1 : L.length > 1
    · rw [if_pos h1]
      exact @foldlM_pushLevel H _ [] L (by omega) (Nat.le_refl _)
    · rw [if_neg h1, depth_of_le_one (by omega), flatten]
      cases L.length <;> rfl
  rw [tryNew, List.length_map, if_neg (by omega), hids]
  simp only [bind, Except.bind, pure, Except.pure, hlevels]

theorem tryNew_eq_ok {shreds : List (Result Hash)} {t : MerkleTree} :
    tryNew H shreds = .ok t ↔ ∃ L, L ≠ [] ∧ shreds = L.map .ok ∧
      t.nodes = flatten (scheme H).join (depth L.length) L := by
  constructor
  · intro h
    by_cases hz : shreds.length = 0
    · rw [tryNew, if_pos hz] at h
      cases h
    · have hids : ∃ L, shreds.mapM id = .ok L := by
        rw [tryNew, if_neg hz] at h
        obtain ⟨L, hL, -⟩ := bind_eq_ok.mp h
        exact ⟨L, hL⟩
      obtain ⟨L, hL⟩ := hids
      obtain rfl := mapM_id_eq_ok.mp hL
      have hne : L ≠ [] := by
        rintro rfl
        exact hz rfl
      rw [tryNew_ok H hne] at h
      cases h
      exact ⟨L, hne, rfl, rfl⟩
  · rintro ⟨L, hne, rfl, ht⟩
    rw [tryNew_ok H hne, ← ht]

theorem root_eq {L : List Hash} {t : MerkleTree} {r : Hash}
    (ht : t.nodes = flatten (scheme H).join (depth L.length) L)
    (hr : level (scheme H).join (depth L.length) L = [r]) : t.root = .ok r := by
  rw [root, ht, getLast?_flatten _ (by rw [hr]; simp), hr]
  rfl

theorem items_eq_path {fuel i : Nat} {done lvl : List Hash} {t : MerkleTree} (hi : i < lvl.length)
    (hf : lvl.length < fuel)
    (ht : t.nodes = done ++ flatten (scheme H).join (depth lvl.length) lvl) :
    ProofIter.items t fuel ⟨i, lvl.length, done.length⟩ =
      (path (scheme H).join (depth lvl.length) i lvl).map fun s => .ok (Hash.truncate s) := by
  induction fuel generalizing i done lvl with
  | zero => omega
  | succ fuel ih =>
      rcases Nat.lt_or_ge lvl.length 2 with hlt | hge
      · rw [depth_of_le_one (by omega), flatten] at ht
        have hend : done.length + 1 = t.nodes.length := by rw [ht, List.length_append]; omega
        rw [depth_of_le_one (by omega), path, ProofIter.items, ProofIter.next,
          if_neg (by simp only; omega), if_pos hend]
        rfl
      · have hlen := length_parents (scheme H).join lvl
        obtain ⟨s, hs⟩ : ∃ s, lvl[sibling i lvl.length]? = some s :=
          ⟨_, List.getElem?_eq_getElem (sibling_lt (by omega))⟩
        rw [depth_of_two_le hge] at ht ⊢
        rw [flatten, ← List.append_assoc] at ht
        have hnode : t.nodes[done.length + min (i ^^^ 1) (lvl.length - 1)]? = some s := by
          have hsib : min (i ^^^ 1) (lvl.length - 1) < lvl.length := sibling_lt (by omega)
          rw [ht, List.append_assoc, List.getElem?_append_right (by omega),
            Nat.add_sub_cancel_left, List.getElem?_append_left hsib]
          exact hs
        rw [← hlen] at ht
        have hrest := ih (i := i / 2) (by rw [hlen]; omega) (by omega) ht
        rw [hlen, List.length_append] at hrest
        rw [path, hs, Option.toList_some, List.singleton_append, List.map_cons, ← hrest]
        simp only [ProofIter.items, ProofIter.next]
        rw [if_pos (show lvl.length > 1 by omega), hnode]

/-- The proof made for a leaf is its path of siblings, every entry present. -/
theorem makeMerkleProof_eq {L : List Hash} {t : MerkleTree} {i : Nat} (hi : i < L.length)
    (ht : t.nodes = flatten (scheme H).join (depth L.length) L) :
    t.makeMerkleProof i L.length =
      (path (scheme H).join (depth L.length) i L).map fun s => .ok (Hash.truncate s) := by
  rw [makeMerkleProof, ProofIter.init, if_neg (by omega)]
  exact @items_eq_path H _ i [] L t hi (Nat.lt_succ_self _) ht

end MerkleTree

theorem foldProof_eq_climb (i : Nat) (a : Hash) (es : List MerkleProofEntry) :
    foldProof H i a es = climb Hash.truncate (scheme H).pair i a es := by
  induction es generalizing i a with
  | nil => rfl
  | cons e es ih =>
      rw [climb, ← ih]
      simp only [foldProof, List.foldl_cons, joinNodes_entry_left, joinNodes_entry_right]

theorem getMerkleRoot_eq_ok {i : Nat} {a r : Hash} {es : List MerkleProofEntry} :
    getMerkleRoot H i a es = .ok r ↔ climb Hash.truncate (scheme H).pair i a es = (0, r) := by
  rw [← foldProof_eq_climb, getMerkleRoot]
  generalize foldProof H i a es = st
  obtain ⟨j, b⟩ := st
  by_cases hj : j = 0
  · simp [hj]
  · simp [hj]

/-- The proof of a leaf folds to the root of the tree. -/
theorem getMerkleRoot_path {L : List Hash} {i : Nat} {a r : Hash} (ha : L[i]? = some a)
    (hr : level (scheme H).join (depth L.length) L = [r]) :
    getMerkleRoot H i a
      ((path (scheme H).join (depth L.length) i L).map Hash.truncate) = .ok r :=
  (getMerkleRoot_eq_ok H).mpr (climb_path_root Hash.truncate (scheme H).pair ha hr)

theorem getProofSize_eq_depth {n : Nat} (h1 : 1 ≤ n) (h2 : n < 2 ^ 64) :
    (getProofSize n).toNat = depth n := by
  have key : (if n.isPowerOfTwo then Nat.size n - 1 else Nat.size n) = depth n := by
    split
    · rename_i hp
      obtain ⟨k, rfl⟩ := hp
      rw [Nat.size_pow, depth, Nat.clog_pow 2 k (by decide)]
      omega
    · rename_i hp
      have hle : ∀ y, Nat.size n ≤ y ↔ depth n ≤ y := by
        intro y
        rw [Nat.size_le, depth, Nat.clog_le_iff_le_pow (by decide)]
        have hne : n ≠ 2 ^ y := fun he => hp ⟨y, he⟩
        omega
      exact Nat.le_antisymm ((hle _).mpr (Nat.le_refl _)) ((hle _).mp (Nat.le_refl _))
  have hdepth : depth n ≤ 64 := Nat.clog_le_of_le_pow (by omega)
  simp only [getProofSize]
  rw [key, toNat_u8 (by omega)]

end LightweightShred
