import LightweightShred.TreeShape

/-!
# Requests that do not fit the tree

`make_merkle_proof` takes the size of the tree from its caller. Its only checks are a lookup
behind the last node and a comparison of the final offset with the number of nodes; since the
number of nodes grows with the number of leaves, they find every wrong size.
-/
namespace LightweightShred
open ByteString Rust HashTree

namespace MerkleTree

/-- The nodes already passed and those of the levels ahead are the nodes over `size` leaves. -/
structure ProofIter.Ahead (size : Nat) (it : ProofIter) : Prop where
  pos : 1 ≤ it.size
  sum : it.offset + total it.size = total size

section
variable {t : MerkleTree} {it : ProofIter} {index size : Nat}

theorem ProofIter.init_of_lt (h : index < size) : ProofIter.init t index size = ⟨index, size, 0⟩ := by
  rw [ProofIter.init, if_neg (Nat.not_le.mpr h)]

theorem ProofIter.init_ahead (h : index < size) : (ProofIter.init t index size).Ahead size := by
  rw [ProofIter.init_of_lt h]
  exact ⟨Nat.zero_lt_of_lt h, Nat.zero_add _⟩

/-- A level that is passed moves from the nodes ahead to those behind. -/
theorem ProofIter.Ahead.pass (h : it.Ahead size) (h2 : 2 ≤ it.size) (index : Nat) :
    ProofIter.Ahead size ⟨index, (it.size + 1) / 2, it.offset + it.size⟩ where
  pos := by
    change 1 ≤ (it.size + 1) / 2
    omega
  sum := by rw [← h.sum, total_of_two_le h2, Nat.add_assoc]

theorem ProofIter.Ahead.step (h : it.Ahead size) : (it.step t).Ahead size := by
  unfold ProofIter.step ProofIter.next
  split
  · rename_i h2
    split
    · exact h
    · exact h.pass h2 _
  · split <;> exact h

theorem ProofIter.Ahead.iterate (h : it.Ahead size) (k : Nat) :
    ((ProofIter.step t)^[k] it).Ahead size := by
  induction k with
  | zero => exact h
  | succ k ih =>
      rw [Function.iterate_succ_apply']
      exact ih.step

theorem ProofIter.Ahead.offset_add_size_le (h : it.Ahead size) : it.offset + it.size ≤ total size := by
  rw [← h.sum]
  exact Nat.add_le_add_left (le_total it.size) it.offset

/-- A wrong size ends in the error: either a node is missing, or the last offset is off. -/
theorem ProofIter.items_of_misfit {n fuel : Nat} (ht : t.nodes.length = total n) (hne : size ≠ n)
    (h : it.Ahead size) (hf : it.size ≤ fuel) :
    ∃ entries : List MerkleProofEntry, entries.length ≤ depth it.size ∧
      ProofIter.items t fuel it = entries.map .ok ++ [fail .invalidMerkleProof] := by
  induction fuel generalizing it with
  | zero => exact (Nat.not_lt_zero _ (Nat.lt_of_lt_of_le h.pos hf)).elim
  | succ fuel ih =>
      rw [ProofIter.items, ProofIter.next]
      rcases Nat.lt_or_ge it.size 2 with hlt | hge
      · have hone : it.size = 1 := Nat.le_antisymm (Nat.le_of_lt_succ hlt) h.pos
        have hoff : it.offset + 1 ≠ t.nodes.length := by
          intro hend
          have hsum := h.sum
          rw [hone, total_of_le_one (Nat.le_refl 1), hend, ht] at hsum
          exact hne (total_strictMono.injective hsum).symm
        rw [if_neg (Nat.not_lt.mpr hone.le), if_neg hoff]
        exact ⟨[], Nat.zero_le _, rfl⟩
      · rw [if_pos (show it.size > 1 from hge)]
        cases hnode : t.nodes[it.offset + min (it.index ^^^ 1) (it.size - 1)]? with
        | none => exact ⟨[], Nat.zero_le _, rfl⟩
        | some node =>
            obtain ⟨entries, hlen, hitems⟩ := ih (h.pass hge (it.index / 2)) (by
              change (it.size + 1) / 2 ≤ fuel
              omega)
            refine ⟨Hash.truncate node :: entries, ?_, ?_⟩
            · rw [depth_of_two_le hge]
              exact Nat.succ_le_succ hlen
            · exact congrArg (.ok (Hash.truncate node) :: ·) hitems

end

end MerkleTree

/-- What call `k` of `next` returns. -/
def proofOutput (t : MerkleTree) (index size k : Nat) : Option (Result MerkleProofEntry) :=
  (((MerkleTree.ProofIter.step t)^[k] (MerkleTree.ProofIter.init t index size)).next t).1

/-- The iterator yields at most as many entries as a proof has, none for an index outside the
size, and from then on the error. -/
def RejectsRequest (t : MerkleTree) (index size : Nat) : Prop :=
  ∃ entries : List MerkleProofEntry, entries.length ≤ (getProofSize size).toNat ∧
    (size ≤ index → entries = []) ∧
    t.makeMerkleProof index size = entries.map .ok ++ [fail .invalidMerkleProof] ∧
    (∀ k entry, entries[k]? = some entry → proofOutput t index size k = some (.ok entry)) ∧
    ∀ k, entries.length ≤ k → proofOutput t index size k = some (fail .invalidMerkleProof)

section
variable {t : MerkleTree} {index size : Nat}

theorem rejectsRequest_of_items {entries : List MerkleProofEntry}
    (hlen : entries.length ≤ (getProofSize size).toNat) (hfuel : entries.length ≤ size)
    (hempty : size ≤ index → entries = [])
    (hitems : t.makeMerkleProof index size = entries.map .ok ++ [fail .invalidMerkleProof]) :
    RejectsRequest t index size := by
  obtain ⟨hrest, hentries⟩ :=
    MerkleTree.ProofIter.next_of_items_append hitems (Nat.lt_succ_of_le hfuel)
  have herror : proofOutput t index size entries.length = some (fail .invalidMerkleProof) := by
    obtain ⟨left, hleft⟩ := Nat.exists_eq_add_of_le' hfuel
    rw [show size + 1 - entries.length = left + 1 by omega] at hrest
    unfold MerkleTree.ProofIter.items at hrest
    unfold proofOutput
    split at hrest
    · cases hrest
    · rename_i e it hn
      rw [hn]
      exact congrArg some (List.singleton_inj.mp hrest)
    · cases hrest
  have hstuck : ∀ entry, proofOutput t index size entries.length ≠ some (.ok entry) := by
    intro entry hok
    cases herror.symm.trans hok
  refine ⟨entries, hlen, hempty, hitems, hentries, fun k hk => ?_⟩
  exact (MerkleTree.ProofIter.next_of_no_entry hk hstuck).trans herror

theorem rejectsRequest_of_le (hle : size ≤ index) : RejectsRequest t index size := by
  have hitems : t.makeMerkleProof index size =
      ([] : List MerkleProofEntry).map .ok ++ [fail .invalidMerkleProof] := by
    rw [MerkleTree.makeMerkleProof, MerkleTree.ProofIter.init, if_pos hle,
      MerkleTree.ProofIter.items, MerkleTree.ProofIter.next, if_neg (Nat.not_lt_zero 1),
      if_neg (Nat.succ_ne_self _)]
    rfl
  exact rejectsRequest_of_items (Nat.zero_le _) (Nat.zero_le _) (fun _ => rfl) hitems

theorem rejectsRequest_of_size_ne {n : Nat} (ht : t.nodes.length = total n) (hne : size ≠ n)
    (hlt : index < size) (hsize : size < 2 ^ 64) : RejectsRequest t index size := by
  have hfuel : (MerkleTree.ProofIter.init t index size).size ≤ size + 1 := by
    rw [MerkleTree.ProofIter.init_of_lt hlt]
    exact Nat.le_succ size
  obtain ⟨entries, hlen, hitems⟩ :=
    MerkleTree.ProofIter.items_of_misfit ht hne (MerkleTree.ProofIter.init_ahead hlt) hfuel
  rw [MerkleTree.ProofIter.init_of_lt hlt] at hlen
  have hproof : entries.length ≤ (getProofSize size).toNat := by
    rw [getProofSize_eq_depth (Nat.zero_lt_of_lt hlt) hsize]
    exact hlen
  exact rejectsRequest_of_items hproof (hlen.trans (depth_le size))
    (fun hle => (Nat.not_le.mpr hlt hle).elim) hitems

theorem RejectsRequest.exists_error (h : RejectsRequest t index size) :
    ∃ k e, proofOutput t index size k = some (.error e) := by
  obtain ⟨entries, -, -, -, -, herror⟩ := h
  exact ⟨entries.length, _, herror _ (Nat.le_refl _)⟩

end

/-- The proof requested from a tree is free of errors exactly for its own size and an index
below it. Every other request runs into the error, after at most the number of entries that
`get_proof_size` gives. The nodes over `size` leaves are a `usize`, so no offset wraps. -/
theorem make_merkle_proof_detects_misfit (H : Hasher) (shreds : List (Result Hash))
    (tree : MerkleTree) (htree : MerkleTree.tryNew H shreds = .ok tree) (index size : Nat)
    (hsize : getMerkleTreeSize size < 2 ^ 64) :
    ((∀ k e, proofOutput tree index size k ≠ some (.error e)) ↔
      size = shreds.length ∧ index < shreds.length) ∧
    (¬ (size = shreds.length ∧ index < shreds.length) → RejectsRequest tree index size) ∧
    (index < size → ∀ k it, (MerkleTree.ProofIter.step tree)^[k]
      (MerkleTree.ProofIter.init tree index size) = it → it.offset + it.size < 2 ^ 64) := by
  obtain ⟨leaves, hne, rfl, hnodes⟩ := (MerkleTree.tryNew_eq_ok H).mp htree
  rw [List.length_map]
  rw [getMerkleTreeSize_eq] at hsize
  have htotal : tree.nodes.length = total leaves.length := by rw [hnodes, length_flatten_depth]
  have hreject : ¬ (size = leaves.length ∧ index < leaves.length) →
      RejectsRequest tree index size := by
    intro hmisfit
    rcases Nat.lt_or_ge index size with hlt | hge
    · have hmis : size ≠ leaves.length := by
        rintro rfl
        exact hmisfit ⟨rfl, hlt⟩
      exact rejectsRequest_of_size_ne htotal hmis hlt (Nat.lt_of_le_of_lt (le_total size) hsize)
    · exact rejectsRequest_of_le hge
  refine ⟨⟨fun hfree => ?_, ?_⟩, hreject, ?_⟩
  · by_contra hmisfit
    obtain ⟨k, e, herror⟩ := (hreject hmisfit).exists_error
    exact hfree k e herror
  · rintro ⟨rfl, hlt⟩ k e herror
    obtain ⟨-, hcalls⟩ := yieldsProof_path H hne hnodes hlt
    obtain ⟨entry, -, hentry⟩ := Option.map_eq_some_iff.mp ((hcalls k).symm.trans herror)
    cases hentry
  · intro hlt k it hit
    have hahead := (MerkleTree.ProofIter.init_ahead (t := tree) hlt).iterate (t := tree) k
    rw [hit] at hahead
    exact Nat.lt_of_le_of_lt hahead.offset_add_size_le hsize

/-- A tree over three leaves, asked for a proof as if it had four. -/
theorem make_merkle_proof_detects_misfit_padded :
    ∃ tree, MerkleTree.tryNew sha256Hasher ((List.replicate 3 plainHash).map .ok) = .ok tree ∧
      RejectsRequest tree 1 4 :=
  ⟨_, MerkleTree.tryNew_ok sha256Hasher (by decide),
    (make_merkle_proof_detects_misfit sha256Hasher _ _
      (MerkleTree.tryNew_ok sha256Hasher (by decide)) 1 4 (by decide)).2.1 (by decide)⟩

end LightweightShred
