import Mathlib.LinearAlgebra.Lagrange

/-!
# Erasure codes by interpolation

A word is the list of the values of a polynomial of degree less than `d` at distinct points, one
for each position. So any `d` of its symbols determine it. Blocks of equal length are coded
column by column.
-/
namespace ErasureCode
open Polynomial

section Symbols
variable {F : Type*} [Field F] (v : ℕ → F)

/-- The value at a position of the polynomial through the values at the positions `s`. -/
noncomputable def extend (s : Finset ℕ) (r : ℕ → F) (i : ℕ) : F :=
  (Lagrange.interpolate s v r).eval (v i)

variable {v} {s t : Finset ℕ} {r r' : ℕ → F} {i : ℕ}

theorem extend_of_mem (hs : Set.InjOn v s) (hi : i ∈ s) : extend v s r i = r i :=
  Lagrange.eval_interpolate_at_node r hs hi

theorem extend_congr (h : ∀ i ∈ s, r i = r' i) : extend v s r = extend v s r' := by
  funext i
  rw [extend, extend, Lagrange.interpolate_eq_of_values_eq_on r r' h]

theorem extend_extend (hs : Set.InjOn v s) (ht : Set.InjOn v t) (hcard : s.card ≤ t.card) (i : ℕ) :
    extend v t (extend v s r) i = extend v s r i := by
  have hdegree : (Lagrange.interpolate s v r).degree < t.card :=
    lt_of_lt_of_le (Lagrange.degree_interpolate_lt r hs) (Nat.cast_le.mpr hcard)
  have hsame := Lagrange.eq_interpolate_of_eval_eq (extend v s r) ht hdegree fun _ _ => rfl
  rw [extend, ← hsame]
  rfl

end Symbols

section Blocks
variable {F A : Type*} [Field F] (e : A ≃ F) (v : ℕ → F)

/-- Column `k` of a list of blocks. -/
def symbol (blocks : List (List A)) (k i : ℕ) : F := ((blocks.getD i [])[k]?).elim 0 e

/-- The block at a position, from the blocks at the positions `s`. -/
noncomputable def block (size : ℕ) (s : Finset ℕ) (blocks : List (List A)) (i : ℕ) : List A :=
  (List.range size).map fun k => e.symm (extend v s (symbol e blocks k) i)

/-- The `p` blocks that are stored behind `d` blocks of data. -/
noncomputable def parity (d p : ℕ) (data : List (List A)) : List (List A) :=
  (List.range p).map fun j => block e v (data.headD []).length (Finset.range d) data (d + j)

/-- The first `d` positions that are given. -/
def chosen (d : ℕ) (given : List (List A × Bool)) : Finset ℕ :=
  (((List.range given.length).filter fun i => (given[i]?).any Prod.snd).take d).toFinset

/-- What is given stays, and the rest is computed from the first `d` given blocks. -/
noncomputable def reconstruct (d : ℕ) (given : List (List A × Bool)) : List (List A) :=
  given.mapIdx fun i g =>
    if g.2 then g.1 else block e v g.1.length (chosen d given) (given.map Prod.fst) i

variable {e v} {d p size : ℕ} {s : Finset ℕ} {word blocks : List (List A)}
  {given : List (List A × Bool)} {i k : ℕ}

@[simp] theorem length_block : (block e v size s blocks i).length = size := by simp [block]

theorem getElem?_block (hk : k < size) :
    (block e v size s blocks i)[k]? = some (e.symm (extend v s (symbol e blocks k) i)) := by
  rw [block, List.getElem?_map, List.getElem?_range hk]
  rfl

theorem mem_chosen (h : i ∈ chosen d given) : ∃ b, given[i]? = some (b, true) := by
  have hmem := List.mem_of_mem_take (List.mem_toFinset.mp h)
  obtain ⟨-, hgiven⟩ := List.mem_filter.mp hmem
  obtain ⟨⟨b, m⟩, hb, hm⟩ := (Option.any_eq_true _ _).mp hgiven
  change m = true at hm
  subst hm
  exact ⟨b, hb⟩

theorem length_given (given : List (List A × Bool)) :
    ((List.range given.length).filter fun i => (given[i]?).any Prod.snd).length =
      given.countP (·.2) := by
  have hself : given = (List.range given.length).map fun i => given.getD i ([], false) := by
    apply List.ext_getElem (by simp)
    intro i h1 h2
    simp [h1]
  conv_rhs => rw [hself, List.countP_map]
  rw [← List.countP_eq_length_filter]
  refine List.countP_congr fun i hi => ?_
  simp [List.mem_range.mp hi]

theorem card_chosen (h : d ≤ given.countP (·.2)) : (chosen d given).card = d := by
  have hnodup : (((List.range given.length).filter fun i => (given[i]?).any Prod.snd).take d).Nodup :=
    (List.nodup_range.filter _).sublist (List.take_sublist _ _)
  rw [chosen, List.toFinset_card_of_nodup hnodup, List.length_take, length_given]
  exact Nat.min_eq_left h

theorem mem_chosen_of_given {b : List A} (h : given.countP (·.2) ≤ d)
    (hi : given[i]? = some (b, true)) : i ∈ chosen d given := by
  rw [chosen, List.take_of_length_le (by rw [length_given]; exact h), List.mem_toFinset]
  refine List.mem_filter.mpr ⟨List.mem_range.mpr (List.getElem?_eq_some_iff.mp hi).1, ?_⟩
  rw [hi]
  rfl

theorem symbol_word (hv : Set.InjOn v (Set.Iio (d + p))) (hd : 1 ≤ d) (hlen : word.length = d + p)
    (hsize : ∀ w ∈ word, w.length = size) (hpar : word.drop d = parity e v d p (word.take d))
    (hk : k < size) (hi : i < d + p) :
    extend v (Finset.range d) (symbol e word k) i = symbol e word k i := by
  have hinj : Set.InjOn v (Finset.range d) := hv.mono fun j hj =>
    Nat.lt_of_lt_of_le (Finset.mem_range.mp hj) (Nat.le_add_right d p)
  rcases Nat.lt_or_ge i d with hlt | hge
  · exact extend_of_mem hinj (Finset.mem_range.mpr hlt)
  · -- a parity symbol is by definition the extension of the data symbols
    have hhead : ((word.take d).headD []).length = size := by
      cases word with
      | nil =>
          rw [List.length_nil] at hlen
          omega
      | cons w word =>
          obtain ⟨d', rfl⟩ := Nat.exists_eq_add_of_le' hd
          exact hsize w List.mem_cons_self
    have hget : word[i]? = some (block e v size (Finset.range d) (word.take d) i) := by
      have hdrop : (word.drop d)[i - d]? = word[i]? := by
        rw [List.getElem?_drop, Nat.add_sub_of_le hge]
      rw [← hdrop, hpar, parity, List.getElem?_map, List.getElem?_range (by omega), hhead]
      simp only [Option.map_some, Nat.add_sub_of_le hge]
    have hdata : ∀ j ∈ Finset.range d, symbol e word k j = symbol e (word.take d) k j := by
      intro j hj
      simp only [symbol, List.getD_eq_getElem?_getD,
        List.getElem?_take_of_lt (Finset.mem_range.mp hj)]
    rw [extend_congr hdata]
    conv_rhs => rw [symbol, List.getD_eq_getElem?_getD, hget, Option.getD_some, getElem?_block hk]
    exact (e.apply_symm_apply _).symm

theorem block_eq (hv : Set.InjOn v (Set.Iio (d + p))) (hd : 1 ≤ d) (hlen : word.length = d + p)
    (hsize : ∀ w ∈ word, w.length = size) (hpar : word.drop d = parity e v d p (word.take d))
    (hs : ∀ j ∈ s, j < d + p) (hcard : d ≤ s.card)
    (hsame : ∀ j ∈ s, blocks.getD j [] = word.getD j []) (hi : i < d + p) :
    block e v size s blocks i = word.getD i [] := by
  have hgetD : word.getD i [] = word[i] := by
    rw [List.getD_eq_getElem?_getD, List.getElem?_eq_getElem (hlen ▸ hi), Option.getD_some]
  have hwi : (word.getD i []).length = size := by
    rw [hgetD]
    exact hsize _ (List.getElem_mem _)
  have hrange : Set.InjOn v (Finset.range d) := hv.mono fun j hj =>
    Nat.lt_of_lt_of_le (Finset.mem_range.mp hj) (Nat.le_add_right d p)
  have hinj : Set.InjOn v s := hv.mono fun j hj => hs j hj
  apply List.ext_getElem?
  intro k
  rcases Nat.lt_or_ge k size with hk | hk
  · have hcolumn : ∀ j ∈ s, symbol e blocks k j =
        extend v (Finset.range d) (symbol e word k) j := by
      intro j hj
      rw [symbol_word hv hd hlen hsize hpar hk (hs j hj), symbol, hsame j hj]
      rfl
    have hword := symbol_word hv hd hlen hsize hpar hk hi
    rw [getElem?_block hk, extend_congr hcolumn,
      extend_extend hrange hinj (by rwa [Finset.card_range]), hword, symbol,
      List.getElem?_eq_getElem (hwi ▸ hk), Option.elim_some, e.symm_apply_apply]
  · rw [List.getElem?_eq_none (by rwa [length_block]), List.getElem?_eq_none (by rwa [hwi])]

/-- Given at least `d` blocks of a word, the others in whatever state, the word comes back. -/
theorem reconstruct_eq (hv : Set.InjOn v (Set.Iio (d + p))) (hd : 1 ≤ d)
    (hlen : word.length = d + p) (hsize : ∀ w ∈ word, w.length = size)
    (hpar : word.drop d = parity e v d p (word.take d))
    (hgiven : List.Forall₂ (fun w g => g.1.length = size ∧ (g.2 = true → g.1 = w)) word given)
    (hcount : d ≤ given.countP (·.2)) : reconstruct e v d given = word := by
  have hglen : given.length = d + p := by rw [← hgiven.length_eq, hlen]
  have hat : ∀ (i : ℕ) (g : List A × Bool), given[i]? = some g →
      g.1.length = size ∧ (g.2 = true → word.getD i [] = g.1) := by
    intro i g hg
    obtain ⟨hi, rfl⟩ := List.getElem?_eq_some_iff.mp hg
    have hiw : i < word.length := by rw [hlen, ← hglen]; exact hi
    obtain ⟨h1, h2⟩ := (List.forall₂_iff_get.mp hgiven).2 i hiw hi
    refine ⟨h1, fun hm => ?_⟩
    rw [List.getD_eq_getElem?_getD, List.getElem?_eq_getElem hiw, Option.getD_some]
    exact (h2 hm).symm
  apply List.ext_getElem?
  intro i
  rw [reconstruct, List.getElem?_mapIdx]
  cases hg : given[i]? with
  | none =>
      have hge := List.getElem?_eq_none_iff.mp hg
      rw [List.getElem?_eq_none (by rw [hlen, ← hglen]; exact hge)]
      rfl
  | some g =>
      obtain ⟨hgsize, hkept⟩ := hat i g hg
      have hi : i < d + p := hglen ▸ (List.getElem?_eq_some_iff.mp hg).1
      have hword : word[i]? = some (word.getD i []) := by
        rw [List.getD_eq_getElem?_getD, List.getElem?_eq_getElem (hlen ▸ hi), Option.getD_some]
      rw [hword, Option.map_some, Option.some.injEq]
      by_cases hm : g.2 = true
      · rw [if_pos hm, hkept hm]
      · rw [if_neg hm, hgsize]
        refine block_eq hv hd hlen hsize hpar ?_ (Nat.le_of_eq (card_chosen hcount).symm) ?_ hi
        · intro j hj
          obtain ⟨b, hb⟩ := mem_chosen hj
          exact hglen ▸ (List.getElem?_eq_some_iff.mp hb).1
        · intro j hj
          obtain ⟨b, hb⟩ := mem_chosen hj
          rw [(hat j _ hb).2 rfl, List.getD_eq_getElem?_getD, List.getElem?_map, hb]
          rfl

theorem getElem?_reconstruct (hv : Set.InjOn v (Set.Iio given.length))
    (hsize : ∀ g ∈ given, g.1.length = size) (hcount : given.countP (·.2) ≤ d)
    (hi : i < given.length) : (reconstruct e v d given)[i]? =
      some (block e v size (chosen d given) (given.map Prod.fst) i) := by
  obtain ⟨g, hg⟩ : ∃ g, given[i]? = some g := ⟨_, List.getElem?_eq_getElem hi⟩
  have hlen := hsize g (List.mem_of_getElem? hg)
  rw [reconstruct, List.getElem?_mapIdx, hg, Option.map_some, Option.some.injEq]
  by_cases hm : g.2 = true
  · have hgiven : given[i]? = some (g.1, true) := by rw [hg, ← hm]
    have hinj : Set.InjOn v (chosen d given) := hv.mono fun j hj => by
      obtain ⟨b, hb⟩ := mem_chosen hj
      exact (List.getElem?_eq_some_iff.mp hb).1
    rw [if_pos hm]
    apply List.ext_getElem?
    intro k
    rcases Nat.lt_or_ge k size with hk | hk
    · rw [getElem?_block hk, extend_of_mem hinj (mem_chosen_of_given hcount hgiven), symbol,
        List.getD_eq_getElem?_getD, List.getElem?_map, hg, Option.map_some, Option.getD_some,
        List.getElem?_eq_getElem (hlen ▸ hk), Option.elim_some, e.symm_apply_apply]
    · rw [List.getElem?_eq_none (by rwa [hlen]), List.getElem?_eq_none (by rwa [length_block])]
  · rw [if_neg hm, hlen]

theorem reconstruct_word (hv : Set.InjOn v (Set.Iio (d + p))) (hd : 1 ≤ d)
    (hlen : given.length = d + p) (hsize : ∀ g ∈ given, g.1.length = size)
    (hcount : given.countP (·.2) = d) :
    (reconstruct e v d given).drop d = parity e v d p ((reconstruct e v d given).take d) := by
  have hget : ∀ i < d + p, (reconstruct e v d given)[i]? =
      some (block e v size (chosen d given) (given.map Prod.fst) i) := fun i hi =>
    getElem?_reconstruct (hlen ▸ hv) hsize (Nat.le_of_eq hcount) (hlen ▸ hi)
  have hhead : (((reconstruct e v d given).take d).headD []).length = size := by
    rw [List.headD_eq_head?_getD, List.head?_take, if_neg (by omega), List.head?_eq_getElem?,
      hget 0 (by omega), Option.getD_some, length_block]
  have hrange : Set.InjOn v (Finset.range d) := hv.mono fun j hj =>
    Nat.lt_of_lt_of_le (Finset.mem_range.mp hj) (Nat.le_add_right d p)
  have hinj : Set.InjOn v (chosen d given) := hv.mono fun j hj => by
    obtain ⟨b, hb⟩ := mem_chosen hj
    exact hlen ▸ (List.getElem?_eq_some_iff.mp hb).1
  apply List.ext_getElem?
  intro j
  rw [List.getElem?_drop, parity, List.getElem?_map, hhead]
  rcases Nat.lt_or_ge j p with hj | hj
  · rw [hget _ (by omega), List.getElem?_range hj, Option.map_some, Option.some.injEq]
    apply List.ext_getElem?
    intro k
    rcases Nat.lt_or_ge k size with hk | hk
    · have hdata : ∀ i ∈ Finset.range d, symbol e ((reconstruct e v d given).take d) k i =
          extend v (chosen d given) (symbol e (given.map Prod.fst) k) i := by
        intro i hi
        have hid := Finset.mem_range.mp hi
        rw [symbol, List.getD_eq_getElem?_getD, List.getElem?_take_of_lt hid, hget i (by omega),
          Option.getD_some, getElem?_block hk]
        exact e.apply_symm_apply _
      rw [getElem?_block hk, getElem?_block hk, extend_congr hdata, extend_extend hinj hrange
        (by rw [Finset.card_range, card_chosen (Nat.le_of_eq hcount.symm)])]
    · rw [List.getElem?_eq_none (by rwa [length_block]), List.getElem?_eq_none (by rwa [length_block])]
  · have hnone : (reconstruct e v d given).length ≤ d + j := by
      rw [reconstruct, List.length_mapIdx, hlen]
      omega
    rw [List.getElem?_eq_none hnone, List.getElem?_eq_none (by rwa [List.length_range])]
    rfl

end Blocks

end ErasureCode
