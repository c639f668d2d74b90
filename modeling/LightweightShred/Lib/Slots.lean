import Mathlib

/-!
# Keyed items in numbered slots

A list whose keys increase fills some slots of `0 .. n` and leaves the others missing.
-/
namespace Slots
variable {α : Type*} (key : α → Nat)

/-- The item of a list that belongs into slot `i`. -/
def held (l : List α) (i : Nat) : Option α := l.find? fun a => key a == i

/-- The slots below `n` without an item, in order. -/
def missing (l : List α) (n : Nat) : List Nat :=
  (List.range n).filter fun i => (held key l i).isNone

/-- The keys increase along the list. -/
def Increasing (l : List α) : Prop := l.Pairwise fun a b => key a < key b

variable {key} {l : List α} {a : α} {i n : Nat}

theorem key_of_held (h : held key l i = some a) : key a = i := by
  simpa using List.find?_some h

theorem mem_of_held (h : held key l i = some a) : a ∈ l := List.mem_of_find?_eq_some h

theorem held_eq_none : held key l i = none ↔ ∀ a ∈ l, key a ≠ i := by
  simp [held, List.find?_eq_none]

theorem held_cons_self (a : α) (l : List α) : held key (a :: l) (key a) = some a := by simp [held]

theorem held_cons_ne (h : key a ≠ i) : held key (a :: l) i = held key l i := by
  simp [held, h]

theorem held_of_mem (hl : Increasing key l) (ha : a ∈ l) : held key l (key a) = some a := by
  induction l with
  | nil => cases ha
  | cons b l ih =>
      obtain ⟨hb, htail⟩ := List.pairwise_cons.mp hl
      rcases List.mem_cons.mp ha with rfl | ha
      · exact held_cons_self a l
      · rw [held_cons_ne (Nat.ne_of_lt (hb a ha)), ih htail ha]

theorem held_eq_some (hl : Increasing key l) : held key l i = some a ↔ a ∈ l ∧ key a = i :=
  ⟨fun h => ⟨mem_of_held h, key_of_held h⟩, fun ⟨ha, hi⟩ => hi ▸ held_of_mem hl ha⟩

theorem mem_missing : i ∈ missing key l n ↔ i < n ∧ ∀ a ∈ l, key a ≠ i := by
  rw [missing, List.mem_filter, List.mem_range, Option.isNone_iff_eq_none, held_eq_none]

theorem missing_sorted (l : List α) (n : Nat) : (missing key l n).Pairwise (· < ·) :=
  List.pairwise_lt_range.filter _

theorem Increasing.nodup_keys (hl : Increasing key l) : (l.map key).Nodup :=
  List.pairwise_map.mpr (hl.imp Nat.ne_of_lt)

theorem Increasing.injective (hl : Increasing key l) {b : α} (ha : a ∈ l) (hb : b ∈ l)
    (hab : key a = key b) : a = b := by
  have h := held_of_mem hl ha
  rw [hab, held_of_mem hl hb] at h
  exact (Option.some.inj h).symm

theorem keys_append_missing (hl : Increasing key l) (hb : ∀ a ∈ l, key a < n) :
    (l.map key ++ missing key l n).Perm (List.range n) := by
  apply (List.perm_ext_iff_of_nodup _ List.nodup_range).mpr
  · intro i
    rw [List.mem_append, List.mem_map, mem_missing, List.mem_range]
    constructor
    · rintro (⟨a, ha, rfl⟩ | ⟨hi, -⟩)
      · exact hb a ha
      · exact hi
    · intro hi
      by_cases h : ∃ a ∈ l, key a = i
      · exact .inl h
      · exact .inr ⟨hi, fun a ha hk => h ⟨a, ha, hk⟩⟩
  · refine List.nodup_append'.mpr ⟨hl.nodup_keys, List.nodup_range.filter _, ?_⟩
    intro i hi hm
    obtain ⟨a, ha, rfl⟩ := List.mem_map.mp hi
    exact (mem_missing.mp hm).2 a ha rfl

theorem length_missing (hl : Increasing key l) (hb : ∀ a ∈ l, key a < n) :
    l.length + (missing key l n).length = n := by
  have h := (keys_append_missing hl hb).length_eq
  rwa [List.length_append, List.length_map, List.length_range] at h

theorem missing_prefix {m : Nat} (h : m ≤ n) : missing key l m <+: missing key l n := by
  obtain ⟨d, rfl⟩ := Nat.exists_eq_add_of_le h
  rw [missing, missing, List.range_add, List.filter_append]
  exact List.prefix_append _ _

theorem Increasing.le_last (hl : Increasing key l) (hlast : l.getLast? = some a) {b : α}
    (hb : b ∈ l) : key b ≤ key a := by
  have hne := List.ne_nil_of_mem hb
  have hle := (hl.imp Nat.le_of_lt).rel_getLast_of_rel_getLast_getLast hb (Nat.le_refl _)
  rw [List.getLast?_eq_some_getLast hne] at hlast
  rwa [Option.some.inj hlast] at hle

theorem length_le_of_keys {lo : Nat} (hl : l.Pairwise fun a b => key a ≠ key b)
    (hb : ∀ a ∈ l, lo ≤ key a ∧ key a < lo + n) : l.length ≤ n := by
  have hnodup : (l.map key).Nodup := List.pairwise_map.mpr hl
  have hsub : l.map key ⊆ List.range' lo n := by
    intro k hk
    obtain ⟨a, ha, rfl⟩ := List.mem_map.mp hk
    exact List.mem_range'_1.mpr (hb a ha)
  have hlen := (List.subperm_of_subset hnodup hsub).length_le
  rwa [List.length_map, List.length_range'] at hlen

theorem held_of_full (hl : Increasing key l) (hb : ∀ a ∈ l, key a < l.length) (i : Nat) :
    held key l i = l[i]? := by
  have hkeys : l.map key = List.range l.length := by
    have hperm := keys_append_missing hl hb
    have hlen := length_missing hl hb
    rw [List.length_eq_zero_iff.mp (by omega : (missing key l l.length).length = 0),
      List.append_nil] at hperm
    exact hperm.eq_of_pairwise' (List.pairwise_map.mpr hl) List.pairwise_lt_range
  cases ha : l[i]? with
  | none =>
      rw [held_eq_none]
      intro a hmem hk
      have := hb a hmem
      rw [List.getElem?_eq_none_iff] at ha
      omega
  | some a =>
      refine (held_eq_some hl).mpr ⟨List.mem_of_getElem? ha, ?_⟩
      have hk := congrArg (fun ks => ks[i]?) hkeys
      obtain ⟨hi, rfl⟩ := List.getElem?_eq_some_iff.mp ha
      simpa [hi] using hk

section Split
variable {nd nc : Nat} {D C : List Nat}

theorem perm_split (h : (D ++ C).Perm (List.range (nd + nc))) (hC : ∀ c ∈ C, nd ≤ c) :
    (∀ d ∈ D, d < nd) ↔ D.Perm (List.range nd) := by
  constructor
  · intro hD
    have hf := h.filter (· < nd)
    have hCnil : C.filter (· < nd) = [] := by
      rw [List.filter_eq_nil_iff]
      intro c hc
      have := hC c hc
      simp only [decide_eq_true_eq]
      omega
    have hDself : D.filter (· < nd) = D :=
      List.filter_eq_self.mpr fun d hd => decide_eq_true (hD d hd)
    have hrange : (List.range (nd + nc)).filter (· < nd) = List.range nd := by
      rw [List.range_add, List.filter_append, List.filter_eq_self.mpr
        fun i hi => decide_eq_true (List.mem_range.mp hi), List.filter_eq_nil_iff.mpr,
        List.append_nil]
      intro i hi
      obtain ⟨j, -, rfl⟩ := List.mem_map.mp hi
      simp
    rwa [List.filter_append, hCnil, List.append_nil, hDself, hrange] at hf
  · intro hp d hd
    exact List.mem_range.mp (hp.mem_iff.mp hd)

theorem perm_upper (h : (D ++ C).Perm (List.range (nd + nc))) (hD : D.Perm (List.range nd)) :
    (C.map (· - nd)).Perm (List.range nc) := by
  rw [List.range_add] at h
  have hC := (List.perm_append_left_iff _).mp ((hD.symm.append_right C).trans h)
  have hm := hC.map (· - nd)
  rw [List.map_map] at hm
  simpa [Function.comp_def] using hm

theorem start_eq_of_perm {f g : Nat} {X : List Nat} (h : X.Perm ((List.range nc).map (f + ·)))
    (hle : ∀ x ∈ X, x ≤ g + (nc - 1)) (hmem : g + (nc - 1) ∈ X) : f = g := by
  obtain ⟨j, hj, hjg⟩ := List.mem_map.mp (h.mem_iff.mp hmem)
  have hj' := List.mem_range.mp hj
  have htop : f + (nc - 1) ∈ X :=
    h.mem_iff.mpr (List.mem_map_of_mem (List.mem_range.mpr (by omega)))
  have := hle _ htop
  omega

end Split

section Updates
variable {x y : α} {j : Nat}

theorem mem_set_cases (h : x ∈ l.set i a) :
    x = a ∨ ∃ j, i ≠ j ∧ l[j]? = some x := by
  obtain ⟨j, hj⟩ := List.mem_iff_getElem?.mp h
  by_cases same : i = j
  · subst same
    rw [List.getElem?_set_self'] at hj
    obtain ⟨old, -, hnew⟩ := Option.map_eq_some_iff.mp hj
    exact .inl hnew.symm
  · exact .inr ⟨j, same, (List.getElem?_set_ne same).symm.trans hj⟩

theorem map_set_same {β : Type*} {f : α → β} (there : l[i]? = some x)
    (same : f y = f x) : (l.set i y).map f = l.map f := by
  obtain ⟨hlt, hget⟩ := List.getElem?_eq_some_iff.mp there
  have hmap : i < (l.map f).length := by rwa [List.length_map]
  have hx : (l.map f)[i] = f y := by rw [List.getElem_map, hget, same]
  rw [List.map_set, ← hx, List.set_getElem_self]

theorem index_unique [BEq α] [LawfulBEq α] (once : l.count a ≤ 1) (hi : l[i]? = some a) (hj : l[j]? = some a) : i = j := by
  have twice : ∀ {i j : Nat}, l[i]? = some a → l[j]? = some a → ¬i < j := by
    intro i j hi hj hlt
    obtain ⟨hi, hgi⟩ := List.getElem?_eq_some_iff.mp hi
    obtain ⟨hj, hgj⟩ := List.getElem?_eq_some_iff.mp hj
    have hdup : List.Duplicate a l :=
      List.duplicate_iff_exists_distinct_get.mpr ⟨⟨i, hi⟩, ⟨j, hj⟩, hlt, hgi.symm, hgj.symm⟩
    have htwo : 2 ≤ l.count a :=
      List.replicate_sublist_iff.mp (List.duplicate_iff_sublist.mp hdup)
    omega
  exact Nat.le_antisymm (Nat.le_of_not_lt (twice hj hi)) (Nat.le_of_not_lt (twice hi hj))

end Updates

end Slots
