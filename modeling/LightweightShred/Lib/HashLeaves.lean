import LightweightShred.Lib.HashScheme

/-!
# The leaves that a root commits to

Joining blocks by concatenation spells out the list that a tree stands for: its leaves, with
the last block of every odd level standing twice. Two trees have one root exactly when they
spell out one list, collisions apart.
-/
namespace HashTree

section Relation
variable {α β : Type*} {f : α → α → α} {g : β → β → β} {R : α → β → Prop}

theorem forall₂_parents (h : ∀ a b x y, R a x → R b y → R (f a b) (g x y)) {l : List α}
    {r : List β} (hl : List.Forall₂ R l r) : List.Forall₂ R (parents f l) (parents g r) := by
  induction l using parents.induct generalizing r with
  | case1 =>
      cases hl
      exact .nil
  | case2 a =>
      cases hl with
      | cons ha hnil =>
          cases hnil
          exact .cons (h _ _ _ _ ha ha) .nil
  | case3 a b rest ih =>
      cases hl with
      | cons ha hl =>
          cases hl with
          | cons hb hl => exact .cons (h _ _ _ _ ha hb) (ih hl)

theorem forall₂_level (h : ∀ a b x y, R a x → R b y → R (f a b) (g x y)) {l : List α}
    {r : List β} (hl : List.Forall₂ R l r) (d : Nat) :
    List.Forall₂ R (level f d l) (level g d r) := by
  induction d generalizing l r with
  | zero => exact hl
  | succ d ih => exact ih (forall₂_parents h hl)

end Relation

section Spread
variable {α : Type*}

/-- The list that the tree over `xs` spells out, a join being a concatenation. -/
def spread (xs : List α) : List α :=
  (level (· ++ ·) (depth xs.length) (xs.map fun x => [x])).flatten

/-- Of six nodes the third pair stands twice. -/
example : spread [1, 2, 3, 4, 5, 6] = [1, 2, 3, 4, 5, 6, 5, 6] := by decide

theorem flatten_prefix_parents (l : List (List α)) : l.flatten <+: (parents (· ++ ·) l).flatten := by
  induction l using parents.induct with
  | case1 => exact List.prefix_rfl
  | case2 a => simp [parents]
  | case3 a b rest ih => simpa [parents] using ih

theorem flatten_prefix_level (d : Nat) (l : List (List α)) :
    l.flatten <+: (level (· ++ ·) d l).flatten := by
  induction d generalizing l with
  | zero => exact List.prefix_rfl
  | succ d ih => exact (flatten_prefix_parents l).trans (ih _)

theorem prefix_spread (xs : List α) : xs <+: spread xs := by
  have h := flatten_prefix_level (depth xs.length) (xs.map fun x => [x])
  rwa [← List.flatMap_def, List.flatMap_singleton'] at h

theorem prefix_or_prefix_of_spread_eq {xs ys : List α} (h : spread xs = spread ys) :
    xs <+: ys ∨ ys <+: xs :=
  List.prefix_or_prefix_of_prefix (prefix_spread xs) (h ▸ prefix_spread ys)

theorem mem_flatten_parents {x : α} {l : List (List α)}
    (h : x ∈ (parents (· ++ ·) l).flatten) : x ∈ l.flatten := by
  induction l using parents.induct with
  | case1 => exact h
  | case2 a => simpa [parents] using h
  | case3 a b rest ih =>
      simp only [parents, List.flatten_cons, List.mem_append] at h ⊢
      rcases h with (ha | hb) | hrest
      · exact .inl ha
      · exact .inr (.inl hb)
      · exact .inr (.inr (ih hrest))

theorem mem_of_mem_spread {x : α} {xs : List α} (h : x ∈ spread xs) : x ∈ xs := by
  have hlevel : ∀ (d : Nat) (l : List (List α)), x ∈ (level (· ++ ·) d l).flatten → x ∈ l.flatten := by
    intro d
    induction d with
    | zero => exact fun l hx => hx
    | succ d ih => exact fun l hx => mem_flatten_parents (ih _ hx)
  have hflat := hlevel _ _ h
  rwa [← List.flatMap_def, List.flatMap_singleton'] at hflat

theorem eq_of_spread_eq {xs ys : List α} (h : spread xs = spread ys)
    (hlen : xs.length = ys.length) : xs = ys :=
  (List.prefix_of_prefix_length_le (prefix_spread xs) (h ▸ prefix_spread ys)
    (Nat.le_of_eq hlen)).eq_of_length hlen

end Spread

end HashTree

namespace HashScheme
open HashTree

variable {Leaf Msg Digest Tag : Type*} (S : Scheme Leaf Msg Digest Tag)

namespace Term

/-- The explained leaves, left to right. -/
def leaves : Term Leaf Tag → List Leaf
  | .leaf x => [x]
  | .hidden _ => []
  | .node l r => l.leaves ++ r.leaves

/-- The digest of an explained term. -/
def digest? : Term Leaf Tag → Option Digest
  | .leaf x => some (S.leafDigest x)
  | .hidden _ => none
  | .node l r => some (S.pair (l.tag S) (r.tag S))

theorem tag_of_digest? {u : Term Leaf Tag} {a : Digest} (h : u.digest? S = some a) :
    u.tag S = S.trunc a := by
  cases u with
  | leaf x => exact congrArg S.trunc (Option.some.inj h)
  | hidden t => cases h
  | node l r => exact congrArg S.trunc (Option.some.inj h)

theorem Perfect.length_leaves {k : Nat} {u : Term Leaf Tag} (h : Perfect k u) :
    u.leaves.length = 2 ^ k := by
  induction u generalizing k with
  | leaf x =>
      cases k with
      | zero => rfl
      | succ k => exact h.elim
  | hidden t => cases k <;> exact h.elim
  | node l r ihl ihr =>
      cases k with
      | zero => exact h.elim
      | succ k => rw [leaves, List.length_append, ihl h.1, ihr h.2, pow_succ]; omega

theorem Perfect.ext {k : Nat} {u v : Term Leaf Tag} (hu : Perfect k u) (hv : Perfect k v)
    (h : u.leaves = v.leaves) : u = v := by
  induction k generalizing u v with
  | zero =>
      cases u with
      | leaf x =>
          cases v with
          | leaf y => exact congrArg leaf (List.singleton_inj.mp h)
          | hidden t => exact hv.elim
          | node l r => exact hv.elim
      | hidden t => exact hu.elim
      | node l r => exact hu.elim
  | succ k ih =>
      cases u with
      | node l r =>
          cases v with
          | node l' r' =>
              obtain ⟨hl, hr⟩ := List.append_inj h
                (hu.1.length_leaves.trans hv.1.length_leaves.symm)
              rw [ih hu.1 hv.1 hl, ih hu.2 hv.2 hr]
          | leaf y => exact hv.elim
          | hidden t => exact hv.elim
      | leaf x => exact hu.elim
      | hidden t => exact hu.elim

theorem Agree.eq_of_perfect {k j : Nat} {u v : Term Leaf Tag} (h : u.Agree S v)
    (hu : Perfect k u) (hv : Perfect j v) : u = v := by
  induction u generalizing k j v with
  | leaf x =>
      cases v with
      | leaf y => exact congrArg leaf h
      | hidden t => cases j <;> exact hv.elim
      | node l r => exact h.elim
  | hidden t => cases k <;> exact hu.elim
  | node l r ihl ihr =>
      cases v with
      | leaf y => exact h.elim
      | hidden t => cases j <;> exact hv.elim
      | node l' r' =>
          cases k with
          | zero => exact hu.elim
          | succ k =>
              cases j with
              | zero => exact hv.elim
              | succ j => rw [ihl h.1 hu.1 hv.1, ihr h.2 hu.2 hv.2]

/-- Two paths of one length at one index agree only with the same siblings. -/
theorem Agree.chains {i : Nat} {u v : Term Leaf Tag} {es fs : List Tag}
    (hlen : es.length = fs.length) (h : (chain i u es).Agree S (chain i v fs)) :
    u.Agree S v ∧ es = fs := by
  induction es generalizing i u v fs with
  | nil =>
      obtain rfl := List.length_eq_zero_iff.mp hlen.symm
      exact ⟨h, rfl⟩
  | cons e es ih =>
      cases fs with
      | nil => cases hlen
      | cons f fs =>
          rw [chain_cons, chain_cons] at h
          obtain ⟨hnode, hrest⟩ := ih (Nat.succ.inj hlen) h
          by_cases hpar : i % 2 = 0
          · rw [if_pos hpar, if_pos hpar] at hnode
            exact ⟨hnode.1, by rw [hrest, show e = f from hnode.2]⟩
          · rw [if_neg hpar, if_neg hpar] at hnode
            exact ⟨hnode.2, by rw [hrest, show e = f from hnode.1]⟩

theorem Agree.descend_leaves {i k : Nat} {u t : Term Leaf Tag} {es : List Tag}
    (h : (chain i u es).Agree S t) (ht : Perfect k t) :
    ∃ k' t', Perfect k' t' ∧ u.Agree S t' ∧ t'.leaves ⊆ t.leaves := by
  induction es generalizing i u with
  | nil => exact ⟨k, t, ht, h, List.Subset.refl _⟩
  | cons e es ih =>
      rw [chain_cons] at h
      obtain ⟨k', t', hp, ha, hsub⟩ := ih h
      cases t' with
      | leaf x => split at ha <;> exact ha.elim
      | hidden t => cases k' <;> exact hp.elim
      | node l r =>
          cases k' with
          | zero => exact hp.elim
          | succ k' =>
              split at ha
              · exact ⟨k', l, hp.1, ha.1, fun x hx => hsub (List.mem_append_left _ hx)⟩
              · exact ⟨k', r, hp.2, ha.2, fun x hx => hsub (List.mem_append_right _ hx)⟩

/-- Whatever index it claims, a path that agrees with a tree starts at one of its leaves. -/
theorem Agree.leaf_mem {i k : Nat} {x : Leaf} {t : Term Leaf Tag} {es : List Tag}
    (h : (chain i (.leaf x) es).Agree S t) (ht : Perfect k t) : x ∈ t.leaves := by
  obtain ⟨k', t', hp, ha, hsub⟩ := Agree.descend_leaves S h ht
  cases t' with
  | leaf y => exact hsub (by rw [show x = y from ha]; exact List.mem_singleton_self y)
  | hidden t => cases k' <;> exact hp.elim
  | node l r => exact ha.elim

end Term

section Roots
variable {xs ys : List Leaf}

/-- The leaves of the whole tree are the list that it spells out. -/
theorem leaves_of_level {t : Term Leaf Tag}
    (ht : level .node (depth xs.length) (xs.map (Term.leaf : Leaf → Term Leaf Tag)) = [t]) :
    t.leaves = spread xs := by
  have hmap := level_map Term.node (· ++ ·) (f := Term.leaves) (fun _ _ => rfl)
    (depth xs.length) (xs.map (Term.leaf : Leaf → Term Leaf Tag))
  rw [ht, List.map_map] at hmap
  rw [spread, ← List.append_nil t.leaves]
  exact congrArg List.flatten hmap

theorem exists_root (h : xs ≠ []) :
    ∃ (t : Term Leaf Tag) (r : Digest),
      level S.join (depth xs.length) (xs.map S.leafDigest) = [r] ∧ t.digest? S = some r ∧
      t.Perfect (depth xs.length) ∧ t.leaves = spread xs ∧
      ∀ m ∈ t.msgs S, m ∈ leafTreeMsgs S xs := by
  obtain ⟨t, r, ht, hr, -, hperfect, hmsgs⟩ := exists_top S h
  refine ⟨t, r, hr, ?_, hperfect, leaves_of_level ht, hmsgs⟩
  · have hstep : ∀ (a b : Term Leaf Tag) (x y : Digest), a.digest? S = some x →
        b.digest? S = some y → (Term.node a b).digest? S = some (S.join x y) := by
      intro a b x y ha hb
      rw [Term.digest?, Term.tag_of_digest? S ha, Term.tag_of_digest? S hb, Scheme.join]
    have hbase : List.Forall₂ (fun (u : Term Leaf Tag) a => u.digest? S = some a)
        (xs.map .leaf) (xs.map S.leafDigest) := by
      rw [List.forall₂_map_left_iff, List.forall₂_map_right_iff]
      exact List.forall₂_same.mpr fun _ _ => rfl
    have hall := forall₂_level hstep hbase (depth xs.length)
    rw [ht, hr] at hall
    cases hall with
    | cons h _ => exact h

/-- Trees of one root spell out one list, or two of the hashed messages collide. -/
theorem spread_eq_or_collision (hx : xs ≠ []) (hy : ys ≠ []) {r : Digest}
    (hr : level S.join (depth xs.length) (xs.map S.leafDigest) = [r])
    (hr' : level S.join (depth ys.length) (ys.map S.leafDigest) = [r]) :
    spread xs = spread ys ∨ S.Collision (leafTreeMsgs S xs ++ leafTreeMsgs S ys) := by
  obtain ⟨t, a, ha, htag, hperfect, hleaves, hmsgs⟩ := exists_root S hx
  obtain ⟨u, b, hb, hutag, huperfect, huleaves, humsgs⟩ := exists_root S hy
  obtain rfl : a = r := List.singleton_inj.mp (ha.symm.trans hr)
  obtain rfl : b = a := List.singleton_inj.mp (hb.symm.trans hr')
  have htags := (Term.tag_of_digest? S htag).trans (Term.tag_of_digest? S hutag).symm
  rcases Term.agree_or_collision S htags with hagree | hcoll
  · left
    rw [← hleaves, ← huleaves, hagree.eq_of_perfect S hperfect huperfect]
  · right
    refine hcoll.mono fun m hm => List.mem_append.mpr ?_
    exact (List.mem_append.mp hm).imp (hmsgs m) (humsgs m)

theorem root_eq_of_spread_eq (hx : xs ≠ []) (hy : ys ≠ []) (h : spread xs = spread ys) :
    level S.join (depth xs.length) (xs.map S.leafDigest) =
      level S.join (depth ys.length) (ys.map S.leafDigest) := by
  obtain ⟨t, a, ha, htag, hperfect, hleaves, -⟩ := exists_root S hx
  obtain ⟨u, b, hb, hutag, huperfect, huleaves, -⟩ := exists_root S hy
  have hdepth : depth xs.length = depth ys.length := by
    have hlen := hperfect.length_leaves
    rw [hleaves, h, ← huleaves, huperfect.length_leaves] at hlen
    exact (Nat.pow_right_injective (Nat.le_refl 2) hlen).symm
  have htu : t = u := hperfect.ext (hdepth ▸ huperfect) (by rw [hleaves, h, huleaves])
  rw [htu, hutag] at htag
  rw [ha, hb, Option.some.inj htag]

end Roots

end HashScheme
