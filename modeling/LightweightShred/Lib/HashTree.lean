import Mathlib

/-!
# Binary trees built level by level

Adjacent elements are joined pairwise; the last one of an odd level is joined with
itself. `climb` refolds an authentication path from a position up to the top.
-/
namespace HashTree

section Levels
variable {α β : Type*} (join : α → α → α)

/-- The level above `l`. -/
def parents : List α → List α
  | [] => []
  | [a] => [join a a]
  | a :: b :: rest => join a b :: parents rest

theorem length_parents (l : List α) : (parents join l).length = (l.length + 1) / 2 := by
  induction l using parents.induct with
  | case1 => simp [parents]
  | case2 a => simp [parents]
  | case3 a b rest ih =>
      simp only [parents, List.length_cons, ih]
      omega

/-- The level `k` steps above `l`. -/
def level : Nat → List α → List α
  | 0, l => l
  | k + 1, l => level k (parents join l)

/-- The levels `0 .. d` one after another. -/
def flatten : Nat → List α → List α
  | 0, l => l
  | d + 1, l => l ++ flatten d (parents join l)

/-- The levels `0 .. d` as a list. -/
def levels : Nat → List α → List (List α)
  | 0, l => [l]
  | d + 1, l => l :: levels d (parents join l)

def depth (n : Nat) : Nat := Nat.clog 2 n

/-- The number of nodes on all levels over `n` leaves. -/
def total (n : Nat) : Nat := if n ≤ 1 then n else n + total ((n + 1) / 2)

/-- The single element at the top, by recursion on the level above. -/
def rootOf : List α → Option α
  | [] => none
  | [a] => some a
  | a :: b :: rest => rootOf (parents join (a :: b :: rest))
termination_by l => l.length
decreasing_by
  rw [length_parents, List.length_cons, List.length_cons]
  omega

/-- The top of the tree of depth `d`, by recursion on its halves: a missing right half is a
second copy of the left one. -/
def subtree : Nat → List α → Option α
  | 0, l => l.head?
  | d + 1, l =>
    (subtree d (l.take (2 ^ d))).map fun a => join a ((subtree d (l.drop (2 ^ d))).getD a)

/-- The position joined with `i` in a level of `m` elements. -/
def sibling (i m : Nat) : Nat := min (i ^^^ 1) (m - 1)

/-- The siblings met on the way up from position `i`, over `d` levels. -/
def path : Nat → Nat → List α → List α
  | 0, _, _ => []
  | d + 1, i, l => (l[sibling i l.length]?).toList ++ path d (i / 2) (parents join l)

theorem sibling_even {i : Nat} (h : i % 2 = 0) (m : Nat) : sibling i m = min (i + 1) (m - 1) := by
  rw [sibling, Nat.xor_one_of_even (Nat.even_iff.mpr h)]

theorem sibling_odd {i m : Nat} (h : i % 2 = 1) (hi : i < m) : sibling i m = i - 1 := by
  rw [sibling, Nat.xor_one_of_odd (Nat.odd_iff.mpr h)]
  omega

theorem sibling_lt {i m : Nat} (h : 0 < m) : sibling i m < m := by
  unfold sibling
  omega

theorem getElem?_parents {l : List α} {j : Nat} {a b : α} (ha : l[2 * j]? = some a)
    (hb : l[min (2 * j + 1) (l.length - 1)]? = some b) :
    (parents join l)[j]? = some (join a b) := by
  induction l using parents.induct generalizing j with
  | case1 => simp at ha
  | case2 x =>
      cases j with
      | zero =>
          simp only [List.length_singleton, Nat.sub_self, Nat.min_zero, Nat.mul_zero,
            List.getElem?_cons_zero, Option.some.injEq] at ha hb
          subst ha hb
          rfl
      | succ j => simp at ha
  | case3 x y rest ih =>
      cases j with
      | zero =>
          have h1 : min 1 ((x :: y :: rest).length - 1) = 1 := by simp
          rw [Nat.mul_zero, Nat.zero_add, h1] at hb
          simp only [Nat.mul_zero, List.getElem?_cons_zero, List.getElem?_cons_succ,
            Option.some.injEq] at ha hb
          subst ha hb
          rfl
      | succ j =>
          have hj : 2 * (j + 1) = 2 * j + 1 + 1 := by omega
          have hlt : 2 * j < rest.length := by
            by_contra hn
            rw [hj, List.getElem?_cons_succ, List.getElem?_cons_succ,
              List.getElem?_eq_none (by omega)] at ha
            cases ha
          have hmin : min (2 * (j + 1) + 1) ((x :: y :: rest).length - 1) =
              min (2 * j + 1) (rest.length - 1) + 1 + 1 := by
            simp only [List.length_cons]
            omega
          rw [hj, List.getElem?_cons_succ, List.getElem?_cons_succ] at ha
          rw [hmin, List.getElem?_cons_succ, List.getElem?_cons_succ] at hb
          simpa only [parents, List.getElem?_cons_succ] using ih ha hb

theorem getElem?_parents_of_lt {l : List α} {j : Nat} (hj : j < (parents join l).length) :
    ∃ a b, l[2 * j]? = some a ∧ l[min (2 * j + 1) (l.length - 1)]? = some b ∧
      (parents join l)[j]? = some (join a b) := by
  rw [length_parents] at hj
  obtain ⟨a, ha⟩ : ∃ a, l[2 * j]? = some a := ⟨_, List.getElem?_eq_getElem (by omega)⟩
  obtain ⟨b, hb⟩ : ∃ b, l[min (2 * j + 1) (l.length - 1)]? = some b :=
    ⟨_, List.getElem?_eq_getElem (by omega)⟩
  exact ⟨a, b, ha, hb, getElem?_parents join ha hb⟩

theorem parents_map (g : β → β → β) {f : α → β} (hf : ∀ a b, f (join a b) = g (f a) (f b))
    (l : List α) : (parents join l).map f = parents g (l.map f) := by
  induction l using parents.induct with
  | case1 => rfl
  | case2 a => simp only [parents, List.map_cons, List.map_nil, hf]
  | case3 a b rest ih => simp only [parents, List.map_cons, hf, ih]

theorem level_map (g : β → β → β) {f : α → β} (hf : ∀ a b, f (join a b) = g (f a) (f b))
    (d : Nat) (l : List α) : (level join d l).map f = level g d (l.map f) := by
  induction d generalizing l with
  | zero => rfl
  | succ d ih => rw [level, level, ih, parents_map join g hf]

theorem path_map (g : β → β → β) {f : α → β} (hf : ∀ a b, f (join a b) = g (f a) (f b))
    (d i : Nat) (l : List α) : (path join d i l).map f = path g d i (l.map f) := by
  induction d generalizing i l with
  | zero => rfl
  | succ d ih =>
      rw [path, path, List.map_append, ih, parents_map join g hf, List.length_map, List.getElem?_map]
      cases l[sibling i l.length]? <;> rfl

theorem getLast?_flatten {d : Nat} {l : List α} (h : level join d l ≠ []) :
    (flatten join d l).getLast? = (level join d l).getLast? := by
  induction d generalizing l with
  | zero => rfl
  | succ d ih =>
      rw [level] at h ⊢
      rw [flatten, List.getLast?_append, ih h]
      obtain ⟨r, hr⟩ := Option.ne_none_iff_exists'.mp (mt List.getLast?_eq_none_iff.mp h)
      rw [hr]
      rfl

theorem length_le_flatten (d : Nat) (l : List α) : l.length ≤ (flatten join d l).length := by
  cases d with
  | zero => exact Nat.le_refl _
  | succ d => rw [flatten, List.length_append]; omega

theorem length_flatten_le (d : Nat) (l : List α) :
    (flatten join d l).length ≤ 2 * l.length + d := by
  induction d generalizing l with
  | zero => rw [flatten]; omega
  | succ d ih =>
      have h := ih (parents join l)
      rw [length_parents] at h
      rw [flatten, List.length_append]
      omega

theorem depth_of_two_le {n : Nat} (h : 2 ≤ n) : depth n = depth ((n + 1) / 2) + 1 := by
  rw [depth, depth, Nat.clog_of_two_le (by decide) h, show n + 2 - 1 = n + 1 by omega]

theorem depth_of_le_one {n : Nat} (h : n ≤ 1) : depth n = 0 := Nat.clog_of_right_le_one h 2

theorem depth_le (n : Nat) : depth n ≤ n := Nat.clog_le_of_le_pow Nat.lt_two_pow_self.le

theorem level_nil (d : Nat) : level join d ([] : List α) = [] := by
  induction d with
  | zero => rfl
  | succ d ih => rw [level, parents, ih]

theorem parents_ne_nil {l : List α} (h : l ≠ []) : parents join l ≠ [] := by
  intro hnil
  have hpos : 0 < l.length := List.length_pos_iff.mpr h
  have hlen := length_parents join l
  rw [hnil, List.length_nil] at hlen
  omega

theorem exists_level_eq {d : Nat} {l : List α} (h : l ≠ []) (hd : l.length ≤ 2 ^ d) :
    ∃ r, level join d l = [r] := by
  induction d generalizing l with
  | zero =>
      have hpos : 0 < l.length := List.length_pos_iff.mpr h
      obtain ⟨r, rfl⟩ := List.length_eq_one_iff.mp (Nat.le_antisymm hd hpos)
      exact ⟨r, rfl⟩
  | succ d ih =>
      have hup : (parents join l).length ≤ 2 ^ d := by
        rw [length_parents]
        rw [pow_succ] at hd
        omega
      exact ih (parents_ne_nil join h) hup

theorem exists_level_depth {l : List α} (h : l ≠ []) : ∃ r, level join (depth l.length) l = [r] :=
  exists_level_eq join h (Nat.le_pow_clog (by decide) _)

theorem total_of_le_one {n : Nat} (h : n ≤ 1) : total n = n := by rw [total, if_pos h]

theorem total_of_two_le {n : Nat} (h : 2 ≤ n) : total n = n + total ((n + 1) / 2) := by
  rw [total, if_neg (by omega)]

/-- One more leaf is at least one more node, though rounding up may leave the levels above the
leaves as they are. -/
theorem total_strictMono : StrictMono total := by
  refine strictMono_nat_of_lt_succ fun n => ?_
  induction n using Nat.strong_induction_on with
  | _ n ih =>
      rcases Nat.lt_or_ge n 2 with hlt | hge
      · rw [total_of_le_one (n := n) (by omega)]
        rcases Nat.lt_or_ge n 1 with h0 | h1
        · rw [total_of_le_one (by omega)]
          exact Nat.lt_succ_self n
        · rw [total_of_two_le (by omega)]
          exact Nat.lt_of_lt_of_le (Nat.lt_succ_self n) (Nat.le_add_right _ _)
      · rw [total_of_two_le hge, total_of_two_le (n := n + 1) (by omega)]
        rcases Nat.mod_two_eq_zero_or_one n with heven | hodd
        · have hhalf : (n + 1 + 1) / 2 = (n + 1) / 2 + 1 := by omega
          have := ih ((n + 1) / 2) (by omega)
          rw [hhalf]
          omega
        · have hhalf : (n + 1 + 1) / 2 = (n + 1) / 2 := by omega
          rw [hhalf]
          omega

theorem le_total (n : Nat) : n ≤ total n := total_strictMono.le_apply

theorem length_flatten_depth (l : List α) :
    (flatten join (depth l.length) l).length = total l.length := by
  generalize hn : l.length = n
  induction n using Nat.strong_induction_on generalizing l with
  | _ n ih =>
      rcases Nat.lt_or_ge n 2 with hlt | hge
      · rw [depth_of_le_one (by omega), total_of_le_one (by omega), flatten, hn]
      · have hup : (parents join l).length = (n + 1) / 2 := by rw [length_parents, hn]
        rw [depth_of_two_le hge, total_of_two_le hge, flatten, List.length_append, hn,
          ih _ (by omega) _ hup]

theorem flatten_levels (d : Nat) (l : List α) : (levels join d l).flatten = flatten join d l := by
  induction d generalizing l with
  | zero => simp [levels, flatten]
  | succ d ih => rw [levels, List.flatten_cons, ih, flatten]

theorem length_levels (d : Nat) (l : List α) : (levels join d l).length = d + 1 := by
  induction d generalizing l with
  | zero => rfl
  | succ d ih => rw [levels, List.length_cons, ih]

theorem level_succ (k : Nat) (l : List α) : level join (k + 1) l = parents join (level join k l) := by
  induction k generalizing l with
  | zero => rfl
  | succ k ih => rw [level, ih, level]

theorem getElem?_levels {d k : Nat} (hk : k ≤ d) (l : List α) :
    (levels join d l)[k]? = some (level join k l) := by
  induction d generalizing k l with
  | zero =>
      obtain rfl := Nat.le_zero.mp hk
      rfl
  | succ d ih =>
      cases k with
      | zero => rfl
      | succ k => rw [levels, List.getElem?_cons_succ, ih (Nat.le_of_succ_le_succ hk), level]

theorem two_le_length_level {k : Nat} {l : List α} (hk : k < depth l.length) :
    2 ≤ (level join k l).length := by
  induction k generalizing l with
  | zero =>
      by_contra hlt
      rw [depth_of_le_one (by rw [level] at hlt; omega)] at hk
      exact Nat.not_lt_zero _ hk
  | succ k ih =>
      have h2 : 2 ≤ l.length := by
        by_contra hlt
        rw [depth_of_le_one (by omega)] at hk
        exact Nat.not_lt_zero _ hk
      rw [depth_of_two_le h2, ← length_parents join] at hk
      exact ih (Nat.lt_of_succ_lt_succ hk)

theorem rootOf_eq {l : List α} {r : α} (hr : level join (depth l.length) l = [r]) :
    rootOf join l = some r := by
  induction l using rootOf.induct join with
  | case1 =>
      rw [level_nil] at hr
      cases hr
  | case2 a =>
      rw [List.length_singleton, depth_of_le_one (Nat.le_refl 1), level] at hr
      rw [rootOf, List.singleton_inj.mp hr]
  | case3 a b rest ih =>
      rw [depth_of_two_le (by simp), level, ← length_parents join] at hr
      rw [rootOf]
      exact ih hr

theorem parents_append {l m : List α} (h : 2 ∣ l.length) :
    parents join (l ++ m) = parents join l ++ parents join m := by
  induction l using parents.induct with
  | case1 => rfl
  | case2 a => simp at h
  | case3 a b rest ih =>
      have hrest : 2 ∣ rest.length := by
        rw [List.length_cons, List.length_cons] at h
        omega
      simp only [List.cons_append, parents, ih hrest]

theorem level_append {k : Nat} {l m : List α} (h : 2 ^ k ∣ l.length) :
    level join k (l ++ m) = level join k l ++ level join k m := by
  induction k generalizing l m with
  | zero => rfl
  | succ k ih =>
      have h2 : 2 ∣ l.length := Dvd.dvd.trans (Dvd.intro_left (2 ^ k) rfl) h
      have hup : 2 ^ k ∣ (parents join l).length := by
        obtain ⟨c, hc⟩ := h
        have hhalf : (2 ^ (k + 1) * c + 1) / 2 = 2 ^ k * c := by
          rw [pow_succ, Nat.mul_assoc, Nat.mul_left_comm]
          omega
        rw [length_parents, hc, hhalf]
        exact Dvd.intro c rfl
      rw [level, parents_append join h2, ih hup, level, level]

theorem subtree_nil (d : Nat) : subtree join d ([] : List α) = none := by
  induction d with
  | zero => rfl
  | succ d ih => rw [subtree, List.take_nil, ih, Option.map_none]

theorem level_take_append_drop {d : Nat} {l : List α} (h : 2 ^ d ≤ l.length) :
    level join d l = level join d (l.take (2 ^ d)) ++ level join d (l.drop (2 ^ d)) := by
  have hdvd : 2 ^ d ∣ (l.take (2 ^ d)).length := by rw [List.length_take_of_le h]
  rw [← level_append join hdvd, List.take_append_drop]

theorem subtree_eq {d : Nat} {l : List α} {r : α} (h : l.length ≤ 2 ^ d)
    (hr : level join d l = [r]) : subtree join d l = some r := by
  induction d generalizing l r with
  | zero => rw [subtree, show l = [r] from hr, List.head?_cons]
  | succ d ih =>
      have hne : l ≠ [] := by
        rintro rfl
        rw [level_nil] at hr
        cases hr
      have hleft : (l.take (2 ^ d)).length ≤ 2 ^ d := List.length_take_le _ _
      have hleft0 : l.take (2 ^ d) ≠ [] := by
        rw [Ne, List.take_eq_nil_iff]
        exact not_or.mpr ⟨(Nat.two_pow_pos d).ne', hne⟩
      obtain ⟨a, ha⟩ := exists_level_eq join hleft0 hleft
      rw [level_succ] at hr
      rw [subtree, ih hleft ha, Option.map_some]
      rcases Nat.lt_or_ge (2 ^ d) l.length with hlt | hge
      · have hright : (l.drop (2 ^ d)).length ≤ 2 ^ d := by
          rw [List.length_drop]
          rw [pow_succ] at h
          omega
        have hright0 : l.drop (2 ^ d) ≠ [] := by
          rw [Ne, List.drop_eq_nil_iff]
          exact Nat.not_le.mpr hlt
        obtain ⟨b, hb⟩ := exists_level_eq join hright0 hright
        rw [level_take_append_drop join hlt.le, ha, hb] at hr
        rw [ih hright hb, Option.getD_some]
        exact congrArg List.head? hr
      · have hempty : subtree join d (l.drop (2 ^ d)) = none := by
          rw [List.drop_of_length_le hge, subtree_nil]
        rw [List.take_of_length_le hge] at ha
        rw [ha] at hr
        rw [hempty, Option.getD_none]
        exact congrArg List.head? hr

theorem length_path {d i : Nat} {l : List α} (h : l ≠ []) : (path join d i l).length = d := by
  induction d generalizing i l with
  | zero => rfl
  | succ d ih =>
      have hpos : 0 < l.length := List.length_pos_iff.mpr h
      rw [path, List.length_append, ih (parents_ne_nil join h), List.getElem?_eq_getElem (sibling_lt hpos)]
      simp [Nat.add_comm]

end Levels

section Climbing
variable {α τ : Type*} (tag : α → τ) (pair : τ → τ → α)

/-- Join upwards: the running element stands left at even positions. -/
def climb : Nat → α → List τ → Nat × α
  | i, a, [] => (i, a)
  | i, a, e :: es => climb (i / 2) (if i % 2 = 0 then pair (tag a) e else pair e (tag a)) es

theorem climb_path {d i : Nat} {l : List α} {a : α} (ha : l[i]? = some a) :
    ∃ b, (level (fun x y => pair (tag x) (tag y)) d l)[i / 2 ^ d]? = some b ∧
      climb tag pair i a ((path (fun x y => pair (tag x) (tag y)) d i l).map tag) =
        (i / 2 ^ d, b) := by
  induction d generalizing i l a with
  | zero => exact ⟨a, by simpa [level] using ha, by simp [path, climb]⟩
  | succ d ih =>
      have hi : i < l.length := (List.getElem?_eq_some_iff.mp ha).1
      obtain ⟨s, hs⟩ : ∃ s, l[sibling i l.length]? = some s :=
        ⟨_, List.getElem?_eq_getElem (sibling_lt (by omega))⟩
      have hparent : (parents (fun x y => pair (tag x) (tag y)) l)[i / 2]? =
          some (if i % 2 = 0 then pair (tag a) (tag s) else pair (tag s) (tag a)) := by
        by_cases hpar : i % 2 = 0
        · rw [if_pos hpar]
          rw [sibling_even hpar] at hs
          have hj : 2 * (i / 2) = i := by omega
          exact getElem?_parents _ (by rw [hj]; exact ha) (by rw [hj]; exact hs)
        · rw [if_neg hpar]
          rw [sibling_odd (by omega) hi] at hs
          have hj : 2 * (i / 2) = i - 1 := by omega
          have hm : min (2 * (i / 2) + 1) (l.length - 1) = i := by omega
          exact getElem?_parents _ (by rw [hj]; exact hs) (by rw [hm]; exact ha)
      obtain ⟨b, hb, hc⟩ := ih hparent
      have hdiv : i / 2 / 2 ^ d = i / 2 ^ (d + 1) := by rw [Nat.div_div_eq_div_mul, pow_succ']
      rw [hdiv] at hb hc
      refine ⟨b, hb, ?_⟩
      rw [path, hs, Option.toList_some, List.singleton_append, List.map_cons, climb]
      exact hc

theorem climb_path_root {i : Nat} {l : List α} {a r : α} (ha : l[i]? = some a)
    (hr : level (fun x y => pair (tag x) (tag y)) (depth l.length) l = [r]) :
    climb tag pair i a
        ((path (fun x y => pair (tag x) (tag y)) (depth l.length) i l).map tag) = (0, r) := by
  obtain ⟨b, hb, hc⟩ := climb_path tag pair (d := depth l.length) ha
  rw [hr, List.getElem?_singleton] at hb
  split at hb
  · rename_i hz
    rw [hc, hz, Option.some.inj hb]
  · cases hb

theorem climb_append (i : Nat) (a : α) (es fs : List τ) : climb tag pair i a (es ++ fs) =
    climb tag pair (climb tag pair i a es).1 (climb tag pair i a es).2 fs := by
  induction es generalizing i a with
  | nil => rfl
  | cons e es ih =>
      rw [List.cons_append, climb, climb]
      exact ih _ _

theorem climb_fst (i : Nat) (a : α) (es : List τ) :
    (climb tag pair i a es).1 = i / 2 ^ es.length := by
  induction es generalizing i a with
  | nil => simp [climb]
  | cons e es ih => rw [climb, ih, Nat.div_div_eq_div_mul, List.length_cons, pow_succ']

/-- What an element with its siblings says of the nodes of a tree below the top: the tags of those
it climbs to, and the siblings themselves. -/
inductive Says (i : Nat) (a : α) (es : List τ) : (level index : Nat) → τ → Prop
  | node (d : Nat) (h : d < es.length) :
      Says i a es d (i / 2 ^ d) (tag (climb tag pair i a (es.take d)).2)
  | sibling (d : Nat) (e : τ) (h : es[d]? = some e) : Says i a es d ((i / 2 ^ d) ^^^ 1) e

/-- The two nodes below the top are both spoken of, and their join is what is climbed to. -/
theorem exists_says_top {k i : Nat} {a : α} {es : List τ} (hlen : es.length = k + 1)
    (hi : i < 2 ^ (k + 1)) : ∃ v w, Says tag pair i a es k 0 v ∧ Says tag pair i a es k 1 w ∧
      climb tag pair i a es = (0, pair v w) := by
  have he : es[k]? = some es[k] := List.getElem?_eq_getElem (by omega)
  have hnode : Says tag pair i a es k (i / 2 ^ k) (tag (climb tag pair i a (es.take k)).2) :=
    .node k (by omega)
  have hsibling : Says tag pair i a es k ((i / 2 ^ k) ^^^ 1) es[k] := .sibling k es[k] he
  have hsplit : es.take k ++ [es[k]] = es := by
    rw [List.take_append_getElem, List.take_of_length_le (by omega)]
  have hfst := climb_fst tag pair i a (es.take k)
  rw [List.length_take_of_le (by omega)] at hfst
  have hclimb : climb tag pair i a es = climb tag pair (i / 2 ^ k)
      (climb tag pair i a (es.take k)).2 [es[k]] := by
    conv_lhs => rw [← hsplit, climb_append, hfst]
  generalize (climb tag pair i a (es.take k)).2 = b at hnode hclimb
  have hlt : i / 2 ^ k < 2 := Nat.div_lt_of_lt_mul (by rwa [pow_succ] at hi)
  rw [hclimb]
  rcases Nat.lt_or_ge (i / 2 ^ k) 1 with hzero | hone
  · obtain hx : i / 2 ^ k = 0 := by omega
    rw [hx] at hnode hsibling ⊢
    exact ⟨_, _, hnode, hsibling, rfl⟩
  · obtain hx : i / 2 ^ k = 1 := by omega
    rw [hx] at hnode hsibling ⊢
    exact ⟨_, _, hsibling, hnode, rfl⟩

theorem take_path (join : α → α → α) {d D : Nat} (hd : d ≤ D) (i : Nat) {l : List α} (h : l ≠ []) :
    (path join D i l).take d = path join d i l := by
  induction d generalizing D i l with
  | zero => rfl
  | succ d ih =>
      obtain ⟨D, rfl⟩ : ∃ E, D = E + 1 := ⟨D - 1, by omega⟩
      have hs := List.getElem?_eq_getElem (sibling_lt (i := i) (List.length_pos_iff.mpr h))
      rw [path, path, hs, Option.toList_some, List.singleton_append, List.singleton_append,
        List.take_succ_cons, ih (by omega) _ (parents_ne_nil join h)]

theorem getElem?_path (join : α → α → α) {d D : Nat} (hd : d < D) (i : Nat) {l : List α}
    (h : l ≠ []) : (path join D i l)[d]? =
      (level join d l)[sibling (i / 2 ^ d) (level join d l).length]? := by
  induction d generalizing D i l with
  | zero =>
      obtain ⟨D, rfl⟩ : ∃ E, D = E + 1 := ⟨D - 1, by omega⟩
      have hs := List.getElem?_eq_getElem (sibling_lt (i := i) (List.length_pos_iff.mpr h))
      rw [path, hs, pow_zero, Nat.div_one, level, hs]
      rfl
  | succ d ih =>
      obtain ⟨D, rfl⟩ : ∃ E, D = E + 1 := ⟨D - 1, by omega⟩
      have hs := List.getElem?_eq_getElem (sibling_lt (i := i) (List.length_pos_iff.mpr h))
      rw [path, hs, Option.toList_some, List.singleton_append, List.getElem?_cons_succ,
        ih (by omega) _ (parents_ne_nil join h), level, Nat.div_div_eq_div_mul, ← pow_succ']

/-- A leaf with its path says what is so; the sibling of a last node without one is that node. -/
theorem Says.of_path {d x D i : Nat} {l : List α} {a : α} {v : τ} (ha : l[i]? = some a)
    (h : Says tag pair i a ((path (fun x y => pair (tag x) (tag y)) D i l).map tag) d x v) :
    ∃ b, (level (fun x y => pair (tag x) (tag y)) d l)[min x
        ((level (fun x y => pair (tag x) (tag y)) d l).length - 1)]? = some b ∧ v = tag b := by
  have hne : l ≠ [] := by
    rintro rfl
    cases ha
  cases h with
  | node hd =>
      rw [List.length_map, length_path _ hne] at hd
      obtain ⟨b, hb, hc⟩ := climb_path tag pair (d := d) ha
      have hlt := (List.getElem?_eq_some_iff.mp hb).1
      refine ⟨b, ?_, ?_⟩
      · rw [Nat.min_eq_left (by omega), hb]
      · rw [← List.map_take, take_path _ hd.le i hne, hc]
  | sibling e he =>
      rw [List.getElem?_map] at he
      obtain ⟨b, hb, rfl⟩ := Option.map_eq_some_iff.mp he
      have hd : d < D := by
        have hlt := (List.getElem?_eq_some_iff.mp hb).1
        rwa [length_path _ hne] at hlt
      rw [getElem?_path _ hd i hne] at hb
      exact ⟨b, hb, rfl⟩

/-- So leaves with their paths never contradict each other. -/
theorem Says.unique_of_path {d x D i j : Nat} {l : List α} {a b : α} {v w : τ}
    (ha : l[i]? = some a) (hb : l[j]? = some b)
    (h : Says tag pair i a ((path (fun x y => pair (tag x) (tag y)) D i l).map tag) d x v)
    (h' : Says tag pair j b ((path (fun x y => pair (tag x) (tag y)) D j l).map tag) d x w) :
    v = w := by
  obtain ⟨c, hc, rfl⟩ := h.of_path tag pair ha
  obtain ⟨e, he, rfl⟩ := h'.of_path tag pair hb
  rw [Option.some.inj (hc.symm.trans he)]

end Climbing

end HashTree
