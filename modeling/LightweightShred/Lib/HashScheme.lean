import LightweightShred.Lib.HashTree

/-!
# What a truncated hash commits to

A term records how a digest was computed, with unexplained sibling tags as `hidden`
leaves. Two terms of equal tag agree wherever both are explained, or two of the
hashed messages collide: no assumption on the hash, only an extracted collision.
-/
namespace HashScheme
open HashTree

/-- A hash of tagged leaves and tagged pairs, truncated before it is hashed again. -/
structure Scheme (Leaf Msg Digest Tag : Type*) where
  hash : Msg → Digest
  trunc : Digest → Tag
  leafMsg : Leaf → Msg
  nodeMsg : Tag → Tag → Msg
  leafMsg_inj : Function.Injective leafMsg
  nodeMsg_inj : ∀ a b c d, nodeMsg a b = nodeMsg c d → a = c ∧ b = d
  leaf_ne_node : ∀ x a b, leafMsg x ≠ nodeMsg a b

inductive Term (Leaf Tag : Type*) where
  | leaf (x : Leaf)
  | hidden (t : Tag)
  | node (l r : Term Leaf Tag)

variable {Leaf Msg Digest Tag : Type*} (S : Scheme Leaf Msg Digest Tag)

namespace Scheme

/-- The digest of two tags. -/
def pair (a b : Tag) : Digest := S.hash (S.nodeMsg a b)

/-- The digest of two digests. -/
def join (a b : Digest) : Digest := S.pair (S.trunc a) (S.trunc b)

/-- The tag two tags are joined to. -/
def tagJoin (a b : Tag) : Tag := S.trunc (S.pair a b)

theorem trunc_join (a b : Digest) :
    S.trunc (S.join a b) = S.tagJoin (S.trunc a) (S.trunc b) := rfl

def leafDigest (x : Leaf) : Digest := S.hash (S.leafMsg x)

/-- Two distinct messages of the list share their truncated digest. -/
def Collision (ms : List Msg) : Prop :=
  ∃ x ∈ ms, ∃ y ∈ ms, x ≠ y ∧ S.trunc (S.hash x) = S.trunc (S.hash y)

theorem Collision.mono {S : Scheme Leaf Msg Digest Tag} {ms ns : List Msg} (h : S.Collision ms)
    (sub : ms ⊆ ns) : S.Collision ns := by
  obtain ⟨x, hx, y, hy, hne, heq⟩ := h
  exact ⟨x, sub hx, y, sub hy, hne, heq⟩

end Scheme

namespace Term

def tag : Term Leaf Tag → Tag
  | .leaf x => S.trunc (S.leafDigest x)
  | .hidden t => t
  | .node l r => S.trunc (S.pair (l.tag) (r.tag))

theorem tag_node (l r : Term Leaf Tag) : (node l r).tag S = S.tagJoin (l.tag S) (r.tag S) := rfl

/-- Every message hashed while the tag is computed. -/
def msgs : Term Leaf Tag → List Msg
  | .leaf x => [S.leafMsg x]
  | .hidden _ => []
  | .node l r => S.nodeMsg (l.tag S) (r.tag S) :: (l.msgs ++ r.msgs)

/-- Equal wherever both terms are explained. -/
def Agree : Term Leaf Tag → Term Leaf Tag → Prop
  | .leaf x, .leaf y => x = y
  | .node l r, .node l' r' => l.Agree l' ∧ r.Agree r'
  | .hidden t, u => t = u.tag S
  | u, .hidden t => u.tag S = t
  | .leaf _, .node _ _ => False
  | .node _ _, .leaf _ => False

/-- Two explained tags are equal only through equal messages, collisions apart. -/
theorem msg_eq_or_collision {x y : Msg} (ms : List Msg) (hx : x ∈ ms) (hy : y ∈ ms)
    (h : S.trunc (S.hash x) = S.trunc (S.hash y)) : x = y ∨ S.Collision ms := by
  by_cases hxy : x = y
  · exact .inl hxy
  · exact .inr ⟨x, hx, y, hy, hxy, h⟩

theorem agree_or_collision {u v : Term Leaf Tag} (h : u.tag S = v.tag S) :
    u.Agree S v ∨ S.Collision (u.msgs S ++ v.msgs S) := by
  induction u generalizing v with
  | hidden t =>
      refine .inl ?_
      cases v <;> exact h
  | leaf x =>
      cases v with
      | hidden t => exact .inl h
      | leaf y =>
          rcases msg_eq_or_collision S ([S.leafMsg x] ++ [S.leafMsg y]) (by simp) (by simp) h
            with he | hc
          · exact .inl (S.leafMsg_inj he)
          · exact .inr hc
      | node l r =>
          rcases msg_eq_or_collision S (x := S.leafMsg x)
            ((leaf x).msgs S ++ (node l r).msgs S) (by simp [msgs]) (by simp [msgs]) h
            with he | hc
          · exact (S.leaf_ne_node _ _ _ he).elim
          · exact .inr hc
  | node l r ihl ihr =>
      cases v with
      | hidden t => exact .inl h
      | leaf y =>
          rcases msg_eq_or_collision S (x := S.nodeMsg (l.tag S) (r.tag S)) (y := S.leafMsg y)
            ((node l r).msgs S ++ (leaf y).msgs S) (by simp [msgs]) (by simp [msgs]) h
            with he | hc
          · exact (S.leaf_ne_node _ _ _ he.symm).elim
          · exact .inr hc
      | node l' r' =>
          rcases msg_eq_or_collision S (x := S.nodeMsg (l.tag S) (r.tag S))
            ((node l r).msgs S ++ (node l' r').msgs S) (by simp [msgs]) (by simp [msgs]) h
            with he | hc
          · obtain ⟨hl, hr⟩ := S.nodeMsg_inj _ _ _ _ he
            rcases ihl hl with al | cl
            · rcases ihr hr with ar | cr
              · exact .inl ⟨al, ar⟩
              · refine .inr (cr.mono ?_)
                intro m hm
                simp only [msgs, List.mem_append, List.mem_cons] at hm ⊢
                tauto
            · refine .inr (cl.mono ?_)
              intro m hm
              simp only [msgs, List.mem_append, List.mem_cons] at hm ⊢
              tauto
          · exact .inr hc

theorem Agree.tag_eq {u v : Term Leaf Tag} (h : u.Agree S v) : u.tag S = v.tag S := by
  induction u generalizing v with
  | hidden t => cases v <;> exact h
  | leaf x =>
      cases v with
      | hidden t => exact h
      | leaf y => exact congrArg (fun z => tag S (leaf z)) h
      | node l r => exact h.elim
  | node l r ihl ihr =>
      cases v with
      | hidden t => exact h
      | leaf y => exact h.elim
      | node l' r' => simp only [tag, ihl h.1, ihr h.2]

/-- Fully explained, with every leaf exactly `k` levels down. -/
def Perfect : Nat → Term Leaf Tag → Prop
  | 0, .leaf _ => True
  | k + 1, .node l r => Perfect k l ∧ Perfect k r
  | _, _ => False

theorem perfect_parents {k : Nat} {l : List (Term Leaf Tag)} (h : ∀ u ∈ l, Perfect k u) :
    ∀ u ∈ parents .node l, Perfect (k + 1) u := by
  induction l using parents.induct with
  | case1 => simp [parents]
  | case2 a =>
      intro u hu
      have hu' : u = .node a a := by simpa [parents] using hu
      subst hu'
      exact ⟨h a (by simp), h a (by simp)⟩
  | case3 a b rest ih =>
      intro u hu
      rcases List.mem_cons.mp (by simpa only [parents] using hu) with rfl | hu
      · exact ⟨h a (by simp), h b (by simp)⟩
      · exact ih (fun v hv => h v (by simp [hv])) u hu

theorem perfect_level {k d : Nat} {l : List (Term Leaf Tag)} (h : ∀ u ∈ l, Perfect k u) :
    ∀ u ∈ level .node d l, Perfect (k + d) u := by
  induction d generalizing k l with
  | zero => exact h
  | succ d ih =>
      rw [show k + (d + 1) = k + 1 + d by omega]
      exact ih (perfect_parents h)

/-- The authentication path of a term, its siblings unexplained. -/
def chain (i : Nat) (u : Term Leaf Tag) (es : List Tag) : Term Leaf Tag :=
  (climb id .node i u (es.map .hidden)).2

theorem chain_cons (i : Nat) (u : Term Leaf Tag) (e : Tag) (es : List Tag) :
    chain i u (e :: es) =
      chain (i / 2) (if i % 2 = 0 then .node u (.hidden e) else .node (.hidden e) u) es := rfl

theorem tag_chain (i : Nat) {u : Term Leaf Tag} {a : Digest} (h : u.tag S = S.trunc a)
    (es : List Tag) :
    (chain i u es).tag S = S.trunc (climb S.trunc S.pair i a es).2 := by
  induction es generalizing i u a with
  | nil => exact h
  | cons e es ih =>
      rw [chain_cons, climb]
      apply ih
      split <;> simp only [tag, h]

/-- The messages hashed along the path, without those of `u`. -/
def chainMsgs : Nat → Digest → List Tag → List Msg
  | _, _, [] => []
  | i, a, e :: es =>
    (if i % 2 = 0 then S.nodeMsg (S.trunc a) e else S.nodeMsg e (S.trunc a)) ::
      chainMsgs (i / 2) (if i % 2 = 0 then S.pair (S.trunc a) e else S.pair e (S.trunc a)) es

theorem mem_msgs_chain {i : Nat} {u : Term Leaf Tag} {a : Digest} (h : u.tag S = S.trunc a)
    {es : List Tag} {m : Msg} (hm : m ∈ (chain i u es).msgs S) :
    m ∈ u.msgs S ∨ m ∈ chainMsgs S i a es := by
  induction es generalizing i u a with
  | nil => exact .inl hm
  | cons e es ih =>
      rw [chain_cons] at hm
      by_cases hp : i % 2 = 0
      · rw [if_pos hp] at hm
        rcases ih (a := S.pair (S.trunc a) e) (by simp only [tag, h]) hm with hu | hc
        · simp only [msgs, tag, h, List.append_nil, List.mem_cons] at hu
          rcases hu with rfl | hu
          · exact .inr (by simp [chainMsgs, hp])
          · exact .inl hu
        · exact .inr (by simp [chainMsgs, hp, hc])
      · rw [if_neg hp] at hm
        rcases ih (a := S.pair e (S.trunc a)) (by simp only [tag, h]) hm with hu | hc
        · simp only [msgs, tag, h, List.nil_append, List.mem_cons] at hu
          rcases hu with rfl | hu
          · exact .inr (by simp [chainMsgs, hp])
          · exact .inl hu
        · exact .inr (by simp [chainMsgs, hp, hc])

theorem getLast_chainMsgs (i : Nat) (m : Msg) (es : List Tag) :
    ((m :: chainMsgs S i (S.hash m) es).getLast?.map S.hash) =
      some (climb S.trunc S.pair i (S.hash m) es).2 := by
  induction es generalizing i m with
  | nil => rfl
  | cons e es ih =>
      rw [chainMsgs, List.getLast?_cons_cons, climb]
      split <;> exact ih _ _

theorem Agree.descend {i k : Nat} {u t : Term Leaf Tag} {es : List Tag}
    (h : (chain i u es).Agree S t) (ht : Perfect k t) :
    ∃ k' t', k = k' + es.length ∧ Perfect k' t' ∧ u.Agree S t' := by
  induction es generalizing i u with
  | nil => exact ⟨k, t, rfl, ht, h⟩
  | cons e es ih =>
      rw [chain_cons] at h
      obtain ⟨k', t', hk, hp, ha⟩ := ih h
      -- one level further down: `t'` is a node, since the path's term is one
      cases k' with
      | zero =>
          cases t' with
          | leaf x => split at ha <;> exact ha.elim
          | hidden t => exact hp.elim
          | node l r => exact hp.elim
      | succ k' =>
          cases t' with
          | leaf x => exact hp.elim
          | hidden t => exact hp.elim
          | node l r =>
              refine ⟨k', if i % 2 = 0 then l else r, by simp only [List.length_cons]; omega, ?_, ?_⟩
              · split
                · exact hp.1
                · exact hp.2
              · split at ha
                · rename_i hpar
                  rw [if_pos hpar]
                  exact ha.1
                · rename_i hpar
                  rw [if_neg hpar]
                  exact ha.2

theorem Agree.length_eq {i k : Nat} {x : Leaf} {t : Term Leaf Tag} {es : List Tag}
    (h : (chain i (.leaf x) es).Agree S t) (ht : Perfect k t) : es.length = k := by
  obtain ⟨k', t', hk, hp, ha⟩ := Agree.descend S h ht
  cases k' with
  | zero => omega
  | succ k' =>
      cases t' with
      | leaf y => exact hp.elim
      | hidden t => exact hp.elim
      | node l r => exact ha.elim

/-- Against a tree, a path starts at the tree's own leaf and carries its own siblings. -/
theorem Agree.path {i : Nat} {E : List (Term Leaf Tag)} {u t : Term Leaf Tag} {es : List Tag}
    (hi : i < E.length) (ht : level .node es.length E = [t]) (h : (chain i u es).Agree S t) :
    (∃ v, E[i]? = some v ∧ u.Agree S v) ∧
      es = (HashTree.path .node es.length i E).map (tag S) := by
  induction es generalizing i u E with
  | nil =>
      obtain rfl : E = [t] := ht
      have hz : i = 0 := by simpa using hi
      subst hz
      exact ⟨⟨t, rfl, h⟩, rfl⟩
  | cons e es ih =>
      have hlen := length_parents Term.node E
      obtain ⟨⟨v, hv, hagree⟩, hes⟩ := ih (E := parents .node E) (by omega) ht h
      obtain ⟨s, hs⟩ : ∃ s, E[sibling i E.length]? = some s :=
        ⟨_, List.getElem?_eq_getElem (sibling_lt (by omega))⟩
      obtain ⟨a, b, ha, hb, hp⟩ := getElem?_parents_of_lt Term.node (l := E) (j := i / 2)
        (by omega)
      rw [hp] at hv
      cases Option.some.inj hv
      have hpath : HashTree.path .node (e :: es).length i E =
          s :: HashTree.path .node es.length (i / 2) (parents .node E) := by
        rw [List.length_cons, HashTree.path, hs, Option.toList_some, List.singleton_append]
      rw [hpath, List.map_cons, ← hes]
      by_cases hpar : i % 2 = 0
      · rw [if_pos hpar] at hagree
        rw [sibling_even hpar] at hs
        rw [show 2 * (i / 2) = i by omega] at ha hb
        rw [hs] at hb
        cases Option.some.inj hb
        exact ⟨⟨a, ha, hagree.1⟩, by rw [show e = tag S s from Agree.tag_eq S hagree.2]⟩
      · rw [if_neg hpar] at hagree
        rw [sibling_odd (by omega) hi] at hs
        rw [show 2 * (i / 2) = i - 1 by omega] at ha
        rw [show min (2 * (i / 2) + 1) (E.length - 1) = i by omega] at hb
        rw [hs] at ha
        cases Option.some.inj ha
        exact ⟨⟨b, hb, hagree.2⟩, by rw [show e = tag S s from Agree.tag_eq S hagree.1]⟩

theorem Agree.leaves {d : Nat} {E F : List (Term Leaf Tag)} {t t' : Term Leaf Tag}
    (hlen : E.length = F.length) (hE : level .node d E = [t]) (hF : level .node d F = [t'])
    (h : t.Agree S t') {i : Nat} {u v : Term Leaf Tag} (hu : E[i]? = some u)
    (hv : F[i]? = some v) : u.Agree S v := by
  induction d generalizing i E F u v with
  | zero =>
      obtain rfl : E = [t] := hE
      obtain rfl : F = [t'] := hF
      have hi : i < 1 := (List.getElem?_eq_some_iff.mp hu).1
      have hz : i = 0 := by omega
      subst hz
      cases Option.some.inj hu
      cases Option.some.inj hv
      exact h
  | succ d ih =>
      have hi : i < E.length := (List.getElem?_eq_some_iff.mp hu).1
      have hlE := length_parents Term.node E
      have hlF := length_parents Term.node F
      obtain ⟨a, b, ha, hb, hp⟩ := getElem?_parents_of_lt Term.node (l := E) (j := i / 2)
        (by omega)
      obtain ⟨a', b', ha', hb', hp'⟩ := getElem?_parents_of_lt Term.node (l := F)
        (j := i / 2) (by omega)
      have hj := ih (by omega) hE hF hp hp'
      by_cases hpar : i % 2 = 0
      · rw [show 2 * (i / 2) = i by omega] at ha ha'
        cases Option.some.inj (hu.symm.trans ha)
        cases Option.some.inj (hv.symm.trans ha')
        exact hj.1
      · rw [show min (2 * (i / 2) + 1) (E.length - 1) = i by omega] at hb
        rw [show min (2 * (i / 2) + 1) (F.length - 1) = i by omega] at hb'
        cases Option.some.inj (hu.symm.trans hb)
        cases Option.some.inj (hv.symm.trans hb')
        exact hj.2

end Term

section Trees

/-- The messages hashed to form the level above. -/
def parentMsgs : List Tag → List Msg
  | [] => []
  | [a] => [S.nodeMsg a a]
  | a :: b :: rest => S.nodeMsg a b :: parentMsgs rest

/-- The messages hashed to form `d` levels above the given digests. -/
def treeMsgs : Nat → List Digest → List Msg
  | 0, _ => []
  | d + 1, l => parentMsgs S (l.map S.trunc) ++ treeMsgs d (parents S.join l)

/-- The terms `E` explain the tags of the digests `l`. -/
def Explains (E : List (Term Leaf Tag)) (l : List Digest) : Prop :=
  E.map (Term.tag S) = l.map S.trunc

theorem Explains.parents {E : List (Term Leaf Tag)} {l : List Digest} (h : Explains S E l) :
    Explains S (HashTree.parents .node E) (HashTree.parents S.join l) := by
  unfold Explains at h ⊢
  rw [parents_map _ S.tagJoin (Term.tag_node S), h, parents_map _ S.tagJoin S.trunc_join]

theorem Explains.level {E : List (Term Leaf Tag)} {l : List Digest} (h : Explains S E l) (d : Nat) :
    Explains S (HashTree.level .node d E) (HashTree.level S.join d l) := by
  induction d generalizing E l with
  | zero => exact h
  | succ d ih => exact ih (Explains.parents S h)

theorem Explains.path {E : List (Term Leaf Tag)} {l : List Digest} (h : Explains S E l)
    (d i : Nat) :
    (HashTree.path .node d i E).map (Term.tag S) =
      (HashTree.path S.join d i l).map S.trunc := by
  rw [path_map _ S.tagJoin (Term.tag_node S), h, path_map _ S.tagJoin S.trunc_join]

theorem mem_msgs_parents {E : List (Term Leaf Tag)} {u : Term Leaf Tag}
    (hu : u ∈ HashTree.parents .node E) {m : Msg} (hm : m ∈ u.msgs S) :
    (∃ v ∈ E, m ∈ v.msgs S) ∨ m ∈ parentMsgs S (E.map (Term.tag S)) := by
  induction E using HashTree.parents.induct with
  | case1 => simp [HashTree.parents] at hu
  | case2 a =>
      have hu' : u = .node a a := by simpa [HashTree.parents] using hu
      subst hu'
      simp only [Term.msgs, List.mem_cons, List.mem_append, or_self] at hm
      rcases hm with rfl | hm
      · exact .inr (by simp [parentMsgs])
      · exact .inl ⟨a, by simp, hm⟩
  | case3 a b rest ih =>
      rcases List.mem_cons.mp (by simpa only [HashTree.parents] using hu) with rfl | hu
      · simp only [Term.msgs, List.mem_cons, List.mem_append] at hm
        rcases hm with rfl | hm | hm
        · exact .inr (by simp [parentMsgs])
        · exact .inl ⟨a, by simp, hm⟩
        · exact .inl ⟨b, by simp, hm⟩
      · rcases ih hu with ⟨v, hv, hm⟩ | hm
        · exact .inl ⟨v, by simp [hv], hm⟩
        · exact .inr (by simp [parentMsgs, hm])

theorem mem_msgs_level {E : List (Term Leaf Tag)} {l : List Digest} (h : Explains S E l) {d : Nat}
    {u : Term Leaf Tag} (hu : u ∈ HashTree.level .node d E) {m : Msg} (hm : m ∈ u.msgs S) :
    (∃ v ∈ E, m ∈ v.msgs S) ∨ m ∈ treeMsgs S d l := by
  induction d generalizing E l with
  | zero => exact .inl ⟨u, hu, hm⟩
  | succ d ih =>
      rcases ih (Explains.parents S h) hu with ⟨v, hv, hm⟩ | hm
      · rcases mem_msgs_parents S hv hm with hm | hm
        · exact .inl hm
        · exact .inr (by rw [treeMsgs, ← h]; exact List.mem_append_left _ hm)
      · exact .inr (by rw [treeMsgs]; exact List.mem_append_right _ hm)

/-- The messages of a whole run: its leaves and every level above them. -/
def leafTreeMsgs (xs : List Leaf) : List Msg :=
  xs.map S.leafMsg ++ treeMsgs S (depth xs.length) (xs.map S.leafDigest)

theorem map_hash_parentMsgs (l : List Digest) :
    (parentMsgs S (l.map S.trunc)).map S.hash = parents S.join l := by
  induction l using HashTree.parents.induct with
  | case1 => rfl
  | case2 a => rfl
  | case3 a b rest ih =>
      simp only [List.map_cons, parentMsgs, HashTree.parents]
      exact congrArg _ ih

theorem flatten_eq_append (d : Nat) (l : List Digest) :
    flatten S.join d l = l ++ (treeMsgs S d l).map S.hash := by
  induction d generalizing l with
  | zero => simp [flatten, treeMsgs]
  | succ d ih => rw [flatten, ih, treeMsgs, List.map_append, map_hash_parentMsgs]

theorem flatten_eq_map_hash (xs : List Leaf) :
    flatten S.join (depth xs.length) (xs.map S.leafDigest) = (leafTreeMsgs S xs).map S.hash := by
  rw [flatten_eq_append, leafTreeMsgs, List.map_append, List.map_map]
  rfl

theorem explains_leaves (xs : List Leaf) :
    Explains S (xs.map .leaf) (xs.map S.leafDigest) := by
  simp only [Explains, List.map_map]
  rfl

theorem exists_top {xs : List Leaf} (h : xs ≠ []) :
    ∃ t r, level .node (depth xs.length) (xs.map (Term.leaf : Leaf → Term Leaf Tag)) = [t] ∧
      level S.join (depth xs.length) (xs.map S.leafDigest) = [r] ∧
      t.tag S = S.trunc r ∧ t.Perfect (depth xs.length) ∧
      ∀ m ∈ t.msgs S, m ∈ leafTreeMsgs S xs := by
  obtain ⟨t, ht⟩ := exists_level_depth Term.node
    (l := xs.map (Term.leaf : Leaf → Term Leaf Tag)) (by simpa using h)
  obtain ⟨r, hr⟩ := exists_level_depth S.join (l := xs.map S.leafDigest) (by simpa using h)
  rw [List.length_map] at ht hr
  refine ⟨t, r, ht, hr, ?_, ?_, ?_⟩
  · have hx := Explains.level S (explains_leaves S xs) (depth xs.length)
    rw [ht, hr] at hx
    simpa [Explains] using hx
  · have hp := Term.perfect_level (k := 0) (d := depth xs.length)
      (l := xs.map (Term.leaf : Leaf → Term Leaf Tag)) (by simp [Term.Perfect]) t (by rw [ht]; simp)
    simpa using hp
  · intro m hm
    rcases mem_msgs_level S (explains_leaves S xs) (u := t) (by rw [ht]; simp) hm with
      ⟨v, hv, hm⟩ | hm
    · obtain ⟨x, hx, rfl⟩ := List.mem_map.mp hv
      rw [List.mem_singleton.mp hm]
      exact List.mem_append_left _ (List.mem_map_of_mem hx)
    · exact List.mem_append_right _ hm

end Trees

end HashScheme
