import LightweightShred.Lib.ByteString

/-!
# Fallible computation in the manner of Rust

`Result` with a second way to fail: a panic (an overflow, an index out of range,
a failed `unwrap`). `?` is monadic bind; `.ok()` forgets an error but not a panic.
-/
namespace Rust
universe v

/-- Why a computation has no value: an `Err`, or a panic. -/
inductive Fault (ε : Type*) where
  | err (e : ε)
  | panic
  deriving DecidableEq, Repr

abbrev Fallible (ε : Type*) (α : Type*) := Except (Fault ε) α

section Results
variable {ε φ α β : Type*}

def fail (e : ε) : Fallible ε α := .error (.err e)

def okOr : Option α → ε → Fallible ε α
  | some a, _ => .ok a
  | none, e => fail e

/-- `unwrap` on an option. -/
def unwrap : Option α → Fallible ε α
  | some a => .ok a
  | none => .error .panic

/-- `Result::ok`. -/
def toOption : Fallible ε α → Fallible ε (Option α)
  | .ok a => .ok (some a)
  | .error (.err _) => .ok none
  | .error .panic => .error .panic

/-- `unwrap` on a result. -/
def unwrapResult : Fallible ε α → Fallible ε α
  | .ok a => .ok a
  | .error _ => .error .panic

/-- `?` in a function that returns an option. -/
def andThen {α β : Type v} (x : Fallible ε (Option α)) (f : α → Fallible ε (Option β)) :
    Fallible ε (Option β) := do
  match ← x with
  | some a => f a
  | none => pure none

/-- `let Some(a) = x else { return no };`, or `let Ok(a)` of what `toOption` gives. -/
def letElse {α β : Type v} (x : Fallible ε (Option α)) (no : Fallible ε β)
    (yes : α → Fallible ε β) : Fallible ε β := do
  match ← x with
  | some a => yes a
  | none => no

/-- `From` on the error of a result, as `?` applies it. -/
def liftErr {δ : Type*} (into : δ → ε) : Except δ α → Fallible ε α
  | .ok a => .ok a
  | .error e => fail (into e)

@[simp] theorem okOr_eq_ok {o : Option α} {e : ε} {a : α} : okOr o e = .ok a ↔ o = some a := by
  cases o <;> simp [okOr, fail]

@[simp] theorem unwrap_eq_ok {o : Option α} {a : α} :
    (unwrap o : Fallible ε α) = .ok a ↔ o = some a := by
  cases o <;> simp [unwrap]

@[simp] theorem andThen_some {α β : Type v} (a : α) (f : α → Fallible ε (Option β)) :
    andThen (.ok (some a)) f = f a := rfl

@[simp] theorem andThen_none {α β : Type v} (f : α → Fallible ε (Option β)) :
    andThen (.ok none) f = .ok none := rfl

@[simp] theorem letElse_some {α β : Type v} (a : α) (no : Fallible ε β)
    (yes : α → Fallible ε β) : letElse (.ok (some a)) no yes = yes a := rfl

@[simp] theorem letElse_none {α β : Type v} (no : Fallible ε β) (yes : α → Fallible ε β) :
    letElse (.ok none) no yes = no := rfl

@[simp] theorem fail_ne_ok {e : ε} {a : α} : (fail e : Fallible ε α) ≠ .ok a := by simp [fail]

@[simp] theorem liftErr_eq_ok {δ : Type*} {into : δ → ε} {r : Except δ α} {a : α} :
    liftErr into r = .ok a ↔ r = .ok a := by
  cases r <;> simp [liftErr, fail]

/-- The one inversion rule of the monad: a bind succeeds through both its parts. -/
theorem bind_eq_ok {α β : Type v} {x : Except φ α} {f : α → Except φ β} {b : β} :
    (x >>= f) = .ok b ↔ ∃ a, x = .ok a ∧ f a = .ok b := by
  cases x with
  | error e => simp [bind, Except.bind]
  | ok a => simp [bind, Except.bind]

theorem guard_eq_ok {α β : Type v} {p : Prop} [Decidable p] {e : ε} {f : α → Fallible ε β}
    {x : Fallible ε β} {b : β} :
    (if p then fail e >>= f else x) = .ok b ↔ ¬p ∧ x = .ok b := by
  by_cases hp : p <;> simp [hp, fail, bind, Except.bind]

theorem guard_eq_some {p : Prop} [Decidable p] {f : α → Option β} {x : Option β} {b : β} :
    (if p then Option.bind none f else x) = some b ↔ ¬p ∧ x = some b := by
  by_cases hp : p <;> simp [hp]

theorem map_eq_ok {x : Except φ α} {f : α → β} {b : β} :
    x.map f = .ok b ↔ ∃ a, x = .ok a ∧ f a = b := by
  cases x <;> simp [Except.map]

theorem mapM_eq_ok {α β : Type v} {f : α → Except φ β} {l : List α} {r : List β} :
    l.mapM f = .ok r ↔ List.Forall₂ (fun a b => f a = .ok b) l r := by
  induction l generalizing r with
  | nil =>
      rw [List.mapM_nil, List.forall₂_nil_left_iff]
      exact ⟨fun h => by cases h; rfl, fun h => by subst h; rfl⟩
  | cons a l ih =>
      rw [List.mapM_cons, bind_eq_ok]
      constructor
      · rintro ⟨b, hb, h⟩
        obtain ⟨bs, hbs, h⟩ := bind_eq_ok.mp h
        cases h
        exact .cons hb (ih.mp hbs)
      · intro h
        cases h with
        | cons hb hbs => exact ⟨_, hb, bind_eq_ok.mpr ⟨_, ih.mpr hbs, rfl⟩⟩

theorem mapM_id_eq_ok {φ α : Type v} {l : List (Except φ α)} {r : List α} :
    l.mapM id = .ok r ↔ l = r.map .ok := by
  rw [mapM_eq_ok]
  constructor
  · intro h
    induction h with
    | nil => rfl
    | cons hab _ ih => exact congrArg₂ List.cons hab ih
  · rintro rfl
    rw [List.forall₂_map_left_iff]
    exact List.forall₂_same.mpr fun _ _ => rfl

theorem forall₂_mem_right {R : α → β → Prop} {l : List α} {r : List β} (h : List.Forall₂ R l r)
    {b : β} (hb : b ∈ r) : ∃ a ∈ l, R a b := by
  induction h with
  | nil => cases hb
  | @cons x y l r hxy _ ih =>
      rcases List.mem_cons.mp hb with rfl | hb
      · exact ⟨x, List.mem_cons_self, hxy⟩
      · obtain ⟨a, ha, hab⟩ := ih hb
        exact ⟨a, List.mem_cons_of_mem _ ha, hab⟩

theorem mapM_map_range {α β : Type} {n : Nat} {g : Nat → α} {f : α → Except φ β} {r : Nat → β}
    (h : ∀ i < n, f (g i) = .ok (r i)) :
    ((List.range n).map g).mapM f = .ok ((List.range n).map r) := by
  rw [mapM_eq_ok, List.forall₂_map_left_iff, List.forall₂_map_right_iff]
  exact List.forall₂_same.mpr fun i hi => h i (List.mem_range.mp hi)

end Results

section Panics
variable {ε α β : Type v}

/-- The computation ends with a value or an `Err`. -/
def NoPanic (x : Fallible ε α) : Prop := x ≠ .error .panic

theorem noPanic_ok (a : α) : NoPanic (.ok a : Fallible ε α) := by simp [NoPanic]

theorem noPanic_pure (a : α) : NoPanic (pure a : Fallible ε α) := noPanic_ok a

theorem noPanic_fail (e : ε) : NoPanic (fail e : Fallible ε α) := by simp [NoPanic, fail]

theorem noPanic_okOr (o : Option α) (e : ε) : NoPanic (okOr o e) := by
  cases o with
  | none => exact noPanic_fail e
  | some a => exact noPanic_ok a

theorem noPanic_liftErr {δ : Type*} (into : δ → ε) (r : Except δ α) : NoPanic (liftErr into r) := by
  cases r with
  | error e => exact noPanic_fail _
  | ok a => exact noPanic_ok a

theorem noPanic_of_eq_ok {x : Fallible ε α} {a : α} (h : x = .ok a) : NoPanic x := h ▸ noPanic_ok a

/-- The second part matters on the values of the first only. -/
theorem NoPanic.bind {x : Fallible ε α} {f : α → Fallible ε β} (hx : NoPanic x)
    (hf : ∀ a, x = .ok a → NoPanic (f a)) : NoPanic (x >>= f) := by
  cases x with
  | ok a => exact hf a rfl
  | error e =>
      cases e with
      | err e => simp [NoPanic, Bind.bind, Except.bind]
      | panic => exact (hx rfl).elim

theorem NoPanic.map {x : Fallible ε α} (hx : NoPanic x) (f : α → β) : NoPanic (x.map f) := by
  cases x with
  | ok a => exact noPanic_ok _
  | error e =>
      cases e with
      | err e => simp [NoPanic, Except.map]
      | panic => exact (hx rfl).elim

theorem noPanic_bind_iff {x : Fallible ε α} {f : α → Fallible ε β} :
    NoPanic (x >>= f) ↔ NoPanic x ∧ ∀ a, x = .ok a → NoPanic (f a) := by
  refine ⟨fun h => ⟨?_, ?_⟩, fun ⟨hx, hf⟩ => hx.bind hf⟩
  · rintro rfl
    exact h rfl
  · rintro a rfl
    exact h

theorem noPanic_map_iff {x : Fallible ε α} {f : α → β} : NoPanic (x.map f) ↔ NoPanic x := by
  refine ⟨?_, fun h => h.map f⟩
  rintro h rfl
  exact h rfl

/-- `?` after an early return. -/
theorem NoPanic.guard {p : Prop} [Decidable p] {e : ε} {f : β → Fallible ε α} {x : Fallible ε α}
    (hx : ¬p → NoPanic x) : NoPanic (if p then fail e >>= f else x) := by
  by_cases hp : p
  · rw [if_pos hp]
    exact (noPanic_fail e).bind fun a ha => by cases ha
  · rw [if_neg hp]
    exact hx hp

theorem noPanic_mapM {f : α → Fallible ε β} {l : List α} (h : ∀ a ∈ l, NoPanic (f a)) :
    NoPanic (l.mapM f) := by
  induction l with
  | nil =>
      rw [List.mapM_nil]
      exact noPanic_pure _
  | cons a l ih =>
      rw [List.mapM_cons]
      refine (h a List.mem_cons_self).bind fun b _ => ?_
      exact (ih fun d hd => h d (List.mem_cons_of_mem _ hd)).bind fun _ _ => noPanic_pure _

theorem NoPanic.toOption {x : Fallible ε α} (h : NoPanic x) : NoPanic (toOption x) := by
  cases x with
  | ok a => exact noPanic_ok _
  | error e =>
      cases e with
      | err e => exact noPanic_ok _
      | panic => exact (h rfl).elim

theorem NoPanic.andThen {x : Fallible ε (Option α)} {f : α → Fallible ε (Option β)}
    (hx : NoPanic x) (hf : ∀ a, x = .ok (some a) → NoPanic (f a)) : NoPanic (andThen x f) := by
  refine hx.bind fun o ho => ?_
  cases o with
  | none => exact noPanic_pure _
  | some a => exact hf a ho

theorem noPanic_unwrapResult {x : Fallible ε α} : NoPanic (unwrapResult x) ↔ ∃ a, x = .ok a := by
  cases x with
  | ok a => exact ⟨fun _ => ⟨a, rfl⟩, fun _ => noPanic_ok a⟩
  | error e => exact ⟨fun h => (h rfl).elim, fun ⟨_, h⟩ => by cases h⟩

/-- What neither gives a value nor panics is an `Err`. -/
theorem NoPanic.eq_fail {x : Fallible ε α} (hx : NoPanic x) (h : ¬∃ a, x = .ok a) :
    ∃ e, x = fail e := by
  cases x with
  | ok a => exact (h ⟨a, rfl⟩).elim
  | error e =>
      cases e with
      | err e => exact ⟨e, rfl⟩
      | panic => exact (hx rfl).elim

end Panics

section Arithmetic
variable {ε : Type*}

/-- `u32::checked_sub`. -/
def checkedSub (a b : UInt32) : Option UInt32 := if b ≤ a then some (a - b) else none

/-- `u32::checked_add`. -/
def checkedAdd (a b : UInt32) : Option UInt32 :=
  if a.toNat + b.toNat < 2 ^ 32 then some (a + b) else none

/-- `a + b` on `u32`, an overflow being a panic. -/
def addU32 (a b : UInt32) : Fallible ε UInt32 := unwrap (checkedAdd a b)

/-- `u16::checked_sub`. -/
def checkedSub16 (a b : UInt16) : Option UInt16 := if b ≤ a then some (a - b) else none

/-- `u64::checked_sub`. -/
def checkedSub64 (a b : UInt64) : Option UInt64 := if b ≤ a then some (a - b) else none

/-- `usize::saturating_add`. -/
def saturatingAddSize (a b : UInt64) : UInt64 :=
  if a.toNat + b.toNat < 2 ^ 64 then a + b else UInt64.ofNat (2 ^ 64 - 1)

/-- `usize::checked_sub`; every size of the source is far below `2 ^ 64`. -/
def checkedSubSize (a b : Nat) : Option Nat := if b ≤ a then some (a - b) else none

/-- `u16::try_from(n)`. -/
def tryU16 (n : Nat) : Option UInt16 := if n < 2 ^ 16 then some (UInt16.ofNat n) else none

/-- `u32::try_from(n)`. -/
def tryU32 (n : Nat) : Option UInt32 := if n < 2 ^ 32 then some (UInt32.ofNat n) else none

theorem toNat_u8 {n : Nat} (h : n < 2 ^ 8) : (UInt8.ofNat n).toNat = n :=
  UInt8.toNat_ofNat_of_lt' h

theorem toNat_u16 {n : Nat} (h : n < 2 ^ 16) : (UInt16.ofNat n).toNat = n :=
  UInt16.toNat_ofNat_of_lt' h

theorem toNat_u32 {n : Nat} (h : n < 2 ^ 32) : (UInt32.ofNat n).toNat = n :=
  UInt32.toNat_ofNat_of_lt' h

theorem exists_u16 {n : Nat} (h : n < 2 ^ 16) : ∃ x : UInt16, x.toNat = n :=
  ⟨UInt16.ofNat n, toNat_u16 h⟩

theorem exists_u32 {n : Nat} (h : n < 2 ^ 32) : ∃ x : UInt32, x.toNat = n :=
  ⟨UInt32.ofNat n, toNat_u32 h⟩

theorem exists_u64 {n : Nat} (h : n < 2 ^ 64) : ∃ x : UInt64, x.toNat = n :=
  ⟨UInt64.ofNat n, UInt64.toNat_ofNat_of_lt' h⟩

theorem checkedSub_eq_some {a b d : UInt32} :
    checkedSub a b = some d ↔ b.toNat + d.toNat = a.toNat := by
  unfold checkedSub
  split
  · rename_i h
    have hle : b.toNat ≤ a.toNat := UInt32.le_iff_toNat_le.mp h
    rw [Option.some.injEq, ← UInt32.toNat_inj, UInt32.toNat_sub_of_le _ _ h]
    omega
  · rename_i h
    rw [UInt32.le_iff_toNat_le] at h
    constructor
    · intro hc
      cases hc
    · intro hc
      omega

theorem checkedAdd_eq_some {a b d : UInt32} :
    checkedAdd a b = some d ↔ a.toNat + b.toNat = d.toNat := by
  unfold checkedAdd
  have hd := d.toNat_lt
  split
  · rw [Option.some.injEq, ← UInt32.toNat_inj, UInt32.toNat_add, Nat.mod_eq_of_lt (by assumption)]
  · constructor
    · intro hc
      cases hc
    · intro hc
      omega

theorem addU32_eq_ok {a b d : UInt32} :
    (addU32 a b : Fallible ε UInt32) = .ok d ↔ a.toNat + b.toNat = d.toNat := by
  rw [addU32, unwrap_eq_ok, checkedAdd_eq_some]

theorem checkedSub16_eq_some {a b d : UInt16} :
    checkedSub16 a b = some d ↔ b.toNat + d.toNat = a.toNat := by
  unfold checkedSub16
  split
  · rename_i h
    have hle : b.toNat ≤ a.toNat := UInt16.le_iff_toNat_le.mp h
    rw [Option.some.injEq, ← UInt16.toNat_inj, UInt16.toNat_sub_of_le _ _ h]
    omega
  · rename_i h
    rw [UInt16.le_iff_toNat_le] at h
    constructor
    · intro hc
      cases hc
    · intro hc
      omega

theorem checkedSub64_eq_some {a b d : UInt64} :
    checkedSub64 a b = some d ↔ b.toNat + d.toNat = a.toNat := by
  unfold checkedSub64
  split
  · rename_i h
    have hle : b.toNat ≤ a.toNat := UInt64.le_iff_toNat_le.mp h
    rw [Option.some.injEq, ← UInt64.toNat_inj, UInt64.toNat_sub_of_le _ _ h]
    omega
  · rename_i h
    rw [UInt64.le_iff_toNat_le] at h
    constructor
    · intro hc
      cases hc
    · intro hc
      omega

theorem checkedSubSize_eq_some {a b d : Nat} : checkedSubSize a b = some d ↔ b + d = a := by
  unfold checkedSubSize
  split
  · rw [Option.some.injEq]
    omega
  · constructor
    · intro hc
      cases hc
    · intro hc
      omega

end Arithmetic

section Sorting
variable {α : Type*}

/-- `tuple_windows().all(p)`: every adjacent pair satisfies `p`. -/
def allWindows (p : α → α → Bool) : List α → Bool
  | a :: b :: rest => p a b && allWindows p (b :: rest)
  | _ => true

/-- `sort_unstable_by` with its documented contract: a sorted rearrangement, in
which equal elements may come in any order. -/
structure UnstableSort (α : Type*) (le : α → α → Bool) where
  run : List α → List α
  perm : ∀ l, (run l).Perm l
  sorted : ∀ l, (run l).Pairwise (fun a b => le a b = true)

/-- A stable sort is one choice of it. -/
def UnstableSort.stable {le : α → α → Bool}
    (trans : ∀ a b d, le a b = true → le b d = true → le a d = true)
    (total : ∀ a b, le a b = true ∨ le b a = true) : UnstableSort α le where
  run l := l.mergeSort le
  perm l := List.mergeSort_perm l le
  sorted l := List.pairwise_mergeSort trans (fun a b => by simpa using total a b) l

theorem allWindows_iff_pairwise {p : α → α → Bool}
    (trans : ∀ a b d, p a b = true → p b d = true → p a d = true) (l : List α) :
    allWindows p l = true ↔ l.Pairwise (fun a b => p a b = true) := by
  induction l with
  | nil => simp [allWindows]
  | cons a l ih =>
      cases l with
      | nil => simp [allWindows]
      | cons b l =>
          rw [allWindows, Bool.and_eq_true, ih]
          constructor
          · rintro ⟨hab, hl⟩
            refine List.pairwise_cons.mpr ⟨?_, hl⟩
            intro d hd
            rcases List.mem_cons.mp hd with rfl | hd
            · exact hab
            · exact trans a b d hab (List.rel_of_pairwise_cons hl hd)
          · intro h
            obtain ⟨ha, hl⟩ := List.pairwise_cons.mp h
            exact ⟨ha b List.mem_cons_self, hl⟩

end Sorting

end Rust
