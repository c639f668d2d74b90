import Mathlib

/-!
# A lock for many readers or one writer

What each thread holds of the lock, and when a thread that asks is let in. Giving back and taking
where it is allowed keep a writer alone.
-/
namespace RwLock

/-- What a thread holds. -/
inductive Guard where
  | free
  | read
  | write
  deriving DecidableEq, Repr

/-- A reader is let in beside readers only. -/
def MayRead (guards : List Guard) : Prop := ∀ g ∈ guards, g ≠ .write

/-- A writer is let in where nobody holds anything. -/
def MayWrite (guards : List Guard) : Prop := ∀ g ∈ guards, g = .free

instance (guards : List Guard) : Decidable (MayRead guards) :=
  inferInstanceAs (Decidable (∀ g ∈ guards, g ≠ .write))

instance (guards : List Guard) : Decidable (MayWrite guards) :=
  inferInstanceAs (Decidable (∀ g ∈ guards, g = .free))

/-- Beside a writer nobody holds anything. -/
def Exclusive (guards : List Guard) : Prop :=
  ∀ (i j : Nat) (g : Guard), guards[i]? = some .write → guards[j]? = some g → g ≠ .free → j = i

variable {guards : List Guard} {i : Nat}

theorem exclusive_free (n : Nat) : Exclusive (List.replicate n .free) := by
  intro i j g hi
  cases List.eq_of_mem_replicate (List.mem_of_getElem? hi)

theorem getElem?_set_cases {held g : Guard} {j : Nat} (h : (guards.set i held)[j]? = some g) :
    (j = i ∧ g = held) ∨ (j ≠ i ∧ guards[j]? = some g) := by
  by_cases same : i = j
  · subst same
    rw [List.getElem?_set_self'] at h
    obtain ⟨old, -, rfl⟩ := Option.map_eq_some_iff.mp h
    exact .inl ⟨rfl, rfl⟩
  · exact .inr ⟨Ne.symm same, (List.getElem?_set_ne same).symm.trans h⟩

theorem Exclusive.release (h : Exclusive guards) : Exclusive (guards.set i .free) := by
  intro a b g ha hb hg
  rcases getElem?_set_cases ha with ⟨-, hfree⟩ | ⟨-, ha⟩
  · cases hfree
  rcases getElem?_set_cases hb with ⟨-, hfree⟩ | ⟨-, hb⟩
  · exact (hg hfree).elim
  · exact h a b g ha hb hg

theorem Exclusive.read (may : MayRead guards) : Exclusive (guards.set i .read) := by
  intro a b g ha
  rcases getElem?_set_cases ha with ⟨-, hread⟩ | ⟨-, ha⟩
  · cases hread
  · exact (may _ (List.mem_of_getElem? ha) rfl).elim

theorem Exclusive.write (may : MayWrite guards) : Exclusive (guards.set i .write) := by
  intro a b g ha hb hg
  have hself : ∀ {c : Nat} {g : Guard}, (guards.set i .write)[c]? = some g → g ≠ .free → c = i := by
    intro c g hc hg
    rcases getElem?_set_cases hc with ⟨rfl, -⟩ | ⟨-, hc⟩
    · rfl
    · exact (hg (may g (List.mem_of_getElem? hc))).elim
  rw [hself ha nofun, hself hb hg]

end RwLock
