import LightweightShred.Run

/-!
# The order of the shreds

Shreds are sorted by kind and header index. Position does not enter the order, so equal
elements may differ in it.
-/
namespace LightweightShred
open Rust

theorem isLe_iff {a b : Shred} : isLe a b = true ↔ (a.kind = .data ∧ b.kind = .code) ∨
    (a.kind = b.kind ∧ a.commonHeader.index.toNat ≤ b.commonHeader.index.toNat) := by
  cases a <;> cases b <;>
    simp [isLe, cmpShredErasureShardIndex, Shred.kind, Shred.commonHeader, Nat.isLE_compare]

theorem isLe_trans (a b d : Shred) (h1 : isLe a b = true) (h2 : isLe b d = true) :
    isLe a d = true := by
  rw [isLe_iff] at h1 h2 ⊢
  rcases h1 with ⟨ha, hb⟩ | ⟨hk, hi⟩
  · rcases h2 with ⟨hb', -⟩ | ⟨hk', -⟩
    · exact ShredType.noConfusion (hb'.symm.trans hb)
    · exact .inl ⟨ha, hk' ▸ hb⟩
  · rcases h2 with ⟨hb, hd⟩ | ⟨hk', hi'⟩
    · exact .inl ⟨hk.trans hb, hd⟩
    · exact .inr ⟨hk.trans hk', Nat.le_trans hi hi'⟩

theorem isLe_total (a b : Shred) : isLe a b = true ∨ isLe b a = true := by
  rw [isLe_iff, isLe_iff]
  have hle := Nat.le_total a.commonHeader.index.toNat b.commonHeader.index.toNat
  cases a <;> cases b <;> simp_all [Shred.kind]

/-- Ordered by `isLe` from the first to the last. -/
def Sorted (l : List Shred) : Prop := l.Pairwise fun a b => isLe a b = true

variable {srt : ShredSort} {l : List Shred}

theorem sorted_sortShreds (srt : ShredSort) (l : List Shred) : Sorted (sortShreds srt l) := by
  unfold sortShreds
  split
  · rename_i h
    exact (allWindows_iff_pairwise isLe_trans l).mp h
  · exact srt.sorted l

theorem sortShreds_of_sorted (h : Sorted l) : sortShreds srt l = l :=
  if_pos ((allWindows_iff_pairwise isLe_trans l).mpr h)

theorem Sorted.isLe_last {a b : Shred} (h : Sorted l) (hlast : l.getLast? = some a) (hb : b ∈ l) :
    isLe b a = true := by
  have hne := List.ne_nil_of_mem hb
  have hrefl : ∀ s, isLe s s = true := fun s => (isLe_total s s).elim id id
  have hle := List.Pairwise.rel_getLast_of_rel_getLast_getLast h hb (hrefl _)
  rw [List.getLast?_eq_some_getLast hne] at hlast
  rwa [Option.some.inj hlast] at hle

theorem exists_last_code (h : Sorted l) :
    (∃ L, l.getLast? = some (.shredCode L)) ↔ ∃ s ∈ l, s.kind = .code := by
  constructor
  · rintro ⟨L, hL⟩
    exact ⟨_, List.mem_of_getLast? hL, rfl⟩
  · rintro ⟨s, hs, hk⟩
    have hne : l ≠ [] := List.ne_nil_of_mem hs
    have hlast := List.getLast?_eq_getLast_of_ne_nil hne
    have hkind : (l.getLast hne).kind = .code := by
      rcases List.mem_iff_append.mp hs with ⟨front, back, rfl⟩
      by_cases hb : back = []
      · subst hb
        simpa using hk
      · have hp := (List.pairwise_append.mp h).2.1
        have hle := List.rel_of_pairwise_cons hp (List.getLast_mem hb)
        rw [isLe_iff, hk] at hle
        rw [List.getLast_append_of_ne_nil _ (List.cons_ne_nil _ _), List.getLast_cons hb]
        rcases hle with ⟨hd, -⟩ | ⟨he, -⟩
        · cases hd
        · exact he.symm
    cases hg : l.getLast hne with
    | shredCode L => exact ⟨L, by rw [hlast, hg]⟩
    | shredData d =>
        rw [hg] at hkind
        cases hkind

end LightweightShred
