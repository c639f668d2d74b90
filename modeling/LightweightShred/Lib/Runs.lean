import LightweightShred.Lib.Rust

/-!
# Runs of fallible calls

A state is changed by calls that may fail. What every successful call preserves holds after a
run of them, and what every call overwrites or keeps is what was last written to it.
-/
namespace Runs
open Rust

section
variable {σ ρ α : Type} {φ : Type} {run : σ → ρ → Except φ σ} {Inv : σ → Prop} {s t : σ}
  {calls : List ρ}

/-- Successful calls, one after another. -/
def runAll (run : σ → ρ → Except φ σ) (s : σ) (calls : List ρ) : Except φ σ := calls.foldlM run s

/-- The value that the calls wrote last, or else the one that was there. -/
def lastWritten (written : ρ → Option α) (original : α) (calls : List ρ) : α :=
  (calls.filterMap written).getLastD original

theorem runAll_nil : runAll run s [] = .ok s := rfl

theorem runAll_cons {c : ρ} : runAll run s (c :: calls) = .ok t ↔
    ∃ m, run s c = .ok m ∧ runAll run m calls = .ok t := by
  rw [runAll, List.foldlM_cons, bind_eq_ok]
  rfl

theorem lastWritten_cons (written : ρ → Option α) (original : α) (c : ρ) :
    lastWritten written original (c :: calls) =
      lastWritten written ((written c).getD original) calls := by
  unfold lastWritten
  cases hc : written c with
  | none => rw [List.filterMap_cons_none hc, Option.getD_none]
  | some a => rw [List.filterMap_cons_some hc, List.getLastD_cons, Option.getD_some]

/-- An invariant of every successful call is one of every run. -/
theorem runAll_invariant (step : ∀ s c t, Inv s → run s c = .ok t → Inv t) (hs : Inv s)
    (h : runAll run s calls = .ok t) : Inv t := by
  induction calls generalizing s with
  | nil =>
      cases h
      exact hs
  | cons c calls ih =>
      obtain ⟨m, hm, h⟩ := runAll_cons.mp h
      exact ih (step s c m hs hm) h

theorem runAll_kept (get : σ → α) (step : ∀ s c t, Inv s → run s c = .ok t → Inv t)
    (kept : ∀ s c t, Inv s → run s c = .ok t → get t = get s) (hs : Inv s)
    (h : runAll run s calls = .ok t) : get t = get s := by
  induction calls generalizing s with
  | nil =>
      cases h
      rfl
  | cons c calls ih =>
      obtain ⟨m, hm, h⟩ := runAll_cons.mp h
      rw [ih (step s c m hs hm) h, kept s c m hs hm]

theorem runAll_written (get : σ → α) (written : ρ → Option α)
    (step : ∀ s c t, Inv s → run s c = .ok t → Inv t)
    (writes : ∀ s c t, Inv s → run s c = .ok t → get t = (written c).getD (get s)) (hs : Inv s)
    (h : runAll run s calls = .ok t) : get t = lastWritten written (get s) calls := by
  induction calls generalizing s with
  | nil =>
      cases h
      rfl
  | cons c calls ih =>
      obtain ⟨m, hm, h⟩ := runAll_cons.mp h
      rw [ih (step s c m hs hm) h, lastWritten_cons, writes s c m hs hm]

theorem exists_runAll (step : ∀ s c t, Inv s → run s c = .ok t → Inv t)
    (ok : ∀ s, Inv s → ∀ c ∈ calls, ∃ t, run s c = .ok t) (hs : Inv s) :
    ∃ t, runAll run s calls = .ok t := by
  induction calls generalizing s with
  | nil => exact ⟨s, runAll_nil⟩
  | cons c calls ih =>
      obtain ⟨m, hm⟩ := ok s hs c List.mem_cons_self
      obtain ⟨t, ht⟩ := ih (fun s hs d hd => ok s hs d (List.mem_cons_of_mem _ hd))
        (step s c m hs hm)
      exact ⟨t, runAll_cons.mpr ⟨m, hm, ht⟩⟩

theorem runAll_append {calls' : List ρ} : runAll run s (calls ++ calls') = .ok t ↔
    ∃ m, runAll run s calls = .ok m ∧ runAll run m calls' = .ok t := by
  rw [runAll, List.foldlM_append, bind_eq_ok]
  rfl

theorem runAll_history (Inv : List ρ → σ → Prop) (start : Inv [] s)
    (step : ∀ past s c t, Inv past s → run s c = .ok t → Inv (past ++ [c]) t)
    (h : runAll run s calls = .ok t) : Inv calls t := by
  induction calls using List.reverseRecOn generalizing t with
  | nil =>
      cases h
      exact start
  | append_singleton past c ih =>
      obtain ⟨m, hm, h⟩ := runAll_append.mp h
      obtain ⟨u, hu, h⟩ := runAll_cons.mp h
      cases h
      exact step past m c t (ih hm) hu

/-- Where every call uses something up, a run is no longer than what there was. -/
theorem runAll_length_le (left : σ → Nat) (step : ∀ s c t, Inv s → run s c = .ok t → Inv t)
    (uses : ∀ s c t, Inv s → run s c = .ok t → left t < left s) (hs : Inv s)
    (h : runAll run s calls = .ok t) : calls.length + left t ≤ left s := by
  induction calls generalizing s with
  | nil =>
      cases h
      exact Nat.le_of_eq (Nat.zero_add _)
  | cons c calls ih =>
      obtain ⟨m, hm, h⟩ := runAll_cons.mp h
      have hrest := ih (step s c m hs hm) h
      have hused := uses s c m hs hm
      rw [List.length_cons]
      omega

/-- Where some call succeeds until the end is reached, every state can be run to the end. -/
theorem exists_runAll_end {End : σ → Prop} (left : σ → Nat)
    (step : ∀ s c t, Inv s → run s c = .ok t → Inv t)
    (uses : ∀ s c t, Inv s → run s c = .ok t → left t < left s)
    (next : ∀ s, Inv s → End s ∨ ∃ c t, run s c = .ok t) (hs : Inv s) :
    ∃ calls t, runAll run s calls = .ok t ∧ End t := by
  generalize hn : left s = n
  induction n using Nat.strong_induction_on generalizing s with
  | _ n ih =>
      rcases next s hs with hend | ⟨c, m, hm⟩
      · exact ⟨[], s, runAll_nil, hend⟩
      · have hused := uses s c m hs hm
        obtain ⟨calls, t, ht, hend⟩ := ih (left m) (hn ▸ hused) (step s c m hs hm) rfl
        exact ⟨c :: calls, t, runAll_cons.mpr ⟨m, hm, ht⟩, hend⟩

end

end Runs
