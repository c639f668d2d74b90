import LightweightShred.IngressStats
import LightweightShred.Lib.Runs

/-!
# Windows of the fetch statistics

`maybe_submit` puts the counters back to zero once the cadence has passed, and submits them
nowhere. So what the statistics say is about the calls since it last did.
-/
namespace LightweightShred
open Rust Runs

/-- The greatest duration, in nanoseconds. -/
def durationMax : Nat := (2 ^ 64 - 1) * 10 ^ 9 + 999999999

structure Duration where
  nanos : Nat
  le_max : nanos ≤ durationMax

namespace ShredFetchStats

/-- An empty window. -/
def openedAt (now : Nat) : ShredFetchStats := { ShredFetchStats.default with since := some now }

/-- The clock is read at `asked` for the time that has passed, and at `now` for the new window. -/
def maybeSubmit (s : ShredFetchStats) (cadence : Duration) (asked now : Nat) :
    Bool × ShredFetchStats :=
  if (s.since.map (asked - ·)).getD durationMax < cadence.nanos then (false, s)
  else (true, .openedAt now)

/-- The cadence has passed since the counters were last zero, or they have never been reset. -/
def Due (s : ShredFetchStats) (cadence : Duration) (asked : Nat) : Prop :=
  ∀ opened, s.since = some opened → cadence.nanos ≤ asked - opened

/-- The counters are reset exactly where it is due: no cadence is above the greatest duration. -/
theorem maybeSubmit_cases (s : ShredFetchStats) (cadence : Duration) (asked now : Nat) :
    (s.Due cadence asked ∧ s.maybeSubmit cadence asked now = (true, .openedAt now)) ∨
    (∃ opened, s.since = some opened ∧ asked - opened < cadence.nanos ∧
      s.maybeSubmit cadence asked now = (false, s)) := by
  unfold maybeSubmit Due
  cases hs : s.since with
  | none =>
      have hle := cadence.le_max
      refine .inl ⟨nofun, ?_⟩
      rw [Option.map_none, Option.getD_none, if_neg (Nat.not_lt_of_le hle)]
  | some opened =>
      rw [Option.map_some, Option.getD_some]
      rcases Nat.lt_or_ge (asked - opened) cadence.nanos with hlt | hge
      · exact .inr ⟨opened, rfl, hlt, if_pos hlt⟩
      · refine .inl ⟨fun opened' h => ?_, if_neg (Nat.not_lt_of_le hge)⟩
        cases h
        exact hge

end ShredFetchStats

/-- The calls that share the statistics. -/
inductive StatsCall where
  | shouldDiscardShred (call : FilterCall)
  | maybeSubmit (cadence : Duration) (asked now : Nat)

namespace StatsCall

def run (stats : ShredFetchStats) : StatsCall → Result ShredFetchStats
  | .shouldDiscardShred call => do
    let (_, stats) ← call.run stats
    pure stats
  | .maybeSubmit cadence asked now => pure (stats.maybeSubmit cadence asked now).2

/-- What a call is to add to a counter. -/
def adds (c : FetchCounter) : StatsCall → Nat
  | .shouldDiscardShred call => (if c = call.outcome.counter then 1 else 0) +
    if call.outcome.unexpected = true ∧ c = .unexpectedDataCompleteShred then 1 else 0
  | .maybeSubmit _ _ _ => 0

end StatsCall

/-- The counters are those of the calls made since they were reset, at `opened` if ever, and none of
these calls was due to reset them. -/
structure Window (opened : Option Nat) (recent : List StatsCall) (stats : ShredFetchStats) :
    Prop where
  since : stats.since = opened
  counters : ∀ c, (stats.get c).toNat = (recent.map (StatsCall.adds c)).sum
  waits : ∀ cadence asked now, .maybeSubmit cadence asked now ∈ recent →
    ∃ reset, opened = some reset ∧ asked - reset < cadence.nanos

/-- Where the calls that the counters are about begin: at the first of all, or behind the last one
that reset them. -/
def LastWindow (calls : List StatsCall) (stats : ShredFetchStats) : Prop :=
  Window none calls stats ∨
    ∃ past cadence asked now recent before,
      calls = past ++ .maybeSubmit cadence asked now :: recent ∧
      runAll StatsCall.run .default past = .ok before ∧ before.Due cadence asked ∧
      Window (some now) recent stats

section
variable {opened : Option Nat} {recent calls : List StatsCall} {stats : ShredFetchStats}
  {c : FetchCounter}

theorem adds_le (call : StatsCall) (c : FetchCounter) : call.adds c ≤ 1 := by
  cases call with
  | maybeSubmit cadence asked now => exact Nat.zero_le _
  | shouldDiscardShred call =>
      obtain ⟨ty, hproper⟩ := exists_proper call
      rw [StatsCall.adds]
      split_ifs with h1 h2 h2
      · exact (hproper.once h2.1 (h1 ▸ h2.2)).elim
      all_goals omega

theorem sum_adds_le (recent : List StatsCall) (c : FetchCounter) :
    (recent.map (StatsCall.adds c)).sum ≤ recent.length := by
  induction recent with
  | nil => exact Nat.le_refl 0
  | cons call recent ih =>
      have hle := adds_le call c
      rw [List.map_cons, List.sum_cons, List.length_cons]
      omega

theorem Window.filter (h : Window opened recent stats) (hroom : recent.length + 1 < 2 ^ 64)
    (call : FilterCall) :
    Window opened (recent ++ [.shouldDiscardShred call]) (call.outcome.apply stats).2 := by
  obtain ⟨ty, hproper⟩ := exists_proper call
  have haccounted : Accounted call.outcome stats (call.outcome.apply stats).2 :=
    hproper.accounted fun c => by
      have hle := sum_adds_le recent c
      rw [h.counters c]
      omega
  refine ⟨?_, fun c => ?_, fun cadence asked now hmem => ?_⟩
  · have hothers := haccounted.others
    simp only [ShredFetchStats.others, Prod.mk.injEq] at hothers
    rw [hothers.2.2.2.1, h.since]
  · rw [haccounted.counters c, h.counters c, List.map_append, List.sum_append]
    simp only [List.map_cons, List.map_nil, List.sum_cons, List.sum_nil, StatsCall.adds]
    omega
  · rcases List.mem_append.mp hmem with hrecent | hcall
    · exact h.waits cadence asked now hrecent
    · cases List.mem_singleton.mp hcall

theorem Window.wait (h : Window opened recent stats) {cadence : Duration} {asked reset : Nat}
    (now : Nat) (hsince : stats.since = some reset) (hwait : asked - reset < cadence.nanos) :
    Window opened (recent ++ [.maybeSubmit cadence asked now]) stats := by
  refine ⟨h.since, fun c => ?_, fun cadence' asked' now' hmem => ?_⟩
  · rw [h.counters c, List.map_append, List.sum_append]
    rfl
  · rcases List.mem_append.mp hmem with hrecent | hcall
    · exact h.waits cadence' asked' now' hrecent
    · cases List.mem_singleton.mp hcall
      exact ⟨reset, h.since ▸ hsince, hwait⟩

theorem Window.reset (now : Nat) : Window (some now) [] (.openedAt now) where
  since := rfl
  counters c := by cases c <;> rfl
  waits _ _ _ h := by cases h

theorem LastWindow.extend {call : StatsCall} {after : ShredFetchStats} (h : LastWindow calls stats)
    (hstep : ∀ opened recent, recent.length ≤ calls.length → Window opened recent stats →
      Window opened (recent ++ [call]) after) : LastWindow (calls ++ [call]) after := by
  rcases h with h | ⟨past, cadence, asked, now, recent, before, rfl, hpast, hdue, h⟩
  · exact .inl (hstep _ _ le_rfl h)
  · refine .inr ⟨past, cadence, asked, now, recent ++ [call], before, by simp, hpast, hdue, ?_⟩
    refine hstep _ _ ?_ h
    rw [List.length_append, List.length_cons]
    omega

theorem LastWindow.step (h : LastWindow calls stats)
    (hrun : runAll StatsCall.run .default calls = .ok stats) (hroom : calls.length + 1 < 2 ^ 64)
    (call : StatsCall) : ∃ after, call.run stats = .ok after ∧ LastWindow (calls ++ [call]) after := by
  cases call with
  | shouldDiscardShred call =>
      have hcall : call.run stats = .ok (call.outcome.apply stats) := shouldDiscardShred_eq
      refine ⟨_, by rw [StatsCall.run, hcall]; rfl, h.extend fun opened recent hle hw => ?_⟩
      exact hw.filter (by omega) call
  | maybeSubmit cadence asked now =>
      rcases stats.maybeSubmit_cases cadence asked now with ⟨hdue, hreset⟩ | ⟨reset, hs, hlt, hkeep⟩
      · refine ⟨_, by rw [StatsCall.run, hreset]; rfl, .inr ?_⟩
        exact ⟨calls, cadence, asked, now, [], stats, rfl, hrun, hdue, .reset now⟩
      · refine ⟨_, by rw [StatsCall.run, hkeep]; rfl, h.extend fun opened recent _ hw => ?_⟩
        exact hw.wait now hs hlt

theorem exists_lastWindow (calls : List StatsCall) (hroom : calls.length < 2 ^ 64) :
    ∃ stats, runAll StatsCall.run .default calls = .ok stats ∧ LastWindow calls stats := by
  induction calls using List.reverseRecOn with
  | nil =>
      refine ⟨.default, runAll_nil, .inl ⟨rfl, fun c => ?_, fun _ _ _ h => by cases h⟩⟩
      cases c <;> rfl
  | append_singleton calls call ih =>
      rw [List.length_append, List.length_singleton] at hroom
      obtain ⟨stats, hrun, hlast⟩ := ih (by omega)
      obtain ⟨after, hcall, hafter⟩ := hlast.step hrun hroom call
      exact ⟨after, runAll_append.mpr ⟨stats, hrun, runAll_cons.mpr ⟨after, hcall, runAll_nil⟩⟩, hafter⟩

end

/-- In every order of calls of the filter and of `maybe_submit` on fresh statistics, each counter is
the number of decisions made for it since the counters were last reset. A call of `maybe_submit`
resets them exactly if it is the first one, or its cadence has passed since the last reset. -/
theorem fetch_counters_since_reset (calls : List StatsCall) (hroom : calls.length < 2 ^ 64) :
    ∃ stats, runAll StatsCall.run .default calls = .ok stats ∧ LastWindow calls stats ∧
      ∀ cadence asked now, (stats.maybeSubmit cadence asked now).1 = true ↔
        stats.Due cadence asked := by
  obtain ⟨stats, hrun, hlast⟩ := exists_lastWindow calls hroom
  refine ⟨stats, hrun, hlast, fun cadence asked now => ?_⟩
  rcases stats.maybeSubmit_cases cadence asked now with ⟨hdue, h⟩ | ⟨reset, hs, hlt, h⟩
  · rw [h]
    exact iff_of_true rfl hdue
  · rw [h]
    exact iff_of_false nofun fun hdue => Nat.not_lt_of_le (hdue reset hs) hlt

/-- A packet before the first reset and one behind it, and half a millisecond later a call that waits
for a whole one. -/
def oneWindow : List StatsCall :=
  [.shouldDiscardShred zeroCall, .maybeSubmit ⟨1000000, by norm_num [durationMax]⟩ 40 50,
    .shouldDiscardShred zeroCall, .maybeSubmit ⟨1000000, by norm_num [durationMax]⟩ 500050 500060]

theorem fetch_counters_since_reset_one : ∃ stats,
    runAll StatsCall.run .default oneWindow = .ok stats ∧
      ∃ past cadence asked now recent, oneWindow = past ++ .maybeSubmit cadence asked now :: recent ∧
        Window (some now) recent stats := by
  obtain ⟨stats, hrun, hlast, -⟩ :=
    fetch_counters_since_reset oneWindow (show 4 < 2 ^ 64 by decide)
  refine ⟨stats, hrun, ?_⟩
  rcases hlast with hnone | ⟨past, cadence, asked, now, recent, -, hcalls, -, -, hwindow⟩
  · -- the first call of `maybe_submit` did not wait
    obtain ⟨reset, hreset, -⟩ := hnone.waits
      ⟨1000000, by norm_num [durationMax]⟩ 40 50 (by simp [oneWindow])
    cases hreset
  · exact ⟨past, cadence, asked, now, recent, hcalls, hwindow⟩

end LightweightShred
