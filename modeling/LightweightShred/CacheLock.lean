import LightweightShred.ParallelRecovery
import LightweightShred.Lib.RwLock

/-!
# The lock of the codec cache

The turns under the lock, with the lock itself: `get` takes it for reading, looks up and gives it
back, and then takes it for writing if it must. Nothing that is done under the lock panics, so it is
never poisoned. Without the turns of the lock a run is one of the shared cache.
-/
namespace LightweightShred
open Rust Runs Slots RwLock

/-- What a call does next. -/
inductive LockStep where
  | acquireRead
  | acquireWrite
  | release
  | turn
  deriving DecidableEq

/-- `read()` before the first look, `write()` before the second one, and each guard is dropped once
its look is done, before anything else. -/
def GetState.next : GetState → Guard → LockStep
  | .called, .free => .acquireRead
  | .missed, .read => .release
  | .missed, .free => .acquireWrite
  | .entry _, .read => .release
  | .entry _, .write => .release
  | _, _ => .turn

/-- The cache with what each call holds of its lock. -/
structure LockedSystem where
  system : CacheSystem
  guards : List Guard

namespace LockedSystem

def start (keys : List CacheKey) : LockedSystem :=
  ⟨.start keys, List.replicate keys.length .free⟩

def setGuard (s : LockedSystem) (i : Nat) (g : Guard) : LockedSystem :=
  { s with guards := s.guards.set i g }

/-- Some call waits to write. -/
def writerWaits (s : LockedSystem) : Bool :=
  (s.system.calls.zip s.guards).any fun x => x.1.state.next x.2 = .acquireWrite

end LockedSystem

section
variable (new : (dataShards parityShards : Nat) → Except ErasureError ReedSolomon)

/-- One turn of a call of `get`, on the lock or on the cache. Whether readers are let in before a
writer that waits is the lock's choice. -/
def lockedTurn (writersFirst : Bool) (s : LockedSystem) (turn : Turn) :
    Except Blocked LockedSystem :=
  match s.system.calls[turn.call]?, s.guards[turn.call]? with
  | some call, some guard =>
    match call.state.next guard with
    | .acquireRead =>
      if MayRead s.guards ∧ ¬(writersFirst && s.writerWaits) then .ok (s.setGuard turn.call .read)
      else .error .waiting
    | .acquireWrite =>
      if MayWrite s.guards then .ok (s.setGuard turn.call .write) else .error .waiting
    | .release => .ok (s.setGuard turn.call .free)
    | .turn => (getTurn new s.system turn).map fun system => { s with system }
  | _, _ => .error .noCall

/-- What a turn does: it moves the guard of its call, or the call itself. -/
inductive LockedTurn (s : LockedSystem) (turn : Turn) : LockedSystem → Prop
  | acquireRead {call} (there : s.system.calls[turn.call]? = some call)
      (free : s.guards[turn.call]? = some .free) (called : call.state = .called)
      (may : MayRead s.guards) : LockedTurn s turn (s.setGuard turn.call .read)
  | acquireWrite {call} (there : s.system.calls[turn.call]? = some call)
      (free : s.guards[turn.call]? = some .free) (missed : call.state = .missed)
      (may : MayWrite s.guards) : LockedTurn s turn (s.setGuard turn.call .write)
  | release {call guard} (there : s.system.calls[turn.call]? = some call)
      (held : s.guards[turn.call]? = some guard) (ended : call.state.next guard = .release) :
      LockedTurn s turn (s.setGuard turn.call .free)
  | turn {call guard system} (there : s.system.calls[turn.call]? = some call)
      (held : s.guards[turn.call]? = some guard) (next : call.state.next guard = .turn)
      (taken : getTurn new s.system turn = .ok system) : LockedTurn s turn { s with system }

end

section
variable {new : (dataShards parityShards : Nat) → Except ErasureError ReedSolomon}
  {writersFirst : Bool} {keys : List CacheKey} {turns : List Turn} {s t : LockedSystem} {turn : Turn}
  {i : Nat} {call : GetCall} {state : GetState} {guard : Guard}

theorem GetState.next_acquireRead (h : state.next guard = .acquireRead) :
    state = .called ∧ guard = .free := by
  cases state <;> cases guard <;> first | exact ⟨rfl, rfl⟩ | cases h

theorem GetState.next_acquireWrite (h : state.next guard = .acquireWrite) :
    state = .missed ∧ guard = .free := by
  cases state <;> cases guard <;> first | exact ⟨rfl, rfl⟩ | cases h

theorem lockedTurn_cases (h : lockedTurn new writersFirst s turn = .ok t) :
    LockedTurn new s turn t := by
  unfold lockedTurn at h
  split at h
  · rename_i call guard there held
    split at h
    · rename_i next
      obtain ⟨called, rfl⟩ := GetState.next_acquireRead next
      split at h
      · rename_i may
        cases h
        exact .acquireRead there held called may.1
      · cases h
    · rename_i next
      obtain ⟨missed, rfl⟩ := GetState.next_acquireWrite next
      split at h
      · rename_i may
        cases h
        exact .acquireWrite there held missed may
      · cases h
    · rename_i ended
      cases h
      exact .release there held ended
    · rename_i next
      obtain ⟨system, step, rfl⟩ := map_eq_ok.mp h
      exact .turn there held next step
  · cases h

/-- The places that a turn on the cache moves a call between. -/
inductive GetState.Moves : GetState → GetState → Prop
  | hit {cell} : Moves .called (.entry cell)
  | miss : Moves .called .missed
  | second {cell} : Moves .missed (.entry cell)
  | start {cell} : Moves (.entry cell) (.building cell)
  | load {cell result} : Moves (.entry cell) (.returned result)
  | finish {cell result} : Moves (.building cell) (.returned result)

theorem exists_moves {u v : CacheSystem} (step : getTurn new u turn = .ok v) :
    ∃ key state state', u.calls[turn.call]? = some ⟨key, state⟩ ∧ state.Moves state' ∧
      v.calls = u.calls.set turn.call ⟨key, state'⟩ := by
  cases getTurn_cases new step with
  | hit call looks found =>
      rcases looks with rfl | rfl
      · exact ⟨_, _, _, call, .hit, rfl⟩
      · exact ⟨_, _, _, call, .second, rfl⟩
  | miss call absent => exact ⟨_, _, _, call, .miss, rfl⟩
  | put call absent => exact ⟨_, _, _, call, .second, rfl⟩
  | start call empty => exact ⟨_, _, _, call, .start, rfl⟩
  | load call isSet => exact ⟨_, _, _, call, .load, rfl⟩
  | finish call => exact ⟨_, _, _, call, .finish, rfl⟩

/-- The guards that a call may hold where it stands. -/
def GetState.Fits : GetState → Guard → Prop
  | .called, g => g ≠ .write
  | .missed, _ => True
  | .entry _, _ => True
  | .building _, g => g = .free
  | .returned _, g => g = .free

/-- What holds between turns. -/
structure LockedSystem.Guarded (s : LockedSystem) : Prop where
  length : s.guards.length = s.system.calls.length
  fits : ∀ (i : Nat) (call : GetCall) (g : Guard), s.system.calls[i]? = some call →
    s.guards[i]? = some g → call.state.Fits g
  exclusive : Exclusive s.guards

theorem GetState.Moves.fits {state' : GetState} (h : state.Moves state')
    (next : state.next guard = .turn) (old : state.Fits guard) : state'.Fits guard := by
  cases h with
  | hit => trivial
  | miss => trivial
  | second => trivial
  | finish => exact old
  | start => cases guard <;> first | rfl | cases next
  | load => cases guard <;> first | rfl | cases next

theorem LockedSystem.Guarded.setGuard (h : s.Guarded) (there : s.system.calls[i]? = some call)
    (fits : call.state.Fits guard) (exclusive : Exclusive (s.guards.set i guard)) :
    (s.setGuard i guard).Guarded where
  length := (List.length_set ..).trans h.length
  fits := by
    intro j c g hc hg
    rcases getElem?_set_cases hg with ⟨rfl, rfl⟩ | ⟨-, hg⟩
    · cases there.symm.trans hc
      exact fits
    · exact h.fits j c g hc hg
  exclusive := exclusive

theorem LockedSystem.Guarded.step (h : s.Guarded)
    (step : lockedTurn new writersFirst s turn = .ok t) : t.Guarded := by
  cases lockedTurn_cases step with
  | acquireRead there free called may =>
      exact h.setGuard there (called ▸ nofun) (.read may)
  | acquireWrite there free missed may =>
      exact h.setGuard there (missed ▸ trivial) (.write may)
  | @release call guard there held ended =>
      refine h.setGuard there ?_ h.exclusive.release
      cases hstate : call.state with
      | called => exact nofun
      | missed => trivial
      | entry cell => trivial
      | building cell => rfl
      | returned result => rfl
  | @turn call guard system there held next taken =>
      obtain ⟨key, state, state', hcall, moves, hcalls⟩ := exists_moves taken
      rw [there] at hcall
      cases hcall
      refine ⟨h.length.trans (by rw [hcalls, List.length_set]), fun j c g hc hg => ?_, h.exclusive⟩
      change system.calls[j]? = some c at hc
      rw [hcalls] at hc
      by_cases same : turn.call = j
      · subst same
        rw [List.getElem?_set_self (List.getElem?_eq_some_iff.mp there).1] at hc
        cases hc
        rw [held] at hg
        cases hg
        exact moves.fits next (h.fits _ _ _ there held)
      · exact h.fits j c g ((List.getElem?_set_ne same).symm.trans hc) hg

theorem LockedSystem.guarded_start (keys : List CacheKey) : (LockedSystem.start keys).Guarded where
  length := by
    rw [LockedSystem.start, CacheSystem.start, List.length_replicate, List.length_map]
  fits := by
    intro i call g hcall hg
    obtain ⟨key, -, rfl⟩ := List.mem_map.mp (List.mem_of_getElem? hcall)
    rw [List.eq_of_mem_replicate (List.mem_of_getElem? hg)]
    exact (by decide : Guard.free ≠ .write)
  exclusive := exclusive_free _

/-- Without the turns on the lock, a run is a run on the shared cache. -/
theorem exists_run (hrun : runAll (lockedTurn new writersFirst) (.start keys) turns = .ok s) :
    ∃ past, past.Sublist turns ∧ runAll (getTurn new) (.start keys) past = .ok s.system := by
  refine runAll_history (fun turns (s : LockedSystem) => ∃ past, past.Sublist turns ∧
    runAll (getTurn new) (.start keys) past = .ok s.system) ⟨[], .slnil, runAll_nil⟩ ?_ hrun
  rintro turns s turn t ⟨past, hsub, hpast⟩ step
  have hlock : past.Sublist (turns ++ [turn]) := hsub.trans (List.sublist_append_left _ _)
  cases lockedTurn_cases step with
  | acquireRead there free called may => exact ⟨past, hlock, hpast⟩
  | acquireWrite there free missed may => exact ⟨past, hlock, hpast⟩
  | release there held ended => exact ⟨past, hlock, hpast⟩
  | turn there held next taken =>
      exact ⟨past ++ [turn], hsub.append (.refl _),
        runAll_append.mpr ⟨_, hpast, runAll_cons.mpr ⟨_, taken, runAll_nil⟩⟩⟩

/-- The turns that a call still has to take, on the lock and on the cache. -/
def GetState.turnsLeft : GetState → Guard → Nat
  | .called, .free => 8
  | .called, _ => 7
  | .missed, .read => 6
  | .missed, .free => 5
  | .missed, .write => 4
  | .entry _, .free => 2
  | .entry _, _ => 3
  | .building _, _ => 1
  | .returned _, _ => 0

namespace LockedSystem

/-- The turns that the `i`-th call still has to take. -/
def turnsLeftOf (s : LockedSystem) (i : Nat) : Nat :=
  match s.system.calls[i]?, s.guards[i]? with
  | some call, some guard => call.state.turnsLeft guard
  | _, _ => 0

def turnsLeft (s : LockedSystem) : Nat := ∑ i ∈ Finset.range s.guards.length, s.turnsLeftOf i

theorem turnsLeftOf_eq (there : s.system.calls[i]? = some call) (held : s.guards[i]? = some guard) :
    s.turnsLeftOf i = call.state.turnsLeft guard := by rw [turnsLeftOf, there, held]

theorem turnsLeft_lt (length : t.guards.length = s.guards.length) (held : s.guards[i]? = some guard)
    (fewer : t.turnsLeftOf i < s.turnsLeftOf i) (calls : ∀ j ≠ i, t.system.calls[j]? = s.system.calls[j]?)
    (guards : ∀ j ≠ i, t.guards[j]? = s.guards[j]?) : t.turnsLeft < s.turnsLeft := by
  have hi := (List.getElem?_eq_some_iff.mp held).1
  rw [turnsLeft, turnsLeft, length]
  refine Finset.sum_lt_sum (fun j _ => ?_) ⟨i, Finset.mem_range.mpr hi, fewer⟩
  by_cases same : j = i
  · rw [same]
    exact Nat.le_of_lt fewer
  · rw [turnsLeftOf, turnsLeftOf, calls j same, guards j same]

theorem turnsLeft_setGuard {g : Guard} (there : s.system.calls[i]? = some call)
    (held : s.guards[i]? = some guard) (fewer : call.state.turnsLeft g < call.state.turnsLeft guard) :
    (s.setGuard i g).turnsLeft < s.turnsLeft := by
  have hi := (List.getElem?_eq_some_iff.mp held).1
  refine turnsLeft_lt (List.length_set ..) held ?_ (fun j _ => rfl)
    fun j same => List.getElem?_set_ne (Ne.symm same)
  rw [turnsLeftOf_eq there held,
    turnsLeftOf_eq (s := s.setGuard i g) there (List.getElem?_set_self hi)]
  exact fewer

end LockedSystem

theorem GetState.Moves.fewer {state' : GetState} (h : state.Moves state') (guard : Guard) :
    state'.turnsLeft guard < state.turnsLeft guard := by
  cases h <;> cases guard <;> simp [GetState.turnsLeft]

theorem LockedSystem.turnsLeft_turn (step : lockedTurn new writersFirst s turn = .ok t) :
    t.turnsLeft < s.turnsLeft := by
  cases lockedTurn_cases step with
  | acquireRead there free called may =>
      refine turnsLeft_setGuard there free ?_
      rw [called]
      decide
  | acquireWrite there free missed may =>
      refine turnsLeft_setGuard there free ?_
      rw [missed]
      decide
  | @release call guard there held ended =>
      refine turnsLeft_setGuard there held ?_
      generalize call.state = state at ended
      cases state <;> cases guard <;> first | exact Nat.lt_succ_self _ | cases ended
  | @turn call guard system there held next taken =>
      obtain ⟨key, state, state', hcall, moves, hcalls⟩ := exists_moves taken
      rw [there] at hcall
      cases hcall
      have hi := (List.getElem?_eq_some_iff.mp there).1
      have hset : system.calls[turn.call]? = some ⟨key, state'⟩ := by
        rw [hcalls, List.getElem?_set_self hi]
      refine turnsLeft_lt rfl held ?_ (fun j same => ?_) fun _ _ => rfl
      · rw [turnsLeftOf_eq there held, turnsLeftOf_eq (s := { s with system }) hset held]
        exact moves.fewer guard
      · change system.calls[j]? = _
        rw [hcalls, List.getElem?_set_ne (Ne.symm same)]

theorem LockedSystem.Guarded.next_of_held (h : s.Guarded)
    (held : s.guards[i]? = some guard) (holds : guard ≠ .free) :
    ∃ turn t, lockedTurn new writersFirst s turn = .ok t := by
  obtain ⟨call, there⟩ : ∃ call, s.system.calls[i]? = some call := by
    refine ⟨_, List.getElem?_eq_getElem ?_⟩
    rw [← h.length]
    exact (List.getElem?_eq_some_iff.mp held).1
  obtain ⟨key, state⟩ := call
  have hfits := h.fits i _ _ there held
  have hturn : state.next guard = .turn → (∃ t, getTurn new s.system ⟨i, []⟩ = .ok t) →
      ∃ turn t, lockedTurn new writersFirst s turn = .ok t := by
    rintro next ⟨t, taken⟩
    refine ⟨⟨i, []⟩, { s with system := t }, ?_⟩
    simp only [lockedTurn, there, held, next, taken, Except.map]
  have hrelease : state.next guard = .release →
      ∃ turn t, lockedTurn new writersFirst s turn = .ok t := by
    intro ended
    exact ⟨⟨i, []⟩, _, by simp only [lockedTurn, there, held, ended]; rfl⟩
  cases state with
  | called =>
      cases guard with
      | free => exact (holds rfl).elim
      | read => exact hturn rfl (exists_getTurn there (.inl rfl))
      | write => exact (hfits rfl).elim
  | missed =>
      cases guard with
      | free => exact (holds rfl).elim
      | read => exact hrelease rfl
      | write => exact hturn rfl (exists_getTurn there (.inr (.inl rfl)))
  | entry cell =>
      cases guard with
      | free => exact (holds rfl).elim
      | read => exact hrelease rfl
      | write => exact hrelease rfl
  | building cell => exact (holds hfits).elim
  | returned result => exact (holds hfits).elim

/-- Nobody waits for ever: where no guard is held, a writer that waits is let in, and else a reader,
and else the shared cache goes on. -/
theorem LockedSystem.Guarded.next (h : s.Guarded) (sound : s.system.Sound new) :
    (s.system.Finished ∧ ∀ g ∈ s.guards, g = .free) ∨
      ∃ turn t, lockedTurn new writersFirst s turn = .ok t := by
  by_cases free : ∀ g ∈ s.guards, g = .free
  swap
  · simp only [not_forall] at free
    obtain ⟨g, hg, holds⟩ := free
    obtain ⟨i, held⟩ := List.mem_iff_getElem?.mp hg
    exact .inr (h.next_of_held held holds)
  have hfree : ∀ {i : Nat} {call : GetCall}, s.system.calls[i]? = some call →
      s.guards[i]? = some .free := by
    intro i call there
    have hi := (List.getElem?_eq_some_iff.mp there).1
    rw [← h.length] at hi
    rw [List.getElem?_eq_getElem hi, free _ (List.getElem_mem hi)]
  by_cases waits : s.writerWaits = true
  · right
    obtain ⟨x, hx, next⟩ := List.any_eq_true.mp waits
    obtain ⟨i, hi⟩ := List.mem_iff_getElem?.mp hx
    obtain ⟨there, held⟩ := List.getElem?_zip_eq_some.mp hi
    have next := of_decide_eq_true next
    exact ⟨⟨i, []⟩, _, by simp only [lockedTurn, there, held, next]; exact if_pos free⟩
  rcases sound.next with finished | ⟨turn, t, taken⟩
  · exact .inl ⟨finished, free⟩
  · right
    obtain ⟨key, state, state', there, moves, -⟩ := exists_moves taken
    have held := hfree there
    have hturn : state.next .free = .turn → ∃ turn t, lockedTurn new writersFirst s turn = .ok t :=
      fun next => ⟨turn, { s with system := t }, by
        simp only [lockedTurn, there, held, next, taken, Except.map]⟩
    cases state with
    | called =>
        have may : MayRead s.guards ∧ ¬(writersFirst && s.writerWaits) := by
          refine ⟨fun g hg => by rw [free g hg]; nofun, ?_⟩
          rw [Bool.not_eq_true] at waits
          rw [waits, Bool.and_false]
          exact Bool.false_ne_true
        exact ⟨turn, s.setGuard turn.call .read, by
          simp only [lockedTurn, there, held, GetState.next, if_pos may]⟩
    | missed =>
        refine (waits (List.any_eq_true.mpr ⟨(⟨key, .missed⟩, .free), ?_, decide_eq_true rfl⟩)).elim
        exact List.mem_of_getElem? (List.getElem?_zip_eq_some.mpr ⟨there, held⟩)
    | entry cell => exact hturn rfl
    | building cell => exact hturn rfl
    | returned result => cases moves

theorem guarded_runAll (hrun : runAll (lockedTurn new writersFirst) (.start keys) turns = .ok s) :
    s.Guarded ∧ s.system.Sound new := by
  obtain ⟨past, -, hpast⟩ := exists_run hrun
  refine ⟨?_, (sound_runAll hpast).1⟩
  exact runAll_invariant (fun _ _ _ h step => h.step step) (LockedSystem.guarded_start keys) hrun

end

/-- `get` never deadlocks, neither on the lock of the cache nor on an entry, whether or not the lock
prefers writers: a run takes at most eight turns a call, a writer is alone under the lock, and from
wherever the run stands it can be brought to the end, where every call has returned and the lock is
free. -/
theorem get_terminates (new : (dataShards parityShards : Nat) → Except ErasureError ReedSolomon)
    (writersFirst : Bool) (keys : List CacheKey) (turns : List Turn) (s : LockedSystem)
    (hrun : runAll (lockedTurn new writersFirst) (.start keys) turns = .ok s) :
    turns.length ≤ 8 * keys.length ∧ Exclusive s.guards ∧
    ∃ rest t, runAll (lockedTurn new writersFirst) s rest = .ok t ∧ t.system.Finished ∧
      ∀ g ∈ t.guards, g = .free := by
  obtain ⟨hguarded, hsound⟩ := guarded_runAll hrun
  have hstep : ∀ (s : LockedSystem) (turn : Turn) (t : LockedSystem),
      s.Guarded ∧ s.system.Sound new → lockedTurn new writersFirst s turn = .ok t →
        t.Guarded ∧ t.system.Sound new := by
    rintro s turn t ⟨h, sound⟩ step
    refine ⟨h.step step, ?_⟩
    cases lockedTurn_cases step with
    | acquireRead there free called may => exact sound
    | acquireWrite there free missed may => exact sound
    | release there held ended => exact sound
    | turn there held next taken => exact sound.step taken
  have huses : ∀ (s : LockedSystem) (turn : Turn) (t : LockedSystem),
      s.Guarded ∧ s.system.Sound new → lockedTurn new writersFirst s turn = .ok t →
        t.turnsLeft < s.turnsLeft := fun s turn t _ step => LockedSystem.turnsLeft_turn step
  refine ⟨?_, hguarded.exclusive, ?_⟩
  · have hle := runAll_length_le LockedSystem.turnsLeft hstep huses
      ⟨LockedSystem.guarded_start keys, CacheSystem.sound_start keys⟩ hrun
    have hstart : (LockedSystem.start keys).turnsLeft ≤ 8 * keys.length := by
      have hall : ∀ i ∈ Finset.range (LockedSystem.start keys).guards.length,
          (LockedSystem.start keys).turnsLeftOf i ≤ 8 := by
        intro i _
        unfold LockedSystem.turnsLeftOf
        split
        · rename_i call guard _ _
          obtain ⟨key, state⟩ := call
          cases state <;> cases guard <;> simp [GetState.turnsLeft]
        · exact Nat.zero_le 8
      refine (Finset.sum_le_card_nsmul _ _ 8 hall).trans ?_
      rw [Finset.card_range, LockedSystem.start, List.length_replicate, smul_eq_mul, Nat.mul_comm]
    omega
  · exact exists_runAll_end LockedSystem.turnsLeft hstep huses (fun s h => h.1.next h.2)
      ⟨hguarded, hsound⟩

/-- Two calls read beside each other and miss the same key; the first has let go of the lock and
waits for the second one to do so, in order to write. -/
def twoReaders : List Turn :=
  [⟨0, []⟩, ⟨1, []⟩, ⟨0, []⟩, ⟨1, []⟩, ⟨0, []⟩]

theorem get_terminates_two : ∃ s,
    runAll (lockedTurn replicationCache.new true) (.start [(1, 1), (1, 1)]) twoReaders = .ok s ∧
      s.guards = [.free, .read] ∧ s.writerWaits = true ∧
      ∃ rest t, runAll (lockedTurn replicationCache.new true) s rest = .ok t ∧
        t.system.Finished ∧ ∀ g ∈ t.guards, g = .free :=
  ⟨_, rfl, rfl, rfl,
    (get_terminates replicationCache.new true [(1, 1), (1, 1)] twoReaders _ rfl).2.2⟩

end LightweightShred
