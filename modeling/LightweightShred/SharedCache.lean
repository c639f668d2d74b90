import LightweightShred.Recover
import LightweightShred.Lib.Runs
import LightweightShred.Lib.Slots

/-!
# Threads that share the codec cache

`ReedSolomonCache::get` called by any number of threads at once. A call looks its key up under
the shared lock, looks again and inserts under the exclusive lock, and initialises the entry
outside of both. Each of these is one turn, and the turns of the calls interleave freely.
-/
namespace LightweightShred
open Rust Runs Slots

/-- A shared pointer: where it points, and what is there. -/
structure Arc (α : Type) where
  address : Nat
  value : α

/-- What an `OnceLock` holds: nothing yet, the promise of the thread whose closure runs, or its
value for good. -/
inductive OnceLock (α : Type) where
  | empty
  | running
  | set (value : α)

/-- The number of data and of parity shards. -/
abbrev CacheKey := Nat × Nat

abbrev CachedCodec := Except ErasureError (Arc ReedSolomon)

/-- Where a call of `get` stands. -/
inductive GetState where
  | called
  | missed
  | entry (cell : Nat)
  | building (cell : Nat)
  | returned (result : CachedCodec)

structure GetCall where
  key : CacheKey
  state : GetState

/-- An `OnceLock` on the heap. That it was made for a key is not stored by the code. -/
structure CacheCell where
  key : CacheKey
  lock : OnceLock CachedCodec

/-- The cache, the cells that were ever made, the keys that `ReedSolomon::new` was run for, in
order, and the calls. -/
structure CacheSystem where
  cache : CacheKey → Option Nat
  cells : List CacheCell
  built : List CacheKey
  calls : List GetCall

/-- The call whose turn it is, and the keys that the cache drops if it is given a new entry. -/
structure Turn where
  call : Nat
  evicted : List CacheKey

/-- Why a call cannot take a turn: it does not exist, it waits for the thread that initialises
its cell, its cell is gone, or it is over. -/
inductive Blocked where
  | noCall
  | waiting
  | dangling
  | returned

def CacheSystem.start (keys : List CacheKey) : CacheSystem :=
  { cache := fun _ => none, cells := [], built := [], calls := keys.map fun key => ⟨key, .called⟩ }

def CacheSystem.setCall (s : CacheSystem) (i : Nat) (key : CacheKey) (state : GetState) :
    CacheSystem := { s with calls := s.calls.set i ⟨key, state⟩ }

def CacheSystem.setLock (s : CacheSystem) (cell : Nat) (key : CacheKey)
    (lock : OnceLock CachedCodec) : CacheSystem := { s with cells := s.cells.set cell ⟨key, lock⟩ }

/-- `cache.put(key, Arc::clone(&entry))` of a new entry. Which keys make room is the cache's
choice. -/
def CacheSystem.put (s : CacheSystem) (key : CacheKey) (evicted : List CacheKey) : CacheSystem :=
  { s with
    cache := fun k => if k ∈ evicted then none else if k = key then some s.cells.length else s.cache k
    cells := s.cells ++ [⟨key, .empty⟩] }

section
variable (new : (dataShards parityShards : Nat) → Except ErasureError ReedSolomon)

/-- `ReedSolomon::new(data_shards, parity_shards).map(Arc::new)`. -/
def CacheSystem.build (s : CacheSystem) (key : CacheKey) : CachedCodec :=
  (new key.1 key.2).map fun codec => ⟨s.built.length, codec⟩

/-- One turn of a call of `get`. -/
def getTurn (s : CacheSystem) (turn : Turn) : Except Blocked CacheSystem :=
  match s.calls[turn.call]? with
  | none => .error .noCall
  | some ⟨key, .called⟩ =>
    match s.cache key with
    | some cell => .ok (s.setCall turn.call key (.entry cell))
    | none => .ok (s.setCall turn.call key .missed)
  | some ⟨key, .missed⟩ =>
    match s.cache key with
    | some cell => .ok (s.setCall turn.call key (.entry cell))
    | none => .ok ((s.put key turn.evicted).setCall turn.call key (.entry s.cells.length))
  | some ⟨key, .entry cell⟩ =>
    match s.cells[cell]? with
    | some ⟨_, .empty⟩ => .ok ((s.setLock cell key .running).setCall turn.call key (.building cell))
    | some ⟨_, .running⟩ => .error .waiting
    | some ⟨_, .set result⟩ => .ok (s.setCall turn.call key (.returned result))
    | none => .error .dangling
  | some ⟨key, .building cell⟩ =>
    let result := s.build new key
    .ok (({ s with built := s.built ++ [key] }.setLock cell key (.set result)).setCall turn.call key
      (.returned result))
  | some ⟨_, .returned _⟩ => .error .returned

/-- What a turn does, by the place where the call stands. -/
inductive GetTurn (s : CacheSystem) (turn : Turn) : CacheSystem → Prop
  | hit {key state cell} (call : s.calls[turn.call]? = some ⟨key, state⟩)
      (looks : state = .called ∨ state = .missed) (found : s.cache key = some cell) :
      GetTurn s turn (s.setCall turn.call key (.entry cell))
  | miss {key} (call : s.calls[turn.call]? = some ⟨key, .called⟩) (absent : s.cache key = none) :
      GetTurn s turn (s.setCall turn.call key .missed)
  | put {key} (call : s.calls[turn.call]? = some ⟨key, .missed⟩) (absent : s.cache key = none) :
      GetTurn s turn ((s.put key turn.evicted).setCall turn.call key (.entry s.cells.length))
  | start {key made cell} (call : s.calls[turn.call]? = some ⟨key, .entry cell⟩)
      (empty : s.cells[cell]? = some ⟨made, .empty⟩) :
      GetTurn s turn ((s.setLock cell key .running).setCall turn.call key (.building cell))
  | load {key made cell result} (call : s.calls[turn.call]? = some ⟨key, .entry cell⟩)
      (isSet : s.cells[cell]? = some ⟨made, .set result⟩) :
      GetTurn s turn (s.setCall turn.call key (.returned result))
  | finish {key cell} (call : s.calls[turn.call]? = some ⟨key, .building cell⟩) :
      GetTurn s turn (({ s with built := s.built ++ [key] }.setLock cell key
        (.set (s.build new key))).setCall turn.call key (.returned (s.build new key)))

theorem getTurn_cases {s t : CacheSystem} {turn : Turn} (h : getTurn new s turn = .ok t) :
    GetTurn new s turn t := by
  unfold getTurn at h
  split at h
  · cases h
  · rename_i key call
    split at h
    · rename_i cell found
      cases h
      exact .hit call (.inl rfl) found
    · rename_i absent
      cases h
      exact .miss call absent
  · rename_i key call
    split at h
    · rename_i cell found
      cases h
      exact .hit call (.inr rfl) found
    · rename_i absent
      cases h
      exact .put call absent
  · rename_i key cell call
    split at h
    · rename_i made empty
      cases h
      exact .start call empty
    · cases h
    · rename_i made result isSet
      cases h
      exact .load call isSet
    · cases h
  · rename_i key cell call
    cases h
    exact .finish call
  · cases h

/-- A result for a key: what `new` gives, with a pointer to what a run for the key made. -/
def CacheSystem.Answers (s : CacheSystem) (key : CacheKey) (result : CachedCodec) : Prop :=
  result.map Arc.value = new key.1 key.2 ∧
    ∀ arc, result = .ok arc → s.built[arc.address]? = some key

/-- What a call may rely on where it stands. -/
def CacheSystem.CallSound (s : CacheSystem) (call : GetCall) : Prop :=
  match call.state with
  | .called => True
  | .missed => True
  | .entry cell => ∃ lock, s.cells[cell]? = some ⟨call.key, lock⟩
  | .building cell => s.cells[cell]? = some ⟨call.key, .running⟩
  | .returned result => s.Answers new call.key result

/-- The cell holds the value of a run for the key. -/
def CacheCell.isSetFor (key : CacheKey) (cell : CacheCell) : Bool :=
  match cell.lock with
  | .set _ => cell.key = key
  | _ => false

/-- What holds between turns: the cache leads to cells of the key, a cell is running while
exactly one call builds for it, and every value is an answer. -/
structure CacheSystem.Sound (s : CacheSystem) : Prop where
  cached : ∀ key cell, s.cache key = some cell → ∃ lock, s.cells[cell]? = some ⟨key, lock⟩
  calls : ∀ call ∈ s.calls, s.CallSound new call
  builder : ∀ (cell : Nat) (key : CacheKey), s.cells[cell]? = some ⟨key, .running⟩ →
    ∃ (i : Nat) (maker : CacheKey), s.calls[i]? = some ⟨maker, .building cell⟩
  alone : ∀ (i j cell : Nat) (key key' : CacheKey), s.calls[i]? = some ⟨key, .building cell⟩ →
    s.calls[j]? = some ⟨key', .building cell⟩ → i = j
  values : ∀ (cell : Nat) (key : CacheKey) (result : CachedCodec),
    s.cells[cell]? = some ⟨key, .set result⟩ → s.Answers new key result
  counted : ∀ key, s.built.count key = s.cells.countP (CacheCell.isSetFor key)

/-- The cells made for a key, the key's absence counted in, against the times it was dropped. -/
def CacheSystem.Resident (past : List Turn) (s : CacheSystem) : Prop :=
  ∀ key, s.cells.countP (fun c => c.key = key) + (if (s.cache key).isSome then 0 else 1) ≤
    1 + past.countP fun turn => key ∈ turn.evicted

variable {new} {s t : CacheSystem} {turn : Turn} {i cell : Nat} {key : CacheKey} {state state' : GetState}

theorem CacheSystem.Sound.call (h : s.Sound new) (call : s.calls[i]? = some ⟨key, state⟩) :
    s.CallSound new ⟨key, state⟩ := h.calls _ (List.mem_of_getElem? call)

/-- A call that builds after another call has moved on to something else built before. -/
theorem CacheSystem.building_setCall {j : Nat} {key' : CacheKey}
    (idle : ∀ cell, state ≠ .building cell)
    (call : (s.setCall i key state).calls[j]? = some ⟨key', .building cell⟩) :
    s.calls[j]? = some ⟨key', .building cell⟩ := by
  by_cases same : i = j
  · subst same
    have hmem : (⟨key', .building cell⟩ : GetCall) = ⟨key, state⟩ := by
      have hset : (s.calls.set i ⟨key, state⟩)[i]? = some ⟨key', .building cell⟩ := call
      rw [List.getElem?_set_self'] at hset
      obtain ⟨old, -, hnew⟩ := Option.map_eq_some_iff.mp hset
      exact hnew.symm
    exact (idle cell (GetCall.mk.inj hmem).2.symm).elim
  · exact (List.getElem?_set_ne same).symm.trans call

theorem CacheSystem.Sound.setCall (h : s.Sound new) (call : s.calls[i]? = some ⟨key, state⟩)
    (idle : ∀ cell, state ≠ .building cell) (sound : s.CallSound new ⟨key, state'⟩)
    (idle' : ∀ cell, state' ≠ .building cell) : (s.setCall i key state').Sound new where
  cached := h.cached
  calls := by
    intro c hc
    rcases List.mem_or_eq_of_mem_set hc with hold | rfl
    · exact h.calls c hold
    · exact sound
  builder := by
    intro cell made running
    obtain ⟨j, maker, hj⟩ := h.builder cell made running
    have hne : i ≠ j := by
      rintro rfl
      rw [call] at hj
      exact idle cell (GetCall.mk.inj (Option.some.inj hj)).2
    exact ⟨j, maker, (List.getElem?_set_ne hne).trans hj⟩
  alone := by
    intro j k cell key₁ key₂ hj hk
    exact h.alone j k cell key₁ key₂ (building_setCall idle' hj) (building_setCall idle' hk)
  values := h.values
  counted := h.counted

theorem CacheSystem.cell_put {evicted : List CacheKey} {made : CacheCell}
    (h : s.cells[cell]? = some made) : (s.put key evicted).cells[cell]? = some made :=
  (List.getElem?_append_left (List.getElem?_eq_some_iff.mp h).1).trans h

theorem CacheSystem.cell_of_put {evicted : List CacheKey} {made : CacheKey}
    {lock : OnceLock CachedCodec} (h : (s.put key evicted).cells[cell]? = some ⟨made, lock⟩)
    (filled : lock ≠ .empty) : s.cells[cell]? = some ⟨made, lock⟩ := by
  have happ : (s.cells ++ [(⟨key, .empty⟩ : CacheCell)])[cell]? = some ⟨made, lock⟩ := h
  rcases Nat.lt_or_ge cell s.cells.length with hlt | hge
  · rwa [List.getElem?_append_left hlt] at happ
  · rw [List.getElem?_append_right hge, List.getElem?_singleton] at happ
    split at happ
    · cases happ
      exact (filled rfl).elim
    · cases happ

theorem CacheSystem.CallSound.put {evicted : List CacheKey} {made : CacheKey} {c : GetCall}
    (h : s.CallSound new c) : (s.put made evicted).CallSound new c := by
  obtain ⟨key, state⟩ := c
  cases state with
  | called => trivial
  | missed => trivial
  | entry cell =>
      obtain ⟨lock, hlock⟩ := h
      exact ⟨lock, cell_put hlock⟩
  | building cell =>
      have running : s.cells[cell]? = some ⟨key, .running⟩ := h
      exact cell_put running
  | returned result => exact h

theorem CacheSystem.Sound.put (h : s.Sound new) (key : CacheKey) (evicted : List CacheKey) :
    (s.put key evicted).Sound new where
  cached := by
    intro k cell hk
    change (if k ∈ evicted then none else if k = key then some s.cells.length else s.cache k) =
      some cell at hk
    split at hk
    · cases hk
    split at hk
    · rename_i hkey
      cases hk
      subst hkey
      exact ⟨.empty, by rw [CacheSystem.put, List.getElem?_append_right (Nat.le_refl _), Nat.sub_self]; rfl⟩
    · obtain ⟨lock, hlock⟩ := h.cached k cell hk
      exact ⟨lock, cell_put hlock⟩
  calls := fun c hc => (h.calls c hc).put
  builder := fun cell made running =>
    h.builder cell made (cell_of_put running nofun)
  alone := h.alone
  values := fun cell made result isSet =>
    h.values cell made result (cell_of_put isSet nofun)
  counted := by
    intro k
    change s.built.count k = (s.cells ++ [(⟨key, .empty⟩ : CacheCell)]).countP (CacheCell.isSetFor k)
    rw [List.countP_append, h.counted k]
    rfl

theorem CacheSystem.Answers.built {result : CachedCodec} (h : s.Answers new key result)
    (made : CacheKey) : { s with built := s.built ++ [made] }.Answers new key result :=
  ⟨h.1, fun arc harc =>
    (List.getElem?_append_left (List.getElem?_eq_some_iff.mp (h.2 arc harc)).1).trans (h.2 arc harc)⟩

variable (new) in
theorem CacheSystem.answers_build (s : CacheSystem) (key : CacheKey) :
    { s with built := s.built ++ [key] }.Answers new key (s.build new key) := by
  unfold build Answers
  cases hnew : new key.1 key.2 with
  | error e => exact ⟨rfl, fun arc harc => nomatch harc⟩
  | ok codec =>
      refine ⟨rfl, fun arc harc => ?_⟩
      cases harc
      exact List.getElem?_concat_length

theorem CacheSystem.cell_setLock {made : CacheCell} {lock : OnceLock CachedCodec} {c : Nat}
    (there : s.cells[cell]? = some made) :
    (s.setLock cell key lock).cells[c]? = if cell = c then some ⟨key, lock⟩ else s.cells[c]? := by
  have hlt := (List.getElem?_eq_some_iff.mp there).1
  change (s.cells.set cell ⟨key, lock⟩)[c]? = _
  rw [List.getElem?_set, if_pos hlt]

theorem CacheSystem.Sound.cached_setLock (h : s.Sound new) {old lock : OnceLock CachedCodec}
    (there : s.cells[cell]? = some ⟨key, old⟩) {k : CacheKey} {c : Nat} (hk : s.cache k = some c) :
    ∃ lock', (s.setLock cell key lock).cells[c]? = some ⟨k, lock'⟩ := by
  obtain ⟨lock', hlock'⟩ := h.cached k c hk
  rw [cell_setLock there]
  split
  · rename_i same
    subst same
    rw [there] at hlock'
    cases hlock'
    exact ⟨lock, rfl⟩
  · exact ⟨lock', hlock'⟩

theorem CacheSystem.CallSound.setLock {old lock : OnceLock CachedCodec} {c : GetCall}
    (there : s.cells[cell]? = some ⟨key, old⟩) (h : s.CallSound new c)
    (other : c.state ≠ .building cell) : (s.setLock cell key lock).CallSound new c := by
  obtain ⟨key', state⟩ := c
  cases state with
  | called => trivial
  | missed => trivial
  | entry c =>
      obtain ⟨lock', hlock'⟩ := h
      change ∃ lock', (s.setLock cell key lock).cells[c]? = some ⟨key', lock'⟩
      rw [cell_setLock there]
      split
      · rename_i same
        subst same
        rw [there] at hlock'
        cases hlock'
        exact ⟨lock, rfl⟩
      · exact ⟨lock', hlock'⟩
  | building c =>
      change (s.setLock cell key lock).cells[c]? = some ⟨key', .running⟩
      rw [cell_setLock there, if_neg fun same => other (by rw [same])]
      exact h
  | returned result => exact h

theorem CacheSystem.Sound.start {made : CacheKey} (h : s.Sound new)
    (call : s.calls[i]? = some ⟨key, .entry cell⟩) (empty : s.cells[cell]? = some ⟨made, .empty⟩) :
    ((s.setLock cell key .running).setCall i key (.building cell)).Sound new := by
  obtain ⟨lock, hlock⟩ := h.call call
  rw [empty] at hlock
  obtain rfl : made = key := congrArg CacheCell.key (Option.some.inj hlock)
  have hi := (List.getElem?_eq_some_iff.mp call).1
  -- nobody builds for a cell that is empty
  have hnone : ∀ (j : Nat) (k : CacheKey), s.calls[j]? ≠ some ⟨k, .building cell⟩ := by
    intro j k hj
    have hrun : s.cells[cell]? = some ⟨k, .running⟩ := h.call hj
    rw [empty] at hrun
    cases hrun
  have hcall : ∀ (j : Nat) (c : Nat) (k : CacheKey),
      (s.calls.set i ⟨made, .building cell⟩)[j]? = some ⟨k, .building c⟩ →
        (i = j ∧ cell = c) ∨ (i ≠ j ∧ s.calls[j]? = some ⟨k, .building c⟩) := by
    intro j c k hj
    by_cases same : i = j
    · subst same
      rw [List.getElem?_set_self hi] at hj
      cases hj
      exact .inl ⟨rfl, rfl⟩
    · exact .inr ⟨same, (List.getElem?_set_ne same).symm.trans hj⟩
  constructor
  · exact fun k c hk => h.cached_setLock empty hk
  · intro c hc
    rcases List.mem_or_eq_of_mem_set hc with hold | rfl
    · obtain ⟨j, hj⟩ := List.mem_iff_getElem?.mp hold
      refine CallSound.setLock empty (h.calls c hold) fun hb => hnone j c.key ?_
      rw [← hb]
      exact hj
    · change (s.setLock cell made .running).cells[cell]? = some ⟨made, .running⟩
      rw [cell_setLock empty, if_pos rfl]
  · intro c k running
    have hcell : (s.setLock cell made .running).cells[c]? = some ⟨k, .running⟩ := running
    rw [cell_setLock empty] at hcell
    split at hcell
    · rename_i same
      subst same
      exact ⟨i, made, List.getElem?_set_self hi⟩
    · obtain ⟨j, maker, hj⟩ := h.builder c k hcell
      have hne : i ≠ j := by
        rintro rfl
        rw [call] at hj
        cases hj
      exact ⟨j, maker, (List.getElem?_set_ne hne).trans hj⟩
  · intro j j' c k k' hj hj'
    rcases hcall j c k hj with ⟨rfl, rfl⟩ | ⟨-, hj⟩
    · rcases hcall j' _ k' hj' with ⟨rfl, -⟩ | ⟨-, hj'⟩
      · rfl
      · exact (hnone j' k' hj').elim
    · rcases hcall j' c k' hj' with ⟨rfl, rfl⟩ | ⟨-, hj'⟩
      · exact (hnone j k hj).elim
      · exact h.alone j j' c k k' hj hj'
  · intro c k result isSet
    have hcell : (s.setLock cell made .running).cells[c]? = some ⟨k, .set result⟩ := isSet
    rw [cell_setLock empty] at hcell
    split at hcell
    · cases hcell
    · exact h.values c k result hcell
  · intro k
    obtain ⟨hlt, hget⟩ := List.getElem?_eq_some_iff.mp empty
    change s.built.count k = (s.cells.set cell ⟨made, .running⟩).countP (CacheCell.isSetFor k)
    rw [List.countP_set hlt, hget, h.counted k]
    rfl

theorem CacheSystem.Sound.finish (h : s.Sound new)
    (call : s.calls[i]? = some ⟨key, .building cell⟩) :
    (({ s with built := s.built ++ [key] }.setLock cell key (.set (s.build new key))).setCall i key
      (.returned (s.build new key))).Sound new := by
  have running : s.cells[cell]? = some ⟨key, .running⟩ := h.call call
  have hanswer := s.answers_build new key
  have idle : ∀ c, GetState.returned (s.build new key) ≠ .building c := by
    intro c hc
    cases hc
  constructor
  · exact fun k c hk => h.cached_setLock running hk
  · intro c hc
    rcases mem_set_cases hc with rfl | ⟨j, hne, hj⟩
    · exact hanswer
    · have hbuilt : { s with built := s.built ++ [key] }.CallSound new c := by
        have hold := h.calls c (List.mem_of_getElem? hj)
        obtain ⟨k, state⟩ := c
        cases state with
        | returned result => exact hold.built key
        | _ => exact hold
      refine CallSound.setLock (s := { s with built := s.built ++ [key] }) running hbuilt fun hb => ?_
      have hj' : s.calls[j]? = some ⟨c.key, .building cell⟩ := by rw [← hb]; exact hj
      exact hne (h.alone i j cell key c.key call hj')
  · intro c k hrun
    have hcell : (s.setLock cell key (.set (s.build new key))).cells[c]? = some ⟨k, .running⟩ := hrun
    rw [cell_setLock running] at hcell
    split at hcell
    · cases hcell
    · rename_i hother
      obtain ⟨j, maker, hj⟩ := h.builder c k hcell
      have hne : i ≠ j := by
        rintro rfl
        rw [call] at hj
        cases hj
        exact hother rfl
      exact ⟨j, maker, (List.getElem?_set_ne hne).trans hj⟩
  · intro j j' c k k' hj hj'
    exact h.alone j j' c k k' (building_setCall idle hj) (building_setCall idle hj')
  · intro c k result isSet
    have hcell : (s.setLock cell key (.set (s.build new key))).cells[c]? = some ⟨k, .set result⟩ :=
      isSet
    rw [cell_setLock running] at hcell
    split at hcell
    · cases hcell
      exact hanswer
    · exact (h.values c k result hcell).built key
  · intro k
    obtain ⟨hlt, hget⟩ := List.getElem?_eq_some_iff.mp running
    change (s.built ++ [key]).count k =
      (s.cells.set cell ⟨key, .set (s.build new key)⟩).countP (CacheCell.isSetFor k)
    rw [List.countP_set hlt, hget, List.count_append, h.counted k, List.count_singleton]
    simp only [CacheCell.isSetFor, Bool.false_eq_true, if_false, Nat.sub_zero, decide_eq_true_eq,
      beq_iff_eq]

theorem CacheSystem.sound_start (keys : List CacheKey) : (CacheSystem.start keys).Sound new where
  cached := nofun
  calls := by
    intro c hc
    obtain ⟨key, -, rfl⟩ := List.mem_map.mp hc
    trivial
  builder := nofun
  alone := by
    intro i j cell key key' hi
    obtain ⟨k, -, hk⟩ := List.mem_map.mp (List.mem_of_getElem? hi)
    cases hk
  values := nofun
  counted := fun _ => rfl

/-- Every turn keeps the system sound. -/
theorem CacheSystem.Sound.step (h : s.Sound new) (step : getTurn new s turn = .ok t) :
    t.Sound new := by
  cases getTurn_cases new step with
  | hit call looks found =>
      refine h.setCall call ?_ (h.cached _ _ found) nofun
      rintro cell rfl
      rcases looks with looks | looks <;> cases looks
  | miss call absent => exact h.setCall call nofun trivial nofun
  | put call absent =>
      refine (h.put _ turn.evicted).setCall call nofun ⟨.empty, ?_⟩ nofun
      exact List.getElem?_concat_length
  | start call empty => exact h.start call empty
  | load call isSet =>
      obtain ⟨lock, hlock⟩ := h.call call
      rw [isSet] at hlock
      cases hlock
      exact h.setCall call nofun (h.values _ _ _ isSet) nofun
  | finish call => exact h.finish call

end

end LightweightShred
