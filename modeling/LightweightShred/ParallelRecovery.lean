import LightweightShred.SharedCache
import LightweightShred.Replication

/-!
# Recovery in parallel

Runs of any number of calls of `ReedSolomonCache::get`: what they return, and how often a codec is
built.
-/
namespace LightweightShred
open Rust Runs Slots

section
variable {new : (dataShards parityShards : Nat) → Except ErasureError ReedSolomon}
  {s t : CacheSystem} {turn : Turn} {i cell : Nat} {key : CacheKey} {state state' : GetState}

theorem CacheSystem.keys_turn (step : getTurn new s turn = .ok t) :
    t.calls.map GetCall.key = s.calls.map GetCall.key := by
  cases getTurn_cases new step with
  | hit call looks found => exact map_set_same call rfl
  | miss call absent => exact map_set_same call rfl
  | put call absent => exact map_set_same call rfl
  | start call empty => exact map_set_same call rfl
  | load call isSet => exact map_set_same call rfl
  | finish call => exact map_set_same call rfl

def CacheSystem.Finished (s : CacheSystem) : Prop :=
  ∀ call ∈ s.calls, ∃ result, call.state = .returned result

theorem exists_getTurn {i : Nat} {key : CacheKey} {state : GetState}
    (call : s.calls[i]? = some ⟨key, state⟩)
    (ready : state = .called ∨ state = .missed ∨ ∃ cell, state = .building cell) :
    ∃ t, getTurn new s ⟨i, []⟩ = .ok t := by
  unfold getTurn
  rw [call]
  rcases ready with rfl | rfl | ⟨cell, rfl⟩
  · cases hc : s.cache key with
    | none => exact ⟨_, by simp only [hc]; rfl⟩
    | some cell => exact ⟨_, by simp only [hc]; rfl⟩
  · cases hc : s.cache key with
    | none => exact ⟨_, by simp only [hc]; rfl⟩
    | some cell => exact ⟨_, by simp only [hc]; rfl⟩
  · exact ⟨_, rfl⟩

/-- Nobody waits for ever: until every call has returned, some call can take its turn. -/
theorem CacheSystem.Sound.next (h : s.Sound new) :
    s.Finished ∨ ∃ turn t, getTurn new s turn = .ok t := by
  by_cases done : s.Finished
  · exact .inl done
  · right
    simp only [CacheSystem.Finished, not_forall, not_exists] at done
    obtain ⟨c, hc, unfinished⟩ := done
    obtain ⟨i, call⟩ := List.mem_iff_getElem?.mp hc
    obtain ⟨key, state⟩ := c
    cases state with
    | called => exact ⟨_, exists_getTurn call (.inl rfl)⟩
    | missed => exact ⟨_, exists_getTurn call (.inr (.inl rfl))⟩
    | building cell => exact ⟨_, exists_getTurn call (.inr (.inr ⟨cell, rfl⟩))⟩
    | returned result => exact (unfinished result rfl).elim
    | entry cell =>
        obtain ⟨lock, hlock⟩ := h.call call
        cases lock with
        | empty => exact ⟨⟨i, []⟩, _, by simp only [getTurn, call, hlock]; rfl⟩
        | set result => exact ⟨⟨i, []⟩, _, by simp only [getTurn, call, hlock]; rfl⟩
        | running =>
            -- the call that builds for the cell is not waiting
            obtain ⟨j, maker, hj⟩ := h.builder cell key hlock
            exact ⟨_, exists_getTurn hj (.inr (.inr ⟨cell, rfl⟩))⟩

theorem CacheSystem.Resident.mono {past : List Turn} (h : s.Resident past)
    (cache : t.cache = s.cache) (cells : t.cells.map CacheCell.key = s.cells.map CacheCell.key) :
    t.Resident (past ++ [turn]) := by
  intro key
  have hcount : ∀ u : CacheSystem, u.cells.countP (fun c => c.key = key) =
      (u.cells.map CacheCell.key).count key := by
    intro u
    rw [List.count, List.countP_map]
    refine List.countP_congr fun c _ => ?_
    simp only [decide_eq_true_eq, Function.comp_apply, beq_iff_eq]
  have hs := h key
  rw [hcount] at hs ⊢
  rw [cells, cache, List.countP_append]
  omega

theorem CacheSystem.Resident.step {past : List Turn} (h : s.Resident past) (sound : s.Sound new)
    (step : getTurn new s turn = .ok t) : t.Resident (past ++ [turn]) := by
  cases getTurn_cases new step with
  | hit call looks found => exact h.mono rfl rfl
  | miss call absent => exact h.mono rfl rfl
  | load call isSet => exact h.mono rfl rfl
  | @start key made cell call empty =>
      obtain ⟨lock, hlock⟩ := sound.call call
      exact h.mono rfl (map_set_same hlock rfl)
  | @finish key cell call => exact h.mono rfl (map_set_same (sound.call call) rfl)
  | @put key call absent =>
      intro k
      have hk := h k
      change (s.cells ++ [(⟨key, .empty⟩ : CacheCell)]).countP _ +
        (if (if k ∈ turn.evicted then none else if k = key then some s.cells.length
          else s.cache k).isSome then 0 else 1) ≤ _
      rw [List.countP_append, List.countP_append, List.countP_singleton, List.countP_singleton]
      by_cases same : k = key
      · subst same
        rw [absent] at hk
        by_cases gone : k ∈ turn.evicted
        · simp only [gone, if_true, decide_true, Option.isSome_none, Bool.false_eq_true,
            if_false] at hk ⊢
          omega
        · simp only [gone, if_true, if_false, decide_true, decide_false, Option.isSome_none,
            Option.isSome_some, Bool.false_eq_true] at hk ⊢
          omega
      · have hne : ¬key = k := fun he => same he.symm
        by_cases gone : k ∈ turn.evicted
        · simp only [gone, hne, if_true, decide_true, decide_false, Option.isSome_none,
            Bool.false_eq_true, if_false]
          omega
        · simp only [gone, same, hne, if_false, decide_false, Bool.false_eq_true]
          omega

theorem CacheSystem.resident_start (keys : List CacheKey) : (CacheSystem.start keys).Resident [] :=
  fun _ => Nat.le_refl 1

theorem sound_runAll {keys : List CacheKey} {turns : List Turn}
    (hrun : runAll (getTurn new) (.start keys) turns = .ok s) :
    s.Sound new ∧ s.Resident turns ∧ s.calls.map GetCall.key = keys := by
  have hstart : (CacheSystem.start keys).calls.map GetCall.key = keys := by
    rw [CacheSystem.start, List.map_map]
    exact List.map_id keys
  refine runAll_history (fun past u =>
    u.Sound new ∧ u.Resident past ∧ u.calls.map GetCall.key = keys) ?_ ?_ hrun
  · exact ⟨CacheSystem.sound_start keys, CacheSystem.resident_start keys, hstart⟩
  · rintro past u turn v ⟨hsound, hres, hkeys⟩ step
    exact ⟨hsound.step step, hres.step hsound step, (CacheSystem.keys_turn step).trans hkeys⟩

theorem CacheSystem.Sound.answer (h : s.Sound new) {result : CachedCodec}
    (call : s.calls[i]? = some ⟨key, .returned result⟩) : s.Answers new key result := h.call call

theorem CacheSystem.Sound.built_le {past : List Turn} (h : s.Sound new) (hres : s.Resident past)
    (key : CacheKey) : s.built.count key ≤ 1 + past.countP fun turn => key ∈ turn.evicted := by
  have hle : s.cells.countP (CacheCell.isSetFor key) ≤ s.cells.countP fun c => c.key = key := by
    refine List.countP_mono_left fun c _ hset => ?_
    unfold CacheCell.isSetFor at hset
    split at hset
    · exact hset
    · cases hset
  have hk := hres key
  rw [h.counted key]
  omega

theorem CacheSystem.Answers.unique {past : List Turn} {result result' : CachedCodec}
    (h : s.Answers new key result) (h' : s.Answers new key result') (sound : s.Sound new)
    (hres : s.Resident past) (kept : ∀ turn ∈ past, key ∉ turn.evicted) : result = result' := by
  have hone : s.built.count key ≤ 1 := by
    have hzero : (past.countP fun turn => key ∈ turn.evicted) = 0 := by
      refine List.countP_eq_zero.mpr fun turn ht => ?_
      rw [decide_eq_true_eq]
      exact kept turn ht
    have hk := sound.built_le hres key
    rwa [hzero] at hk
  have hvalue := h.1.trans h'.1.symm
  cases result with
  | error e =>
      cases result' with
      | error e' => exact congrArg Except.error (Except.error.inj hvalue)
      | ok arc' => cases hvalue
  | ok arc =>
      cases result' with
      | error e' => cases hvalue
      | ok arc' =>
          obtain ⟨address, value⟩ := arc
          obtain ⟨address', value'⟩ := arc'
          have haddress : address = address' := index_unique hone (h.2 _ rfl) (h'.2 _ rfl)
          have hvalue : value = value' := Except.ok.inj hvalue
          rw [hvalue, haddress]

variable (new) in
/-- A codec is built for a key at most once, and once more for each time the key was dropped from
the cache. Calls for a key that was never dropped share one codec. -/
theorem codec_built_once (keys : List CacheKey) (turns : List Turn) (s : CacheSystem)
    (hrun : runAll (getTurn new) (.start keys) turns = .ok s) :
    (∀ key, s.built.count key ≤ 1 + turns.countP fun turn => key ∈ turn.evicted) ∧
    ∀ (i j : Nat) (key : CacheKey) (arc arc' : Arc ReedSolomon),
      s.calls[i]? = some ⟨key, .returned (.ok arc)⟩ → s.calls[j]? = some ⟨key, .returned (.ok arc')⟩ →
        (∀ turn ∈ turns, key ∉ turn.evicted) → arc = arc' := by
  obtain ⟨hsound, hres, -⟩ := sound_runAll hrun
  refine ⟨hsound.built_le hres, fun i j key arc arc' hi hj kept => ?_⟩
  exact Except.ok.inj ((hsound.answer hi).unique (hsound.answer hj) hsound hres kept)

/-- Two calls miss the same key. The second finds the entry that the first has put by then, and
waits until the first has set it. -/
def twoCalls : List Turn := [⟨0, []⟩, ⟨1, []⟩, ⟨0, []⟩, ⟨1, []⟩, ⟨0, []⟩, ⟨0, []⟩, ⟨1, []⟩]

theorem codec_built_once_two : ∃ s arc arc',
    runAll (getTurn replicationCache.new) (.start [(1, 1), (1, 1)]) twoCalls = .ok s ∧
      s.calls[0]? = some ⟨(1, 1), .returned (.ok arc)⟩ ∧
      s.calls[1]? = some ⟨(1, 1), .returned (.ok arc')⟩ ∧ arc = arc' :=
  ⟨_, ⟨0, replicationCodec 1 1⟩, ⟨0, replicationCodec 1 1⟩, rfl, rfl, rfl,
    (codec_built_once replicationCache.new [(1, 1), (1, 1)] twoCalls _ rfl).2 0 1 (1, 1)
      ⟨0, replicationCodec 1 1⟩ ⟨0, replicationCodec 1 1⟩ rfl rfl (by decide)⟩

end

section Recovery
variable {H : Hasher} {cache cache' : ReedSolomonCache} {srt : ShredSort} {l : List Shred}
  {key : CacheKey}

/-- The key that `recover` and `recover_data_only` ask the cache for. -/
def codecKey (srt : ShredSort) (shreds : List Shred) : Option CacheKey :=
  match lastCodingShred (sortShreds srt shreds) with
  | .ok last =>
    some (last.codingHeader.numDataShreds.toNat, last.codingHeader.numCodingShreds.toNat)
  | .error _ => none

/-- A cache that gives the result of one call of `get`. -/
def ReedSolomonCache.answering (result : CachedCodec) : ReedSolomonCache where
  new _ _ := result.map Arc.value

theorem stubHeaders_counts {last : ShredCode} {headers : StubHeaders}
    (h : stubHeaders last = .ok headers) :
    headers.codingHeader.numDataShreds = last.codingHeader.numDataShreds ∧
      headers.codingHeader.numCodingShreds = last.codingHeader.numCodingShreds := by
  simp only [stubHeaders, bind_eq_ok, pure, Except.pure, Except.ok.injEq] at h
  obtain ⟨index, -, root, -, signature, -, rfl⟩ := h
  exact ⟨rfl, rfl⟩

theorem reconstructBatch_congr {numData numCoding : Nat}
    (same : cache.new numData numCoding = cache'.new numData numCoding) :
    reconstructBatch cache numData numCoding = reconstructBatch cache' numData numCoding := by
  unfold reconstructBatch ReedSolomonCache.get
  rw [same]

theorem recover_cache_congr (asks : codecKey srt l = some key)
    (same : cache.new key.1 key.2 = cache'.new key.1 key.2) :
    recover H cache srt l = recover H cache' srt l ∧
      recoverDataOnly cache srt l = recoverDataOnly cache' srt l := by
  unfold codecKey at asks
  split at asks
  · rename_i last hlast
    cases asks
    have hrec : ∀ headers, stubHeaders last = .ok headers →
        reconstructBatch cache headers.codingHeader.numDataShreds.toNat
            headers.codingHeader.numCodingShreds.toNat =
          reconstructBatch cache' headers.codingHeader.numDataShreds.toNat
            headers.codingHeader.numCodingShreds.toNat := by
      intro headers hh
      obtain ⟨hdata, hcoding⟩ := stubHeaders_counts hh
      rw [hdata, hcoding]
      exact reconstructBatch_congr same
    simp only [recover, recoverDataOnly, bind, Except.bind, hlast]
    cases hh : stubHeaders last with
    | error e => exact ⟨rfl, rfl⟩
    | ok headers => simp only [hrec headers hh, and_self]
  · cases asks

/-- Any number of threads may recover batches with one cache at the same time: each asks for its
codec in some interleaving with the others, and recovers what it would recover alone. -/
theorem parallel_recover_eq (H : Hasher) (cache : ReedSolomonCache) (srt : ShredSort)
    (keys : List CacheKey) (turns : List Turn) (s : CacheSystem)
    (hrun : runAll (getTurn cache.new) (.start keys) turns = .ok s) (i : Nat)
    (result : CachedCodec) (hi : (s.calls[i]?).map GetCall.state = some (.returned result)) :
    ∃ key, keys[i]? = some key ∧ result.map Arc.value = cache.get key.1 key.2 ∧
      ∀ shreds, codecKey srt shreds = some key →
        recover H (.answering result) srt shreds = recover H cache srt shreds ∧
          recoverDataOnly (.answering result) srt shreds = recoverDataOnly cache srt shreds := by
  obtain ⟨hsound, -, hkeys⟩ := sound_runAll hrun
  obtain ⟨⟨key, state⟩, hcall, hstate⟩ := Option.map_eq_some_iff.mp hi
  cases hstate
  have hanswer := (hsound.answer hcall).1
  refine ⟨key, ?_, hanswer, fun shreds asks => recover_cache_congr asks hanswer⟩
  rw [← hkeys, List.getElem?_map, hcall]
  rfl

theorem parallel_recover_eq_two : ∃ s result,
    runAll (getTurn replicationCache.new) (.start [(1, 1), (1, 1)]) twoCalls = .ok s ∧
      (s.calls[1]?).map GetCall.state = some (.returned result) ∧
      ∀ H srt shreds, codecKey srt shreds = some (1, 1) →
        recover H (.answering result) srt shreds = recover H replicationCache srt shreds := by
  refine ⟨_, _, rfl, rfl, fun H srt shreds asks => ?_⟩
  obtain ⟨key, hkey, -, hrec⟩ :=
    parallel_recover_eq H replicationCache srt [(1, 1), (1, 1)] twoCalls _ rfl 1 _ rfl
  cases hkey
  exact (hrec shreds asks).1

end Recovery

end LightweightShred
