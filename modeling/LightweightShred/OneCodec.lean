import LightweightShred.ParallelRecovery
import LightweightShred.FixedFec
import LightweightShred.Encoding

/-!
# One codec for good

The cache has room for many codecs and makes more only when it is full. Behind the filter all
batches have one geometry, so one codec is built, and it is never dropped.
-/
namespace LightweightShred
open Rust Runs

def ReedSolomonCache.capacity : Nat := 4 * dataShredsPerFecBlock

/-- The turn drops keys only where the cache holds as many as its capacity. -/
def CacheSystem.DropsWhenFull (s : CacheSystem) (turn : Turn) : Prop :=
  turn.evicted ≠ [] → ∃ held : List CacheKey, held.Nodup ∧
    ReedSolomonCache.capacity ≤ held.length ∧ ∀ key ∈ held, (s.cache key).isSome

/-- The cache and the codecs are for keys that a call was made for. -/
structure CacheSystem.AskedFor (s : CacheSystem) : Prop where
  cached : ∀ key, (s.cache key).isSome → key ∈ s.calls.map GetCall.key
  built : ∀ key ∈ s.built, key ∈ s.calls.map GetCall.key

section
variable {new : (dataShards parityShards : Nat) → Except ErasureError ReedSolomon}
  {keys distinct : List CacheKey} {turns : List Turn} {s t : CacheSystem} {turn : Turn}

theorem CacheSystem.AskedFor.mono (h : s.AskedFor) (cache : t.cache = s.cache)
    (built : t.built = s.built) (calls : t.calls.map GetCall.key = s.calls.map GetCall.key) :
    t.AskedFor where
  cached key hkey := calls ▸ h.cached key (cache ▸ hkey)
  built key hkey := calls ▸ h.built key (built ▸ hkey)

theorem CacheSystem.AskedFor.step (h : s.AskedFor) (step : getTurn new s turn = .ok t) :
    t.AskedFor := by
  have hkeys := keys_turn step
  cases getTurn_cases new step with
  | hit call looks found => exact h.mono rfl rfl hkeys
  | miss call absent => exact h.mono rfl rfl hkeys
  | start call empty => exact h.mono rfl rfl hkeys
  | load call isSet => exact h.mono rfl rfl hkeys
  | @put key call absent =>
      refine ⟨fun k hk => ?_, fun k hk => hkeys ▸ h.built k hk⟩
      rw [hkeys]
      change (if k ∈ turn.evicted then none else if k = key then some s.cells.length
        else s.cache k).isSome at hk
      split at hk
      · cases hk
      split at hk
      · rename_i same
        rw [same]
        exact List.mem_map_of_mem (List.mem_of_getElem? call)
      · exact h.cached k hk
  | @finish key cell call =>
      refine ⟨fun k hk => hkeys ▸ h.cached k hk, fun k hk => ?_⟩
      rw [hkeys]
      rcases List.mem_append.mp hk with hk | hk
      · exact h.built k hk
      · rw [List.mem_singleton.mp hk]
        exact List.mem_map_of_mem (List.mem_of_getElem? call)

theorem askedFor_runAll (hrun : runAll (getTurn new) (.start keys) turns = .ok s) : s.AskedFor := by
  refine runAll_invariant (fun _ _ _ h step => h.step step) ⟨?_, ?_⟩ hrun
  · intro key hkey
    cases hkey
  · intro key hkey
    cases hkey

theorem evicted_eq_nil (few : distinct.length < ReedSolomonCache.capacity) (sub : keys ⊆ distinct)
    (hrun : runAll (getTurn new) (.start keys) turns = .ok s)
    (lru : ∀ past turn rest m, turns = past ++ turn :: rest →
      runAll (getTurn new) (.start keys) past = .ok m → m.DropsWhenFull turn) :
    ∀ turn ∈ turns, turn.evicted = [] := by
  intro turn hturn
  obtain ⟨past, rest, rfl⟩ := List.append_of_mem hturn
  obtain ⟨m, hm, -⟩ := runAll_append.mp hrun
  by_contra hne
  obtain ⟨held, hnodup, hfull, hheld⟩ := lru past turn rest m rfl hm hne
  have hsub : held ⊆ distinct := by
    intro key hkey
    have hasked := (askedFor_runAll hm).cached key (hheld key hkey)
    rw [(sound_runAll hm).2.2] at hasked
    exact sub hasked
  have hlen := (List.subperm_of_subset hnodup hsub).length_le
  omega

end

/-- Behind the filter every batch is recovered with the codec for thirty-two and thirty-two. -/
theorem codecKey_of_ingested {srt : ShredSort} {l : List Shred} {key : CacheKey}
    (hl : ∀ s ∈ l, Ingested s) (asks : codecKey srt l = some key) :
    key = (dataShredsPerFecBlock, dataShredsPerFecBlock) := by
  unfold codecKey at asks
  split at asks
  · rename_i last hlast
    cases asks
    have hmem := List.mem_of_getLast? (lastCodingShred_eq_ok.mp hlast)
    have hin := hl _ ((sortShreds_perm srt l).mem_iff.mp hmem)
    obtain ⟨hdata, hcoding⟩ := hin.fixedHeaders.config last rfl
    rw [hdata, hcoding]
    rfl
  · cases asks

/-- Threads that recover what the filter kept, in whatever interleaving, share one codec for good:
`ReedSolomon::new` runs once at most, for thirty-two data and as many coding shreds, and every call
is given its result, as long as the cache drops keys only when it is full. -/
theorem one_codec_behind_filter
    (new : (dataShards parityShards : Nat) → Except ErasureError ReedSolomon) (srt : ShredSort)
    (batches : List (List Shred)) (hin : ∀ l ∈ batches, ∀ x ∈ l, Ingested x) (turns : List Turn)
    (s : CacheSystem)
    (hrun : runAll (getTurn new) (.start (batches.filterMap (codecKey srt))) turns = .ok s)
    (lru : ∀ past turn rest m, turns = past ++ turn :: rest →
      runAll (getTurn new) (.start (batches.filterMap (codecKey srt))) past = .ok m →
        m.DropsWhenFull turn) :
    s.built.length ≤ 1 ∧
    ∀ (i j : Nat) (result result' : CachedCodec),
      (s.calls[i]?).map GetCall.state = some (.returned result) →
      (s.calls[j]?).map GetCall.state = some (.returned result') →
        result = result' ∧ result.map Arc.value = new 32 32 := by
  have hkeys : batches.filterMap (codecKey srt) ⊆ [(32, 32)] := by
    intro key hkey
    obtain ⟨l, hl, asks⟩ := List.mem_filterMap.mp hkey
    exact List.mem_singleton.mpr (codecKey_of_ingested (hin l hl) asks)
  have kept := evicted_eq_nil (by decide) hkeys hrun lru
  obtain ⟨hsound, hres, hcalls⟩ := sound_runAll hrun
  have h32 : ∀ key ∈ s.calls.map GetCall.key, key = (32, 32) := by
    intro key hkey
    rw [hcalls] at hkey
    exact List.mem_singleton.mp (hkeys hkey)
  have kept32 : ∀ turn ∈ turns, (32, 32) ∉ turn.evicted := by
    intro turn hturn
    rw [kept turn hturn]
    exact List.not_mem_nil
  constructor
  · have hall : ∀ key ∈ s.built, (32, 32) = key :=
      fun key hkey => (h32 key ((askedFor_runAll hrun).built key hkey)).symm
    have hzero : (turns.countP fun turn => (32, 32) ∈ turn.evicted) = 0 :=
      List.countP_eq_zero.mpr fun turn ht hin => kept32 turn ht (of_decide_eq_true hin)
    have hle := hsound.built_le hres (32, 32)
    rwa [hzero, List.count_eq_length.mpr hall] at hle
  · have hanswer : ∀ (i : Nat) (result : CachedCodec),
        (s.calls[i]?).map GetCall.state = some (.returned result) →
          s.Answers new (32, 32) result := by
      intro i result hi
      obtain ⟨⟨key, state⟩, hcall, hstate⟩ := Option.map_eq_some_iff.mp hi
      cases hstate
      obtain rfl : key = (32, 32) := h32 key (List.mem_map_of_mem (List.mem_of_getElem? hcall))
      exact hsound.answer hcall
    intro i j result result' hi hj
    exact ⟨(hanswer i result hi).unique (hanswer j result' hj) hsound hres kept32,
      (hanswer i result hi).1⟩

/-- Two threads with the same coding shred. -/
theorem one_codec_behind_filter_two : ∃ s,
    runAll (getTurn interpolationCache.new) (.start ([[.shredCode (fixedCode 5 5)],
      [.shredCode (fixedCode 5 5)]].filterMap (codecKey stableSort))) twoCalls = .ok s ∧
      s.built.length ≤ 1 := by
  have hkeys : [[Shred.shredCode (fixedCode 5 5)], [.shredCode (fixedCode 5 5)]].filterMap
      (codecKey stableSort) = [(32, 32), (32, 32)] := rfl
  obtain ⟨s, hs⟩ : ∃ s, runAll (getTurn interpolationCache.new)
      (.start [(32, 32), (32, 32)]) twoCalls = .ok s := ⟨_, rfl⟩
  rw [← hkeys] at hs
  refine ⟨s, hs, (one_codec_behind_filter interpolationCache.new stableSort
    [[.shredCode (fixedCode 5 5)], [.shredCode (fixedCode 5 5)]] ?_ twoCalls s hs ?_).1⟩
  · intro l hl x hx
    have hl : l = [.shredCode (fixedCode 5 5)] := by simpa using hl
    rw [hl, List.mem_singleton] at hx
    rw [hx]
    exact fixedCode_ingested (by decide) (by decide)
  · intro past turn rest m hturns _ hne
    have hmem : turn ∈ twoCalls := hturns ▸ List.mem_append_right _ List.mem_cons_self
    have hnone : ∀ turn ∈ twoCalls, turn.evicted = [] := by decide
    exact (hne (hnone turn hmem)).elim

end LightweightShred
