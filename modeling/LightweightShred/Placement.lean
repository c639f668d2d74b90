import LightweightShred.Accepted
import LightweightShred.Recover
import LightweightShred.Lib.Slots

/-!
# Placing the sorted shreds

The placement loop succeeds on lists whose positions increase, and then yields the table
that holds each given shred at its position and a stub everywhere else.
-/
namespace LightweightShred
open ByteString Rust Slots

/-- One signature, and increasing positions below `n`. -/
structure Placeable (signature : Signature) (n : Nat) (l : List Shred) : Prop where
  signature : ∀ s ∈ l, s.signature = signature
  increasing : Increasing Shred.position l
  bound : ∀ s ∈ l, s.position < n

/-- The given shred of a position, or its stub. -/
def fillAt (stubAt : Nat → Shred) (l : List Shred) (i : Nat) : Shred :=
  (held Shred.position l i).getD (stubAt i)

/-- Whether a shred was given for a position. -/
def present (l : List Shred) (i : Nat) : Bool := (held Shred.position l i).isSome

theorem present_iff {l : List Shred} {i : Nat} : present l i = true ↔ ∃ s ∈ l, s.position = i := by
  rw [present, Option.isSome_iff_ne_none, ne_eq, held_eq_none]
  simp

theorem mem_missing_iff {l : List Shred} {i n : Nat} :
    i ∈ missing Shred.position l n ↔ i < n ∧ present l i = false := by
  rw [missing, List.mem_filter, List.mem_range, present]
  cases held Shred.position l i <;> simp

/-- `setMask` for every shred of a list. -/
def setAll (mask : List Bool) (l : List Shred) : List Bool :=
  l.foldl (fun mask s => mask.set s.position true) mask

theorem setAll_replicate (l : List Shred) (n : Nat) :
    setAll (List.replicate n false) l = (List.range n).map (present l) := by
  have general : ∀ mask : List Bool, mask.length = n →
      setAll mask l = (List.range n).map fun i => present l i || mask.getD i false := by
    induction l with
    | nil =>
        intro mask hm
        apply List.ext_getElem (by simp [setAll, hm])
        intro i h1 h2
        have hi : i < mask.length := h1
        simp [setAll, present, held, hi]
    | cons s l ih =>
        intro mask hm
        rw [setAll, List.foldl_cons, ← setAll, ih _ (by rw [List.length_set, hm])]
        apply List.map_congr_left
        intro i hi
        have hi' : i < mask.length := by rw [hm]; exact List.mem_range.mp hi
        by_cases hs : s.position = i
        · subst hs
          simp [present, held_cons_self, hi']
        · rw [present, present, held_cons_ne hs]
          simp [List.getElem?_set_ne hs]
  rw [general _ (List.length_replicate ..)]
  apply List.map_congr_left
  intro i hi
  simp [List.mem_range.mp hi]

section Loops
variable {stub : Nat → Result Shred} {stubAt : Nat → Shred} {n : Nat}

theorem pushStubs_eq (hstub : ∀ p < n, stub p = .ok (stubAt p)) {turns : Nat} {batch : List Shred}
    (h : batch.length + turns ≤ n) :
    pushStubs stub turns batch = .ok (batch ++ (List.range' batch.length turns).map stubAt) := by
  induction turns generalizing batch with
  | zero => simp [pushStubs]
  | succ turns ih =>
      have hlen : (batch ++ [stubAt batch.length]).length = batch.length + 1 := by simp
      rw [pushStubs, hstub _ (by omega)]
      simp only [bind, Except.bind]
      rw [ih (by omega), hlen, List.range'_succ, List.map_cons, List.append_assoc,
        List.singleton_append]

theorem fill_split {s : Shred} {l : List Shred} {k : Nat} (hk : k ≤ s.position)
    (hn : s.position < n) (hl : Increasing Shred.position (s :: l)) :
    (List.range' k (n - k)).map (fillAt stubAt (s :: l)) =
      (List.range' k (s.position - k)).map stubAt ++ s ::
        (List.range' (s.position + 1) (n - (s.position + 1))).map (fillAt stubAt l) := by
  have hsplit : List.range' k (n - k) = List.range' k (s.position - k) ++
      s.position :: List.range' (s.position + 1) (n - (s.position + 1)) := by
    rw [← List.range'_succ, show n - k = (s.position - k) + (n - (s.position + 1) + 1) by omega,
      ← List.range'_append_1, show k + (s.position - k) = s.position by omega]
  obtain ⟨hs, -⟩ := List.pairwise_cons.mp hl
  rw [hsplit, List.map_append, List.map_cons]
  congr 1
  · apply List.map_congr_left
    intro i hi
    have hi' := (List.mem_range'_1.mp hi).2
    have hnone : held Shred.position (s :: l) i = none := by
      apply held_eq_none.mpr
      intro t ht
      rcases List.mem_cons.mp ht with rfl | ht
      · omega
      · have := hs t ht
        omega
    rw [fillAt, hnone, Option.getD_none]
  · congr 1
    · rw [fillAt, held_cons_self, Option.getD_some]
    · apply List.map_congr_left
      intro i hi
      have hi' := (List.mem_range'_1.mp hi).1
      rw [fillAt, fillAt, held_cons_ne (by omega)]

theorem placeable_cons {signature : Signature} {s : Shred} {l : List Shred} :
    Placeable signature n (s :: l) ↔ s.signature = signature ∧ s.position < n ∧
      (∀ t ∈ l, s.position < t.position) ∧ Placeable signature n l := by
  constructor
  · rintro ⟨hsig, hinc, hbound⟩
    obtain ⟨hlt, hinc⟩ := List.pairwise_cons.mp hinc
    exact ⟨hsig s List.mem_cons_self, hbound s List.mem_cons_self, hlt,
      fun t ht => hsig t (List.mem_cons_of_mem _ ht), hinc,
      fun t ht => hbound t (List.mem_cons_of_mem _ ht)⟩
  · rintro ⟨hsig, hbound, hlt, hl⟩
    exact ⟨List.forall_mem_cons.mpr ⟨hsig, hl.signature⟩, List.pairwise_cons.mpr ⟨hlt, hl.increasing⟩,
      List.forall_mem_cons.mpr ⟨hbound, hl.bound⟩⟩

/-- One turn of the placement loop: two ways to fail, or the stubs up to the shred's place. -/
theorem placeShreds_cons {signature : Signature} {s : Shred} {l batch : List Shred}
    {mask : List Bool} (hs : s.erasureShardIndex = .ok s.position)
    (hstub : ∀ p < n, stub p = .ok (stubAt p)) (hm : mask.length = n) :
    placeShreds stub signature n (s :: l) (batch, mask) =
      if s.signature ≠ signature then fail .invalidMerkleRoot
      else if ¬(batch.length ≤ s.position ∧ s.position < n) then fail (.erasure .invalidIndex)
      else placeShreds stub signature n l
        (batch ++ (List.range' batch.length (s.position - batch.length)).map stubAt ++ [s],
          mask.set s.position true) := by
  rw [placeShreds]
  split
  · rfl
  · rw [hs]
    simp only [bind, Except.bind]
    split
    · rfl
    · rename_i hrange
      obtain ⟨hge, hlt⟩ := not_not.mp hrange
      rw [pushStubs_eq hstub (by omega)]
      simp only [setMask]
      rw [if_pos (by omega)]

theorem length_placed {s : Shred} {batch : List Shred} (h : batch.length ≤ s.position) :
    (batch ++ (List.range' batch.length (s.position - batch.length)).map stubAt ++ [s]).length =
      s.position + 1 := by
  simp only [List.length_append, List.length_map, List.length_range', List.length_singleton]
  omega

theorem place_fill_eq_ok {signature : Signature} {l : List Shred}
    (hpos : ∀ s ∈ l, s.erasureShardIndex = .ok s.position)
    (hstub : ∀ p < n, stub p = .ok (stubAt p)) {batch : List Shred} {mask : List Bool}
    (hb : batch.length ≤ n) (hm : mask.length = n) {r : List Shred × List Bool} :
    (do let (batch, mask) ← placeShreds stub signature n l (batch, mask)
        let batch ← pushStubs stub (n - batch.length) batch
        pure (batch, mask)) = .ok r ↔
      Placeable signature n l ∧ (∀ s ∈ l, batch.length ≤ s.position) ∧
        r = (batch ++ (List.range' batch.length (n - batch.length)).map (fillAt stubAt l),
          setAll mask l) := by
  induction l generalizing batch mask with
  | nil =>
      rw [placeShreds]
      simp only [bind, Except.bind]
      rw [pushStubs_eq hstub (by omega)]
      constructor
      · intro h
        cases h
        exact ⟨⟨by simp, .nil, by simp⟩, by simp, rfl⟩
      · rintro ⟨-, -, rfl⟩
        rfl
  | cons s l ih =>
      have htail : ∀ t ∈ l, t.erasureShardIndex = .ok t.position :=
        fun t ht => hpos t (List.mem_cons_of_mem _ ht)
      rw [placeShreds_cons (hpos s List.mem_cons_self) hstub hm]
      by_cases hsig : s.signature = signature
      · by_cases hrange : batch.length ≤ s.position ∧ s.position < n
        · have hlen := @length_placed stubAt s batch hrange.1
          rw [if_neg (not_not.mpr hsig), if_neg (not_not.mpr hrange),
            ih htail (by omega) (by rw [List.length_set, hm]), hlen]
          constructor
          · rintro ⟨hp, hge, rfl⟩
            have hcons := placeable_cons.mpr ⟨hsig, hrange.2, hge, hp⟩
            refine ⟨hcons, List.forall_mem_cons.mpr ⟨hrange.1, fun t ht => ?_⟩, ?_⟩
            · exact Nat.le_of_lt (Nat.lt_of_le_of_lt hrange.1 (hge t ht))
            · rw [fill_split hrange.1 hrange.2 hcons.increasing, setAll, setAll, List.foldl_cons]
              simp only [List.append_assoc, List.singleton_append]
          · rintro ⟨hp, hge, rfl⟩
            obtain ⟨-, -, hlt, htail⟩ := placeable_cons.mp hp
            refine ⟨htail, hlt, ?_⟩
            rw [fill_split hrange.1 hrange.2 hp.increasing, setAll, setAll, List.foldl_cons]
            simp only [List.append_assoc, List.singleton_append]
        · rw [if_neg (not_not.mpr hsig), if_pos hrange]
          constructor
          · intro h
            cases h
          · rintro ⟨hp, hge, -⟩
            exact (hrange ⟨hge s List.mem_cons_self, (placeable_cons.mp hp).2.1⟩).elim
      · rw [if_pos hsig]
        constructor
        · intro h
          cases h
        · rintro ⟨hp, -, -⟩
          exact (hsig (placeable_cons.mp hp).1).elim

theorem fillBatch_eq_ok {signature : Signature} {l : List Shred}
    (hpos : ∀ s ∈ l, s.erasureShardIndex = .ok s.position)
    (hstub : ∀ p < n, stub p = .ok (stubAt p)) {r : List Shred × List Bool} :
    fillBatch stub signature n l = .ok r ↔ Placeable signature n l ∧
      r = ((List.range n).map (fillAt stubAt l), (List.range n).map (present l)) := by
  have h := @place_fill_eq_ok stub stubAt n signature l hpos hstub [] (List.replicate n false)
    (Nat.zero_le _) (List.length_replicate ..) r
  rw [setAll_replicate] at h
  simpa [fillBatch, List.range_eq_range'] using h

end Loops

section Counting
variable (stub : Nat → Result Shred) (numDataShreds : Nat)

theorem pushStubsCounting_fst (turns : Nat) (batch : List Shred) (count : Nat) :
    (pushStubsCounting stub numDataShreds turns batch count).map Prod.fst =
      pushStubs stub turns batch := by
  induction turns generalizing batch count with
  | zero => rfl
  | succ turns ih =>
      rw [pushStubsCounting, pushStubs]
      cases hs : stub batch.length with
      | error e => rfl
      | ok s => exact ih _ _

theorem placeShredsCounting_fst (signature : Signature) (n : Nat) (l : List Shred)
    (batch : List Shred) (mask : List Bool) (count : Nat) :
    (placeShredsCounting stub signature numDataShreds n l (batch, mask, count)).map
        (fun r => (r.1, r.2.1)) = placeShreds stub signature n l (batch, mask) := by
  induction l generalizing batch mask count with
  | nil => rfl
  | cons s l ih =>
      rw [placeShredsCounting, placeShreds]
      by_cases hsig : s.signature = signature
      · rw [if_neg (not_not.mpr hsig), if_neg (not_not.mpr hsig)]
        cases hi : s.erasureShardIndex with
        | error e => rfl
        | ok i =>
            simp only [bind, Except.bind]
            by_cases hrange : batch.length ≤ i ∧ i < n
            · rw [if_neg (not_not.mpr hrange), if_neg (not_not.mpr hrange),
                ← pushStubsCounting_fst stub numDataShreds (i - batch.length) batch count]
              cases pushStubsCounting stub numDataShreds (i - batch.length) batch count with
              | error e => rfl
              | ok st =>
                  simp only [Except.map]
                  cases setMask mask i with
                  | error e => rfl
                  | ok mask => exact ih _ _ _
            · rw [if_pos hrange, if_pos hrange]
              rfl
      · rw [if_pos hsig, if_pos hsig]
        rfl

/-- The two loops of the fast path fill the batch like those of `recover`. -/
theorem fillCounting_eq_ok {signature : Signature} {n : Nat} {l batch : List Shred}
    {mask : List Bool} :
    (∃ placed count, placeShredsCounting stub signature numDataShreds n l
        ([], List.replicate n false, 0) = .ok (placed, mask, count) ∧
      ∃ total, pushStubsCounting stub numDataShreds (n - placed.length) placed count =
        .ok (batch, total)) ↔
      fillBatch stub signature n l = .ok (batch, mask) := by
  simp only [fillBatch, bind_eq_ok, Prod.exists, pure, Except.pure, Except.ok.injEq, Prod.mk.injEq,
    ← placeShredsCounting_fst stub numDataShreds signature n l [] _ 0, map_eq_ok]
  constructor
  · rintro ⟨placed, count, hplace, total, hpush⟩
    refine ⟨placed, mask, ⟨placed, mask, count, hplace, rfl, rfl⟩, batch, ?_, rfl, rfl⟩
    rw [← pushStubsCounting_fst stub numDataShreds _ _ count, hpush]
    rfl
  · rintro ⟨_, _, ⟨placed, _, count, hplace, rfl, rfl⟩, _, hpush, rfl, rfl⟩
    rw [← pushStubsCounting_fst stub numDataShreds _ _ count, map_eq_ok] at hpush
    obtain ⟨⟨batch, total⟩, hpush, rfl⟩ := hpush
    exact ⟨placed, count, hplace, total, hpush⟩

end Counting

end LightweightShred
