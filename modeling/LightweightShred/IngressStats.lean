import LightweightShred.FixedFec

/-!
# What the statistics account for

Every call of the filter adds one to the counter of its decision. A packet whose variant byte
decodes to nothing never reaches the check that would count it as a bad shred type: sizing the
packet has failed before, and that is counted as an overrun.
-/
namespace LightweightShred
open ByteString Rust Codec

namespace ShredFetchStats

/-- The fields that the filter has no business with. -/
def others (s : ShredFetchStats) : UInt64 × UInt64 × UInt64 × Option Nat × UInt64 :=
  (s.shredCount, s.pingCount, s.pingErrVerifyCount, s.since, s.overflowShreds)

variable {s : ShredFetchStats} {n : UInt64} {c d : FetchCounter}

@[simp] theorem get_set_self : (s.set n c).get c = n := by
  cases c <;> rfl

theorem get_set_of_ne (h : d ≠ c) : (s.set n c).get d = s.get d := by
  cases c <;> cases d <;> first | rfl | exact (h rfl).elim

@[simp] theorem others_set : (s.set n c).others = s.others := by
  cases c <;> rfl

theorem bumpSaturating_eq_bump (h : (s.get c).toNat + 1 < 2 ^ 64) :
    s.bumpSaturating c = s.bump c := by
  rw [bumpSaturating, bump, saturatingAddSize]
  exact congrArg (fun m => s.set m c) (if_pos h)

theorem toNat_get_bump (h : (s.get c).toNat + 1 < 2 ^ 64) :
    ((s.bump c).get d).toNat = (s.get d).toNat + if d = c then 1 else 0 := by
  unfold bump
  by_cases hd : d = c
  · subst hd
    rw [get_set_self, if_pos rfl, UInt64.toNat_add]
    exact Nat.mod_eq_of_lt h
  · rw [get_set_of_ne hd, if_neg hd, Nat.add_zero]

@[simp] theorem others_bump : (s.bump c).others = s.others := others_set

end ShredFetchStats

/-- The change of the statistics that a decision is to make: one more for its counter, one more
besides for data complete at an unexpected index, and nothing else. -/
structure Accounted (o : Outcome) (s after : ShredFetchStats) : Prop where
  counters : ∀ c, (after.get c).toNat = (s.get c).toNat + (if c = o.counter then 1 else 0) +
    if o.unexpected = true ∧ c = .unexpectedDataCompleteShred then 1 else 0
  others : after.others = s.others

/-- A kept packet is counted by its type and any other by a reason, and no counter is raised
twice by one call. -/
structure Outcome.Proper (ty : ShredType) (o : Outcome) : Prop where
  once : o.unexpected = true → o.counter ≠ .unexpectedDataCompleteShred
  kept : o.discarded = false → o.counter = keptCounter ty
  dropped : o.discarded = true → ∀ ty', o.counter ≠ keptCounter ty'

section Step
variable {o : Outcome} {s : ShredFetchStats} {ty : ShredType}

theorem Outcome.Proper.accounted (h : o.Proper ty) (hroom : ∀ c, (s.get c).toNat + 1 < 2 ^ 64) :
    Accounted o s (o.apply s).2 := by
  -- the data-complete counter is raised first, and is not the one of the decision
  have hfirst : ∃ s₁, s₁ = (if o.unexpected then s.bump .unexpectedDataCompleteShred else s) ∧
      s₁.others = s.others ∧ ∀ c, (s₁.get c).toNat = (s.get c).toNat +
        if o.unexpected = true ∧ c = .unexpectedDataCompleteShred then 1 else 0 := by
    refine ⟨_, rfl, ?_⟩
    cases o.unexpected with
    | false => exact ⟨rfl, fun c => by simp⟩
    | true => exact ⟨ShredFetchStats.others_bump, fun c => by
        simp [ShredFetchStats.toNat_get_bump (hroom _)]⟩
  obtain ⟨s₁, hs₁, hothers, hget⟩ := hfirst
  have hroom₁ : (s₁.get o.counter).toNat + 1 < 2 ^ 64 := by
    rw [hget, if_neg fun hc => h.once hc.1 hc.2]
    exact hroom _
  have hafter : (o.apply s).2 = s₁.bump o.counter := by
    rw [Outcome.apply, ← hs₁, ShredFetchStats.bumpSaturating_eq_bump hroom₁]
    exact ite_self _
  rw [hafter]
  refine ⟨fun c => ?_, ShredFetchStats.others_bump.trans hothers⟩
  rw [ShredFetchStats.toNat_get_bump hroom₁, hget]
  omega

theorem proper_reason {c : FetchCounter} {u : Bool} (hc : ∀ ty', c ≠ keptCounter ty')
    (hu : u = true → c ≠ .unexpectedDataCompleteShred) : Outcome.Proper ty ⟨true, c, u⟩ :=
  ⟨hu, fun h => Bool.noConfusion h, fun _ => hc⟩

theorem proper_drop {c : FetchCounter} (hc : ∀ ty', c ≠ keptCounter ty') :
    (Outcome.drop c).Proper ty :=
  proper_reason hc fun h => Bool.noConfusion h

theorem proper_ite {p : Prop} [Decidable p] {a b : Outcome} (ha : a.Proper ty) (hb : b.Proper ty) :
    (if p then a else b).Proper ty := by
  split <;> assumption

theorem keptCounter_ne {c : FetchCounter} (h : c ≠ .numShredsMerkleCodeChained ∧
    c ≠ .numShredsMerkleDataChained) (ty : ShredType) : c ≠ keptCounter ty := by
  cases ty with
  | code => exact h.1
  | data => exact h.2

theorem restOutcome_proper (b : Bytes) (ty : ShredType) (u : Bool) :
    (restOutcome b ty u).Proper ty := by
  refine proper_ite ⟨fun _ => ?_, fun _ => rfl, fun h => Bool.noConfusion h⟩
    (proper_reason (keptCounter_ne (by decide)) fun _ => by decide)
  exact (keptCounter_ne (by decide) ty).symm

theorem headerOutcome_proper (b : Bytes) (root maxSlot : UInt64) (shredVersion : UInt16)
    (discardUnexpected : UInt64 → Bool) (ty : ShredType) :
    (headerOutcome b root discardUnexpected maxSlot shredVersion ty).Proper ty := by
  have drop : ∀ c : FetchCounter, c ≠ .numShredsMerkleCodeChained ∧
      c ≠ .numShredsMerkleDataChained → (Outcome.drop c).Proper ty :=
    fun c hc => proper_drop (keptCounter_ne hc)
  unfold headerOutcome
  refine proper_ite (drop _ (by decide)) (proper_ite (drop _ (by decide)) ?_)
  cases ty with
  | code =>
      rw [if_pos rfl]
      exact proper_ite (drop _ (by decide)) (proper_ite (drop _ (by decide))
        (proper_ite (drop _ (by decide)) (restOutcome_proper b .code _)))
  | data =>
      have hlast := @proper_reason .data .misalignedLastDataIndex (completesEarly b)
        (keptCounter_ne (by decide)) fun _ => by decide
      rw [if_neg (by decide)]
      exact proper_ite (drop _ (by decide)) (proper_ite (drop _ (by decide))
        (proper_ite (drop _ (by decide)) (proper_ite (drop _ (by decide))
          (proper_ite hlast (restOutcome_proper b .data _)))))

end Step

structure FilterCall where
  packet : Bytes
  root : UInt64
  maxSlot : UInt64
  shredVersion : UInt16
  discardUnexpected : UInt64 → Bool

namespace FilterCall

def run (call : FilterCall) (stats : ShredFetchStats) : Result (Bool × ShredFetchStats) :=
  shouldDiscardShred call.packet call.root call.maxSlot call.shredVersion call.discardUnexpected
    stats

/-- The decision for a packet that starts with a shred of the variant, or is too short for one. -/
def sizedOutcome (call : FilterCall) (v : ShredVariant) : Outcome :=
  if call.packet.length < sizeOfPayload v.shredType then .drop .indexOverrun
  else headerOutcome call.packet call.root call.discardUnexpected call.maxSlot call.shredVersion
    v.shredType

/-- The decision that the statistics are to record, by the first check that fails. -/
def attributed (call : FilterCall) : Outcome :=
  call.packet[64]?.elim (.drop .indexOverrun) fun t =>
    ((ShredVariant.tryFrom t).toOption).elim (.drop .badShredType) call.sizedOutcome

def outcome (call : FilterCall) : Outcome :=
  LightweightShred.outcome call.packet call.root call.discardUnexpected call.maxSlot
    call.shredVersion

/-- The variant byte is missing, or decodes to a variant. -/
def VariantKnown (call : FilterCall) : Prop :=
  ∀ t, call.packet[64]? = some t → ∃ v, ShredVariant.tryFrom t = .ok v

theorem outcome_eq_sized {call : FilterCall} {v : ShredVariant}
    (hv : getShredVariant call.packet = .ok v) : call.outcome = call.sizedOutcome v := by
  rw [outcome, LightweightShred.outcome, hv, Except.toOption, Option.elim_some, sizedOutcome]

theorem attributed_eq_sized {call : FilterCall} {v : ShredVariant}
    (hv : getShredVariant call.packet = .ok v) : call.attributed = call.sizedOutcome v := by
  obtain ⟨t, ht, htv⟩ := getShredVariant_iff.mp hv
  rw [attributed, ht, Option.elim_some, htv, Except.toOption, Option.elim_some]

theorem outcome_of_no_variant {call : FilterCall}
    (h : ¬∃ v, getShredVariant call.packet = .ok v) : call.outcome = .drop .indexOverrun := by
  obtain ⟨e, he⟩ := (noPanic_getShredVariant call.packet).eq_fail h
  rw [outcome, LightweightShred.outcome, he]
  rfl

theorem attributed_of_no_byte {call : FilterCall} (h : call.packet[64]? = none) :
    call.attributed = .drop .indexOverrun := by
  rw [attributed, h, Option.elim_none]

theorem attributed_of_bad_byte {call : FilterCall} {t : UInt8} (ht : call.packet[64]? = some t)
    (h : ¬∃ v, ShredVariant.tryFrom t = .ok v) : call.attributed = .drop .badShredType := by
  obtain ⟨e, he⟩ := (ShredVariant.noPanic_tryFrom t).eq_fail h
  rw [attributed, ht, Option.elim_some, he]
  rfl

end FilterCall

/-- The call answers and counts as it is to. -/
structure AccountedCall (call : FilterCall) (s : ShredFetchStats) (discarded : Bool)
    (after : ShredFetchStats) : Prop extends Accounted call.attributed s after where
  answer : discarded = call.attributed.discarded
  kept : discarded = false → ∃ v, getShredVariant call.packet = .ok v ∧
    call.attributed.counter = keptCounter v.shredType
  dropped : discarded = true → ∀ ty, call.attributed.counter ≠ keptCounter ty

/-- Every call of the run does, in the state that it finds. -/
def AccountedRun : List FilterCall → ShredFetchStats → Prop
  | [], _ => True
  | call :: calls, s => ∃ discarded after, call.run s = .ok (discarded, after) ∧
      AccountedCall call s discarded after ∧ AccountedRun calls after

section Runs
variable {call : FilterCall} {s : ShredFetchStats}

theorem sizedOutcome_proper (call : FilterCall) (v : ShredVariant) :
    (call.sizedOutcome v).Proper v.shredType :=
  proper_ite (proper_drop (keptCounter_ne (by decide))) (headerOutcome_proper ..)

theorem exists_proper (call : FilterCall) : ∃ ty, call.outcome.Proper ty := by
  by_cases h : ∃ v, getShredVariant call.packet = .ok v
  · obtain ⟨v, hv⟩ := h
    rw [call.outcome_eq_sized hv]
    exact ⟨v.shredType, sizedOutcome_proper call v⟩
  · rw [FilterCall.outcome_of_no_variant h]
    exact ⟨.data, proper_drop (keptCounter_ne (by decide))⟩

theorem get_apply_le (hroom : ∀ c, (s.get c).toNat + 1 < 2 ^ 64) (c : FetchCounter) :
    ((call.outcome.apply s).2.get c).toNat ≤ (s.get c).toNat + 1 := by
  obtain ⟨ty, hproper⟩ := exists_proper call
  rw [(hproper.accounted hroom).counters c]
  split_ifs with h1 h2 h2
  · exact (hproper.once h2.1 (h1 ▸ h2.2)).elim
  all_goals omega

theorem accountedCall_of_known (hroom : ∀ c, (s.get c).toNat + 1 < 2 ^ 64)
    (h : call.VariantKnown) :
    AccountedCall call s (call.outcome.apply s).1 (call.outcome.apply s).2 := by
  by_cases hv : ∃ v, getShredVariant call.packet = .ok v
  · obtain ⟨v, hv⟩ := hv
    have hproper := sizedOutcome_proper call v
    have hattributed := call.attributed_eq_sized hv
    rw [call.outcome_eq_sized hv]
    exact
      { toAccounted := hattributed ▸ hproper.accounted hroom
        answer := congrArg Outcome.discarded hattributed.symm
        kept := fun hk => ⟨v, hv, hattributed ▸ hproper.kept hk⟩
        dropped := fun hd => hattributed ▸ hproper.dropped hd }
  · have hbyte : call.packet[64]? = none :=
      Option.eq_none_iff_forall_ne_some.mpr fun t ht =>
        hv ((h t ht).imp fun v htv => getShredVariant_iff.mpr ⟨t, ht, htv⟩)
    have hattributed := FilterCall.attributed_of_no_byte hbyte
    have hproper : (Outcome.drop .indexOverrun).Proper .data :=
      proper_drop (keptCounter_ne (by decide))
    rw [FilterCall.outcome_of_no_variant hv]
    exact
      { toAccounted := hattributed ▸ hproper.accounted hroom
        answer := congrArg Outcome.discarded hattributed.symm
        kept := fun hk => Bool.noConfusion hk
        dropped := fun hd => hattributed ▸ hproper.dropped hd }

theorem accountedCall_iff (hroom : ∀ c, (s.get c).toNat + 1 < 2 ^ 64) :
    AccountedCall call s (call.outcome.apply s).1 (call.outcome.apply s).2 ↔ call.VariantKnown := by
  refine ⟨fun h t ht => ?_, accountedCall_of_known hroom⟩
  by_contra hbad
  have hnone : ¬∃ v, getShredVariant call.packet = .ok v := by
    rintro ⟨v, hv⟩
    obtain ⟨t', ht', htv⟩ := getShredVariant_iff.mp hv
    exact hbad ⟨v, Option.some.inj (ht'.symm.trans ht) ▸ htv⟩
  have hcount := h.counters .badShredType
  rw [FilterCall.attributed_of_bad_byte ht hbad, FilterCall.outcome_of_no_variant hnone] at hcount
  have hafter : ((Outcome.drop .indexOverrun).apply s).2 = s.bump .indexOverrun := rfl
  rw [hafter, ShredFetchStats.toNat_get_bump (hroom _)] at hcount
  simp [Outcome.drop] at hcount

end Runs

/-- In a run that overflows no counter, all calls are accounted for exactly if the variant byte
of every packet is missing or decodes: for any other the counter of overruns goes up instead of
that of bad shred types. -/
theorem filter_accounts_iff (calls : List FilterCall) (s : ShredFetchStats)
    (hroom : ∀ c, (s.get c).toNat + calls.length < 2 ^ 64) :
    AccountedRun calls s ↔ ∀ call ∈ calls, call.VariantKnown := by
  induction calls generalizing s with
  | nil => exact iff_of_true trivial fun _ h => by cases h
  | cons call calls ih =>
      have hroom₁ : ∀ c, (s.get c).toNat + 1 < 2 ^ 64 := fun c => by
        have hc := hroom c
        rw [List.length_cons] at hc
        omega
      have hroom₂ : ∀ c, ((call.outcome.apply s).2.get c).toNat + calls.length < 2 ^ 64 := fun c => by
        have hc := hroom c
        have hle := @get_apply_le call s hroom₁ c
        rw [List.length_cons] at hc
        omega
      have hrun : call.run s = .ok (call.outcome.apply s) := shouldDiscardShred_eq
      rw [List.forall_mem_cons, ← ih _ hroom₂, ← @accountedCall_iff call s hroom₁, AccountedRun, hrun]
      constructor
      · rintro ⟨discarded, after, hok, hcall, hrest⟩
        cases hok
        exact ⟨hcall, hrest⟩
      · rintro ⟨hcall, hrest⟩
        exact ⟨_, _, rfl, hcall, hrest⟩

/-- A packet of zeros, long enough for a shred of either type. -/
def zeroCall : FilterCall := ⟨List.replicate 1228 0, 0, 1, 0, fun _ => false⟩

theorem zeroCall_unknown : ¬∃ v, getShredVariant zeroCall.packet = .ok v := by
  rintro ⟨v, hv⟩
  obtain ⟨t, ht, htv⟩ := getShredVariant_iff.mp hv
  obtain rfl : (0 : UInt8) = t := Option.some.inj ht
  cases htv

/-- The packet counts as an overrun and not as a bad shred type. -/
theorem filter_miscounts_bad_type : ∃ after,
    zeroCall.run .default = .ok (true, after) ∧ after = ShredFetchStats.default.bump .indexOverrun ∧
      after.badShredType = 0 ∧ zeroCall.packet[64]? = some 0 ∧
      zeroCall.attributed = .drop .badShredType ∧ ¬AccountedRun [zeroCall] .default := by
  have hrun : zeroCall.run .default = .ok (zeroCall.outcome.apply .default) := shouldDiscardShred_eq
  rw [FilterCall.outcome_of_no_variant zeroCall_unknown] at hrun
  have hbyte : zeroCall.packet[64]? = some 0 := rfl
  have hbad : ¬∃ v, ShredVariant.tryFrom 0 = .ok v := fun ⟨v, hv⟩ =>
    zeroCall_unknown ⟨v, getShredVariant_iff.mpr ⟨0, hbyte, hv⟩⟩
  have hattributed := FilterCall.attributed_of_bad_byte hbyte hbad
  refine ⟨_, hrun, rfl, rfl, hbyte, hattributed, ?_⟩
  rintro ⟨discarded, after, hok, hcall, -⟩
  cases hrun.symm.trans hok
  have hcount := hcall.counters .badShredType
  rw [hattributed] at hcount
  exact absurd hcount (by decide)

/-- A packet of bytes that stand for a coding shred. -/
def codeCall : FilterCall := ⟨List.replicate 1228 0x65, 0, 1, 0, fun _ => false⟩

/-- Behind an empty packet, one of a known type is accounted for, and the packet of zeros not. -/
theorem filter_accounts_iff_twice :
    AccountedRun [⟨[], 0, 1, 0, fun _ => false⟩, codeCall] .default ∧
      ¬AccountedRun [⟨[], 0, 1, 0, fun _ => false⟩, zeroCall] .default := by
  have hempty : FilterCall.VariantKnown ⟨[], 0, 1, 0, fun _ => false⟩ := fun t ht => by cases ht
  have hcode : codeCall.VariantKnown := by
    intro t ht
    obtain rfl : (0x65 : UInt8) = t := Option.some.inj ht
    exact ⟨_, rfl⟩
  constructor
  · refine (filter_accounts_iff _ _ fun c => by cases c <;> decide).mpr fun call hcall => ?_
    rcases List.mem_pair.mp hcall with rfl | rfl
    · exact hempty
    · exact hcode
  · intro h
    have hzero := (filter_accounts_iff _ _ fun c => by cases c <;> decide).mp h zeroCall (by simp)
    obtain ⟨v, hv⟩ := hzero 0 rfl
    exact zeroCall_unknown ⟨v, getShredVariant_iff.mpr ⟨0, rfl, hv⟩⟩

end LightweightShred
