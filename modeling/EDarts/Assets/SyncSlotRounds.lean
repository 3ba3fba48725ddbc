/-
  EDarts.Assets.SyncSlotRounds — a slot that is used round after round.

  A scheduler watches the slot. When it reads 0 in `currentDep` it fires the slot's
  codelets one by one and then calls `syncSlotResetDep`; the observation, the codelets
  and the reset are steps of their own. Between any two of them cores call
  `syncSlotDecDep`, as often as they like, for the round that is going on or already for
  the next one. `late` counts the decrements since the observation, `lost` those that a
  reset has written over. The read behind the unlock of `syncSlotDecDep` changes nothing,
  so a decrement stands for the whole call.

  - `signals_accounted`: the decrements so far are `d` for each reset, those of the
    present round, and the lost ones.
  - `signals_kept_iff`: a run loses no signal exactly when every reset finds the counter
    at 0.
  - `an_early_signal_is_lost`: one decrement between the observation and the reset.
-/

import EDarts.Lib.Runs
import EDarts.Assets.SyncSlot

namespace EDarts.Assets.SyncSlotRounds

open Lib SyncSlot

inductive Phase where
  | watching
  /-- Zero was read; so many codelets are left to fire before the reset. -/
  | firing (left : Nat)
  deriving DecidableEq, Repr

structure State where
  slot : SyncSlot
  scheduler : Phase
  decrements : Nat
  resets : Nat
  late : Nat
  lost : Nat

inductive Action where
  /-- `syncSlotDecDep` by core `core`. -/
  | decDep (core : Word)
  /-- The scheduler reads `currentDep`. -/
  | observe
  | fire
  /-- The scheduler, on core `core`, calls `syncSlotResetDep`. -/
  | resetDep (core : Word)
  deriving DecidableEq, Repr

def step (s : State) : Action → Option (Unit × State)
  | .decDep core =>
    (s.slot.decrement core).map fun slot =>
      ((), { s with
        slot := slot
        decrements := s.decrements + 1
        late := if s.scheduler = .watching then 0 else s.late + 1 })
  | .observe =>
    if s.scheduler = .watching then
      if s.slot.currentDep = 0 then some ((), { s with scheduler := .firing s.slot.numCodelets.toNat })
      else some ((), s)
    else none
  | .fire =>
    match s.scheduler with
    | .firing (left + 1) => some ((), { s with scheduler := .firing left })
    | _ => none
  | .resetDep core =>
    if s.scheduler = .firing 0 then
      (s.slot.syncSlotResetDep core).map fun slot =>
        ((), { s with
          slot := slot
          scheduler := .watching
          resets := s.resets + 1
          late := 0
          lost := s.lost + s.late })
    else none

/-- A slot that `initSyncSlot` set up with `d` for both counts. -/
def started (core newSyncSlot newSlotID d : Word) (fireCodeletTemplate : Codelet) (numCodeletsToFire : Word)
    (s : SyncSlot) : State :=
  ⟨initSyncSlot core newSyncSlot newSlotID d d fireCodeletTemplate numCodeletsToFire s, .watching, 0, 0, 0, 0⟩

/-- `d` decrements for each reset and those of the present round, and `lost` more. -/
def Balance (d : Word) (s : State) (lost : Nat) : Prop :=
  BitVec.ofNat 32 s.decrements =
    d * BitVec.ofNat 32 s.resets + (d - s.slot.currentDep) + BitVec.ofNat 32 lost

/-- No signal got lost. -/
def Kept (d : Word) (s : State) : Prop :=
  BitVec.ofNat 32 s.decrements = d * BitVec.ofNat 32 s.resets + (d - s.slot.currentDep)

/-! ## One step -/

/-- What one step can do. -/
inductive Moves (s : State) : Action → State → Prop
  | decDep (core w : Word) :
      Moves s (.decDep core) { s with
        slot := { s.slot with currentDep := s.slot.currentDep - 1, lockMutex := w }
        decrements := s.decrements + 1
        late := if s.scheduler = .watching then 0 else s.late + 1 }
  | zero : s.scheduler = .watching → s.slot.currentDep = 0 →
      Moves s .observe { s with scheduler := .firing s.slot.numCodelets.toNat }
  | waits : Moves s .observe s
  | fire (left : Nat) : s.scheduler = .firing (left + 1) → Moves s .fire { s with scheduler := .firing left }
  | resetDep (core w : Word) : s.scheduler = .firing 0 →
      Moves s (.resetDep core) { s with
        slot := { s.slot with currentDep := s.slot.resetDep, lockMutex := w }
        scheduler := .watching
        resets := s.resets + 1
        late := 0
        lost := s.lost + s.late }

theorem moves_of_step {s s' : State} {a : Action} {o : Unit} (h : step s a = some (o, s')) : Moves s a s' := by
  cases a with
  | decDep core =>
    simp only [step, Option.map_eq_some_iff, Prod.mk.injEq] at h
    obtain ⟨slot, hdec, -, rfl⟩ := h
    obtain ⟨w, rfl⟩ := decrement_eq hdec
    exact .decDep core w
  | observe =>
    unfold step at h
    by_cases hw : s.scheduler = .watching
    · by_cases hz : s.slot.currentDep = 0
      · simp only [hw, hz, if_true, Option.some.injEq, Prod.mk.injEq] at h
        obtain ⟨-, rfl⟩ := h
        exact .zero hw hz
      · simp only [hw, hz, if_true, if_false, Option.some.injEq, Prod.mk.injEq] at h
        obtain ⟨-, rfl⟩ := h
        exact .waits
    · simp only [hw, if_false] at h
      cases h
  | fire =>
    unfold step at h
    rcases hf : s.scheduler with _ | _ | left
    · simp only [hf] at h; cases h
    · simp only [hf] at h; cases h
    · simp only [hf, Option.some.injEq, Prod.mk.injEq] at h
      obtain ⟨-, rfl⟩ := h
      exact .fire left hf
  | resetDep core =>
    unfold step at h
    by_cases hf : s.scheduler = .firing 0
    · simp only [hf, if_true, Option.map_eq_some_iff, Prod.mk.injEq] at h
      obtain ⟨slot, hreset, -, rfl⟩ := h
      obtain ⟨w, rfl⟩ := syncSlotResetDep_eq hreset
      exact .resetDep core w hf
    · simp only [hf, if_false] at h
      cases h

/-! ## The balance -/

structure Inv (d : Word) (s : State) : Prop where
  reset : s.slot.resetDep = d
  balance : Balance d s s.lost
  watching : s.scheduler = .watching → s.late = 0
  /-- From the observation on, the counter is 0 less the late decrements. -/
  firing : s.scheduler ≠ .watching → s.slot.currentDep = - BitVec.ofNat 32 s.late

theorem ofNat_succ (n : Nat) : BitVec.ofNat 32 (n + 1) = BitVec.ofNat 32 n + 1 := BitVec.ofNat_add n 1

theorem balance_decrement (rounds d dep lost : Word) :
    rounds + (d - dep) + lost + 1 = rounds + (d - (dep - 1)) + lost := by grind

theorem late_decrement (late : Word) : -late - 1 = -(late + 1) := by grind

/-- A reset ends a round of `d` decrements and forgets the late ones. -/
theorem balance_reset (d resets late lost : Word) :
    d * resets + (d - -late) + lost = d * (resets + 1) + (d - d) + (lost + late) := by grind

theorem Inv.keep {d : Word} {s s' : State} {a : Action} {o : Unit} (H : Inv d s) (h : step s a = some (o, s')) :
    Inv d s' := by
  obtain ⟨hr, hb, hw, hf⟩ := H
  unfold Balance at hb
  cases moves_of_step h with
  | decDep core w =>
    have hbal : BitVec.ofNat 32 (s.decrements + 1) =
        d * BitVec.ofNat 32 s.resets + (d - (s.slot.currentDep - 1)) + BitVec.ofNat 32 s.lost := by
      rw [ofNat_succ, hb, balance_decrement]
    by_cases hp : s.scheduler = .watching
    · exact ⟨hr, hbal, fun _ => by simp [hp], fun hne => absurd hp hne⟩
    · refine ⟨hr, hbal, fun e => absurd e hp, fun _ => ?_⟩
      simp only [hp, if_false, hf hp, ofNat_succ, late_decrement]
  | zero hp hz =>
    refine ⟨hr, hb, fun e => (by cases e), fun _ => ?_⟩
    simp only [hw hp, hz]
    rfl
  | waits => exact ⟨hr, hb, hw, hf⟩
  | fire left hp =>
    have hne : s.scheduler ≠ .watching := by rw [hp]; simp
    exact ⟨hr, hb, fun e => (by cases e), fun _ => hf hne⟩
  | resetDep core w hp =>
    have hne : s.scheduler ≠ .watching := by rw [hp]; simp
    refine ⟨hr, ?_, fun _ => rfl, fun e => absurd rfl e⟩
    unfold Balance
    rw [hb, hf hne, balance_reset, ofNat_succ, BitVec.ofNat_add, hr]

theorem Inv.start (core newSyncSlot newSlotID d : Word) (template : Codelet) (numCodelets : Word) (s : SyncSlot) :
    Inv d (started core newSyncSlot newSlotID d template numCodelets s) := by
  refine ⟨rfl, ?_, fun _ => rfl, fun h => absurd rfl h⟩
  simp [Balance, started, initSyncSlot]

/-- In every state that decrements by any cores and the scheduler's rounds lead to, the
    decrements are accounted for, those that a reset wrote over among them. -/
theorem signals_accounted (core newSyncSlot newSlotID d : Word) (template : Codelet) (numCodelets : Word)
    (slot : SyncSlot) (s : State)
    (h : Reach (· = started core newSyncSlot newSlotID d template numCodelets slot)
      (fun s s' => ∃ a o, step s a = some (o, s')) s) :
    BitVec.ofNat 32 s.decrements =
      d * BitVec.ofNat 32 s.resets + (d - s.slot.currentDep) + BitVec.ofNat 32 s.lost := by
  have H : Inv d s := by
    apply Reach.inv (Inv d) _ _ h
    · intro s hs
      rw [hs]
      exact Inv.start core newSyncSlot newSlotID d template numCodelets slot
    · intro s s' H hst
      obtain ⟨a, o, hst⟩ := hst
      exact H.keep hst
  exact H.balance

/-- The test's slot 0: one dependency, one codelet. -/
def printSlot : State :=
  started 0x808 0x6088 0 1 ⟨0, 0x6088, 0x100⟩ 1 ⟨0, 0, 0, 0, ⟨0, 0, 0⟩, 0, 0, 0⟩

/-- One round, and a decrement while its codelet is running. -/
theorem signals_accounted_test :
    ∃ s, Reach (· = printSlot) (fun s s' => ∃ a o, step s a = some (o, s')) s ∧
      (s.decrements, s.resets, s.slot.currentDep, s.lost) = (2, 1, 1, 1) ∧
      BitVec.ofNat 32 s.decrements = 1 * BitVec.ofNat 32 s.resets + (1 - s.slot.currentDep) + BitVec.ofNat 32 s.lost := by
  have hrun : (run step printSlot [.decDep 0x809, .observe, .decDep 0x809, .fire, .resetDep 0x808]).map
      (fun r => (r.2.decrements, r.2.resets, r.2.slot.currentDep, r.2.lost)) = some (2, 1, 1, 1) := by decide +kernel
  obtain ⟨⟨os, s⟩, hrun, hs⟩ := Option.map_eq_some_iff.mp hrun
  have hreach : Reach (· = printSlot) (fun s s' => ∃ a o, step s a = some (o, s')) s := Reach.of_run _ (.init rfl) hrun
  exact ⟨s, hreach, hs, signals_accounted 0x808 0x6088 0 1 ⟨0, 0x6088, 0x100⟩ 1 ⟨0, 0, 0, 0, ⟨0, 0, 0⟩, 0, 0, 0⟩ s hreach⟩

/-! ## Runs that lose none -/

/-- A reset that finds the counter away from 0. -/
def Overwrites (s : State) : Action → Prop
  | .resetDep _ => s.scheduler = .firing 0 ∧ s.slot.currentDep ≠ 0
  | _ => False

instance (s : State) : ∀ a, Decidable (Overwrites s a)
  | .resetDep _ => inferInstanceAs (Decidable (_ ∧ _))
  | .decDep _ | .observe | .fire => inferInstanceAs (Decidable False)

theorem eq_add_iff (x y : Word) : x + y = x ↔ y = 0 := by
  constructor
  · intro h; grind
  · intro h; grind

theorem neg_eq_zero_iff (x : Word) : -x = 0 ↔ x = 0 := by
  constructor
  · intro h; grind
  · intro h; grind

theorem Inv.kept_iff {d : Word} {s : State} (H : Inv d s) : Kept d s ↔ BitVec.ofNat 32 s.lost = 0 := by
  have hb := H.balance
  unfold Balance at hb
  unfold Kept
  rw [hb, eq_add_iff]

/-- While nothing is lost, a step loses something exactly when it overwrites. -/
theorem Inv.loses_iff {d : Word} {s s' : State} {a : Action} {o : Unit} (H : Inv d s)
    (hlost : BitVec.ofNat 32 s.lost = 0) (h : step s a = some (o, s')) :
    BitVec.ofNat 32 s'.lost = 0 ↔ ¬ Overwrites s a := by
  cases moves_of_step h with
  | resetDep core w hp =>
    have hne : s.scheduler ≠ .watching := by rw [hp]; simp
    have hdep := H.firing hne
    have hlate : BitVec.ofNat 32 (s.lost + s.late) = 0 ↔ s.slot.currentDep = 0 := by
      rw [BitVec.ofNat_add, hlost, hdep, neg_eq_zero_iff]
      exact Eq.congr (BitVec.zero_add _) rfl
    rw [hlate, Overwrites, and_iff_right hp, ne_eq, Classical.not_not]
  | decDep core w => exact iff_of_true hlost id
  | zero hp hz => exact iff_of_true hlost id
  | waits => exact iff_of_true hlost id
  | fire left hp => exact iff_of_true hlost id

/-- No signal is lost all along a run exactly when every reset finds the counter at 0. -/
theorem signals_kept_iff (core newSyncSlot newSlotID d : Word) (template : Codelet) (numCodelets : Word)
    (slot : SyncSlot) (as : List Action)
    (hA : EachStep step (fun s a => (step s a).isSome)
      (started core newSyncSlot newSlotID d template numCodelets slot) as) :
    Throughout step (Kept d) (started core newSyncSlot newSlotID d template numCodelets slot) as ↔
      EachStep step (fun s a => ¬ Overwrites s a)
        (started core newSyncSlot newSlotID d template numCodelets slot) as := by
  have hkept : ∀ s, Inv d s ∧ BitVec.ofNat 32 s.lost = 0 → Kept d s := by
    intro s ⟨H, hlost⟩
    exact H.kept_iff.mpr hlost
  apply throughout_iff hkept _ _ as _ _ hA
  · intro s a ⟨H, hlost⟩ hsome hno
    obtain ⟨⟨o, s'⟩, hst⟩ := Option.isSome_iff_exists.mp hsome
    exact ⟨o, s', hst, H.keep hst, (H.loses_iff hlost hst).mpr hno⟩
  · intro s a ⟨H, hlost⟩ hsome hover
    obtain ⟨⟨o, s'⟩, hst⟩ := Option.isSome_iff_exists.mp hsome
    refine ⟨o, s', hst, fun hk => hover ?_⟩
    exact (H.loses_iff hlost hst).mp ((H.keep hst).kept_iff.mp hk)
  · exact ⟨Inv.start core newSyncSlot newSlotID d template numCodelets slot, rfl⟩

/-! ## A lost signal -/

/-- Core 0x809 signals; while the codelet of that round runs, it signals for the next
    round, and the reset forgets it. -/
theorem an_early_signal_is_lost :
    ¬ ∀ (core newSyncSlot newSlotID d : Word) (template : Codelet) (numCodelets : Word) (slot : SyncSlot) (s : State),
      1 ≤ d.toNat → Reach (· = started core newSyncSlot newSlotID d template numCodelets slot)
        (fun s s' => ∃ a o, step s a = some (o, s')) s → Kept d s := by
  intro hall
  have hrun : (run step printSlot [.decDep 0x809, .observe, .decDep 0x809, .fire, .resetDep 0x808]).map
      (fun r => (r.2.decrements, r.2.resets, r.2.slot.currentDep)) = some (2, 1, 1) := by decide +kernel
  obtain ⟨⟨os, s⟩, hrun, hs⟩ := Option.map_eq_some_iff.mp hrun
  simp only [Prod.mk.injEq] at hs
  obtain ⟨hdec, hres, hdep⟩ := hs
  have hk := hall 0x808 0x6088 0 1 ⟨0, 0x6088, 0x100⟩ 1 ⟨0, 0, 0, 0, ⟨0, 0, 0⟩, 0, 0, 0⟩ s (by decide)
    (Reach.of_run _ (.init rfl) hrun)
  unfold Kept at hk
  rw [hdec, hres, hdep] at hk
  exact absurd hk (by decide)

end EDarts.Assets.SyncSlotRounds
