/-
  EDarts.Assets.SyncSlot — synchronization slots (`syncSlot.c`).

  `syncSlotDecDep` is two steps, as its caller's core takes them: the decrement under
  the slot's mutex (`decrement`), and after the unlock the read of `currentDep` that
  makes the return value (`result`). Between the two, other cores may run.
-/

import EDarts.CodeletModel

namespace EDarts.Assets

open Lib Multithreading

structure SyncSlot where
  slotID : Word
  resetDep : Word
  currentDep : Word
  tpFrame : Word
  codeletTemplate : Codelet
  numCodelets : Word
  lockMutex : Word
  lockMutexFullAddressPtr : Word
  deriving DecidableEq, Repr

namespace SyncSlot

/-- On core `core`, of the slot at address `newSyncSlot`; `s` is what was there. -/
def initSyncSlot (core newSyncSlot newSlotID resetDep initDep : Word) (fireCodeletTemplate : Codelet)
    (numCodeletsToFire : Word) (s : SyncSlot) : SyncSlot :=
  { s with
    slotID := newSlotID
    resetDep := resetDep
    currentDep := initDep
    codeletTemplate := fireCodeletTemplate
    lockMutex := DARTS_MUTEX_NULL
    -- `&newSyncSlot->lockMutex`: behind four words, the template and the count
    lockMutexFullAddressPtr := (core <<< 20) + ((newSyncSlot + 32) &&& 0x000FFFFF)
    numCodelets := numCodeletsToFire }

def lock (core : Word) (s : SyncSlot) : Option SyncSlot :=
  (dartsMutexLock s.lockMutexFullAddressPtr core s.lockMutex).map fun r => { s with lockMutex := r.2 }

def unlock (s : SyncSlot) : SyncSlot :=
  { s with lockMutex := (dartsMutexUnlock s.lockMutexFullAddressPtr s.lockMutex).2 }

/-- `syncSlotDecDep` up to the unlock. -/
def decrement (core : Word) (s : SyncSlot) : Option SyncSlot :=
  (lock core s).map fun s => unlock { s with currentDep := s.currentDep - 1 }

def syncSlotResetDep (core : Word) (s : SyncSlot) : Option SyncSlot :=
  (lock core s).map fun s => unlock { s with currentDep := s.resetDep }

/-- What `syncSlotDecDep` returns, read behind the unlock: an `int`. -/
def result (s : SyncSlot) : Int := s.currentDep.toInt

theorem result_eq_zero (s : SyncSlot) : s.result = 0 ↔ s.currentDep.toNat = 0 := by
  rw [result, ← BitVec.toInt_zero (w := 32), BitVec.toInt_inj, ← BitVec.toNat_inj]
  rfl

/-- A decrement that returns changes the counter and the mutex. -/
theorem decrement_eq {core : Word} {s s' : SyncSlot} (h : s.decrement core = some s') :
    ∃ w, s' = { s with currentDep := s.currentDep - 1, lockMutex := w } := by
  simp only [decrement, lock, Option.map_map, Option.map_eq_some_iff] at h
  obtain ⟨r, -, rfl⟩ := h
  exact ⟨_, rfl⟩

/-- On a slot whose mutex is free. -/
theorem decrement_free (core : Word) {s : SyncSlot} (hf : s.lockMutex = 0) :
    s.decrement core = some { s with currentDep := s.currentDep - 1 } := by
  obtain ⟨r, w, hl, hu⟩ := dartsMutexLock_free s.lockMutexFullAddressPtr core
  rw [decrement, lock, hf, hl]
  simp only [Option.map_some, unlock, hu, ← hf]

theorem syncSlotResetDep_free (core : Word) {s : SyncSlot} (hf : s.lockMutex = 0) :
    s.syncSlotResetDep core = some { s with currentDep := s.resetDep } := by
  obtain ⟨r, w, hl, hu⟩ := dartsMutexLock_free s.lockMutexFullAddressPtr core
  rw [syncSlotResetDep, lock, hf, hl]
  simp only [Option.map_some, unlock, hu, ← hf]

theorem syncSlotResetDep_eq {core : Word} {s s' : SyncSlot} (h : s.syncSlotResetDep core = some s') :
    ∃ w, s' = { s with currentDep := s.resetDep, lockMutex := w } := by
  simp only [syncSlotResetDep, lock, Option.map_map, Option.map_eq_some_iff] at h
  obtain ⟨r, -, rfl⟩ := h
  exact ⟨_, rfl⟩

end SyncSlot

end EDarts.Assets
