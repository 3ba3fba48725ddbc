/-
  EDarts.Multithreading.FullAddress — what a stored mutex address guards.

  A core's address reaches a word of the chip (`MutexSafety.location`): the upper 12 bits
  name the core that has it, or are 0 for the core's own memory. `initSyncSlot` and
  `darts_barrier_init` make the full address of their structure's lock out of the id of
  the core they run on and the lower 20 bits of the lock's address (`fullAddress`).

  - `guards_fullAddress_iff`: from every core it reaches the lock itself, and lock and
    unlock take and free that word and change no other, exactly when the lock was
    addressed locally or as the initialising core's, and not at offset 0, where the
    mutex refuses.
-/

import EDarts.Multithreading.MutexSafety

namespace EDarts.Multithreading

open Lib MutexSafety

/-- The words of all cores' memories. -/
abbrev Chip := Location → Word

/-- `darts_mutex_lock(mutex)` on core `core`; `none`: it spins. -/
def lockOn (core mutex : Word) (chip : Chip) : Option (Int × Chip) :=
  (dartsMutexLock mutex core (chip (location core mutex))).map fun r =>
    (r.1, Function.update chip (location core mutex) r.2)

def unlockOn (core mutex : Word) (chip : Chip) : Int × Chip :=
  let r := dartsMutexUnlock mutex (chip (location core mutex))
  (r.1, Function.update chip (location core mutex) r.2)

/-- The register `COREID`: 6 bits each for the row and the column. -/
def CoreId (core : Word) : Prop := core ≠ 0 ∧ core.toNat < 2 ^ 12

instance (core : Word) : Decidable (CoreId core) := inferInstanceAs (Decidable (_ ∧ _))

/-- The lock at `own` is what `mutex` locks and unlocks, from every core. -/
structure Guards (mutex : Word) (own : Location) : Prop where
  reaches : ∀ core, CoreId core → location core mutex = own
  locks : ∀ core chip, CoreId core →
    lockOn core mutex chip = if chip own = 0 then some (0, Function.update chip own core) else none
  unlocks : ∀ core chip, CoreId core → unlockOn core mutex chip = (0, Function.update chip own 0)

/-- The address that core `core` makes for its `field`. -/
def fullAddress (core field : Word) : Word := (core <<< 20) + (field &&& 0x000FFFFF)

/-! ## Its two halves -/

variable {core : Word}

theorem toNat_fullAddress (h : CoreId core) (field : Word) :
    (fullAddress core field).toNat = core.toNat * 2 ^ 20 + field.toNat % 2 ^ 20 := by
  obtain ⟨-, hlt⟩ := h
  have hlow := Nat.mod_lt field.toNat (show 0 < 2 ^ 20 by decide)
  rw [fullAddress, BitVec.toNat_add, BitVec.toNat_shiftLeft, toNat_lower, Nat.shiftLeft_eq,
    Nat.mod_eq_of_lt (a := core.toNat * 2 ^ 20) (by omega), Nat.mod_eq_of_lt (by omega)]

theorem fullAddress_upper (h : CoreId core) (field : Word) : fullAddress core field >>> 20 = core := by
  have hlow := Nat.mod_lt field.toNat (show 0 < 2 ^ 20 by decide)
  rw [← BitVec.toNat_inj, toNat_upper, toNat_fullAddress h]
  omega

theorem fullAddress_lower (h : CoreId core) (field : Word) :
    fullAddress core field &&& 0x000FFFFF = field &&& 0x000FFFFF := by
  rw [← BitVec.toNat_inj, toNat_lower, toNat_fullAddress h, toNat_lower]
  omega

/-- It is the initialising core's word at the field's offset. -/
theorem location_fullAddress (h : CoreId core) (field other : Word) :
    location other (fullAddress core field) = (core, field &&& 0x000FFFFF) := by
  rw [location, fullAddress_upper h, fullAddress_lower h, if_neg h.1]

/-! ## Which fields it guards -/

theorem guards_of {mutex : Word} {own : Location} (hloc : ∀ core, CoreId core → location core mutex = own)
    (hlow : mutex &&& 0x000FFFFF ≠ 0) : Guards mutex own := by
  refine ⟨hloc, fun core chip hc => ?_, fun core chip hc => ?_⟩
  · rw [lockOn, hloc core hc, dartsMutexLock_eq hlow]
    by_cases hw : chip own = 0
    · simp only [hw, if_true, Option.map_some]
    · simp only [hw, if_false, Option.map_none]
  · simp only [unlockOn, hloc core hc, dartsMutexUnlock, hlow, if_false]

/-- A refused mutex answers -1. -/
theorem Guards.not_refused {mutex : Word} {own : Location} (G : Guards mutex own) : mutex &&& 0x000FFFFF ≠ 0 := by
  intro hlow
  have h := G.unlocks 1 (fun _ => 0) (by decide)
  simp only [unlockOn, dartsMutexUnlock, hlow, if_true, Prod.mk.injEq, reduceCtorEq, false_and] at h

theorem guards_fullAddress_iff (h : CoreId core) (field : Word) :
    Guards (fullAddress core field) (location core field) ↔
      (field >>> 20 = 0 ∨ field >>> 20 = core) ∧ field &&& 0x000FFFFF ≠ 0 := by
  have hown : location core field = (core, field &&& 0x000FFFFF) ↔ field >>> 20 = 0 ∨ field >>> 20 = core := by
    rw [location, Prod.mk.injEq]
    by_cases hz : field >>> 20 = 0
    · simp only [hz, if_true, true_and, true_or]
    · simp only [hz, if_false, and_true, false_or]
  constructor
  · intro G
    have hlow := G.not_refused
    rw [fullAddress_lower h] at hlow
    exact ⟨hown.mp ((G.reaches core h).symm.trans (location_fullAddress h field core)), hlow⟩
  · intro hf
    obtain ⟨hcore, hlow⟩ := hf
    rw [hown.mpr hcore]
    refine guards_of (fun other _ => location_fullAddress h field other) ?_
    rw [fullAddress_lower h]
    exact hlow

end EDarts.Multithreading
