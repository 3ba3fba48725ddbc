/-
  EDarts.Multithreading.Mutex — the target's words and the mutex (`e_darts_mutex.c`).

  An Epiphany core computes with 32-bit `unsigned`s and addresses bytes; the upper 12
  bits of an address name a core, the lower 20 a place in its memory. A mutex is a
  word taken with `testset`. `dartsMutexLock` is the lock's loop seen by a caller that
  runs while nobody else does: it answers `none` when the word is not 0, since then the
  loop spins until another core stores 0. An address whose lower 20 bits are 0 is
  refused with -1 and the word is left alone, by the lock and by the unlock.
-/

import EDarts.Lib.Bytes

namespace EDarts

open Lib

abbrev Word := BitVec 32
abbrev Byte := BitVec 8
abbrev Memory := Mem 32 Byte

namespace Multithreading

/-! ## The two halves of an address -/

theorem toNat_lower (a : Word) : (a &&& 0x000FFFFF).toNat = a.toNat % 2 ^ 20 := by
  rw [BitVec.toNat_and, show (0x000FFFFF : Word).toNat = 2 ^ 20 - 1 from rfl, Nat.and_two_pow_sub_one_eq_mod]

theorem toNat_upper (a : Word) : (a >>> 20).toNat = a.toNat / 2 ^ 20 := by
  rw [BitVec.toNat_ushiftRight, Nat.shiftRight_eq_div_pow]

/-! ## The mutex -/

def DARTS_MUTEX_NULL : Word := 0

/-- `testset`: the old word, and the new one (`val` if the word was 0). -/
def testset (word val : Word) : Word × Word := (word, if word = 0 then val else word)

/-- The return value and the word after; `none`: the loop spins. -/
def dartsMutexLock (mutex core word : Word) : Option (Int × Word) :=
  if mutex &&& 0x000FFFFF = 0 then some (-1, word)
  else
    let r := testset word core
    if r.1 ≠ 0 then none else some (0, r.2)

def dartsMutexUnlock (mutex word : Word) : Int × Word :=
  if mutex &&& 0x000FFFFF = 0 then (-1, word) else (0, 0)

/-- On a free mutex the lock always returns. -/
theorem dartsMutexLock_free (mutex core : Word) :
    ∃ r w, dartsMutexLock mutex core 0 = some (r, w) ∧ (dartsMutexUnlock mutex w).2 = 0 := by
  unfold dartsMutexLock dartsMutexUnlock
  by_cases h : mutex &&& 0x000FFFFF = 0
  · exact ⟨-1, 0, by rw [if_pos h], by rw [if_pos h]⟩
  · exact ⟨0, core, by rw [if_neg h]; simp [testset], by rw [if_neg h]⟩

/-- One round of the lock's loop, at an address that is not refused. -/
theorem dartsMutexLock_eq {mutex : Word} (h : mutex &&& 0x000FFFFF ≠ 0) (core word : Word) :
    dartsMutexLock mutex core word = if word = 0 then some (0, core) else none := by
  unfold dartsMutexLock testset
  rw [if_neg h]
  by_cases hw : word = 0
  · simp only [hw, ne_eq, not_true_eq_false, if_true, if_false]
  · simp only [hw, ne_eq, not_false_eq_true, if_true, if_false]

end Multithreading

end EDarts
