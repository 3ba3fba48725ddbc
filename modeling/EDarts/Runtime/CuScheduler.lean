/-
  EDarts.Runtime.CuScheduler — a CU's `invokeSelfQueue` (`e_darts_cu_scheduler.c`).

  The CU pushes a closure to its SU's queue until the push succeeds. It takes the SU's
  core id out of `mySUElements` with a mask, which leaves it in the upper 12 bits, and
  appends it with `DARTS_APPEND_COREID`, which shifts it up by 20 bits more.

  - `invokeSelfQueue_misses_su`: the address it pushes to has no core id. So it is never
    the SU's queue, every push is refused, and the loop does not end.
-/

import EDarts.Assets.TpClosuresQueueProofs
import EDarts.Runtime.Global

namespace EDarts.Runtime.CuScheduler

open Lib Multithreading Assets TpClosuresQueue

/-- The closures queue at each address. -/
abbrev Queues := Word → TpClosuresQueue

/-- `suTPCQueue`, from `_dartsCUElements.mySUElements`. -/
def suTPCQueue (mySUElements : Word) : Word :=
  let suCodeID := 0xFFF00000 &&& mySUElements
  DARTS_APPEND_COREID suCodeID (mySUElements + SU_TPCLOSURES_QUEUE)

/-- The `while` around the push, `fuel` attempts of it at most: the queues when it
    returns. `others n` is what other cores do to the queues before an attempt. -/
def pushLoop (queue core : Word) (tpClosure : GenericTpClosure) (others : Nat → Queues → Queues) :
    Nat → Queues → Option Queues
  | 0, _ => none
  | n + 1, qs =>
    let qs := others n qs
    match pushTpClosureQueue queue core tpClosure (qs queue) with
    | none => none
    | some (code, q) =>
      let qs := fun a => if a = queue then q else qs a
      if code ≠ .successOp then pushLoop queue core tpClosure others n qs else some qs

def invokeSelfQueue (mySUElements core : Word) (tpClosure : GenericTpClosure) (others : Nat → Queues → Queues)
    (fuel : Nat) (qs : Queues) : Option Queues :=
  pushLoop (suTPCQueue mySUElements) core tpClosure others fuel qs

/-- `mySUElements` is a full address: it has a core id, and the SU's structure (1212
    bytes) is inside that core's memory. -/
structure FullAddress (mySUElements : Word) : Prop where
  coreID : mySUElements.toNat / 2 ^ 20 ≠ 0
  inside : mySUElements.toNat % 2 ^ 20 + 1212 ≤ 2 ^ 20

/-- The call pushes to the SU's queue, returns, and leaves the closure behind the others. -/
structure ReachesSU (mySUElements core : Word) (tpClosure : GenericTpClosure) (others : Nat → Queues → Queues)
    (qs : Queues) (N : Nat) (L : List GenericTpClosure) : Prop where
  target : suTPCQueue mySUElements = mySUElements + SU_TPCLOSURES_QUEUE
  returns : ∃ fuel qs', invokeSelfQueue mySUElements core tpClosure others fuel qs = some qs' ∧
    Lays (mySUElements + SU_TPCLOSURES_QUEUE) N (qs' (mySUElements + SU_TPCLOSURES_QUEUE)) (L ++ [tpClosure])

/-! ## The address -/

/-- Masked out where it is and shifted up again, a core id is gone. -/
theorem suCodeID_lost (mySUElements : Word) : (0xFFF00000 &&& mySUElements) <<< 20 = 0 := by
  rw [BitVec.shiftLeft_and_distrib, show (0xFFF00000 : Word) <<< 20 = 0 from rfl]
  exact BitVec.zero_and

theorem suTPCQueue_eq (mySUElements : Word) :
    suTPCQueue mySUElements = (mySUElements + SU_TPCLOSURES_QUEUE) &&& 0x000FFFFF := by
  simp only [suTPCQueue, DARTS_APPEND_COREID, suCodeID_lost]
  exact BitVec.zero_add _

theorem suTPCQueue_no_coreID (mySUElements : Word) : suTPCQueue mySUElements >>> 20 = 0 := by
  rw [suTPCQueue_eq, BitVec.ushiftRight_and_distrib, show (0x000FFFFF : Word) >>> 20 = 0 from rfl]
  exact BitVec.and_zero

/-- The SU's queue has the SU's core id. -/
theorem suQueue_coreID {mySUElements : Word} (H : FullAddress mySUElements) :
    (mySUElements + SU_TPCLOSURES_QUEUE) >>> 20 ≠ 0 := by
  obtain ⟨hcore, hin⟩ := H
  have hoff : SU_TPCLOSURES_QUEUE.toNat = 624 := by decide
  rw [ne_eq, ← BitVec.toNat_inj, BitVec.toNat_ushiftRight, Nat.shiftRight_eq_div_pow, BitVec.toNat_add, hoff]
  simp only [BitVec.toNat_zero, BitVec.ofNat_eq_ofNat]
  omega

/-! ## The loop -/

/-- A queue whose address has no core id refuses every push. -/
theorem pushLoop_spins {queue : Word} (hq : queue >>> 20 = 0) (core : Word) (c : GenericTpClosure)
    (others : Nat → Queues → Queues) : ∀ (fuel : Nat) (qs : Queues), pushLoop queue core c others fuel qs = none := by
  intro fuel
  induction fuel with
  | zero => intro qs; rfl
  | succ n ih =>
    intro qs
    have hpush : ∀ q, pushTpClosureQueue queue core c q = some (.invalidQueueAddress, q) := fun q => by
      simp [pushTpClosureQueue, checkIfValidAddress, hq]
    simp only [pushLoop, hpush, ne_eq, reduceCtorEq, not_false_eq_true, if_true, ih]

/-- For every full address, closure and state of the queues: the CU does not push to its
    SU's queue, and its call does not return. -/
theorem invokeSelfQueue_misses_su (mySUElements core : Word) (c : GenericTpClosure) (others : Nat → Queues → Queues)
    (qs : Queues) (N : Nat) (L : List GenericTpClosure) (H : FullAddress mySUElements) :
    suTPCQueue mySUElements ≠ mySUElements + SU_TPCLOSURES_QUEUE ∧
    (∀ fuel, invokeSelfQueue mySUElements core c others fuel qs = none) ∧
    ¬ ReachesSU mySUElements core c others qs N L := by
  have hne : suTPCQueue mySUElements ≠ mySUElements + SU_TPCLOSURES_QUEUE := fun h =>
    suQueue_coreID H (h ▸ suTPCQueue_no_coreID mySUElements)
  exact ⟨hne, fun fuel => pushLoop_spins (suTPCQueue_no_coreID mySUElements) core c others fuel qs, fun h => hne h.target⟩

/-- The SU of core 0x808, its elements at 0x5000. -/
def testSU : Word := 0x80805000

def freshQueues : Queues := fun queue => (initTpClosuresQueue queue 500 ⟨0, 0, 0, 0, 0, 0, fun _ => 0⟩).2

def noArgs : GenericTpClosure := ⟨0, 0, 0, [], rfl⟩

theorem fullAddress_test : FullAddress testSU := ⟨by decide, by decide⟩

theorem invokeSelfQueue_misses_su_test :
    suTPCQueue testSU ≠ testSU + SU_TPCLOSURES_QUEUE ∧
    (∀ fuel, invokeSelfQueue testSU 0x809 noArgs (fun _ qs => qs) fuel freshQueues = none) ∧
    ¬ ReachesSU testSU 0x809 noArgs (fun _ qs => qs) freshQueues 500 [] :=
  invokeSelfQueue_misses_su testSU 0x809 noArgs (fun _ qs => qs) freshQueues 500 [] fullAddress_test

/-- The SU's queue is empty and left alone, the closure fits, and the call does not
    reach it. -/
theorem a_fitting_closure_is_not_delivered :
    ¬ ∀ (mySUElements core : Word) (c : GenericTpClosure) (qs : Queues) (N : Nat) (L : List GenericTpClosure),
      FullAddress mySUElements → Space (mySUElements + SU_TPCLOSURES_QUEUE) N →
      Lays (mySUElements + SU_TPCLOSURES_QUEUE) N (qs (mySUElements + SU_TPCLOSURES_QUEUE)) L →
      12 + c.sizeOfArgs.toNat < 2 ^ 32 →
      tpSize c.sizeOfArgs < calculateMaxFreeSpaceQueue (mySUElements + SU_TPCLOSURES_QUEUE)
        (qs (mySUElements + SU_TPCLOSURES_QUEUE)) →
      ReachesSU mySUElements core c (fun _ qs => qs) qs N L := by
  intro hall
  have S : Space (testSU + SU_TPCLOSURES_QUEUE) 500 := ⟨by decide, by decide⟩
  have h := hall testSU 0x809 noArgs freshQueues 500 [] fullAddress_test S (lays_init S rfl _) (by decide) (by decide)
  exact absurd h.target (by decide)

end EDarts.Runtime.CuScheduler
