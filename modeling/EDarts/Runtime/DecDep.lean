/-
  EDarts.Runtime.DecDep — calls of `decDepAndPush` on one slot, interleaved
  (`e_darts_cu_scheduler.c`, `e_darts_su_scheduler.c`).

  Each call runs on its core, one step at a time: the decrement under the slot's mutex,
  the read that makes `syncSlotDecDep`'s return value, and, when that is 0, for each of
  the slot's codelets the write of its id into the slot's template and the attempts to
  push the template to the core's own queue. The queue is found by its local address in
  the core's runtime elements: the CU's and the SU's `decDepAndPush` differ in nothing
  else. Other code works on the queues as it likes (`other`); nobody resets the slot.
  `pushed` logs the codelets the calls pushed, in order.
-/

import EDarts.Assets.CodeletsQueue
import EDarts.Assets.SyncSlot
import EDarts.Runtime.Global

namespace EDarts.Runtime.DecDep

open Lib Assets CodeletsQueue

inductive Pc where
  | start
  /-- Behind the unlock, the result not read yet. -/
  | decremented
  /-- At the loop's test. -/
  | loop (i : Word)
  /-- At the `while` around the push. -/
  | pushing (i : Word)
  | done
  deriving DecidableEq, Repr

structure Call where
  core : Word
  queue : Word
  pc : Pc
  /-- What `syncSlotDecDep` returned to the call. -/
  ret : Option Int

/-- A call by a CU whose `_dartsCUElements` is at `elements`. -/
def cuDecDepAndPush (core elements : Word) : Call := ⟨core, elements + CU_CODELETS_QUEUE, .start, none⟩

/-- A call by an SU whose `_dartsSUElements` is at `elements`. -/
def suDecDepAndPush (core elements : Word) : Call := ⟨core, elements + SU_CODELETS_QUEUE, .start, none⟩

/-- Who calls: a core, and where its runtime elements are. -/
inductive Caller where
  | cu (core dartsCUElements : Word)
  | su (core dartsSUElements : Word)

def decDepAndPush : Caller → Call
  | .cu core elements => cuDecDepAndPush core elements
  | .su core elements => suDecDepAndPush core elements

structure State where
  slot : SyncSlot
  queues : Word → CodeletsQueue
  calls : List Call
  pushed : List Codelet

/-- `callers` are about to call. -/
def start (slot : SyncSlot) (queues : Word → CodeletsQueue) (callers : List Caller) : State :=
  ⟨slot, queues, callers.map decDepAndPush, []⟩

/-- One step of a call; `none`: it is done, or spins on a mutex. -/
def callStep (c : Call) (s : State) : Option (Call × State) :=
  match c.pc with
  | .start => (s.slot.decrement c.core).map fun slot => ({ c with pc := .decremented }, { s with slot := slot })
  | .decremented =>
    let r := s.slot.result
    some ({ c with pc := if r = 0 then .loop 0 else .done, ret := some r }, s)
  | .loop i =>
    if i < s.slot.numCodelets then
      let template := { s.slot.codeletTemplate with codeletID := i }
      some ({ c with pc := .pushing i }, { s with slot := { s.slot with codeletTemplate := template } })
    else some ({ c with pc := .done }, s)
  | .pushing i =>
    let thisCodeletQueue := DARTS_APPEND_COREID c.core c.queue
    let template := s.slot.codeletTemplate
    (pushCodeletQueue thisCodeletQueue c.core template (s.queues thisCodeletQueue)).map fun r =>
      let s := { s with queues := fun a => if a = thisCodeletQueue then r.2 else s.queues a }
      if r.1 ≠ .successOp then (c, s)
      else ({ c with pc := .loop (i + 1) }, { s with pushed := s.pushed ++ [template] })
  | .done => none

inductive Action where
  | call (t : Nat)
  | other (queues : Word → CodeletsQueue)

def step (s : State) : Action → Option (Unit × State)
  | .call t =>
    match s.calls[t]? with
    | none => none
    | some c => (callStep c s).map fun r => ((), { r.2 with calls := s.calls.set t r.1 })
  | .other queues => some ((), { s with queues := queues })

end EDarts.Runtime.DecDep
