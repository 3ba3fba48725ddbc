/-
  EDarts.Runtime.CodeletProgram — a codelet program on one core: the loop
  `cu_scheduler_round_robin`, and the `decDepAndPush` calls of the codelets that it fires
  (`e_darts_cu_scheduler.c`).

  The program has sync slots `ι`, each with its template and its number of codelets. The core
  first makes the start-up calls and then runs the loop: it pops its own codelets queue and
  fires what it gets; the codelet calls `decDepAndPush` on some slots, one after the other, and
  returns to the loop. The calls take the steps of `EDarts.Runtime.DecDep`, on the slot they
  are about and on the queue of the core. `darts_rt_alive` is written by others: each test of
  it reads what it likes. Nobody resets a slot, and no other core works on the queue.

  `log` keeps the decrements made and the codelets fired, in order.
-/

import EDarts.Lib.Dataflow
import EDarts.Runtime.DecDep
import Mathlib.Logic.Function.Basic

namespace EDarts.Runtime.CodeletProgram

open Lib Assets CodeletsQueue Dataflow

/-- A program: its slots, as `initSyncSlot` is called on them, and what its codelets call. -/
structure Program (ι : Type) where
  core : Word
  dartsCUElements : Word
  slotAddress : ι → Word
  slotID : ι → Word
  resetDep : ι → Word
  initDep : ι → Word
  template : ι → Codelet
  numCodelets : ι → Word
  /-- The calls of `decDepAndPush` that the core makes before the loop. -/
  startup : List ι
  /-- The calls of `decDepAndPush` that a codelet makes when it is fired. -/
  calls : Codelet → List ι
  succ : ι → List ι
  /-- All codelets of a slot make the same calls. -/
  calls_template : ∀ p i, calls { template p with codeletID := i } = succ p

inductive Pc (ι : Type) where
  /-- At the loop's test of `darts_rt_alive`. -/
  | test
  | pop
  /-- In the start-up code or in a codelet, with calls still to make. -/
  | fire (todo : List ι)
  /-- In a call of `decDepAndPush` on slot `p`. -/
  | decDep (p : ι) (c : DecDep.Call) (todo : List ι)
  | stopped

structure State (ι : Type) where
  slots : ι → SyncSlot
  queue : CodeletsQueue
  pc : Pc ι
  log : List (Event ι Codelet)

variable {ι : Type} (P : Program ι)

namespace Program

/-- The queue of the core, by its full address. -/
def thisCodeletQueue : Word := DARTS_APPEND_COREID P.core (P.dartsCUElements + CU_CODELETS_QUEUE)

/-- The slots and the queue are initialised on the core, over whatever was there. -/
def start (slots : ι → SyncSlot) (queue : CodeletsQueue) : State ι where
  slots := fun p => SyncSlot.initSyncSlot P.core (P.slotAddress p) (P.slotID p) (P.resetDep p) (P.initDep p)
    (P.template p) (P.numCodelets p) (slots p)
  queue := (initCodeletsQueue P.thisCodeletQueue DARTS_CODELET_QUEUE_SIZE_BYTES queue).2
  pc := .fire P.startup
  log := []

variable [DecidableEq ι]

/-- A call on slot `p` took the step to `r`. -/
def stepped (s : State ι) (p : ι) (c : DecDep.Call) (todo : List ι) (r : DecDep.Call × DecDep.State) : State ι where
  slots := Function.update s.slots p r.2.slot
  queue := r.2.queues P.thisCodeletQueue
  pc := .decDep p r.1 todo
  log := if c.pc = .start then s.log ++ [.signal p] else s.log

/-- One step of the core; `alive` is what it reads when it tests `darts_rt_alive != 0`. `none`:
    the loop is over, or the core spins on a mutex. -/
def step (s : State ι) (alive : Bool) : Option (Unit × State ι) :=
  match s.pc with
  | .test => some ((), { s with pc := if alive then .pop else .stopped })
  | .pop =>
    (popCodeletQueue P.thisCodeletQueue P.core s.queue).map fun r =>
      match r.1 with
      | (.successOp, some toFire) =>
        ((), { s with queue := r.2, pc := .fire (P.calls toFire), log := s.log ++ [.fire toFire] })
      | _ => ((), { s with queue := r.2, pc := .test })
  | .fire [] => some ((), { s with pc := .test })
  | .fire (p :: todo) => some ((), { s with pc := .decDep p (DecDep.cuDecDepAndPush P.core P.dartsCUElements) todo })
  | .decDep p c todo =>
    if c.pc = .done then some ((), { s with pc := .fire todo })
    else
      (DecDep.callStep c ⟨s.slots p, fun _ => s.queue, [c], []⟩).map fun r => ((), P.stepped s p c todo r)
  | .stopped => none

/-- The states of the program's runs. -/
abbrev Reachable (s : State ι) : Prop :=
  Reach (fun s => ∃ slots queue, s = P.start slots queue) (fun s s' => ∃ alive o, P.step s alive = some (o, s')) s

end Program

end EDarts.Runtime.CodeletProgram
