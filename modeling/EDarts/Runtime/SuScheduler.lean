/-
  EDarts.Runtime.SuScheduler — a codelet program on an SU: the loop
  `su_scheduler_round_robin`, and the calls of `decDepAndPush` and `invokeSelfQueue` of the
  codelets that it fires (`e_darts_su_scheduler.c`).

  In each round the SU owns its closures queue, peeks at the oldest closure, and disowns the
  queue: what it should make of the closure is commented out in the source. Then it pops its
  codelets queue and fires what it gets. A codelet decrements slots and invokes threaded
  procedures; `invokeSelfQueue` pushes the closure to the SU's own queue until the push
  succeeds. Other cores push closures to that queue whenever they like.

  The codelets' part is as on a CU (`EDarts.Runtime.CodeletProgram`), with the runtime elements
  of an SU. `darts_rt_alive` is written by others: each test of it reads what it likes.
-/

import EDarts.Assets.TpClosuresQueueRuns
import EDarts.Lib.Dataflow
import EDarts.Runtime.DecDep
import Mathlib.Logic.Function.Basic

namespace EDarts.Runtime.SuScheduler

open Lib Assets CodeletsQueue Dataflow

/-- A closure whose bytes a word counts. -/
structure Closure where
  closure : GenericTpClosure
  small : 12 + closure.sizeOfArgs.toNat < 2 ^ 32

/-- What a codelet calls. -/
inductive Call (ι : Type) where
  | decDep (p : ι)
  | invoke (tpClosure : Closure)

/-- A program: its slots, as `initSyncSlot` is called on them, and what its codelets call. -/
structure Program (ι : Type) where
  core : Word
  dartsSUElements : Word
  slotAddress : ι → Word
  slotID : ι → Word
  resetDep : ι → Word
  initDep : ι → Word
  template : ι → Codelet
  numCodelets : ι → Word
  /-- The calls that the SU makes before the loop. -/
  startup : List (Call ι)
  /-- The calls that a codelet makes when it is fired. -/
  calls : Codelet → List (Call ι)
  code : ι → List (Call ι)
  /-- All codelets of a slot make the same calls. -/
  calls_template : ∀ p i, calls { template p with codeletID := i } = code p

inductive Pc (ι : Type) where
  /-- At the loop's test of `darts_rt_alive`. -/
  | test
  | own
  | peak
  | disown
  | pop
  /-- In the start-up code or in a codelet, with calls still to make. -/
  | fire (todo : List (Call ι))
  /-- In a call of `decDepAndPush` on slot `p`. -/
  | decDep (p : ι) (c : DecDep.Call) (todo : List (Call ι))
  | stopped

structure State (ι : Type) where
  slots : ι → SyncSlot
  queue : CodeletsQueue
  closures : TpClosuresQueue.Hist
  pc : Pc ι
  log : List (Event ι Codelet)

inductive Action where
  /-- A step of the SU; `alive` is what it reads when it tests `darts_rt_alive != 0`. -/
  | su (alive : Bool)
  /-- Another core pushes a closure. -/
  | push (core : Word) (tpClosure : Closure)

variable {ι : Type} (P : Program ι)

namespace Program

def thisTPCQueue : Word := DARTS_APPEND_COREID P.core (P.dartsSUElements + SU_TPCLOSURES_QUEUE)

def thisCodeletQueue : Word := DARTS_APPEND_COREID P.core (P.dartsSUElements + SU_CODELETS_QUEUE)

/-- The slots and the queues are initialised on the SU, over whatever was there. -/
def start (slots : ι → SyncSlot) (queue : CodeletsQueue) (closures : TpClosuresQueue) : State ι where
  slots := fun p => SyncSlot.initSyncSlot P.core (P.slotAddress p) (P.slotID p) (P.resetDep p) (P.initDep p)
    (P.template p) (P.numCodelets p) (slots p)
  queue := (initCodeletsQueue P.thisCodeletQueue DARTS_CODELET_QUEUE_SIZE_BYTES queue).2
  closures := TpClosuresQueue.started P.thisTPCQueue DARTS_TPCLOSURES_QUEUE_SIZE_BYTES closures
  pc := .fire P.startup
  log := []

/-- The SU calls a function of its closures queue, and goes on at `next` of its code. -/
def closuresCall (s : State ι) (op : TpClosuresQueue.Op) (next : TpClosuresQueue.Code → Pc ι) : Option (State ι) :=
  (TpClosuresQueue.histStep P.thisTPCQueue s.closures op).map fun r => { s with closures := r.2, pc := next r.1.1 }

variable [DecidableEq ι]

/-- A call on slot `p` took the step to `r`. -/
def stepped (s : State ι) (p : ι) (c : DecDep.Call) (todo : List (Call ι)) (r : DecDep.Call × DecDep.State) : State ι :=
  { s with
    slots := Function.update s.slots p r.2.slot
    queue := r.2.queues P.thisCodeletQueue
    pc := .decDep p r.1 todo
    log := if c.pc = .start then s.log ++ [.signal p] else s.log }

def suStep (s : State ι) (alive : Bool) : Option (State ι) :=
  match s.pc with
  | .test => some { s with pc := if alive then .own else .stopped }
  | .own => P.closuresCall s (.own P.core) fun code => if code = .successOp then .peak else .pop
  | .peak => P.closuresCall s (.peak P.core) fun _ => .disown
  | .disown => P.closuresCall s (.disown P.core) fun _ => .pop
  | .pop =>
    (popCodeletQueue P.thisCodeletQueue P.core s.queue).map fun r =>
      match r.1 with
      | (.successOp, some toFire) =>
        { s with queue := r.2, pc := .fire (P.calls toFire), log := s.log ++ [.fire toFire] }
      | _ => { s with queue := r.2, pc := .test }
  | .fire [] => some { s with pc := .test }
  | .fire (.decDep p :: todo) => some { s with pc := .decDep p (DecDep.suDecDepAndPush P.core P.dartsSUElements) todo }
  | .fire (.invoke g :: todo) =>
    P.closuresCall s (.push P.core g.closure) fun code => if code ≠ .successOp then s.pc else .fire todo
  | .decDep p c todo =>
    if c.pc = .done then some { s with pc := .fire todo }
    else (DecDep.callStep c ⟨s.slots p, fun _ => s.queue, [c], []⟩).map (P.stepped s p c todo)
  | .stopped => none

/-- `none`: the loop is over, or a core spins on a mutex. -/
def step (s : State ι) : Action → Option (Unit × State ι)
  | .su alive => (P.suStep s alive).map ((), ·)
  | .push core g => (P.closuresCall s (.push core g.closure) fun _ => s.pc).map ((), ·)

/-- The states of the program's runs. -/
abbrev Reachable (s : State ι) : Prop :=
  Reach (fun s => ∃ slots queue closures, s = P.start slots queue closures) (fun s s' => ∃ a o, P.step s a = some (o, s')) s

end Program

end EDarts.Runtime.SuScheduler
