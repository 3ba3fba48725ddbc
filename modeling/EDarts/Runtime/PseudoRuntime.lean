/-
  EDarts.Runtime.PseudoRuntime — the pseudo runtime of the closures queue's test
  (`e_tpClosuresQueue_test.c`, `e_multipleProducersMultipleConsumers`).

  Cores push closures to one queue. Each consumer runs a loop: it owns the queue, and when
  there is a closure in it, it makes a threaded procedure of the oldest one, on a heap of its
  own; it pops the closure and lets go of the queue. Then it walks its heap from the start,
  and fires the codelets of every slot that waits for nothing, and resets the slot. The loop
  ends when the final signal is set and a walk has fired nothing.

  A step is one call on the queue, the construction of a threaded procedure, or the visit of a
  slot: between them the other cores run. Of the code of constructors and codelets the model
  keeps what it does to the slots of its own threaded procedure. A codelet's pushes, and
  its store to the final signal, are steps of their own, which any core may take at any time.

  `created` and `log` keep what was made of the closures, and for each threaded procedure of a
  consumer its decrements and the codelets fired.
-/

import EDarts.Lib.Dataflow
import EDarts.CodeletModel.ThreadedProcedure
import Mathlib.Logic.Function.Basic

namespace EDarts.PseudoRuntime

open Lib Assets TpClosuresQueue TpClosure ThreadedProcedure Dataflow

/-! ## Programs -/

/-- What a constructor does to the slots: the assignments of slots 0, 1, …, and then calls of
    `syncSlotDecDep`. -/
structure Initialization where
  slots : List Assignment
  startup : List Nat
  startup_lt : ∀ n ∈ startup, n < slots.length

/-- The body of a threaded procedure: `DEFINE_TP_MEM_REGIONS`, `DEFINE_THREADED_PROCEDURE`. -/
structure Code where
  numSyncSlots : Word
  sizeDRAM : Word
  sizeLocal : Word
  sizeDist : Word
  initialization : List (List Byte) → Initialization
  slots_length : ∀ args, (initialization args).slots.length = numSyncSlots.toNat

structure Program where
  queue : Word
  newSize : Word
  space : Space queue newSize.toNat
  base0_0Address : Word
  consumers : List Word
  consumers_ne_zero : ∀ core ∈ consumers, core ≠ 0
  tps : List TpDefinition
  metadataCtors : (tps.map TpDefinition.metadataCtor).Nodup
  closureExecs : (tps.map TpDefinition.closureExec).Nodup
  code : TpDefinition → Code
  /-- The slots of its threaded procedure that a codelet function decrements. -/
  codelets : Word → List Nat
  codelets_lt : ∀ D ∈ tps, ∀ args, ∀ A ∈ ((code D).initialization args).slots, ∀ n ∈ codelets A.codeletFunction,
    n < ((code D).initialization args).slots.length

def TP_HEAP_LOCATION : Word := 0x62E0
def LOCAL_MEM_LOCATION : Word := 0x7000
def EXTERNAL_MEM_LOCATION : Word := 0x8f000000

/-! ## A consumer -/

inductive Pc where
  /-- At the loop's test. -/
  | test
  | own
  /-- At `isTpClosureQueueEmpty`. -/
  | look
  | peek
  | create (currentTpClosure : Word)
  | pop
  | disown
  /-- At the test of the loop over the threaded procedures; `currentTp` is `*currentExecTpAddr`. -/
  | tps (i : Nat) (currentTp : Word)
  | slots (i : Nat) (currentTp : Word) (j : Nat) (currentSyncSlot : Word)
  | stopped
  deriving DecidableEq

/-- A threaded procedure and the arguments of its constructor. -/
abbrev Invocation := TpDefinition × List (List Byte)

structure Consumer where
  pc : Pc
  stillExecuting : Bool
  numCreatedTps : Nat
  myTpHeap : Word
  myLocalMemHeap : Word
  myDRAMMemHeap : Word
  mem : Memory
  /-- How many closures had been pushed when it last looked into the queue. -/
  seen : Nat
  created : List Invocation
  log : Nat → List (Event Nat (TaskOf Nat))

/-- Before the loop, whatever is in the memory. -/
def Consumer.start (mem : Memory) : Consumer where
  pc := .test
  stillExecuting := false
  numCreatedTps := 0
  myTpHeap := TP_HEAP_LOCATION
  myLocalMemHeap := LOCAL_MEM_LOCATION
  myDRAMMemHeap := EXTERNAL_MEM_LOCATION
  mem := mem
  seen := 0
  created := []
  log := fun _ => []

namespace Consumer

def note (i : Nat) (e : Event Nat (TaskOf Nat)) (c : Consumer) : Consumer :=
  { c with log := Function.update c.log i (c.log i ++ [e]) }

/-- Code of the threaded procedure `tp`, the `i`th, calls `syncSlotDecDep` on its slot `n`. -/
def signal (core : Word) (i : Nat) (tp : Word) (c : Consumer) (n : Nat) : Option Consumer :=
  (decDep core (getSyncSlot tp n) c.mem).map fun mem => note i (.signal n) { c with mem := mem }

def signalAll (core : Word) (i : Nat) (tp : Word) (ns : List Nat) (c : Consumer) : Option Consumer :=
  ns.foldlM (signal core i tp) c

def allocateLocal (base0_0Address actualTP : Word) (c : Consumer) : Consumer :=
  let m := metadataAt c.mem actualTP
  if m.sizeLocal ≠ 0 then
    { c with
      mem := storeMetadata c.mem actualTP { m with memLocal := c.myLocalMemHeap }
      myLocalMemHeap := base0_0Address + c.myLocalMemHeap + m.sizeLocal }
  else c

def allocateDRAM (actualTP : Word) (c : Consumer) : Consumer :=
  let m := metadataAt c.mem actualTP
  if m.sizeDRAM ≠ 0 then
    { c with
      mem := storeMetadata c.mem actualTP { m with memDRAM := c.myDRAMMemHeap }
      myDRAMMemHeap := c.myDRAMMemHeap + m.sizeDRAM }
  else c

end Consumer

variable (P : Program)

namespace Program

/-- `*actualTP = _metadataCtor(numCreatedTps)`, and the heap pointer's move. -/
def construct (D : TpDefinition) (newMetadata : TpMetadata) (c : Consumer) : Consumer :=
  let actualTP := c.myTpHeap
  let code := P.code D
  let mem := storeMetadata c.mem actualTP (genericMetadataCtro (BitVec.ofNat 32 c.numCreatedTps) code.numSyncSlots
    code.sizeDRAM code.sizeLocal code.sizeDist newMetadata)
  { c with
    mem := mem
    numCreatedTps := c.numCreatedTps + 1
    myTpHeap := actualTP + 40 + 40 * (metadataAt mem actualTP).numSyncSlots }

/-- The user's constructor of the `i`th threaded procedure. -/
def userInitCtor (core : Word) (i : Nat) (tp : Word) (x : Invocation) (c : Consumer) : Option Consumer :=
  let init := (P.code x.1).initialization x.2
  Consumer.signalAll core i tp init.startup
    { c with mem := assignSlots core tp 0 init.slots c.mem, created := c.created ++ [x] }

/-- From the closure in the queue's memory to the threaded procedure on the heap. -/
def createTp (core : Word) (newMetadata : TpMetadata) (closures : Memory) (currentTpClosure : Word) (c : Consumer) :
    Option Consumer :=
  (metadataCtor P.tps closures currentTpClosure).bind fun D =>
    (TpClosure.userInitCtorExec P.tps closures currentTpClosure).bind fun x =>
      P.userInitCtor core c.numCreatedTps c.myTpHeap x
        (Consumer.allocateDRAM c.myTpHeap (Consumer.allocateLocal P.base0_0Address c.myTpHeap (P.construct D newMetadata c)))

/-- The `k`th codelet of slot `j` is fired. -/
def fire (core : Word) (i : Nat) (tp : Word) (j : Nat) (codeletToExec : Codelet) (c : Consumer) (k : Nat) : Option Consumer :=
  Consumer.signalAll core i tp (P.codelets codeletToExec.fire) (c.note i (.fire (j, k)))

/-- A slot that waits for nothing fires all its codelets, and is reset. -/
def visit (core : Word) (i : Nat) (tp : Word) (j : Nat) (currentSyncSlot : Word) (c : Consumer) : Option Consumer :=
  let s := slotAt c.mem currentSyncSlot
  if s.currentDep = 0 then
    ((List.range s.numCodelets.toNat).foldlM (P.fire core i tp j s.codeletTemplate) c).bind fun c =>
      (resetDep core currentSyncSlot c.mem).map fun mem => { c with mem := mem, stillExecuting := true }
  else some c

/-- One step of a consumer; `newMetadata` is what is on its stack. -/
def consumerStep (core : Word) (newMetadata : TpMetadata) (finalSignal : Bool) (h : Hist) (c : Consumer) :
    Option (Hist × Consumer) :=
  match c.pc with
  | .test =>
    if finalSignal = false ∨ c.stillExecuting = true then some (h, { c with pc := .own, stillExecuting := false })
    else some (h, { c with pc := .stopped })
  | .own =>
    (histStep P.queue h (.own core)).map fun r => (r.2, { c with pc := if r.1.1 = .successOp then .look else .own })
  | .look =>
    some (h, { c with pc := if isTpClosureQueueEmpty h.q then .disown else .peek, seen := h.pushed.length })
  | .peek =>
    (histStep P.queue h (.peak core)).map fun r =>
      match r.1 with
      | (.successOp, some p) => (r.2, { c with pc := .create p })
      | _ => (r.2, { c with pc := .disown })
  | .create p => (P.createTp core newMetadata h.q.mem p c).map fun c => (h, { c with pc := .pop })
  | .pop => (histStep P.queue h (.pop core)).map fun r => (r.2, { c with pc := .disown })
  | .disown =>
    (histStep P.queue h (.disown core)).map fun r =>
      (r.2, { c with pc := if r.1.1 = .successOp then .tps 0 TP_HEAP_LOCATION else .disown })
  | .tps i currentTp =>
    some (h, { c with pc := if i < c.numCreatedTps then .slots i currentTp 0 (currentTp + 40) else .test })
  | .slots i currentTp j currentSyncSlot =>
    let n := (metadataAt c.mem currentTp).numSyncSlots
    if j < n.toNat then
      (P.visit core i currentTp j currentSyncSlot c).map fun c =>
        (h, { c with pc := .slots i currentTp (j + 1) (currentSyncSlot + 40) })
    else some (h, { c with pc := .tps (i + 1) (currentTp + 40 + 40 * n) })
  | .stopped => none

end Program

/-! ## The system -/

structure System where
  queue : Hist
  finalSignal : Bool
  consumer : Word → Consumer
  /-- The threaded procedures made, and by whom. -/
  created : List (Word × Invocation)

inductive Op where
  | consumer (core : Word) (newMetadata : TpMetadata)
  /-- Any core pushes a closure. -/
  | push (core : Word) (D : TpDefinition) (args : Args D.argTypes)
  | finish

namespace Program

def start (q : TpClosuresQueue) (mem : Word → Memory) : System where
  queue := started P.queue P.newSize q
  finalSignal := false
  consumer := fun core => .start (mem core)
  created := []

/-- `none`: the consumer has left the loop, or there is no such consumer or threaded procedure. -/
def step (s : System) : Op → Option (Unit × System)
  | .consumer core newMetadata =>
    if core ∈ P.consumers then
      (P.consumerStep core newMetadata s.finalSignal s.queue (s.consumer core)).map fun r =>
        ((), { s with
          queue := r.1
          consumer := Function.update s.consumer core r.2
          created := s.created ++ (r.2.created.drop (s.consumer core).created.length).map (core, ·) })
    else none
  | .push core D args =>
    if D ∈ P.tps then
      (histStep P.queue s.queue (.push core (closure D args))).map fun r => ((), { s with queue := r.2 })
    else none
  | .finish => some ((), { s with finalSignal := true })

/-- The step drains a queue whose tail stands at the end of the space. -/
def Drains (s : System) : Op → Prop
  | .consumer core _ => (s.consumer core).pc = .pop ∧ DrainsAtEnd P.queue s.queue.q
  | _ => False

instance (s : System) : ∀ op, Decidable (P.Drains s op)
  | .consumer core _ => inferInstanceAs (Decidable ((s.consumer core).pc = .pop ∧ DrainsAtEnd P.queue s.queue.q))
  | .push _ _ _ | .finish => isFalse id

/-- The states of the runs in which no pop drains the queue at the end of its space. -/
abbrev Reachable (s : System) : Prop :=
  Reach (fun s => ∃ q mem, s = P.start q mem) (fun s s' => ∃ op o, ¬ P.Drains s op ∧ P.step s op = some (o, s')) s

end Program

end EDarts.PseudoRuntime
