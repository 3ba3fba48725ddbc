/-
  EDarts.Assets.CodeletsQueue — the codelets queue (`codeletsQueue.c`), a byte ring of
  12-byte codelets behind a 16-byte header.

  The header's four words are fields; `mem` is the memory the pointers point into, the
  queue's space being `[queue + 16, queue + 16 + size)`. `queue` is the address the
  callers pass, `core` the id of the calling core (what the mutex is taken with). A call
  answers `none` when it spins on the mutex forever. `popCodeletQueue` also returns what
  it stores through `popedCodelet`, `none` where the source leaves that alone (its
  `popedCodelet = 0` only clears the parameter).
-/

import EDarts.CodeletModel

namespace EDarts.Assets

structure CodeletsQueue where
  headAddress : Word
  tailAddress : Word
  size : Word
  lockMutex : Word
  mem : Memory

namespace CodeletsQueue

open Lib Multithreading

/-- The return codes `CODELET_QUEUE_…`. -/
inductive Code where
  | successOp
  | invalidQueueAddress
  | notEnoughSpace
  | emptyQueue
  deriving DecidableEq, Repr

/-- `IS_ADDRESS_VALID`: the pointer has a core id. -/
def isAddressValid (queue : Word) : Bool := !(queue >>> 20 == 0)

/-- `GET_MUTEX_PTR`. -/
def mutexPtr (queue : Word) : Word := queue + 2 * 4 + 4

/-- `GET_QUEUE_AVAILABLE_SPACE`. -/
def availableSpace (q : CodeletsQueue) : Word :=
  if q.headAddress ≤ q.tailAddress then q.size - (q.tailAddress - q.headAddress)
  else q.headAddress - q.tailAddress - 1

/-- Behind the header: `queue + sizeof(codeletsQueue_t)`. -/
def initAddress (queue : Word) : Word := queue + 16

def endAddress (queue : Word) (q : CodeletsQueue) : Word := initAddress queue + q.size

def lock (queue core : Word) (q : CodeletsQueue) : Option CodeletsQueue :=
  (dartsMutexLock (mutexPtr queue) core q.lockMutex).map fun r => { q with lockMutex := r.2 }

def unlock (queue : Word) (q : CodeletsQueue) : CodeletsQueue :=
  { q with lockMutex := (dartsMutexUnlock (mutexPtr queue) q.lockMutex).2 }

def initCodeletsQueue (queue newSize : Word) (q : CodeletsQueue) : Code × CodeletsQueue :=
  if !isAddressValid queue then (.invalidQueueAddress, q)
  else
    (.successOp, { q with
      headAddress := initAddress queue
      tailAddress := initAddress queue
      size := newSize
      lockMutex := DARTS_MUTEX_NULL })

/-- The split insertion's loop: the memory and the tail behind the last byte. -/
def splitInsert (initAddress endAddress : Word) : Memory → Word → List Byte → Memory × Word
  | mem, tail, [] => (mem, tail)
  | mem, tail, b :: codelet =>
    let mem := store mem tail b
    let tail := tail + 1
    splitInsert initAddress endAddress mem (if tail = endAddress then initAddress else tail) codelet

/-- The split removal's loop: the `n` bytes read and the head behind them. -/
def splitRemove (initAddress endAddress : Word) (mem : Memory) : Nat → Word → List Byte × Word
  | 0, head => ([], head)
  | n + 1, head =>
    let b := mem head
    let head := head + 1
    let r := splitRemove initAddress endAddress mem n (if head = endAddress then initAddress else head)
    (b :: r.1, r.2)

/-- The insertion, once there is space. -/
def insert (queue : Word) (newCodelet : Codelet) (q : CodeletsQueue) : CodeletsQueue :=
  if q.tailAddress + 12 < endAddress queue q then
    { q with mem := storeBytes q.mem q.tailAddress newCodelet.bytes, tailAddress := q.tailAddress + 12 }
  else
    let r := splitInsert (initAddress queue) (endAddress queue q) q.mem q.tailAddress newCodelet.bytes
    { q with mem := r.1, tailAddress := r.2 }

/-- The removal from a queue that is not empty. -/
def remove (queue : Word) (q : CodeletsQueue) : Codelet × CodeletsQueue :=
  if q.headAddress + 12 < endAddress queue q then
    (Codelet.ofBytes (block q.mem q.headAddress.toNat 12), { q with headAddress := q.headAddress + 12 })
  else
    let r := splitRemove (initAddress queue) (endAddress queue q) q.mem 12 q.headAddress
    (Codelet.ofBytes r.1, { q with headAddress := r.2 })

def pushCodeletQueue (queue core : Word) (newCodelet : Codelet) (q : CodeletsQueue) : Option (Code × CodeletsQueue) :=
  if !isAddressValid queue then some (.invalidQueueAddress, q)
  else
    (lock queue core q).map fun q =>
      if availableSpace q < 12 then (.notEnoughSpace, unlock queue q)
      else (.successOp, unlock queue (insert queue newCodelet q))

def popCodeletQueue (queue core : Word) (q : CodeletsQueue) : Option ((Code × Option Codelet) × CodeletsQueue) :=
  if !isAddressValid queue then some ((.invalidQueueAddress, none), q)
  else
    (lock queue core q).map fun q =>
      if availableSpace q = q.size then ((.emptyQueue, none), unlock queue q)
      else
        let r := remove queue q
        ((.successOp, some r.1), unlock queue r.2)

def queueEmpty (q : CodeletsQueue) : Bool := availableSpace q == q.size

/-! ## Calls -/

/-- A complete call by core `core`. -/
inductive Op where
  | push (core : Word) (newCodelet : Codelet)
  | pop (core : Word)

/-- What a call returns: its code, and the codelet stored through `popedCodelet`. -/
abbrev Out := Code × Option Codelet

def step (queue : Word) (q : CodeletsQueue) : Op → Option (Out × CodeletsQueue)
  | .push core c => (pushCodeletQueue queue core c q).map fun r => ((r.1, none), r.2)
  | .pop core => popCodeletQueue queue core q

end CodeletsQueue

end EDarts.Assets
