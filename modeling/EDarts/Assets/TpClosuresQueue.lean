/-
  EDarts.Assets.TpClosuresQueue — the threaded-procedure closures queue
  (`tpClosuresQueue.c`): closures of different sizes, each in one piece, behind a
  24-byte header.

  The header's six words are fields; `mem` is the memory the pointers point into, the
  queue's space being `[queue + 24, queue + 24 + size)`. `queue` is the address the
  callers pass, `core` the id of the calling core. A call answers `none` when it spins
  on the mutex forever. The closure to push is given by its bytes; the copy takes
  `sizeof(genericTpClosure_t) + sizeOfArgs` of them, computed in 32 bits. The pops
  return with the mutex still taken when they find the queue empty, as in the source.
-/

import EDarts.CodeletModel

namespace EDarts.Assets

structure TpClosuresQueue where
  headAddress : Word
  tailAddress : Word
  padding : Word
  size : Word
  lockMutex : Word
  queueOwner : Word
  mem : Memory

namespace TpClosuresQueue

open Lib Multithreading

/-- The return codes `TPC_QUEUE_…`. -/
inductive Code where
  | successOp
  | invalidQueueAddress
  | notEnoughSpace
  | emptyQueue
  | notOwner
  deriving DecidableEq, Repr

/-- Behind the header: `queue + sizeof(tpClosuresQueue_t)`. -/
def initAddress (queue : Word) : Word := queue + 24

def mutexPtr (queue : Word) : Word := queue + 2 * 4 + 2 * 4

def calculateMaxFreeSpaceQueue (queue : Word) (q : TpClosuresQueue) : Word :=
  if q.headAddress ≤ q.tailAddress then
    let leftOfHead := q.headAddress - initAddress queue
    let rightOfTail := initAddress queue + q.size - q.tailAddress
    if leftOfHead ≤ rightOfTail then rightOfTail else leftOfHead
  else q.headAddress - q.tailAddress

def checkIfValidAddress (queue : Word) : Code := if queue >>> 20 = 0 then .invalidQueueAddress else .successOp

def isTpClosureQueueEmpty (q : TpClosuresQueue) : Bool := q.headAddress == q.tailAddress

def initTpClosuresQueue (queue newSize : Word) (q : TpClosuresQueue) : Code × TpClosuresQueue :=
  if checkIfValidAddress queue ≠ .successOp then (.invalidQueueAddress, q)
  else
    (.successOp, { q with
      headAddress := initAddress queue
      tailAddress := initAddress queue
      padding := 0
      size := newSize
      lockMutex := DARTS_MUTEX_NULL })

def lock (queue core : Word) (q : TpClosuresQueue) : Option TpClosuresQueue :=
  (dartsMutexLock (mutexPtr queue) core q.lockMutex).map fun r => { q with lockMutex := r.2 }

def unlock (queue : Word) (q : TpClosuresQueue) : TpClosuresQueue :=
  { q with lockMutex := (dartsMutexUnlock (mutexPtr queue) q.lockMutex).2 }

/-- `sizeof(genericTpClosure_t) + sizeOfArgs`. -/
def tpSize (sizeOfArgs : Word) : Word := 12 + sizeOfArgs

/-- The insertion, once there is space: at the tail, or behind a padding at the start. -/
def insert (queue : Word) (newTpClosure : GenericTpClosure) (q : TpClosuresQueue) : TpClosuresQueue :=
  let newTpSize := tpSize newTpClosure.sizeOfArgs
  let content := newTpClosure.bytes.take newTpSize.toNat
  if q.tailAddress ≤ q.headAddress then
    { q with mem := storeBytes q.mem q.tailAddress content, tailAddress := q.tailAddress + newTpSize }
  else
    let spaceAfterTail := initAddress queue + q.size - q.tailAddress
    if newTpSize ≤ spaceAfterTail then
      { q with mem := storeBytes q.mem q.tailAddress content, tailAddress := q.tailAddress + newTpSize }
    else
      { q with
        padding := spaceAfterTail
        mem := storeBytes q.mem (initAddress queue) content
        tailAddress := initAddress queue + newTpSize }

def pushTpClosureQueue (queue core : Word) (newTpClosure : GenericTpClosure) (q : TpClosuresQueue) :
    Option (Code × TpClosuresQueue) :=
  if checkIfValidAddress queue ≠ .successOp then some (.invalidQueueAddress, q)
  else
    (lock queue core q).map fun q =>
      if calculateMaxFreeSpaceQueue queue q ≤ tpSize newTpClosure.sizeOfArgs then (.notEnoughSpace, unlock queue q)
      else (.successOp, unlock queue (insert queue newTpClosure q))

def ownTpClosureQueue (queue core : Word) (q : TpClosuresQueue) : Option (Code × TpClosuresQueue) :=
  if checkIfValidAddress queue ≠ .successOp then some (.invalidQueueAddress, q)
  else
    (lock queue core q).map fun q =>
      if q.queueOwner ≠ 0 then (.notOwner, unlock queue q)
      else (.successOp, unlock queue { q with queueOwner := core })

def disownTpClosureQueue (queue core : Word) (q : TpClosuresQueue) : Code × TpClosuresQueue :=
  if checkIfValidAddress queue ≠ .successOp then (.invalidQueueAddress, q)
  else if q.queueOwner ≠ core then (.notOwner, q)
  else (.successOp, { q with queueOwner := 0 })

/-- The code, and what is stored through `topElementPointer` (`none`: nothing). -/
def peakTopElement (queue core : Word) (q : TpClosuresQueue) : Code × Option Word :=
  if checkIfValidAddress queue ≠ .successOp then (.invalidQueueAddress, none)
  else if q.queueOwner ≠ core then (.notOwner, some 0)
  else if isTpClosureQueueEmpty q then (.emptyQueue, some 0)
  else (.successOp, some q.headAddress)

/-- The `sizeOfArgs` field of the closure at `p`. -/
def sizeOfArgsAt (mem : Memory) (p : Word) : Word := wordOf (block mem (p + 8).toNat 4)

/-- The head moves behind the top element, or to the start when only the padding or the
    end is left there. -/
def passTop (queue : Word) (q : TpClosuresQueue) : TpClosuresQueue :=
  let topElementSize := tpSize (sizeOfArgsAt q.mem q.headAddress)
  let headAddress := q.headAddress + topElementSize
  if headAddress + q.padding = initAddress queue + q.size then
    { q with headAddress := initAddress queue, padding := 0 }
  else { q with headAddress := headAddress }

/-- A queue that got empty starts over. -/
def restart (queue : Word) (q : TpClosuresQueue) : TpClosuresQueue :=
  if q.headAddress = q.tailAddress then
    { q with headAddress := initAddress queue, tailAddress := initAddress queue, padding := 0 }
  else q

/-- The removal of the top element. -/
def removeTop (queue : Word) (q : TpClosuresQueue) : TpClosuresQueue := restart queue (passTop queue q)

/-- What the two pops share; `release` is the one's way to let go of the queue. -/
def popWith (release : TpClosuresQueue → TpClosuresQueue) (queue core : Word) (q : TpClosuresQueue) :
    Option (Code × TpClosuresQueue) :=
  if checkIfValidAddress queue ≠ .successOp then some (.invalidQueueAddress, q)
  else if q.queueOwner ≠ core then some (.notOwner, q)
  else
    (lock queue core q).map fun q =>
      -- no unlock on this path
      if isTpClosureQueueEmpty q then (.emptyQueue, q)
      else (.successOp, release (unlock queue (removeTop queue q)))

def popTopElementQueue (queue core : Word) (q : TpClosuresQueue) : Option (Code × TpClosuresQueue) :=
  popWith (fun q => q) queue core q

def popTopElementAndDisownQueue (queue core : Word) (q : TpClosuresQueue) : Option (Code × TpClosuresQueue) :=
  popWith (fun q => { q with queueOwner := 0 }) queue core q

/-! ## Calls -/

/-- A complete call by core `core`. -/
inductive Op where
  | push (core : Word) (newTpClosure : GenericTpClosure)
  | own (core : Word)
  | disown (core : Word)
  | peak (core : Word)
  | pop (core : Word)
  | popAndDisown (core : Word)

/-- What a call returns: its code, and what a peak stores through its pointer. -/
abbrev Out := Code × Option Word

def step (queue : Word) (q : TpClosuresQueue) : Op → Option (Out × TpClosuresQueue)
  | .push core c => (pushTpClosureQueue queue core c q).map fun r => ((r.1, none), r.2)
  | .own core => (ownTpClosureQueue queue core q).map fun r => ((r.1, none), r.2)
  | .disown core => some (((disownTpClosureQueue queue core q).1, none), (disownTpClosureQueue queue core q).2)
  | .peak core => some (peakTopElement queue core q, q)
  | .pop core => (popTopElementQueue queue core q).map fun r => ((r.1, none), r.2)
  | .popAndDisown core => (popTopElementAndDisownQueue queue core q).map fun r => ((r.1, none), r.2)

end TpClosuresQueue

end EDarts.Assets
