/-
  EDarts.Multithreading.Barrier — the barrier (`e_darts_barrier.c`) and its
  participants, interleaved.

  The `n` participants call `darts_barrier` again and again on one barrier of `n`
  threads. A call is taken step by step: the entry, which clears the caller's mailbox
  variable, the check of the mailbox, the lock, the branch on the counter, each turn of
  the two loops, each store of the critical section, the unlock, and the spinning.

  - The mutex gives mutual exclusion: `holder` is who has it. So the barrier is not at the
    offset 0 of a core's memory, where `darts_mutex_lock` refuses its lock.
  - A signal is a store of 1 to a mailbox that is on its way from when it is made until
    it is delivered; `flight` holds, for each address, the signals on their way to it.
    Each carries the number of the call that sent it, for the record only, like
    `stamp` (what the last signal delivered to an address carried) and `sent` (how many
    signals were sent to a participant's mailbox in its `k`-th call).
  - A mailbox variable is on its caller's stack: its full address is not a multiple of
    2^20, no other call under way has it, and it is neither in the barrier nor the
    mutex. `mem` are those variables.

  A step also says where it stores, if it stores (the caller's own clearing apart).
-/

import EDarts.Multithreading.Mutex
import EDarts.Lib.Runs

namespace EDarts.Multithreading.Barrier

open Lib

/-- `__MAX_NUM_THREADS_BARRIER`. -/
def MAX_NUM_THREADS_BARRIER : Nat := 16

/-- `darts_barrier_t`, the mutex apart. -/
structure DartsBarrier where
  lockFullAddressPtr : Word
  counter : Nat
  numThreads : Nat
  mailboxes : Nat → Word

/-- Run on core `coreID` for the barrier at `newBarrier`, whose first field is the lock. -/
def darts_barrier_init (coreID newBarrier : Word) (numThreads : Nat) (b : DartsBarrier) : DartsBarrier :=
  { lockFullAddressPtr := (coreID <<< 20) + (newBarrier &&& 0x000FFFFF)
    counter := 0
    numThreads := numThreads
    mailboxes := fun i => if i < numThreads then 0 else b.mailboxes i }

inductive Pc where
  /-- Outside of the barrier. -/
  | idle
  | checking
  | acquiring
  | deciding
  /-- The first one, in its loop over the mailboxes. -/
  | clearing (i : Nat)
  | registering
  | counting
  | unlocking
  | spinning
  /-- The last one, in its loop over the mailboxes. -/
  | signalling (i : Nat)
  | resetting
  | unlockingLast
  deriving DecidableEq, Repr

/-- A participant: where it is, the address of its mailbox variable, and how many calls
    it has entered and returned from. -/
structure Participant where
  pc : Pc
  mailbox : Word
  entered : Nat
  returned : Nat
  deriving DecidableEq, Repr

def Participant.leave (me : Participant) : Participant := { me with pc := .idle, returned := me.returned + 1 }

variable {n : Nat}

structure State (n : Nat) where
  barrier : DartsBarrier
  holder : Option (Fin n)
  parts : Fin n → Participant
  mem : Word → Word
  flight : Word → List Nat
  stamp : Word → Nat
  sent : Fin n → Nat → Nat

namespace State

def set (s : State n) (p : Fin n) (me : Participant) : State n :=
  { s with parts := fun q => if q = p then me else s.parts q }

/-- `*toSignal = 1`, by a call numbered `episode`. -/
def signal (s : State n) (toSignal : Word) (episode : Nat) : State n :=
  { s with
    flight := fun a => if a = toSignal then s.flight a ++ [episode] else s.flight a
    sent := fun q k =>
      if (s.parts q).pc ≠ .idle ∧ (s.parts q).mailbox = toSignal ∧ (s.parts q).entered = k then s.sent q k + 1
      else s.sent q k }

end State

/-- The addresses of the barrier's 20 words. -/
def fieldAddress (barrier : Word) (i : Nat) : Word := barrier + BitVec.ofNat 32 (4 * i)

def counterField : Nat := 2

def mailboxField (i : Nat) : Nat := 4 + i

/-- The next step of participant `p`, and where it stores; `none`: it has none, or spins. -/
def move (barrier : Word) (p : Fin n) (s : State n) : Option (Option Word × State n) :=
  let me := s.parts p
  let b := s.barrier
  match me.pc with
  | .idle => none
  | .checking =>
    -- returns 1
    if s.mem me.mailbox ≠ 0 ∨ me.mailbox &&& 0x000FFFFF = 0 then some (none, s.set p me.leave)
    else some (none, s.set p { me with pc := .acquiring })
  | .acquiring =>
    if s.holder = none then
      some (some b.lockFullAddressPtr, { s with holder := some p }.set p { me with pc := .deciding })
    else none
  | .deciding =>
    if b.counter = 0 then some (none, s.set p { me with pc := .clearing 0 })
    else if b.counter = b.numThreads - 1 then some (none, s.set p { me with pc := .signalling 0 })
    else some (none, s.set p { me with pc := .registering })
  | .clearing i =>
    if i < b.numThreads then
      let b := { b with mailboxes := fun j => if j = i then 0 else b.mailboxes j }
      some (some (fieldAddress barrier (mailboxField i)), { s with barrier := b }.set p { me with pc := .clearing (i + 1) })
    else some (none, s.set p { me with pc := .registering })
  | .registering =>
    let b' := { b with mailboxes := fun j => if j = b.counter then me.mailbox else b.mailboxes j }
    some (some (fieldAddress barrier (mailboxField b.counter)), { s with barrier := b' }.set p { me with pc := .counting })
  | .counting =>
    let b' := { b with counter := b.counter + 1 }
    some (some (fieldAddress barrier counterField), { s with barrier := b' }.set p { me with pc := .unlocking })
  | .unlocking => some (some b.lockFullAddressPtr, { s with holder := none }.set p { me with pc := .spinning })
  | .spinning => if s.mem me.mailbox = 0 then none else some (none, s.set p me.leave)
  | .signalling i =>
    if i < b.numThreads then
      let toSignal := b.mailboxes i
      some (some toSignal, (s.signal toSignal me.entered).set p { me with pc := .signalling (i + 1) })
    else some (none, s.set p { me with pc := .resetting })
  | .resetting =>
    let b' := { b with counter := 0 }
    some (some (fieldAddress barrier counterField), { s with barrier := b' }.set p { me with pc := .unlockingLast })
  | .unlockingLast => some (some b.lockFullAddressPtr, { s with holder := none }.set p me.leave)

/-- A mailbox variable at `a` for a new call. -/
def Fresh (barrier : Word) (s : State n) (a : Word) : Prop :=
  a &&& 0x000FFFFF ≠ 0 ∧ (∀ q, (s.parts q).pc ≠ .idle → (s.parts q).mailbox ≠ a) ∧
    a ≠ s.barrier.lockFullAddressPtr ∧ ∀ i < 20, a ≠ fieldAddress barrier i

instance (barrier : Word) (s : State n) (a : Word) : Decidable (Fresh barrier s a) := inferInstanceAs (Decidable (_ ∧ _))

inductive Action (n : Nat) where
  /-- Participant `p` calls `darts_barrier`, with its mailbox variable at `a`. -/
  | enter (p : Fin n) (a : Word)
  | move (p : Fin n)
  /-- A signal of call `episode` arrives at `a`. -/
  | deliver (a : Word) (episode : Nat)

def step (barrier : Word) (s : State n) : Action n → Option (Option Word × State n)
  | .enter p a =>
    let me := s.parts p
    if me.pc = .idle ∧ Fresh barrier s a then
      some (none, { s with mem := fun x => if x = a then 0 else s.mem x }.set p
        { me with pc := .checking, mailbox := a, entered := me.entered + 1 })
    else none
  | .move p => move barrier p s
  | .deliver a episode =>
    if episode ∈ s.flight a then
      some (none, { s with
        flight := fun x => if x = a then (s.flight a).erase episode else s.flight x
        mem := fun x => if x = a then 1 else s.mem x
        stamp := fun x => if x = a then episode else s.stamp x })
    else none

/-- A barrier of `n` threads at `barrier`, a place of 80 bytes that the null address is
    not in, set up on core `coreID`; nobody has called it yet. -/
structure Start (coreID barrier : Word) (s : State n) : Prop where
  size : 0 < n ∧ n ≤ MAX_NUM_THREADS_BARRIER
  place : 0 < barrier.toNat ∧ barrier.toNat + 80 ≤ 2 ^ 32
  /-- The lock refuses the offset 0, and then keeps nobody out. -/
  offset : barrier &&& 0x000FFFFF ≠ 0
  init : ∃ b, s.barrier = darts_barrier_init coreID barrier n b
  holder : s.holder = none
  parts : ∀ p, (s.parts p).pc = .idle ∧ (s.parts p).entered = 0 ∧ (s.parts p).returned = 0
  flight : ∀ a, s.flight a = []
  sent : ∀ p k, s.sent p k = 0

def Next (barrier : Word) (s s' : State n) : Prop := ∃ a o, step barrier s a = some (o, s')

abbrev Reachable (coreID barrier : Word) : State n → Prop := Reach (Start coreID barrier) (Next barrier)

end EDarts.Multithreading.Barrier
