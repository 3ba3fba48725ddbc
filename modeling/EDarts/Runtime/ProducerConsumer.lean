/-
  EDarts.Runtime.ProducerConsumer — a producer and a consumer on one codelets queue
  (`e_codQueue.c`, `e_producer` and `e_consumer`).

  The consumer clears the sum, makes the queue and sets the start signal, which the producer waits
  for. The producer pushes its codelets, each until its push succeeds, and sets the done signal.
  The consumer pops and fires until that signal is set and the queue looks empty, and then
  sets the signal to 2: the host reads the sum.

  A step is one call on the queue or one access to a signal. The host has written 0 to both
  signals. The codelets' other fields are never initialised: a push takes them as they are on
  the stack. The consumer only asks `queueEmpty`, which takes no mutex, once the done signal is
  set. Every codelet is `sum`, which adds one to the consumer's own sum.

  `pushed` and `fired` keep the codelets of the pushes that succeeded and those fired; `fills`
  counts the pushes that filled the ring (`FillsRing`).
-/

import EDarts.Assets.CodeletsQueueFills

namespace EDarts.ProducerConsumer

open Lib Assets CodeletsQueue

structure Program where
  codeletQueue : Word
  newSize : Word
  space : Space codeletQueue newSize.toNat
  producerCore : Word
  consumerCore : Word
  /-- The address of `sum` in the producer's memory. -/
  sumPtr : Word
  /-- How many codelets the producer pushes. -/
  numCodelets : Nat

inductive Producer where
  /-- At `while (*startSig == 0)`. -/
  | start
  | push (i : Nat)
  | stopped

inductive Consumer where
  | clear
  | init
  | ready
  /-- At the loop's test of `*doneSig == 0`. -/
  | test
  /-- At its test of `!queueEmpty(codeletQueue)`. -/
  | empty
  | pop
  | fire (codelet : Codelet)
  | finish
  | stopped
  deriving DecidableEq

structure System where
  startSig : Word
  doneSig : Word
  sumResult : Word
  queue : CodeletsQueue
  producer : Producer
  consumer : Consumer
  pushed : List Codelet
  fired : List Codelet
  fills : Nat

inductive Op where
  /-- The fields are what is on the producer's stack. -/
  | producer (codeletID syncSlot : Word)
  | consumer

inductive Party where
  | producer
  | consumer
  deriving DecidableEq

def Op.party : Op → Party
  | .producer _ _ => .producer
  | .consumer => .consumer

namespace Program

variable (P : Program)

def start (sumResult : Word) (queue : CodeletsQueue) : System where
  startSig := 0
  doneSig := 0
  sumResult := sumResult
  queue := queue
  producer := .start
  consumer := .clear
  pushed := []
  fired := []
  fills := 0

/-- The push of the loop's round `i`. -/
def produce (s : System) (i : Nat) (codelet : Codelet) : Option System :=
  (pushCodeletQueue P.codeletQueue P.producerCore codelet s.queue).map fun r =>
    if r.1 = .successOp then
      { s with
        queue := r.2
        producer := .push (i + 1)
        pushed := s.pushed ++ [codelet]
        fills := if FillsRing s.queue (.push P.producerCore codelet) then s.fills + 1 else s.fills }
    else { s with queue := r.2 }

/-- A core that has returned stays as it is; `none` would be a jump to an address that is not
    `sum`'s, or a mutex that is never free. -/
def step (s : System) : Op → Option (Unit × System)
  | .producer codeletID syncSlot =>
    match s.producer with
    | .start => some ((), if s.startSig = 0 then s else { s with producer := .push 0 })
    | .push i =>
      if i < P.numCodelets then (P.produce s i ⟨codeletID, syncSlot, P.sumPtr⟩).map ((), ·)
      else some ((), { s with doneSig := 1, producer := .stopped })
    | .stopped => some ((), s)
  | .consumer =>
    match s.consumer with
    | .clear => some ((), { s with sumResult := 0, consumer := .init })
    | .init => some ((), { s with queue := (initCodeletsQueue P.codeletQueue P.newSize s.queue).2, consumer := .ready })
    | .ready => some ((), { s with startSig := 1, consumer := .test })
    | .test => some ((), { s with consumer := if s.doneSig = 0 then .pop else .empty })
    | .empty => some ((), { s with consumer := if queueEmpty s.queue then .finish else .pop })
    | .pop =>
      (popCodeletQueue P.codeletQueue P.consumerCore s.queue).map fun r =>
        match r.1 with
        | (.successOp, some codelet) => ((), { s with queue := r.2, consumer := .fire codelet })
        | _ => ((), { s with queue := r.2, consumer := .test })
    | .fire codelet =>
      if codelet.fire = P.sumPtr then
        some ((), { s with sumResult := s.sumResult + 1, consumer := .test, fired := s.fired ++ [codelet] })
      else none
    | .finish => some ((), { s with doneSig := 2, consumer := .stopped })
    | .stopped => some ((), s)

/-- The states of the runs, whatever was in the memory. -/
abbrev Reachable (s : System) : Prop :=
  Reach (fun s => ∃ sumResult queue, s = start sumResult queue) (fun s s' => ∃ op o, P.step s op = some (o, s')) s

end Program

end EDarts.ProducerConsumer
