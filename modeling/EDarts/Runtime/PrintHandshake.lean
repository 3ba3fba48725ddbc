/-
  EDarts.Runtime.PrintHandshake — the print service's two sides, interleaved: any number
  of cores that call `e_darts_print`, and the host's `printing_server`.

  A call is taken step by step: the lock, the look at the flag that ends its spinning, each
  store of the message and the arguments, the raising of the flag, the unlock. The host's
  steps are the test of its loop, each field that `e_read` copies, the print, and each
  field that `e_write` copies back; both copy the whole structure in ascending address
  order. A field is one of the two words or one byte of the body.

  - The mutex, at an address with a core id, gives mutual exclusion: `holder` is who has it.
  - `calls` are the calls in the order in which they got the mutex, `printed` is what the
    host printed. `landed` is for the record too: the stores to the body since the host
    last lowered the flag.
-/

import EDarts.Runtime.Print
import EDarts.Lib.Runs
import Mathlib.Data.List.Forall2

namespace EDarts.Runtime.Print

open Lib

/-! ## The structure, field by field -/

/-- The two words and the 300 bytes of the body. -/
def FIELDS : Nat := 2 + MAX_NUM_CHARACTERS + ARGUMENTS_SIZE

/-- Field `i` of `dst` becomes that of `src`. -/
def copyField (src dst : PrintBuffer) : Nat → PrintBuffer
  | 0 => { dst with sendPrintInstruction := src.sendPrintInstruction }
  | 1 => { dst with mutex := src.mutex }
  | j + 2 => { dst with body := Function.update dst.body j (src.body j) }

/-- A print: the message, and the bytes of `arguments`. -/
structure Printed where
  message : List Byte
  arguments : List Byte
  deriving DecidableEq

/-- What the host prints from its copy. -/
def PrintBuffer.contents (b : PrintBuffer) : Printed :=
  ⟨(cells b.body 0 MAX_NUM_CHARACTERS).takeWhile (· ≠ 0), cells b.body ARGUMENTS ARGUMENTS_SIZE⟩

/-- What the host does to its copy once it is printed. -/
def PrintBuffer.clear (b : PrintBuffer) : PrintBuffer :=
  { b with sendPrintInstruction := 0, body := Function.update (Function.update b.body 0 0) ARGUMENTS 0 }

/-- The message of a call; a long one is truncated. -/
def Call.text (call : Call) : List Byte := (call.message.takeWhile (· ≠ 0)).take (MAX_NUM_CHARACTERS - 1)

/-- The argument bytes of a call. -/
def Call.argumentBytes (call : Call) : List Byte :=
  let r := copyMessage call.message 0 0 call.argTypes
  ((copyArguments r.argTypes call.argStart (r.argCount + 1) 0).map Prod.snd).take ARGUMENTS_SIZE

/-- The print has the call's message, and its argument bytes in front. -/
def Intact (call : Call) (p : Printed) : Prop := p.message = call.text ∧ call.argumentBytes <+: p.arguments

/-! ## The system -/

variable {Core : Type} [DecidableEq Core]

inductive DevicePc where
  | idle
  /-- In the mutex, looking at the flag. -/
  | spinning (call : Call)
  /-- `k` of the call's stores are made. -/
  | writing (call : Call) (k : Nat)
  | unlocking

inductive HostPc where
  | looping
  /-- `e_read`, or `e_write`, has copied the fields below `i`. -/
  | reading (i : Nat)
  | writing (i : Nat)
  | ended
  deriving DecidableEq

structure State (Core : Type) where
  buffer : PrintBuffer
  holder : Option Core
  cores : Core → DevicePc
  stillRunning : Bool
  myBuffer : PrintBuffer
  host : HostPc
  calls : List Call
  printed : List Printed
  landed : List (Nat × Byte)

def State.setCore (s : State Core) (c : Core) (pc : DevicePc) : State Core :=
  { s with cores := Function.update s.cores c pc }

/-- The next step of core `c`; `none`: it has none, or spins. -/
def deviceStep (c : Core) (s : State Core) : Option (State Core) :=
  match s.cores c with
  | .idle => none
  | .spinning call => if s.buffer.sendPrintInstruction ≠ 0 then none else some (s.setCore c (.writing call 0))
  | .writing call k =>
    match call.stores[k]? with
    | some x =>
      some ({ s with
        buffer := { s.buffer with body := Function.update s.buffer.body x.1 x.2 }
        landed := s.landed ++ [x] }.setCore c (.writing call (k + 1)))
    | none => some ({ s with buffer := { s.buffer with sendPrintInstruction := 1 } }.setCore c .unlocking)
  | .unlocking => some ({ s with holder := none }.setCore c .idle)

/-- The next step of the host. -/
def hostStep (s : State Core) : Option (State Core) :=
  match s.host with
  | .looping => some { s with host := if s.stillRunning then .reading 0 else .ended }
  | .reading i =>
    if i < FIELDS then some { s with myBuffer := copyField s.buffer s.myBuffer i, host := .reading (i + 1) }
    else if s.myBuffer.sendPrintInstruction = 1 then
      some { s with
        printed := s.printed ++ [s.myBuffer.contents]
        myBuffer := s.myBuffer.clear
        host := .writing 0 }
    else some { s with host := .looping }
  | .writing i =>
    if i < FIELDS then
      some { s with
        buffer := copyField s.myBuffer s.buffer i
        landed := if i = 0 then [] else s.landed
        host := .writing (i + 1) }
    else some { s with host := .looping }
  | .ended => none

inductive Action (Core : Type) where
  /-- Core `c` calls `e_darts_print` and gets the mutex. -/
  | call (c : Core) (call : Call)
  | device (c : Core)
  | host
  /-- `stop_printing_server`. -/
  | stop

def step (s : State Core) : Action Core → Option (Unit × State Core)
  | .call c call =>
    match s.cores c, s.holder with
    | .idle, none => some ((), { s with holder := some c, calls := s.calls ++ [call] }.setCore c (.spinning call))
    | _, _ => none
  | .device c => (deviceStep c s).map fun s' => ((), s')
  | .host => (hostStep s).map fun s' => ((), s')
  | .stop => some ((), { s with stillRunning := false })

/-- The server was started and nobody has called. -/
structure Start (s : State Core) : Prop where
  flag : s.buffer.sendPrintInstruction = 0
  holder : s.holder = none
  cores : ∀ c, s.cores c = .idle
  host : s.host = .looping
  calls : s.calls = []
  printed : s.printed = []
  landed : s.landed = []

/-- The prints are those of the first calls, in the order of the calls, and intact. -/
def Delivered (s : State Core) : Prop := List.Forall₂ Intact (s.calls.take s.printed.length) s.printed

/-- The host's next step is not a store of the write-back that changes a byte which a
    device has stored since the flag was lowered. -/
def KeepsLanded (s : State Core) : Action Core → Prop
  | .host =>
    match s.host with
    | .writing (j + 2) => j + 2 < FIELDS → j ∈ s.landed.map Prod.fst → s.myBuffer.body j = s.buffer.body j
    | _ => True
  | _ => True

instance (s : State Core) : ∀ a, Decidable (KeepsLanded s a)
  | .host =>
    match h : s.host with
    | .writing (j + 2) => decidable_of_iff (j + 2 < FIELDS → j ∈ s.landed.map Prod.fst → s.myBuffer.body j = s.buffer.body j)
        (by simp only [KeepsLanded, h])
    | .writing 0 => isTrue (by simp only [KeepsLanded, h])
    | .writing 1 => isTrue (by simp only [KeepsLanded, h])
    | .looping => isTrue (by simp only [KeepsLanded, h])
    | .reading _ => isTrue (by simp only [KeepsLanded, h])
    | .ended => isTrue (by simp only [KeepsLanded, h])
  | .call _ _ => isTrue trivial
  | .device _ => isTrue trivial
  | .stop => isTrue trivial

end EDarts.Runtime.Print
