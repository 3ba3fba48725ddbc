/-
  EDarts.Runtime.Print — the print service: `e_darts_print` on the device
  (`e_darts_print.c`) and `printing_server` on the host (`darts_print_server.c`), over the
  structure they share.

  The device copies the message and then the raw bytes of its variadic arguments. The
  recorded conversion letters only tell it how many bytes: they are walked from the last
  one down, and the walk begins one past the last, at a byte of `argTypes` that the call
  never wrote. The host parses the copied message again, with a table of its own.

  The variadic area is contiguous: an `int`, an `unsigned` and a `char`, which is promoted
  to `int`, take 4 bytes of it, a `double` takes 8. `Format` is the messages in which each
  `%` is followed by a conversion letter.
-/

import EDarts.Lib.Stores
import EDarts.Multithreading.Mutex

namespace EDarts.Runtime.Print

open Lib

/-- A character as the target stores it. -/
def chr (c : Char) : Byte := BitVec.ofNat 8 c.toNat

def MAX_NUM_CHARACTERS : Nat := 200
def MAX_NUM_ARGUMENTS : Nat := 20
def ARGUMENTS_SIZE : Nat := 100

/-- The packed structure. Cells 0 to 199 of `body` are `printingBufferHead`, cells 200 to
    299 are `arguments`, and from 300 on stands what follows the structure. On the host
    the field `mutex` is `padding`. -/
structure PrintBuffer where
  sendPrintInstruction : Word
  mutex : Word
  body : Nat → Byte

/-- Where `arguments` begins in the body. -/
def ARGUMENTS : Nat := MAX_NUM_CHARACTERS

/-! ## The device -/

def TYPE_SELECTOR (letter : Byte) : Nat :=
  if letter = chr 'd' ∨ letter = chr 'i' ∨ letter = chr 'o' ∨ letter = chr 'u' ∨ letter = chr 'x' ∨ letter = chr 'X'
  then 4
  else if letter = chr 'c' ∨ letter = chr 'C' then 1
  else if letter = chr 'e' ∨ letter = chr 'E' ∨ letter = chr 'f' ∨ letter = chr 'F' ∨ letter = chr 'g' ∨
    letter = chr 'G' ∨ letter = chr 'a' ∨ letter = chr 'A' ∨ letter = chr 'n' ∨ letter = chr 'N' then 8
  else 0

/-- One call: the message without its 0, the memory from the first variadic argument on,
    and what `argTypes` and the bytes after it held before the call. -/
structure Call where
  message : List Byte
  argStart : Nat → Byte
  argTypes : Nat → Byte

/-- The stores to the body and the locals, after the loop over the message. -/
structure Copied where
  stores : List (Nat × Byte)
  charCount : Nat
  argCount : Nat
  argTypes : Nat → Byte

/-- The loop over the message, with the message from `charCount` on. -/
def copyMessage : List Byte → Nat → Nat → (Nat → Byte) → Copied
  | [], charCount, argCount, argTypes => ⟨[], charCount, argCount, argTypes⟩
  | c :: message, charCount, argCount, argTypes =>
    if c ≠ 0 ∧ charCount < MAX_NUM_CHARACTERS then
      let r :=
        if c = chr '%' ∧ argCount < MAX_NUM_ARGUMENTS then
          copyMessage message (charCount + 1) (argCount + 1) (Function.update argTypes argCount (message.headD 0))
        else copyMessage message (charCount + 1) argCount argTypes
      { r with stores := (charCount, c) :: r.stores }
    else ⟨[], charCount, argCount, argTypes⟩

/-- The 0 that ends the message; a message of 200 characters loses its last one. -/
def endMessage (charCount : Nat) : Nat × Byte :=
  if charCount = MAX_NUM_CHARACTERS then (charCount - 1, 0) else (charCount, 0)

/-- The stores for one letter; their number is what `charCount` grows by. -/
def copyArgument (letter : Byte) (argStart : Nat → Byte) (charCount : Nat) : List (Nat × Byte) :=
  if letter = chr 's' ∨ letter = chr 'S' then [(ARGUMENTS + charCount, 0)]
  else (List.range (TYPE_SELECTOR letter)).map fun i => (ARGUMENTS + (charCount + i), argStart (charCount + i))

/-- The loop over the letters. Its first argument is `argCount + 1`, since the body runs
    for `argCount = 0` as well. -/
def copyArguments (argTypes argStart : Nat → Byte) : Nat → Nat → List (Nat × Byte)
  | 0, _ => []
  | argCount + 1, charCount =>
    if charCount < ARGUMENTS_SIZE then
      let stores := copyArgument (argTypes argCount) argStart charCount
      stores ++ copyArguments argTypes argStart argCount (charCount + stores.length)
    else []

/-- What a call stores to the body, in order. -/
def Call.stores (call : Call) : List (Nat × Byte) :=
  let r := copyMessage call.message 0 0 call.argTypes
  r.stores ++ [endMessage r.charCount] ++ copyArguments r.argTypes call.argStart (r.argCount + 1) 0

/-- The call, by the holder of the mutex; `none`: it spins until the host lowers the flag. -/
def eDartsPrint (call : Call) (b : PrintBuffer) : Option PrintBuffer :=
  if b.sendPrintInstruction ≠ 0 then none
  else some { b with body := applyStores b.body call.stores, sendPrintInstruction := 1 }

/-! ## Values -/

inductive ArgType where
  | int
  | unsigned
  | char
  | double
  deriving DecidableEq

/-- `sizeof`. -/
def ArgType.size : ArgType → Nat
  | .int => 4
  | .unsigned => 4
  | .char => 1
  | .double => 8

structure Value where
  type : ArgType
  bits : BitVec (8 * type.size)
  deriving DecidableEq

/-- The bytes of the value's own type in memory. -/
def Value.bytes (endian : Endian) (v : Value) : List Byte := endian.toBytes v.type.size v.bits.toNat

/-- A load of type `t` from `p`. -/
def load (endian : Endian) (t : ArgType) (m : Nat → Byte) (p : Nat) : Value :=
  ⟨t, BitVec.ofNat _ (endian.ofBytes (cells m p t.size))⟩

/-- The bytes of a variadic argument; `signed` says what a plain `char` is. -/
def Value.promoted (endian : Endian) (signed : Bool) (v : Value) : List Byte :=
  if v.type = .char then
    endian.toBytes 4 (if signed then (v.bits.signExtend 32).toNat else v.bits.toNat)
  else v.bytes endian

/-- The memory from the first variadic argument on; `beyond` is what follows the last. -/
def variadic (endian : Endian) (signed : Bool) (args : List Value) (beyond : Nat → Byte) : Nat → Byte :=
  fun i => (args.flatMap (Value.promoted endian signed)).getD i (beyond i)

/-! ## The host -/

/-- The value read, if any, and `argument` afterwards. -/
def TRANSFORM_PARAMETER (endian : Endian) (letter : Byte) (m : Nat → Byte) (argument : Nat) : Option Value × Nat :=
  if letter = chr 'd' ∨ letter = chr 'i' then (some (load endian .int m argument), argument + 4)
  else if letter = chr 'o' ∨ letter = chr 'u' ∨ letter = chr 'x' ∨ letter = chr 'X' then
    (some (load endian .unsigned m argument), argument + 4)
  else if letter = chr 'e' ∨ letter = chr 'E' ∨ letter = chr 'f' ∨ letter = chr 'g' ∨ letter = chr 'G' ∨
    letter = chr 'a' ∨ letter = chr 'A' then (some (load endian .double m argument), argument + 8)
  else if letter = chr 'c' ∨ letter = chr 'C' then (some (load endian .char m argument), argument + 1)
  else (none, argument)

/-- A piece of `processedBuffer`: a copied character, or what `sprintf` makes of a letter
    and the value read for it. -/
inductive Piece where
  | text (c : Byte)
  | param (letter : Byte) (value : Option Value)
  deriving DecidableEq

/-- The loop over the message, at most `fuel` rounds of it; each one moves `charCount`. -/
def process (endian : Endian) (body : Nat → Byte) : Nat → Nat → Nat → List Piece
  | 0, _, _ => []
  | fuel + 1, charCount, argPointer =>
    if body charCount ≠ 0 ∧ charCount < MAX_NUM_CHARACTERS then
      if body charCount = chr '%' then
        let letter := body (charCount + 1)
        let r := TRANSFORM_PARAMETER endian letter body argPointer
        .param letter r.1 :: process endian body fuel (charCount + 2) r.2
      else .text (body charCount) :: process endian body fuel (charCount + 1) argPointer
    else []

/-- What the server prints for the copy `b` of the structure; `none`: nothing to print. -/
def printingServer (endian : Endian) (b : PrintBuffer) : Option (List Piece) :=
  if b.sendPrintInstruction = 1 then some (process endian b.body MAX_NUM_CHARACTERS 0 ARGUMENTS) else none

/-- What was read for each conversion. -/
def valuesRead (pieces : List Piece) : List (Option Value) :=
  pieces.filterMap fun
    | .text _ => none
    | .param _ value => some value

/-- `MAX_NUM_CHARACTERS` rounds are all of them. -/
theorem process_fuel (endian : Endian) (body : Nat → Byte) : ∀ (fuel charCount argPointer : Nat),
    MAX_NUM_CHARACTERS ≤ charCount + fuel →
    process endian body (fuel + 1) charCount argPointer = process endian body fuel charCount argPointer := by
  intro fuel
  induction fuel with
  | zero =>
    intro charCount argPointer h
    have hend : ¬ charCount < MAX_NUM_CHARACTERS := by omega
    simp only [process, hend, and_false, if_false]
  | succ fuel ih =>
    intro charCount argPointer h
    rw [process, ih (charCount + 1) _ (by omega)]
    simp only [ih (charCount + 2) _ (by omega)]
    rfl

/-! ## Well-formed messages -/

/-- The type that a caller passes for a conversion letter. -/
def argType (letter : Byte) : Option ArgType :=
  if letter ∈ ['d', 'i'].map chr then some .int
  else if letter ∈ ['o', 'u', 'x', 'X'].map chr then some .unsigned
  else if letter ∈ ['c', 'C'].map chr then some .char
  else if letter ∈ ['e', 'E', 'f', 'F', 'g', 'G', 'a', 'A'].map chr then some .double
  else none

/-- Each `%` of the message is followed by a conversion letter; `letters` are these. -/
inductive Format : List Byte → List Byte → Prop
  | nil : Format [] []
  | text {c : Byte} {message letters : List Byte} (h0 : c ≠ 0) (hc : c ≠ chr '%') (h : Format message letters) :
      Format (c :: message) letters
  | param {letter : Byte} {message letters : List Byte} {t : ArgType} (ht : argType letter = some t)
      (h : Format message letters) : Format (chr '%' :: letter :: message) (letter :: letters)

/-- The arguments have the types of the letters. -/
def Passed (letters : List Byte) (args : List Value) : Prop := args.map (fun v => some v.type) = letters.map argType

/-- The bytes of arguments of the letters' types. -/
def argBytes (letters : List Byte) : Nat := ((letters.filterMap argType).map ArgType.size).sum

end EDarts.Runtime.Print
