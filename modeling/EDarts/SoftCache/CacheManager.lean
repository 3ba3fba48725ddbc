/-
  EDarts.SoftCache.CacheManager — the cache manager (`cachemanager.S`), which copies
  functions from the external memory to a core's own memory when they are called.

  Every call goes to the function's entry of the procedure linkage table (PLT): a `bl`,
  and behind it the function's address and size. The `bl` goes to `cacheman`, which loads
  the function and makes the entry go to `countedcall`; that counts the calls that have not
  returned. A function without such calls can be unloaded, and its entry goes to `cacheman`
  again. The table of the loaded functions has 20 rows: row 0 is fixed, then come the rows
  of the functions by address, then free rows, whose addresses are the end of the space.

  A row is four words; `space` and `dram` are words by their address. Sizes, and addresses in
  the core's own memory, are numbers below 2^31, where the code's signed comparisons are those
  of numbers; those of the external memory are above it, and are only compared with each other,
  within one function. A count is a number too: fewer than 2^32 calls are open. The manager's
  own stack and what the core knows of the calls that have not returned are one list,
  innermost first: `lr` and the entry (both on the manager's stack), where the call returns
  to, and where the function runs. The manager's stack has no bound in the code, and none
  here. A step answers `none` when a loop over the table runs past its end.
-/

import EDarts.Lib.Runs
import EDarts.Multithreading.Mutex
import Mathlib.Logic.Function.Basic

namespace EDarts.SoftCache

def CACHE_TABLE_SIZE : Nat := 20
def CACHE_TABLE_ENTRY_WIDTH : Nat := 16

structure Row where
  startAddress : Nat
  endAddress : Nat
  referenceCount : Nat
  plt : Nat
  deriving DecidableEq, Repr

/-- What the linker laid out for the functions `ι`. -/
structure Image (ι : Type) where
  cacheman : Nat
  countedcall : Nat
  cachespacebot : Nat
  cachespacetop : Nat
  /-- The address behind the `bl` of a function's entry, which is `lr` in the manager. -/
  plt : ι → Nat
  /-- The two words at that address. -/
  startaddr : ι → Nat
  size : ι → Nat
  dram : Nat → Word
  plt_injective : Function.Injective plt
  plt_even : ∀ f, 2 ∣ plt f
  plt_low : ∀ f, 4 ≤ plt f ∧ plt f < cachespacebot
  cacheman_even : 2 ∣ cacheman
  countedcall_even : 2 ∣ countedcall
  manager_low : cacheman < countedcall ∧ countedcall < cachespacebot
  bot_aligned : 4 ∣ cachespacebot
  top_aligned : 4 ∣ cachespacetop
  space : cachespacebot + CACHE_TABLE_SIZE * CACHE_TABLE_ENTRY_WIDTH ≤ cachespacetop
  top_local : cachespacetop ≤ 2 ^ 20
  size_pos : ∀ f, 0 < size f
  size_lt : ∀ f, size f < 2 ^ 31

/-- Where a call returns to: into `cacheman`, `.cachefail` or `countedcall`. -/
inductive Return where
  | loaded
  | failed
  | counted
  deriving DecidableEq, Repr

structure Call where
  lr : Nat
  plt : Nat
  ret : Return
  /-- Where the function runs: in the external memory if the call failed to load it. -/
  address : Nat
  deriving DecidableEq, Repr

structure State where
  table : List Row
  /-- The words of the PLT by their address. -/
  branch : Nat → Word
  space : Nat → Word
  calls : List Call

/-! ## Branches -/

/-- The `bl` that `.editplt` and `.unloadsortend` write: the distance in halfwords above
    the opcode. -/
def blTo (site target : Nat) : Word := ((BitVec.ofNat 32 target - BitVec.ofNat 32 site) >>> 1 <<< 8) ||| 0xf8

/-- Where the core goes for a word at `site`; `none`: it is no `bl`. -/
def blTarget (site : Nat) (word : Word) : Option Nat :=
  if word &&& 0xff = 0xf8 then some (BitVec.ofNat 32 site + word.sshiftRight 8 <<< 1).toNat else none

namespace Image

variable {ι : Type} (P : Image ι)

/-- Where the functions' space begins: `CACHE_TABLE_HIGH`, `CACHE_SPACE_LOW`. -/
def spaceLow : Nat := P.cachespacebot + CACHE_TABLE_SIZE * CACHE_TABLE_ENTRY_WIDTH

/-- Row 0, as `.cachedata` has it. -/
def firstRow : Row := ⟨P.spaceLow, P.spaceLow, 0, P.spaceLow⟩

def freeRow : Row := ⟨P.cachespacetop, P.cachespacetop, 0, P.cachespacetop⟩

/-- What `.copyloop` copies of a function: its words, the last one maybe in part. -/
def words (f : ι) : Nat := (P.size f + 3) / 4

/-! ## Loading -/

/-- `.checkloop`: the end of the first row with a gap of `size` behind it. -/
def checkLoop (size : Nat) : Row → List Row → Option Nat
  | _, [] => none
  | row1, row2 :: rows =>
    if row1.endAddress + size ≤ row2.startAddress then some row1.endAddress else checkLoop size row2 rows

/-- `.copyloop`: `n` words. -/
def copyLoop (dram : Nat → Word) : Nat → Nat → Nat → (Nat → Word) → (Nat → Word)
  | 0, _, _, space => space
  | n + 1, src, dest, space => copyLoop dram n (src + 4) (dest + 4) (Function.update space dest (dram src))

/-- `.copysortloop`, with the rows above the new one, nearest first, and those below it. -/
def copySortLoop (new : Row) : List Row → List Row → List Row
  | [], below => new :: below
  | row1 :: above, below =>
    if row1.startAddress ≤ new.startAddress then (row1 :: above).reverse ++ new :: below
    else copySortLoop new above (row1 :: below)

/-- The new row takes the place of the last one and is sorted in. -/
def addRow (table : List Row) (new : Row) : List Row := copySortLoop new table.dropLast.reverse []

/-- From `.cachebegin` on: where the function is copied to. `none`: `.endoftable`. -/
def load (f : ι) (s : State) : Option (Nat × State) :=
  match s.table with
  | [] => none
  | row :: rows =>
    -- a free row is needed at the end
    if ((row :: rows).getLast?.map Row.startAddress) ≠ some P.cachespacetop then none
    else
      (checkLoop (P.size f) row rows).map fun dest =>
        (dest, { s with
          space := copyLoop P.dram (P.words f) (P.startaddr f) dest s.space
          table := addRow s.table ⟨dest, dest + 4 * P.words f, 1, P.plt f⟩
          branch := Function.update s.branch (P.plt f - 4) (blTo (P.plt f - 4) P.countedcall) })

/-! ## Unloading -/

/-- `.unloadsort`: one pass over the rows behind `row`. -/
def unloadSort (row : Row) : List Row → List Row
  | [] => [row]
  | next :: rows => if row.startAddress < next.startAddress then row :: unloadSort next rows else next :: unloadSort row rows

/-- `.unloadsortend`: the last row gets a free row's entry field; returns the old one. -/
def clearPlt : List Row → Nat × List Row
  | [] => (0, [])
  | [row] => (row.plt, [{ row with plt := P.cachespacetop }])
  | row :: rows => let r := clearPlt rows; (r.1, row :: r.2)

/-- `.unloadloop`, from a row on, at most `fuel` rounds. `none`: it runs past the table. -/
def unloadLoop : Nat → List Row → (Nat → Word) → Option (List Row × (Nat → Word))
  | 0, _, _ => none
  | _ + 1, [], _ => none
  | fuel + 1, row :: rows, branch =>
    if P.cachespacetop ≤ row.startAddress then some (row :: rows, branch)
    else if row.referenceCount ≠ 0 then (unloadLoop fuel rows branch).map fun r => (row :: r.1, r.2)
    else
      let rows := unloadSort { row with startAddress := P.cachespacetop, endAddress := P.cachespacetop } rows
      let r := P.clearPlt rows
      -- `.unloadnextentry`: the same row again
      unloadLoop fuel r.2 (Function.update branch (r.1 - 4) (blTo (r.1 - 4) P.cacheman))

def unload (s : State) : Option State :=
  match s.table with
  | [] => none
  | row :: rows =>
    (P.unloadLoop CACHE_TABLE_SIZE rows s.branch).map fun r => { s with table := row :: r.1, branch := r.2 }

/-! ## Calls and returns -/

/-- The loops that scan for an entry, and change the row's count: the row found. -/
def scanLoop (plt : Nat) (count : Nat → Nat) : List Row → Option (Row × List Row)
  | [] => none
  | row :: rows =>
    if row.plt = plt then some (row, { row with referenceCount := count row.referenceCount } :: rows)
    else (scanLoop plt count rows).map fun r => (r.1, row :: r.2)

/-- They begin at row 1. -/
def scan (plt : Nat) (count : Nat → Nat) (s : State) : Option (Row × State) :=
  match s.table with
  | [] => none
  | row :: rows => (scanLoop plt count rows).map fun r => (r.1, { s with table := row :: r.2 })

def enter (f : ι) (lr : Nat) (ret : Return) (address : Nat) (s : State) : State :=
  { s with calls := ⟨lr, P.plt f, ret, address⟩ :: s.calls }

def cachemanCall (f : ι) (lr : Nat) (s : State) : Option State :=
  match P.load f s with
  | some (dest, s) => some (P.enter f lr .loaded dest s)
  | none =>
    match P.unload s with
    | none => none
    | some s =>
      match P.load f s with
      | some (dest, s) => some (P.enter f lr .loaded dest s)
      | none => some (P.enter f lr .failed (P.startaddr f) s)

def countedCall (f : ι) (lr : Nat) (s : State) : Option State :=
  (scan (P.plt f) (· + 1) s).map fun r => P.enter f lr .counted r.1.startAddress r.2

/-- A call of `f` that returns to `lr`: where it goes stands in the entry. -/
def call (f : ι) (lr : Nat) (s : State) : Option State :=
  let target := blTarget (P.plt f - 4) (s.branch (P.plt f - 4))
  if target = some P.cacheman then P.cachemanCall f lr s
  else if target = some P.countedcall then P.countedCall f lr s
  else none

/-- The running function returns: to where the manager returns then. -/
def ret (s : State) : Option (Nat × State) :=
  match s.calls with
  | [] => none
  | c :: calls =>
    let s := { s with calls := calls }
    match c.ret with
    | .failed => some (c.lr, s)
    | .loaded | .counted => (scan c.plt (· - 1) s).map fun r => (c.lr, r.2)

/-! ## The machine -/

/-- A function is called, or the running one returns. -/
inductive Op (ι : Type) where
  | call (f : ι) (lr : Nat)
  | ret

/-- The words of the function, where the call enters it; the address behind the call. -/
inductive Out where
  | entered (code : List Word)
  | returned (lr : Nat)
  deriving DecidableEq, Repr

/-- `n` words from an address on. -/
def wordsAt (m : Nat → Word) (address n : Nat) : List Word := (List.range n).map fun k => m (address + 4 * k)

/-- The memory that a call runs in. -/
def memory (s : State) (c : Call) : Nat → Word := if c.ret = .failed then P.dram else s.space

def entered (f : ι) (s : State) : List Word :=
  match s.calls with
  | [] => []
  | c :: _ => wordsAt (P.memory s c) c.address (P.words f)

def step (s : State) : Op ι → Option (Out × State)
  | .call f lr => (P.call f lr s).map fun s => (.entered (P.entered f s), s)
  | .ret => (ret s).map fun r => (.returned r.1, r.2)

/-- As loaded: nothing is cached, every entry goes to `cacheman`. -/
structure Fresh (s : State) : Prop where
  table : s.table = P.firstRow :: List.replicate (CACHE_TABLE_SIZE - 1) P.freeRow
  branch : ∀ f, s.branch (P.plt f - 4) = blTo (P.plt f - 4) P.cacheman
  calls : s.calls = []

abbrev Reachable (s : State) : Prop := Lib.Reach P.Fresh (fun s s' => ∃ i o, P.step s i = some (o, s')) s

end Image

end EDarts.SoftCache
