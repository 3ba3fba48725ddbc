/-
  EDarts.CodeletModel.ThreadedProcedure — threaded procedures in memory
  (`threadedProcedure.h`, `threadedProcedure.c`).

  A threaded procedure takes 40 bytes for its metadata and, right behind them, 40 for each of
  its sync slots. The metadata's address is the threaded procedure's; its slots are found by
  their numbers (`GET_SYNC_SLOT`). The scheduler places one behind the other, so that a heap
  of them is cells of 40 bytes, end to end.

  `TpAt` says where a threaded procedure is among such cells: there its metadata and its slots
  read back (`TpAt.metadata`, `TpAt.slot`), and a store to one of its slots changes that slot
  alone (`TpAt.store`).
-/

import EDarts.CodeletModel.TpClosure
import EDarts.Assets.SyncSlot

namespace EDarts.ThreadedProcedure

open Lib Assets TpClosure

/-! ## Packed structures of words -/

def packed (ws : List Word) : List Byte := (ws.map wordBytes).flatten

def wordsAt (mem : Memory) (a n : Nat) : List Word := (fieldsAt mem a (List.replicate n 4)).map wordOf

/-- `_tp_metadata_t`. -/
structure TpMetadata where
  TPid : Word
  numSyncSlots : Word
  refCount : Word
  sizeDRAM : Word
  sizeLocal : Word
  sizeDist : Word
  lock : Word
  memDRAM : Word
  memLocal : Word
  memDist : Word
  deriving DecidableEq, Repr

def TpMetadata.words (m : TpMetadata) : List Word :=
  [m.TPid, m.numSyncSlots, m.refCount, m.sizeDRAM, m.sizeLocal, m.sizeDist, m.lock, m.memDRAM, m.memLocal, m.memDist]

def TpMetadata.ofWords (ws : List Word) : TpMetadata :=
  ⟨ws.getD 0 0, ws.getD 1 0, ws.getD 2 0, ws.getD 3 0, ws.getD 4 0, ws.getD 5 0, ws.getD 6 0, ws.getD 7 0, ws.getD 8 0,
    ws.getD 9 0⟩

def slotWords (s : SyncSlot) : List Word :=
  [s.slotID, s.resetDep, s.currentDep, s.tpFrame, s.codeletTemplate.codeletID, s.codeletTemplate.syncSlot,
    s.codeletTemplate.fire, s.numCodelets, s.lockMutex, s.lockMutexFullAddressPtr]

def slotOfWords (ws : List Word) : SyncSlot :=
  ⟨ws.getD 0 0, ws.getD 1 0, ws.getD 2 0, ws.getD 3 0, ⟨ws.getD 4 0, ws.getD 5 0, ws.getD 6 0⟩, ws.getD 7 0,
    ws.getD 8 0, ws.getD 9 0⟩

def metadataAt (mem : Memory) (tp : Word) : TpMetadata := .ofWords (wordsAt mem tp.toNat 10)

def storeMetadata (mem : Memory) (tp : Word) (m : TpMetadata) : Memory := storeBytes mem tp (packed m.words)

def slotAt (mem : Memory) (syncSlot : Word) : SyncSlot := slotOfWords (wordsAt mem syncSlot.toNat 10)

def storeSlot (mem : Memory) (syncSlot : Word) (s : SyncSlot) : Memory := storeBytes mem syncSlot (packed (slotWords s))

/-! ## The source -/

/-- `newMetadata` is what the local variable has on the stack. -/
def genericMetadataCtro (TPid numSyncSlots sizeDRAM sizeLocal sizeDist : Word) (newMetadata : TpMetadata) : TpMetadata :=
  { newMetadata with
    TPid := TPid
    numSyncSlots := numSyncSlots
    refCount := 0
    sizeDRAM := sizeDRAM
    sizeLocal := sizeLocal
    sizeDist := sizeDist
    lock := Multithreading.DARTS_MUTEX_NULL }

def getSyncSlot (tp : Word) (numSyncSlot : Nat) : Word := tp + 40 + 40 * BitVec.ofNat 32 numSyncSlot

/-- What `ASSIGN_SYNC_SLOT_CODELET` says of a slot. -/
structure Assignment where
  codeletFunction : Word
  numDep : Word
  resetDep : Word
  numExec : Word
  deriving DecidableEq, Repr

def assignSyncSlotCodelet (core tp : Word) (syncSlotNum : Nat) (A : Assignment) (mem : Memory) : Memory :=
  let theSyncSlot := getSyncSlot tp syncSlotNum
  let newCodeletTemplate := initCodelet 0 theSyncSlot A.codeletFunction
  storeSlot mem theSyncSlot (SyncSlot.initSyncSlot core theSyncSlot (BitVec.ofNat 32 syncSlotNum) A.resetDep A.numDep
    newCodeletTemplate A.numExec (slotAt mem theSyncSlot))

/-- `syncSlotDecDep` on a slot in memory. -/
def decDep (core syncSlot : Word) (mem : Memory) : Option Memory :=
  ((slotAt mem syncSlot).decrement core).map (storeSlot mem syncSlot)

/-- The assignments of the slots from a number on, in order. -/
def assignSlots (core tp : Word) : Nat → List Assignment → Memory → Memory
  | _, [], mem => mem
  | n, A :: As, mem => assignSlots core tp (n + 1) As (assignSyncSlotCodelet core tp n A mem)

def resetDep (core syncSlot : Word) (mem : Memory) : Option Memory :=
  ((slotAt mem syncSlot).syncSlotResetDep core).map (storeSlot mem syncSlot)

/-! ## Reading back -/

theorem packed_length (ws : List Word) : (packed ws).length = 4 * ws.length := by
  induction ws with
  | nil => rfl
  | cons x ws ih =>
    rw [packed, List.map_cons, List.flatten_cons, List.length_append, wordBytes_length, List.length_cons, ← packed, ih]
    omega

theorem wordsAt_packed {mem : Memory} {a : Nat} {ws : List Word}
    (h : block mem a (packed ws).length = packed ws) : wordsAt mem a ws.length = ws := by
  have hsizes : (ws.map wordBytes).map List.length = List.replicate ws.length 4 := by
    rw [List.map_map, List.eq_replicate_iff]
    refine ⟨List.length_map _, fun n hn => ?_⟩
    obtain ⟨x, -, rfl⟩ := List.mem_map.mp hn
    exact wordBytes_length x
  have hfields := fieldsAt_flatten h
  rw [hsizes] at hfields
  rw [wordsAt, hfields, List.map_map]
  exact List.map_id'' wordOf_wordBytes ws

theorem metadataAt_eq {mem : Memory} {tp : Word} {m : TpMetadata}
    (h : block mem tp.toNat (packed m.words).length = packed m.words) : metadataAt mem tp = m := by
  rw [metadataAt, show 10 = m.words.length from rfl, wordsAt_packed h]
  rfl

theorem slotAt_eq {mem : Memory} {syncSlot : Word} {s : SyncSlot}
    (h : block mem syncSlot.toNat (packed (slotWords s)).length = packed (slotWords s)) : slotAt mem syncSlot = s := by
  rw [slotAt, show 10 = (slotWords s).length from rfl, wordsAt_packed h]
  rfl

/-! ## A heap of threaded procedures -/

/-- What is in 40 bytes of the heap. -/
inductive Cell where
  | metadata (m : TpMetadata)
  | syncSlot (s : SyncSlot)

def Cell.bytes : Cell → List Byte
  | .metadata m => packed m.words
  | .syncSlot s => packed (slotWords s)

theorem Cell.bytes_length (c : Cell) : c.bytes.length = 40 := by
  cases c <;> exact packed_length _

structure Tp where
  metadata : TpMetadata
  slots : List SyncSlot

def Tp.cells (t : Tp) : List Cell := .metadata t.metadata :: t.slots.map .syncSlot

theorem Tp.cells_length (t : Tp) : t.cells.length = t.slots.length + 1 := by
  rw [Tp.cells, List.length_cons, List.length_map]

/-- The threaded procedure `t` is at `tp`, among the cells that lie from `a` to `b`. -/
structure TpAt (mem : Memory) (a : Nat) (before : List Cell) (tp : Word) (t : Tp) (behind : List Cell) (b : Nat) : Prop where
  tiles : Tiles Cell.bytes mem a (before ++ (t.cells ++ behind)) b
  address : tp.toNat = a + 40 * before.length
  small : b < 2 ^ 32

section TpAt

variable {mem : Memory} {a b : Nat} {before behind : List Cell} {tp : Word} {t : Tp}

theorem toNat_getSyncSlot {n : Nat} (h : tp.toNat + 40 + 40 * n < 2 ^ 32) :
    (getSyncSlot tp n).toNat = tp.toNat + 40 + 40 * n := by
  rw [getSyncSlot, BitVec.toNat_add, BitVec.toNat_add, BitVec.toNat_mul, BitVec.toNat_ofNat,
    show (40 : Word).toNat = 40 from rfl]
  omega

theorem getSyncSlot_succ (tp : Word) (n : Nat) : getSyncSlot tp (n + 1) = getSyncSlot tp n + 40 := by
  rw [getSyncSlot, getSyncSlot, BitVec.ofNat_add, BitVec.mul_add, ← BitVec.add_assoc]
  rfl

theorem TpAt.end_eq (H : TpAt mem a before tp t behind b) :
    b = tp.toNat + 40 + 40 * t.slots.length + 40 * behind.length := by
  have hend := H.tiles.end_eq Cell.bytes_length
  have haddress := H.address
  rw [List.length_append, List.length_append, Tp.cells_length] at hend
  omega

theorem TpAt.metadata (H : TpAt mem a before tp t behind b) : metadataAt mem tp = t.metadata := by
  obtain ⟨c, hbefore, htiles⟩ := H.tiles.split
  have hc := hbefore.end_eq Cell.bytes_length
  rw [← H.address] at hc
  subst hc
  exact metadataAt_eq htiles.1

/-- The cells up to a slot, and from it on. -/
theorem TpAt.split (H : TpAt mem a before tp t behind b) {n : Nat} (hn : n < t.slots.length) :
    Tiles Cell.bytes mem a (before ++ .metadata t.metadata :: (t.slots.take n).map .syncSlot) (getSyncSlot tp n).toNat ∧
      Tiles Cell.bytes mem (getSyncSlot tp n).toNat
        (.syncSlot t.slots[n] :: ((t.slots.drop (n + 1)).map .syncSlot ++ behind)) b := by
  have hend := H.end_eq
  have hsmall := H.small
  have haddress := H.address
  have hcells : before ++ (t.cells ++ behind) = (before ++ .metadata t.metadata :: (t.slots.take n).map .syncSlot) ++
      .syncSlot t.slots[n] :: ((t.slots.drop (n + 1)).map .syncSlot ++ behind) := by
    have hslots : t.slots = t.slots.take n ++ t.slots[n] :: t.slots.drop (n + 1) := by
      rw [List.getElem_cons_drop, List.take_append_drop]
    conv_lhs => rw [Tp.cells, hslots]
    simp only [List.map_append, List.map_cons, List.append_assoc, List.cons_append]
  have htiles := H.tiles
  rw [hcells] at htiles
  obtain ⟨c, hfront, hrest⟩ := htiles.split
  have hc := hfront.end_eq Cell.bytes_length
  rw [List.length_append, List.length_cons, List.length_map, List.length_take, Nat.min_eq_left (Nat.le_of_lt hn)] at hc
  have hslot : (getSyncSlot tp n).toNat = c := by
    rw [toNat_getSyncSlot (by omega)]
    omega
  rw [hslot]
  exact ⟨hfront, hrest⟩

theorem TpAt.slot (H : TpAt mem a before tp t behind b) {n : Nat} (hn : n < t.slots.length) :
    slotAt mem (getSyncSlot tp n) = t.slots[n] := by
  obtain ⟨-, hslot⟩ := H.split hn
  exact slotAt_eq hslot.1

theorem TpAt.store (H : TpAt mem a before tp t behind b) {n : Nat} (hn : n < t.slots.length) (s : SyncSlot) :
    TpAt (storeSlot mem (getSyncSlot tp n) s) a before tp { t with slots := t.slots.set n s } behind b := by
  obtain ⟨hfront, hrest⟩ := H.split hn
  refine ⟨?_, H.address, H.small⟩
  have hlen : (Cell.syncSlot s).bytes.length = (Cell.syncSlot t.slots[n]).bytes.length := by
    simp only [Cell.bytes_length]
  have htiles := hfront.replace hrest hlen (Nat.le_of_lt H.small)
  have hcells : before ++ (Tp.cells { t with slots := t.slots.set n s } ++ behind) =
      (before ++ .metadata t.metadata :: (t.slots.take n).map .syncSlot) ++
        .syncSlot s :: ((t.slots.drop (n + 1)).map .syncSlot ++ behind) := by
    rw [Tp.cells, List.set_eq_take_append_cons_drop, if_pos hn]
    simp only [List.map_append, List.map_cons, List.append_assoc, List.cons_append]
  rw [hcells]
  exact htiles

/-- A decrement of a slot whose mutex is free. -/
theorem TpAt.decDep (H : TpAt mem a before tp t behind b) {n : Nat} (hn : n < t.slots.length) (core : Word)
    (hfree : t.slots[n].lockMutex = 0) :
    ∃ mem', decDep core (getSyncSlot tp n) mem = some mem' ∧ TpAt mem' a before tp
      { t with slots := t.slots.set n { t.slots[n] with currentDep := t.slots[n].currentDep - 1 } } behind b := by
  refine ⟨_, ?_, H.store hn _⟩
  rw [ThreadedProcedure.decDep, H.slot hn, SyncSlot.decrement_free core hfree, Option.map_some]

theorem TpAt.resetDep (H : TpAt mem a before tp t behind b) {n : Nat} (hn : n < t.slots.length) (core : Word)
    (hfree : t.slots[n].lockMutex = 0) :
    ∃ mem', resetDep core (getSyncSlot tp n) mem = some mem' ∧ TpAt mem' a before tp
      { t with slots := t.slots.set n { t.slots[n] with currentDep := t.slots[n].resetDep } } behind b := by
  refine ⟨_, ?_, H.store hn _⟩
  rw [ThreadedProcedure.resetDep, H.slot hn, SyncSlot.syncSlotResetDep_free core hfree, Option.map_some]

/-! ## A new threaded procedure -/

theorem TpAt.new (h : Tiles Cell.bytes mem a before tp.toNat) (hsmall : tp.toNat + 40 < 2 ^ 32) (m : TpMetadata) :
    TpAt (storeMetadata mem tp m) a before tp ⟨m, []⟩ [] (tp.toNat + 40) := by
  have htiles := h.storeBytes_snoc (.metadata m) (by rw [Cell.bytes_length]; omega)
  rw [Cell.bytes_length] at htiles
  exact ⟨htiles, h.end_eq Cell.bytes_length, hsmall⟩

theorem TpAt.storeMetadata (H : TpAt mem a before tp t behind b) (m : TpMetadata) :
    TpAt (storeMetadata mem tp m) a before tp { t with metadata := m } behind b := by
  obtain ⟨c, hbefore, htiles⟩ := H.tiles.split
  have hc := hbefore.end_eq Cell.bytes_length
  rw [← H.address] at hc
  subst hc
  have hlen : (Cell.metadata m).bytes.length = (Cell.metadata t.metadata).bytes.length := by
    simp only [Cell.bytes_length]
  exact ⟨hbefore.replace htiles hlen (Nat.le_of_lt H.small), H.address, H.small⟩

/-- What a slot holds behind its assignment. -/
structure Assigned (A : Assignment) (s : SyncSlot) : Prop where
  free : s.lockMutex = 0
  fire : s.codeletTemplate.fire = A.codeletFunction
  numCodelets : s.numCodelets = A.numExec
  resetDep : s.resetDep = A.resetDep
  currentDep : s.currentDep = A.numDep

/-- The next slot behind the last one. -/
theorem TpAt.push (H : TpAt mem a before tp t [] b) (hb : b + 40 < 2 ^ 32) (s : SyncSlot) :
    TpAt (storeSlot mem (getSyncSlot tp t.slots.length) s) a before tp { t with slots := t.slots ++ [s] } [] (b + 40) := by
  have hend := H.end_eq
  have hslot : (getSyncSlot tp t.slots.length).toNat = b := by
    rw [List.length_nil] at hend
    rw [toNat_getSyncSlot (by omega)]
    omega
  have htiles := H.tiles
  rw [← hslot] at htiles
  have hsnoc := htiles.storeBytes_snoc (.syncSlot s) (by rw [Cell.bytes_length]; omega)
  rw [Cell.bytes_length, hslot] at hsnoc
  refine ⟨?_, H.address, hb⟩
  simp only [Tp.cells, List.map_append, List.map_singleton, List.append_nil, List.append_assoc, List.cons_append]
    at hsnoc ⊢
  exact hsnoc

theorem TpAt.assign (H : TpAt mem a before tp t [] b) (hb : b + 40 < 2 ^ 32) (core : Word) (A : Assignment) :
    ∃ s, Assigned A s ∧ TpAt (assignSyncSlotCodelet core tp t.slots.length A mem) a before tp
      { t with slots := t.slots ++ [s] } [] (b + 40) := by
  refine ⟨_, ?_, H.push hb _⟩
  exact ⟨rfl, rfl, rfl, rfl, rfl⟩

theorem TpAt.assignSlots (core : Word) : ∀ (As : List Assignment) {mem : Memory} {t : Tp} {b : Nat},
    TpAt mem a before tp t [] b → b + 40 * As.length < 2 ^ 32 →
    ∃ ss, List.Forall₂ Assigned As ss ∧ TpAt (assignSlots core tp t.slots.length As mem) a before tp
      { t with slots := t.slots ++ ss } [] (b + 40 * As.length) := by
  intro As
  induction As with
  | nil =>
    intro mem t b H _
    refine ⟨[], .nil, ?_⟩
    rw [List.append_nil]
    exact H
  | cons A As ih =>
    intro mem t b H hb
    rw [List.length_cons] at hb
    obtain ⟨s, hs, H'⟩ := H.assign (by omega) core A
    obtain ⟨ss, hss, H''⟩ := ih H' (by omega)
    refine ⟨s :: ss, .cons hs hss, ?_⟩
    rw [List.length_append, List.length_singleton, List.append_assoc] at H''
    rw [List.length_cons, show b + 40 * (As.length + 1) = b + 40 + 40 * As.length by omega]
    exact H''

end TpAt

end EDarts.ThreadedProcedure
