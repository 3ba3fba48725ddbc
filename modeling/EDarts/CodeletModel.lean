/-
  EDarts.CodeletModel — codelets (`codelet.h`) and threaded-procedure closures
  (`tpClosure.h`), and the bytes they take in memory.

  Both are packed structures of little-endian words. A closure is the 12-byte base
  `genericTpClosure_t` with its `sizeOfArgs` argument bytes right behind it; the
  structure carries that there are exactly so many.
-/

import EDarts.Multithreading.Mutex

namespace EDarts

open Lib

/-- A word's four bytes. -/
def wordBytes (x : Word) : List Byte := toLE 4 x.toNat

def wordOf (bs : List Byte) : Word := BitVec.ofNat 32 (ofLE bs)

@[simp] theorem wordBytes_length (x : Word) : (wordBytes x).length = 4 := by simp [wordBytes]

@[simp] theorem wordOf_wordBytes (x : Word) : wordOf (wordBytes x) = x := by
  have hx := x.isLt
  rw [wordOf, wordBytes, ofLE_toLE, Nat.mod_eq_of_lt (by omega), BitVec.ofNat_toNat, BitVec.setWidth_eq]

theorem wordBytes_wordOf {bs : List Byte} (h : bs.length = 4) : wordBytes (wordOf bs) = bs := by
  have hlt := ofLE_lt bs
  rw [h] at hlt
  rw [wordBytes, wordOf, BitVec.toNat_ofNat, Nat.mod_eq_of_lt (by omega), ← h, toLE_ofLE]

/-! ## Codelets -/

structure Codelet where
  codeletID : Word
  syncSlot : Word
  fire : Word
  deriving DecidableEq, Repr

namespace Codelet

def bytes (c : Codelet) : List Byte := wordBytes c.codeletID ++ (wordBytes c.syncSlot ++ wordBytes c.fire)

def ofBytes (bs : List Byte) : Codelet :=
  ⟨wordOf (bs.take 4), wordOf ((bs.drop 4).take 4), wordOf ((bs.drop 8).take 4)⟩

/-- `sizeof(codelet_t)`. -/
@[simp] theorem bytes_length (c : Codelet) : c.bytes.length = 12 := by simp [bytes]

@[simp] theorem ofBytes_bytes (c : Codelet) : ofBytes c.bytes = c := by
  have h0 : c.bytes.take 4 = wordBytes c.codeletID := List.take_left' (wordBytes_length _)
  have h4 : c.bytes.drop 4 = wordBytes c.syncSlot ++ wordBytes c.fire := List.drop_left' (wordBytes_length _)
  have h8 : c.bytes.drop 8 = wordBytes c.fire := by
    rw [show 8 = 4 + 4 from rfl, ← List.drop_drop, h4, List.drop_left' (wordBytes_length _)]
  have htake : (wordBytes c.fire).take 4 = wordBytes c.fire := List.take_of_length_le (by simp)
  rw [ofBytes, h0, h4, h8, List.take_left' (wordBytes_length _), htake]
  simp

theorem bytes_ofBytes {bs : List Byte} (h : bs.length = 12) : (ofBytes bs).bytes = bs := by
  have h8 : (bs.drop 8).take 4 = bs.drop 8 := List.take_of_length_le (by simp [h])
  have h4 : (bs.drop 4).take 4 ++ bs.drop 8 = bs.drop 4 := by
    rw [show 8 = 4 + 4 from rfl, ← List.drop_drop, List.take_append_drop]
  rw [bytes, ofBytes, wordBytes_wordOf (by simp [h]), wordBytes_wordOf (by simp [h]), wordBytes_wordOf (by simp [h]),
    h8, h4, List.take_append_drop]

end Codelet

def initCodelet (newID newSyncSlot newFire : Word) : Codelet := ⟨newID, newSyncSlot, newFire⟩

/-! ## Closures -/

structure GenericTpClosure where
  metadataCtor : Word
  userInitCtorExec : Word
  sizeOfArgs : Word
  args : List Byte
  args_length : args.length = sizeOfArgs.toNat

namespace GenericTpClosure

def bytes (c : GenericTpClosure) : List Byte :=
  wordBytes c.metadataCtor ++ (wordBytes c.userInitCtorExec ++ (wordBytes c.sizeOfArgs ++ c.args))

/-- The bytes the closure takes: `sizeof(genericTpClosure_t)` and its arguments. -/
def size (c : GenericTpClosure) : Nat := 12 + c.sizeOfArgs.toNat

@[simp] theorem bytes_length (c : GenericTpClosure) : c.bytes.length = c.size := by
  simp only [bytes, size, List.length_append, wordBytes_length, c.args_length]; omega

/-- The `sizeOfArgs` field of a closure in memory. -/
theorem sizeOfArgs_bytes (c : GenericTpClosure) : wordOf ((c.bytes.drop 8).take 4) = c.sizeOfArgs := by
  have h : c.bytes.drop 8 = wordBytes c.sizeOfArgs ++ c.args := by
    rw [show 8 = 4 + 4 from rfl, ← List.drop_drop, bytes, List.drop_left' (wordBytes_length _),
      List.drop_left' (wordBytes_length _)]
  rw [h, List.take_left' (wordBytes_length _), wordOf_wordBytes]

end GenericTpClosure

end EDarts
