/-
  EDarts.CodeletModel.TpClosure — invoking a threaded procedure (`tpClosure.h`).

  `DEFINE_TP_CLOSURE` picks, by the number of arguments, one of 26 macros; each defines a
  packed structure of the arguments, `_invoke_`, which makes a closure of them, and
  `_closureExec`, which calls the constructor with the arguments of a closure in memory. An
  argument is its bytes here, a type is its size. The scheduler gets the closure from the
  queue, and calls `_closureExec` by the pointer in it.

  The macros are alike but for seven. Those for 7 to 10, 13 and 14 arguments do not compile, and
  that for 20 forgets to store the last one.

  - `fieldsAt_flatten`: the packed structure reads back as it was written.
  - `constructor_arguments_iff`: all along a run of the queue, the constructor of the oldest
    closure gets the arguments of its invocation, exactly if they are not 20, or the last one
    happens to be what was on the stack.
-/

import EDarts.Assets.TpClosuresQueueRuns
import Mathlib.Data.List.Nodup

namespace EDarts.TpClosure

open Lib Assets TpClosuresQueue

/-- The arguments of a constructor, or what is in their place. -/
structure Args (argTypes : List Nat) where
  fields : List (List Byte)
  sizes : fields.map List.length = argTypes

/-- What the macros define for a threaded procedure. -/
structure TpDefinition where
  /-- Where the code of `_metadataCtor` and `_closureExec` is. -/
  metadataCtor : Word
  closureExec : Word
  argTypes : List Nat
  small : 12 + argTypes.sum < 2 ^ 32
  deriving DecidableEq

/-- How many of its arguments `DEFINE_TP_CLOSURE_ARGS…` stores; `none`: there is no such
    macro, or it does not compile. -/
def assigned : Nat → Option Nat
  | 7 | 8 | 9 | 10 => none  -- a second backslash behind the constructor's call
  | 13 => none  -- `rgType12`
  | 14 => none  -- `A13` is no parameter
  | 20 => some 19
  | k => if k ≤ 25 then some k else none

variable {argTypes : List Nat}

/-- The first `m` arguments are stored over what is on the stack. -/
def Args.assign (m : Nat) (args newClosure : Args argTypes) : Args argTypes where
  fields := args.fields.take m ++ newClosure.fields.drop m
  sizes := by rw [List.map_append, List.map_take, List.map_drop, args.sizes, newClosure.sizes, List.take_append_drop]

theorem Args.flatten_length (args : Args argTypes) : args.fields.flatten.length = argTypes.sum := by
  rw [List.length_flatten, args.sizes]

def closure (D : TpDefinition) (args : Args D.argTypes) : GenericTpClosure where
  metadataCtor := D.metadataCtor
  userInitCtorExec := D.closureExec
  sizeOfArgs := BitVec.ofNat 32 D.argTypes.sum
  args := args.fields.flatten
  args_length := by rw [args.flatten_length, BitVec.toNat_ofNat, Nat.mod_eq_of_lt (Nat.lt_of_le_of_lt (Nat.le_add_left _ _) D.small)]

/-- `_invoke_`: `newClosure` is what its local variable has on the stack. -/
def invoke (D : TpDefinition) (args newClosure : Args D.argTypes) : Option GenericTpClosure :=
  (assigned D.argTypes.length).map fun m => closure D (args.assign m newClosure)

/-- The fields of a packed structure at an address. -/
def fieldsAt (mem : Memory) : Nat → List Nat → List (List Byte)
  | _, [] => []
  | a, n :: argTypes => block mem a n :: fieldsAt mem (a + n) argTypes

/-- `tpClosure->_metadataCtor`: whose it is. -/
def metadataCtor (tps : List TpDefinition) (mem : Memory) (tpClosure : Word) : Option TpDefinition :=
  tps.find? fun D => D.metadataCtor = wordOf (block mem tpClosure.toNat 4)

/-- `tpClosure->_userInitCtorExec(…, tpClosure)`: whose constructor is called, with what. -/
def userInitCtorExec (tps : List TpDefinition) (mem : Memory) (tpClosure : Word) :
    Option (TpDefinition × List (List Byte)) :=
  (tps.find? fun D => D.closureExec = wordOf (block mem (tpClosure.toNat + 4) 4)).map fun D =>
    (D, fieldsAt mem (tpClosure.toNat + 12) D.argTypes)

/-! ## Reading back -/

theorem fieldsAt_flatten {mem : Memory} : ∀ {fields : List (List Byte)} {a : Nat},
    block mem a fields.flatten.length = fields.flatten → fieldsAt mem a (fields.map List.length) = fields := by
  intro fields
  induction fields with
  | nil => intro a _; rfl
  | cons field fields ih =>
    intro a h
    rw [List.flatten_cons, List.length_append, block_append] at h
    obtain ⟨hfield, hrest⟩ := List.append_inj h (block_length _ _ _)
    rw [List.map_cons, fieldsAt, hfield, ih hrest]

/-- A definition is found by the address of its code. -/
theorem find_address {address : TpDefinition → Word} {tps : List TpDefinition} (hdistinct : (tps.map address).Nodup)
    {D : TpDefinition} (hD : D ∈ tps) : tps.find? (fun D' => address D' = address D) = some D := by
  cases h : tps.find? fun D' => address D' = address D with
  | none => exact absurd rfl (of_decide_eq_false (Bool.not_eq_true _ ▸ List.find?_eq_none.mp h D hD))
  | some D' =>
    have haddress : address D' = address D := by simpa using List.find?_some h
    rw [List.inj_on_of_nodup_map hdistinct (List.mem_of_find?_eq_some h) hD haddress]

section Exec

variable {tps : List TpDefinition} {mem : Memory} {p : Word} {D : TpDefinition} {args : Args D.argTypes}

/-- Of a closure in memory: the two pointers and the arguments. -/
theorem parts (h : block mem p.toNat (closure D args).size = (closure D args).bytes) :
    block mem p.toNat 4 = wordBytes D.metadataCtor ∧ block mem (p.toNat + 4) 4 = wordBytes D.closureExec ∧
      block mem (p.toNat + 12) args.fields.flatten.length = args.fields.flatten := by
  have hlen : (closure D args).size = 4 + (4 + (4 + args.fields.flatten.length)) := by
    have hargs : args.fields.flatten.length = (closure D args).sizeOfArgs.toNat := (closure D args).args_length
    rw [GenericTpClosure.size, hargs]
    omega
  rw [hlen, block_append, block_append, block_append, GenericTpClosure.bytes] at h
  obtain ⟨hmetadata, h⟩ := List.append_inj h (by rw [block_length, wordBytes_length])
  obtain ⟨hexec, h⟩ := List.append_inj h (by rw [block_length, wordBytes_length])
  obtain ⟨-, h⟩ := List.append_inj h (by rw [block_length, wordBytes_length])
  exact ⟨hmetadata, hexec, h⟩

theorem metadataCtor_closure (hdistinct : (tps.map TpDefinition.metadataCtor).Nodup) (hD : D ∈ tps)
    (h : block mem p.toNat (closure D args).size = (closure D args).bytes) : metadataCtor tps mem p = some D := by
  rw [metadataCtor, (parts h).1, wordOf_wordBytes]
  exact find_address hdistinct hD

/-- The constructor gets the fields of the closure's structure. -/
theorem userInitCtorExec_closure (hdistinct : (tps.map TpDefinition.closureExec).Nodup) (hD : D ∈ tps)
    (h : block mem p.toNat (closure D args).size = (closure D args).bytes) :
    userInitCtorExec tps mem p = some (D, args.fields) := by
  obtain ⟨-, hexec, hargs⟩ := parts h
  have hfields := fieldsAt_flatten hargs
  rw [args.sizes] at hfields
  rw [userInitCtorExec, hexec, wordOf_wordBytes, find_address hdistinct hD, Option.map_some, hfields]

end Exec

/-! ## The twenty arguments -/

theorem assigned_cases {k m : Nat} (h : assigned k = some m) : (k = 20 ∧ m = 19) ∨ (k ≠ 20 ∧ m = k) := by
  unfold assigned at h
  split at h
  iterate 6 · cases h
  · exact .inl ⟨rfl, by simpa using h.symm⟩
  · split at h
    · exact .inr ⟨by assumption, by simpa using h.symm⟩
    · cases h

/-- Of twenty elements, behind the first 19 is the last. -/
theorem drop_19 {α : Type} {xs ys : List α} (hx : xs.length = 20) (hy : ys.length = 20) :
    ys.drop 19 = xs.drop 19 ↔ ys.getLast? = xs.getLast? := by
  have hlast : ∀ {zs : List α}, zs.length = 20 → ∃ z, zs.drop 19 = [z] ∧ zs.getLast? = some z := by
    intro zs hz
    rcases List.eq_nil_or_concat' zs with rfl | ⟨front, z, rfl⟩
    · cases hz
    · rw [List.length_append, List.length_singleton] at hz
      exact ⟨z, List.drop_left' (by omega), List.getLast?_concat⟩
  obtain ⟨x, hxdrop, hxlast⟩ := hlast hx
  obtain ⟨y, hydrop, hylast⟩ := hlast hy
  rw [hxdrop, hydrop, hxlast, hylast]
  simp

/-- All arguments are stored, or the one that is not was there already. -/
theorem assign_eq_iff {m : Nat} {args newClosure : Args argTypes} (hm : assigned argTypes.length = some m) :
    (args.assign m newClosure).fields = args.fields ↔
      (argTypes.length = 20 → newClosure.fields.getLast? = args.fields.getLast?) := by
  have hlen := congrArg List.length args.sizes
  have hlen' := congrArg List.length newClosure.sizes
  rw [List.length_map] at hlen hlen'
  have hdrop : (args.assign m newClosure).fields = args.fields ↔ newClosure.fields.drop m = args.fields.drop m := by
    have hsplit := List.take_append_drop m args.fields
    constructor
    · intro h
      exact (List.append_right_inj _).mp (h.trans hsplit.symm)
    · intro h
      exact (congrArg (args.fields.take m ++ ·) h).trans hsplit
  rw [hdrop]
  rcases assigned_cases hm with ⟨h20, rfl⟩ | ⟨h20, rfl⟩
  · rw [drop_19 (hlen.trans h20) (hlen'.trans h20)]
    exact ⟨fun h _ => h, fun h => h h20⟩
  · rw [List.drop_of_length_le (Nat.le_of_eq hlen), List.drop_of_length_le (Nat.le_of_eq hlen')]
    exact ⟨fun _ h => absurd h h20, fun _ => rfl⟩

/-! ## Through the queue -/

variable {queue newSize : Word} {q : TpClosuresQueue} {ops : List Op} {os : List Out} {s : Hist}

/-- In every run of the queue without a drain at the end of its space: the owner finds the
    oldest closure, and the threaded procedure that it is of; and its constructor gets the
    arguments of the invocation exactly if they are not twenty, or the last of them was on the
    stack. -/
theorem constructor_arguments_iff (S : Space queue newSize.toNat)
    (hA : EachStep (histStep queue) (fun s op => Allowed s.q s.peaked op) (started queue newSize q) ops)
    (hdrain : EachStep (histStep queue) (fun s op => ¬ Drains queue s.q op) (started queue newSize q) ops)
    (hrun : run (histStep queue) (started queue newSize q) ops = some (os, s)) {tps : List TpDefinition}
    (hmetadata : (tps.map TpDefinition.metadataCtor).Nodup) (hexec : (tps.map TpDefinition.closureExec).Nodup)
    {D : TpDefinition} (hD : D ∈ tps) {args newClosure : Args D.argTypes} {c : GenericTpClosure}
    {rest : List GenericTpClosure} (hinvoke : invoke D args newClosure = some c) (hleft : s.left = c :: rest) :
    ∃ p, peakTopElement queue s.q.queueOwner s.q = (.successOp, some p) ∧ metadataCtor tps s.q.mem p = some D ∧
      (userInitCtorExec tps s.q.mem p = some (D, args.fields) ↔
        (D.argTypes.length = 20 → newClosure.fields.getLast? = args.fields.getLast?)) := by
  have hall : Throughout (histStep queue) (InOrder queue newSize.toNat) (started queue newSize q) ops :=
    (throughout_iff (fun _ H => H.inOrder S) (fun _ _ H hA hd => H.step S hA hd)
      (fun _ _ H hA hd => H.drained S hA (Classical.not_not.mp hd)) ops _ (Stored.start S rfl q) hA).mpr hdrain
  have holdest := (hall.last hrun).oldest
  rw [hleft] at holdest
  obtain ⟨p, hpeak, hblock, -⟩ := holdest
  obtain ⟨m, hm, rfl⟩ := Option.map_eq_some_iff.mp hinvoke
  refine ⟨p, hpeak, metadataCtor_closure hmetadata hD hblock, ?_⟩
  rw [userInitCtorExec_closure hexec hD hblock, ← assign_eq_iff hm]
  simp

/-- A threaded procedure with twenty arguments of a byte. -/
def twenty : TpDefinition where
  metadataCtor := 0x100
  closureExec := 0x200
  argTypes := List.replicate 20 1
  small := by decide

def bytes20 (b : Byte) : Args twenty.argTypes := ⟨List.replicate 20 [b], rfl⟩

def closure20 : GenericTpClosure := closure twenty ((bytes20 1).assign 19 (bytes20 0))

/-- Its constructor, in the test's queue, does not get the arguments of the invocation. -/
theorem constructor_arguments_twenty : ∃ p s, peakTopElement 0x80803004 s.queueOwner s = (.successOp, some p) ∧
    metadataCtor [twenty] s.mem p = some twenty ∧
    userInitCtorExec [twenty] s.mem p ≠ some (twenty, (bytes20 1).fields) := by
  have hinvoke : invoke twenty (bytes20 1) (bytes20 0) = some closure20 := rfl
  have hrun : (run (histStep 0x80803004) (started 0x80803004 100 testQueue) [.own 0x808, .push 0x809 closure20]).map
      (fun r => r.2.left) = some [closure20] := rfl
  obtain ⟨⟨os, s⟩, hrun, hleft⟩ := Option.map_eq_some_iff.mp hrun
  have hmetadata : ([twenty].map TpDefinition.metadataCtor).Nodup := by decide
  obtain ⟨p, hpeak, hmetadata, hexec⟩ := constructor_arguments_iff space_test (by decide +kernel) (by decide +kernel)
    hrun hmetadata (by decide) (List.mem_singleton_self twenty) hinvoke hleft
  refine ⟨p, s.q, hpeak, hmetadata, fun h => ?_⟩
  cases hexec.mp h rfl

end EDarts.TpClosure
