/-
  EDarts.SoftCache.CacheManagerProofs — what the cache manager's loops do to a table in
  order, and the invariant of loading and unloading (see `EDarts.SoftCache.CacheManager`).

  `Cached s live`: behind the fixed row stand the rows `live`, apart and in the order of
  their addresses, then free rows. Every row of `live` holds a function's code, counts the
  calls of it that have not returned, and is what the function's entry goes to.

  - `blTarget_blTo`: the core goes where an entry was made to go.
  - `load_eq`, `Cached.loaded`: loading is first fit into the gaps of `live`, and what is
    beside the copy stays.
  - `unload_eq`, `Cached.unloaded`: unloading leaves the rows that are in use, where they
    are, and does not come to an end if those are all rows of the table.
-/

import EDarts.Lib.Blocks
import EDarts.Lib.Stores
import EDarts.SoftCache.CacheManager
import Mathlib.Data.List.Count
import Mathlib.Data.List.Nodup

namespace EDarts.SoftCache

open Lib

/-! ## Branches -/

/-- A constant of one byte has no bits above. -/
theorem byte_bit {c : Word} (hc : c.toNat < 2 ^ 8) {i : Nat} (hi : 8 ≤ i) : c.getLsbD i = false :=
  Nat.testBit_lt_two_pow (Nat.lt_of_lt_of_le hc (Nat.pow_le_pow_right (by decide) hi))

theorem opcode_blTo (site target : Nat) : blTo site target &&& 0xff = 0xf8 := by
  apply BitVec.eq_of_getLsbD_eq
  intro i hi
  rw [blTo, BitVec.getLsbD_and, BitVec.getLsbD_or, BitVec.getLsbD_shiftLeft]
  by_cases h : i < 8
  · have hff : (0xff : Word).getLsbD i = true := by
      have hbit := Nat.testBit_two_pow_sub_one 8 i
      rw [decide_eq_true h] at hbit
      exact hbit
    rw [hff, decide_eq_true h, Bool.not_true, Bool.and_false, Bool.false_and, Bool.false_or, Bool.and_true]
  · rw [byte_bit (by decide) (Nat.le_of_not_lt h), byte_bit (by decide) (Nat.le_of_not_lt h), Bool.and_false]

/-- A displacement of 24 bits, in halfwords, survives the `bl`. -/
theorem displacement {d : Word} (heven : d.getLsbD 0 = false) (hsign : ∀ i, 24 ≤ i → i < 32 → d.getLsbD i = d.getLsbD 24) :
    ((d >>> 1 <<< 8) ||| 0xf8).sshiftRight 8 <<< 1 = d := by
  apply BitVec.eq_of_getLsbD_eq
  intro i hi
  rw [BitVec.getLsbD_shiftLeft]
  cases i with
  | zero => exact heven.symm
  | succ j =>
    have hword : ∀ k, 8 ≤ k → k < 32 → ((d >>> 1 <<< 8) ||| 0xf8).getLsbD k = d.getLsbD (k - 7) := by
      intro k hk hlt
      rw [BitVec.getLsbD_or, BitVec.getLsbD_shiftLeft, BitVec.getLsbD_ushiftRight, byte_bit (by decide) hk,
        decide_eq_true hlt, decide_eq_false (Nat.not_lt.mpr hk)]
      simp [show 1 + (k - 8) = k - 7 by omega]
    have hpos : (!decide (j + 1 < 1)) = true := by simp
    have hlow : (!decide (32 ≤ j)) = true := by simp; omega
    rw [decide_eq_true hi, hpos, Bool.true_and, Bool.true_and, BitVec.getLsbD_sshiftRight, Nat.add_sub_cancel, hlow,
      Bool.true_and, BitVec.msb_eq_getLsbD_last, hword 31 (by omega) (by omega)]
    by_cases hj : 8 + j < 32
    · rw [if_pos hj, hword _ (by omega) hj, show 8 + j - 7 = j + 1 by omega]
    · rw [if_neg hj, hsign (j + 1) (by omega) hi]

theorem high_bits_of_lt {d : Word} (h : d.toNat < 2 ^ 24) {i : Nat} (hi : 24 ≤ i) : d.getLsbD i = false :=
  Nat.testBit_lt_two_pow (Nat.lt_of_lt_of_le h (Nat.pow_le_pow_right (by decide) hi))

theorem high_bits_of_ge {d : Word} (h : 2 ^ 32 - 2 ^ 24 ≤ d.toNat) {i : Nat} (hi : 24 ≤ i) (hlt : i < 32) : d.getLsbD i = true := by
  have hnot : (~~~d).toNat < 2 ^ 24 := by
    have := d.isLt
    rw [BitVec.toNat_not]
    omega
  have hbit := high_bits_of_lt hnot hi
  rw [BitVec.getLsbD_not] at hbit
  simpa [hlt] using hbit

/-- Where it was made to go. -/
theorem blTarget_blTo {site target : Nat} (hs : 2 ∣ site) (ht : 2 ∣ target) (hslt : site < 2 ^ 20) (htlt : target < 2 ^ 20) :
    blTarget site (blTo site target) = some target := by
  rw [blTarget, if_pos (opcode_blTo site target), blTo]
  have htoNat : (BitVec.ofNat 32 target - BitVec.ofNat 32 site : Word).toNat =
      if site ≤ target then target - site else 2 ^ 32 - (site - target) := by
    rw [BitVec.toNat_sub, BitVec.toNat_ofNat, BitVec.toNat_ofNat]
    split <;> omega
  rw [displacement]
  · rw [BitVec.add_comm, BitVec.sub_add_cancel, BitVec.toNat_ofNat, Nat.mod_eq_of_lt (by omega)]
  · rw [BitVec.getLsbD, Nat.testBit_zero, htoNat]
    split <;> simp <;> omega
  · intro i hi hlt
    by_cases hle : site ≤ target
    · rw [if_pos hle] at htoNat
      rw [high_bits_of_lt (by omega) hi, high_bits_of_lt (by omega) (Nat.le_refl _)]
    · rw [if_neg hle] at htoNat
      rw [high_bits_of_ge (by omega) hi hlt, high_bits_of_ge (by omega) (Nat.le_refl _) (by decide)]


namespace Image

variable {ι : Type} {P : Image ι}

/-! ## The loops over the table -/

theorem checkLoop_free {size : Nat} (hsize : 0 < size) (k : Nat) :
    checkLoop size P.freeRow (List.replicate k P.freeRow) = none := by
  induction k with
  | zero => rfl
  | succ k ih =>
    rw [List.replicate_succ, checkLoop, if_neg, ih]
    simp only [freeRow]
    omega

/-- `.checkloop` is first fit. -/
theorem checkLoop_eq {size : Nat} (hsize : 0 < size) (k : Nat) : ∀ (live : List Row) (row : Row),
    checkLoop size row (live ++ List.replicate (k + 1) P.freeRow) =
      firstGap Row.startAddress Row.endAddress size row.endAddress live P.cachespacetop := by
  intro live
  induction live with
  | nil =>
    intro row
    rw [List.nil_append, List.replicate_succ, checkLoop, checkLoop_free hsize, firstGap]
    rfl
  | cons row2 live ih =>
    intro row
    rw [List.cons_append, checkLoop, firstGap, ih]

theorem copyLoop_out (dram : Nat → Word) : ∀ (n src dest : Nat) (space : Nat → Word) (a : Nat),
    a < dest ∨ dest + 4 * n ≤ a → copyLoop dram n src dest space a = space a := by
  intro n
  induction n with
  | zero => intro src dest space a _; rfl
  | succ n ih =>
    intro src dest space a ha
    rw [copyLoop, ih _ _ _ _ (by omega), Function.update_of_ne (by omega)]

theorem copyLoop_in (dram : Nat → Word) : ∀ (n src dest : Nat) (space : Nat → Word) (k : Nat), k < n →
    copyLoop dram n src dest space (dest + 4 * k) = dram (src + 4 * k) := by
  intro n
  induction n with
  | zero => intro src dest space k hk; omega
  | succ n ih =>
    intro src dest space k hk
    cases k with
    | zero =>
      rw [copyLoop, copyLoop_out dram _ _ _ _ _ (.inl (by omega)), Nat.mul_zero, Nat.add_zero, Function.update_self]
      rfl
    | succ k =>
      have hih := ih (src + 4) (dest + 4) (Function.update space dest (dram src)) k (by omega)
      rw [copyLoop, show dest + 4 * (k + 1) = dest + 4 + 4 * k by omega, hih]
      congr 1
      omega

/-- The new row passes the rows with greater addresses. -/
theorem copySortLoop_eq (new row1 : Row) (hrow1 : row1.startAddress ≤ new.startAddress) (above : List Row) :
    ∀ (passed below : List Row), (∀ row ∈ passed, new.startAddress < row.startAddress) →
      copySortLoop new (passed ++ row1 :: above) below = (row1 :: above).reverse ++ new :: (passed.reverse ++ below) := by
  intro passed
  induction passed with
  | nil =>
    intro below _
    rw [List.nil_append, copySortLoop, if_pos hrow1]
    rfl
  | cons row passed ih =>
    intro below h
    obtain ⟨hrow, h⟩ := List.forall_mem_cons.mp h
    rw [List.cons_append, copySortLoop, if_neg (Nat.not_le.mpr hrow), ih _ h, List.reverse_cons (a := row),
      List.append_assoc passed.reverse]
    rfl

theorem addRow_eq {new last : Row} {above behind : List Row} (hne : above ≠ [])
    (habove : ∀ row ∈ above, row.startAddress ≤ new.startAddress)
    (hbehind : ∀ row ∈ behind, new.startAddress < row.startAddress) :
    addRow (above ++ (behind ++ [last])) new = above ++ new :: behind := by
  obtain ⟨before, row1, rfl⟩ : ∃ before row1, above = before ++ [row1] := (List.eq_nil_or_concat' above).resolve_left hne
  have hdrop : (before ++ [row1] ++ (behind ++ [last])).dropLast.reverse = behind.reverse ++ row1 :: before.reverse := by
    rw [← List.append_assoc, List.dropLast_concat]
    simp
  have hrow1 := habove row1 (List.mem_append_right _ List.mem_cons_self)
  rw [addRow, hdrop, copySortLoop_eq new row1 hrow1 _ _ _ fun row hrow => hbehind row (List.mem_reverse.mp hrow)]
  simp

/-- A row with the greatest address goes to the end. -/
theorem unloadSort_eq {row : Row} : ∀ {rows : List Row}, (∀ next ∈ rows, next.startAddress ≤ row.startAddress) →
    unloadSort row rows = rows ++ [row] := by
  intro rows
  induction rows with
  | nil => intro _; rfl
  | cons next rows ih =>
    intro h
    obtain ⟨hnext, h⟩ := List.forall_mem_cons.mp h
    rw [unloadSort, if_neg (Nat.not_lt.mpr hnext), ih h]
    rfl

theorem clearPlt_concat (row : Row) : ∀ rows : List Row,
    P.clearPlt (rows ++ [row]) = (row.plt, rows ++ [{ row with plt := P.cachespacetop }]) := by
  intro rows
  induction rows with
  | nil => rfl
  | cons row' rows ih =>
    cases rows with
    | nil => rfl
    | cons row'' rows =>
      rw [List.cons_append, List.cons_append, clearPlt, ← List.cons_append, ih]
      · rfl
      · simp

/-- An unused row goes to the end, and becomes free. -/
theorem unload_row {row : Row} {rows : List Row} (hrow : row.referenceCount = 0)
    (hle : ∀ next ∈ rows, next.startAddress ≤ P.cachespacetop) :
    P.clearPlt (unloadSort { row with startAddress := P.cachespacetop, endAddress := P.cachespacetop } rows) =
      (row.plt, rows ++ [P.freeRow]) := by
  rw [unloadSort_eq hle, clearPlt_concat, freeRow]
  simp only [hrow]

/-- A row that is in use. -/
def inUse (row : Row) : Bool := row.referenceCount ≠ 0

/-- What unloading stores to the entries of the rows `rows`. -/
def unloadStores (rows : List Row) : List (Nat × Word) :=
  rows.map fun row => (row.plt - 4, blTo (row.plt - 4) P.cacheman)

theorem unloadLoop_eq : ∀ (fuel : Nat) (live : List Row) (k : Nat) (branch : Nat → Word),
    live.length < fuel → (∀ row ∈ live, row.startAddress < P.cachespacetop) →
    P.unloadLoop fuel (live ++ List.replicate k P.freeRow) branch =
      if k = 0 ∧ live.all inUse = true then none
      else some (live.filter inUse ++ List.replicate (k + (live.filter (!inUse ·)).length) P.freeRow,
        applyStores branch (P.unloadStores (live.filter (!inUse ·)))) := by
  intro fuel
  induction fuel with
  | zero => intro live k branch h; omega
  | succ fuel ih =>
    intro live k branch hfuel hlt
    cases live with
    | nil =>
      cases k with
      | zero => rfl
      | succ k =>
        have htop : P.cachespacetop ≤ P.freeRow.startAddress := Nat.le_refl _
        rw [List.nil_append, List.replicate_succ, unloadLoop, if_pos htop, if_neg (by simp)]
        rfl
    | cons row live =>
      obtain ⟨hrow, hlt⟩ := List.forall_mem_cons.mp hlt
      rw [List.length_cons] at hfuel
      rw [List.cons_append, unloadLoop, if_neg (Nat.not_le.mpr hrow)]
      by_cases huse : row.referenceCount ≠ 0
      · have hin : inUse row = true := decide_eq_true huse
        rw [if_pos huse, ih live k branch (by omega) hlt]
        simp only [List.all_cons, hin, Bool.true_and, List.filter_cons, if_true, Bool.not_true, Bool.false_eq_true,
          if_false]
        split <;> rfl
      · have hin : inUse row = false := decide_eq_false huse
        have hle : ∀ next ∈ live ++ List.replicate k P.freeRow, next.startAddress ≤ P.cachespacetop := by
          intro next hnext
          rcases List.mem_append.mp hnext with hnext | hnext
          · exact Nat.le_of_lt (hlt next hnext)
          · exact (List.eq_of_mem_replicate hnext) ▸ Nat.le_refl _
        have hrows : live ++ List.replicate k P.freeRow ++ [P.freeRow] = live ++ List.replicate (k + 1) P.freeRow := by
          rw [List.append_assoc, ← List.replicate_succ']
        simp only [if_neg huse, unload_row (Classical.not_not.mp huse) hle]
        rw [hrows, ih live (k + 1) _ (by omega) hlt]
        simp only [List.all_cons, hin, Bool.false_and, Bool.false_eq_true, and_false, if_false, List.filter_cons,
          Bool.not_false, if_true, List.length_cons, Nat.add_assoc, Nat.add_comm 1, Nat.succ_ne_zero, false_and,
          unloadStores, List.map_cons, applyStores_cons]

theorem scanLoop_eq {plt : Nat} (count : Nat → Nat) {row : Row} (hrow : row.plt = plt) (behind : List Row) :
    ∀ before : List Row, (∀ r ∈ before, r.plt ≠ plt) →
      scanLoop plt count (before ++ row :: behind) =
        some (row, before ++ { row with referenceCount := count row.referenceCount } :: behind) := by
  intro before
  induction before with
  | nil =>
    intro _
    rw [List.nil_append, scanLoop, if_pos hrow]
    rfl
  | cons r before ih =>
    intro h
    obtain ⟨hr, h⟩ := List.forall_mem_cons.mp h
    rw [List.cons_append, scanLoop, if_neg hr, ih h]
    rfl

/-! ## The invariant -/

/-- The calls of a function that have not returned and run in the cache. -/
def active (s : State) (plt : Nat) : Nat := s.calls.countP fun c => c.plt = plt ∧ c.ret ≠ .failed

/-- The row is a function's, and the function's code is there. -/
structure Holds (P : Image ι) (space : Nat → Word) (row : Row) (f : ι) : Prop where
  plt : row.plt = P.plt f
  aligned : 4 ∣ row.startAddress
  ends : row.endAddress = row.startAddress + 4 * P.words f
  code : ∀ k < P.words f, space (row.startAddress + 4 * k) = P.dram (P.startaddr f + 4 * k)

variable (P) in
/-- The table with the rows `live`. -/
def tableOf (live : List Row) : List Row :=
  P.firstRow :: (live ++ List.replicate (CACHE_TABLE_SIZE - 1 - live.length) P.freeRow)

variable (P) in
/-- Where the entry of `f` goes. -/
def targetOf (live : List Row) (f : ι) : Nat := if P.plt f ∈ live.map Row.plt then P.countedcall else P.cacheman

structure Cached (P : Image ι) (s : State) (live : List Row) : Prop where
  table : s.table = P.tableOf live
  few : live.length ≤ CACHE_TABLE_SIZE - 1
  laid : Laid Row.startAddress Row.endAddress P.spaceLow live P.cachespacetop
  distinct : (live.map Row.plt).Nodup
  holds : ∀ row ∈ live, ∃ f, P.Holds s.space row f
  counts : ∀ row ∈ live, row.referenceCount = active s row.plt
  branch : ∀ f, s.branch (P.plt f - 4) = blTo (P.plt f - 4) (P.targetOf live f)
  cached : ∀ c ∈ s.calls, c.ret ≠ .failed → ∃ row ∈ live, row.plt = c.plt ∧ row.startAddress = c.address
  failed : ∀ c ∈ s.calls, c.ret = .failed → ∃ f, c.plt = P.plt f ∧ c.address = P.startaddr f

theorem words_pos (f : ι) : 0 < P.words f := by
  have := P.size_pos f
  unfold words
  omega

theorem size_le_words (f : ι) : P.size f ≤ 4 * P.words f := by
  unfold words
  omega

variable {s : State} {live : List Row}

theorem Cached.start_lt (H : Cached P s live) {row : Row} (hrow : row ∈ live) :
    row.startAddress < P.cachespacetop := by
  obtain ⟨f, hf⟩ := H.holds row hrow
  have hends := hf.ends
  have hpos := P.words_pos f
  obtain ⟨-, -, htop⟩ := H.laid.bounds hrow
  omega

theorem Cached.start (H : P.Fresh s) : Cached P s [] where
  table := H.table
  few := Nat.zero_le _
  laid := P.space
  distinct := .nil
  holds := fun _ h => nomatch h
  counts := fun _ h => nomatch h
  branch := H.branch
  cached := by
    intro c hc
    rw [H.calls] at hc
    cases hc
  failed := by
    intro c hc
    rw [H.calls] at hc
    cases hc

/-- Without a row, no call runs in the cache. -/
theorem Cached.inactive (H : Cached P s live) {plt : Nat} (h : plt ∉ live.map Row.plt) : active s plt = 0 := by
  rw [active, List.countP_eq_zero]
  intro c hc hactive
  obtain ⟨rfl, hret⟩ := of_decide_eq_true hactive
  obtain ⟨row, hrow, hplt, -⟩ := H.cached c hc hret
  exact h (hplt ▸ List.mem_map_of_mem hrow)

/-! ## Loading -/

variable (P) in
def newRow (f : ι) (dest : Nat) : Row := ⟨dest, dest + 4 * P.words f, 1, P.plt f⟩

variable (P) in
/-- The function was copied to `dest`. -/
def loadedAt (f : ι) (dest : Nat) (s : State) : State :=
  { s with
    space := copyLoop P.dram (P.words f) (P.startaddr f) dest s.space
    table := addRow s.table (P.newRow f dest)
    branch := Function.update s.branch (P.plt f - 4) (blTo (P.plt f - 4) P.countedcall) }

/-- Loading is first fit, if a row is free. -/
theorem load_eq (H : Cached P s live) (f : ι) :
    P.load f s =
      if live.length = CACHE_TABLE_SIZE - 1 then none
      else (firstGap Row.startAddress Row.endAddress (P.size f) P.spaceLow live P.cachespacetop).map fun dest =>
        (dest, P.loadedAt f dest s) := by
  have hfew := H.few
  rw [load, H.table, tableOf]
  by_cases hfull : live.length = CACHE_TABLE_SIZE - 1
  · -- the last row is a function's
    obtain ⟨rows, last, rfl⟩ : ∃ rows last, live = rows ++ [last] := by
      refine (List.eq_nil_or_concat' live).resolve_left fun e => ?_
      rw [e] at hfull
      cases hfull
    have hlt := H.start_lt (List.mem_append_right rows List.mem_cons_self)
    have hlast : ((P.firstRow :: (rows ++ [last])).getLast?.map Row.startAddress) ≠ some P.cachespacetop := by
      rw [← List.cons_append, List.getLast?_concat, Option.map_some, ne_eq, Option.some.injEq]
      omega
    simp only [hfull, Nat.sub_self, List.replicate_zero, List.append_nil]
    rw [if_pos hlast, if_pos trivial]
  · obtain ⟨k, hk⟩ : ∃ k, CACHE_TABLE_SIZE - 1 - live.length = k + 1 := Nat.exists_eq_succ_of_ne_zero (by omega)
    have hlast : ((P.firstRow :: (live ++ List.replicate (k + 1) P.freeRow)).getLast?.map Row.startAddress) =
        some P.cachespacetop := by
      rw [List.replicate_succ', ← List.append_assoc, ← List.cons_append, List.getLast?_concat]
      rfl
    simp only [hk]
    rw [if_neg (not_not.mpr hlast), if_neg hfull, checkLoop_eq (P.size_pos f)]
    simp only [loadedAt, H.table, tableOf, hk]
    rfl

/-- What is aligned and behind `a + size` is behind the whole words. -/
theorem words_le {f : ι} {a b : Nat} (ha : 4 ∣ a) (hb : 4 ∣ b) (h : a + P.size f ≤ b) : a + 4 * P.words f ≤ b := by
  unfold words
  omega

theorem spaceLow_aligned (P : Image ι) : 4 ∣ P.spaceLow := by
  have := P.bot_aligned
  unfold spaceLow CACHE_TABLE_SIZE CACHE_TABLE_ENTRY_WIDTH
  omega

theorem active_enter (f : ι) (lr : Nat) {r : Return} (hr : r ≠ .failed) (address : Nat) (s : State) (plt : Nat) :
    active (P.enter f lr r address s) plt = active s plt + if P.plt f = plt then 1 else 0 := by
  rw [active, enter, List.countP_cons]
  by_cases h : P.plt f = plt <;> simp [h, hr, active]

theorem targetOf_insert (f : ι) (dest : Nat) (above behind : List Row) (g : ι) :
    P.targetOf (above ++ P.newRow f dest :: behind) g =
      if P.plt g = P.plt f then P.countedcall else P.targetOf (above ++ behind) g := by
  by_cases h : P.plt g = P.plt f
  · rw [if_pos h, targetOf, if_pos]
    exact List.mem_map.mpr ⟨P.newRow f dest, List.mem_append_right _ List.mem_cons_self, h.symm⟩
  · have hne : P.plt g ≠ (P.newRow f dest).plt := h
    simp only [targetOf, List.map_append, List.map_cons, List.mem_append, List.mem_cons, hne, false_or, if_neg h]

/-- Between the rows `above` and `behind` the function fits in at `dest`. -/
structure Gap (P : Image ι) (above behind : List Row) (f : ι) (dest : Nat) : Prop where
  above : Laid Row.startAddress Row.endAddress P.spaceLow above dest
  behind : Laid Row.startAddress Row.endAddress (dest + 4 * P.words f) behind P.cachespacetop
  aligned : 4 ∣ dest

theorem Cached.aligned (H : Cached P s live) {row : Row} (hrow : row ∈ live) :
    4 ∣ row.startAddress ∧ 4 ∣ row.endAddress := by
  obtain ⟨f, hf⟩ := H.holds row hrow
  have hends := hf.ends
  have := hf.aligned
  omega

/-- All rows are aligned, so the last word of the copy fits as well. -/
theorem Cached.gap (H : Cached P s live) {f : ι} {dest : Nat}
    (h : firstGap Row.startAddress Row.endAddress (P.size f) P.spaceLow live P.cachespacetop = some dest) :
    ∃ above behind, live = above ++ behind ∧ P.Gap above behind f dest := by
  obtain ⟨above, behind, rfl, habove, hbehind, hwhere⟩ := firstGap_some H.laid h
  have hdest : 4 ∣ dest := by
    rcases hwhere with rfl | ⟨row, hrow, rfl⟩
    · exact P.spaceLow_aligned
    · exact (H.aligned (List.mem_append_left _ hrow)).2
  refine ⟨above, behind, rfl, habove, ?_, hdest⟩
  cases behind with
  | nil => exact words_le hdest P.top_aligned hbehind
  | cons row behind =>
    have hrow := (H.aligned (List.mem_append_right _ List.mem_cons_self)).1
    exact ⟨words_le hdest hrow hbehind.1, hbehind.2⟩

theorem Gap.beside {above behind : List Row} {f : ι} {dest : Nat} (G : P.Gap above behind f dest) {row : Row}
    (hrow : row ∈ above ++ behind) : row.endAddress ≤ dest ∨ dest + 4 * P.words f ≤ row.startAddress := by
  rcases List.mem_append.mp hrow with hrow | hrow
  · exact .inl (G.above.bounds hrow).2.2
  · exact .inr (G.behind.bounds hrow).1

/-- The new row is sorted in between. -/
theorem Gap.addRow {above behind : List Row} {f : ι} {dest : Nat} (G : P.Gap above behind f dest)
    (hlen : (above ++ behind).length < CACHE_TABLE_SIZE - 1) :
    addRow (P.tableOf (above ++ behind)) (P.newRow f dest) = P.tableOf (above ++ P.newRow f dest :: behind) := by
  have hpos := P.words_pos f
  obtain ⟨k, hk⟩ : ∃ k, CACHE_TABLE_SIZE - 1 - (above ++ behind).length = k + 1 :=
    Nat.exists_eq_succ_of_ne_zero (by omega)
  have hk' : CACHE_TABLE_SIZE - 1 - (above ++ P.newRow f dest :: behind).length = k := by
    rw [List.length_append] at hk
    rw [List.length_append, List.length_cons]
    omega
  have hsplit : P.tableOf (above ++ behind) =
      P.firstRow :: above ++ (behind ++ List.replicate k P.freeRow ++ [P.freeRow]) := by
    rw [tableOf, hk, List.replicate_succ']
    simp only [List.append_assoc, List.cons_append]
  have hlow : ∀ row ∈ P.firstRow :: above, row.startAddress ≤ dest := by
    refine List.forall_mem_cons.mpr ⟨G.above.le, fun row hrow => ?_⟩
    obtain ⟨-, hle, hhi⟩ := G.above.bounds hrow
    exact Nat.le_trans hle hhi
  have hhigh : ∀ row ∈ behind ++ List.replicate k P.freeRow, dest < row.startAddress := by
    intro row hrow
    rcases List.mem_append.mp hrow with hrow | hrow
    · exact Nat.lt_of_lt_of_le (by omega) (G.behind.bounds hrow).1
    · rw [List.eq_of_mem_replicate hrow]
      exact Nat.lt_of_lt_of_le (by omega) G.behind.le
  rw [hsplit, addRow_eq (List.cons_ne_nil _ _) hlow hhigh, tableOf, hk']
  simp only [List.append_assoc, List.cons_append]

/-- What is beside the copy is as it was. -/
theorem Holds.loadedAt {row : Row} {f g : ι} {dest : Nat} (h : P.Holds s.space row g)
    (hside : row.endAddress ≤ dest ∨ dest + 4 * P.words f ≤ row.startAddress) :
    P.Holds (P.loadedAt f dest s).space row g := by
  have hends := h.ends
  refine ⟨h.plt, h.aligned, h.ends, fun k hk => ?_⟩
  rw [← h.code k hk]
  exact copyLoop_out _ _ _ _ _ _ (by omega)

theorem Gap.holds {above behind : List Row} {f : ι} {dest : Nat} (G : P.Gap above behind f dest) :
    P.Holds (P.loadedAt f dest s).space (P.newRow f dest) f :=
  ⟨rfl, G.aligned, rfl, fun k hk => copyLoop_in _ _ _ _ _ k hk⟩

/-- The call runs in the new copy of a function that was not in the table. -/
theorem Cached.loaded {above behind : List Row} (H : Cached P s (above ++ behind)) {f : ι} {dest : Nat}
    (G : P.Gap above behind f dest) (hnew : P.plt f ∉ (above ++ behind).map Row.plt)
    (hlen : (above ++ behind).length < CACHE_TABLE_SIZE - 1) (lr : Nat) :
    Cached P (P.enter f lr .loaded dest (P.loadedAt f dest s)) (above ++ P.newRow f dest :: behind) := by
  have hmem : ∀ row, row ∈ above ++ P.newRow f dest :: behind ↔ row = P.newRow f dest ∨ row ∈ above ++ behind := by
    intro row
    simp only [List.mem_append, List.mem_cons]
    tauto
  refine ⟨?_, ?_, G.above.insert (Nat.le_add_right _ _) G.behind, ?_, ?_, ?_, ?_, ?_, ?_⟩
  · rw [enter, loadedAt, H.table]
    exact G.addRow hlen
  · rw [List.length_append] at hlen
    rw [List.length_append, List.length_cons]
    omega
  · rw [List.map_append, List.map_cons, List.nodup_middle, ← List.map_append]
    exact List.nodup_cons.mpr ⟨hnew, H.distinct⟩
  · intro row hrow
    rcases (hmem row).mp hrow with rfl | hrow
    · exact ⟨f, G.holds⟩
    · obtain ⟨g, hg⟩ := H.holds row hrow
      exact ⟨g, hg.loadedAt (G.beside hrow)⟩
  · intro row hrow
    rw [active_enter f lr (by decide)]
    rcases (hmem row).mp hrow with rfl | hrow
    · have hnone : active (P.loadedAt f dest s) (P.plt f) = 0 := H.inactive hnew
      simp only [newRow, hnone, if_true]
    · have hne : P.plt f ≠ row.plt := fun e => hnew (e ▸ List.mem_map_of_mem hrow)
      rw [if_neg hne]
      exact H.counts row hrow
  · intro g
    rw [targetOf_insert]
    by_cases hg : P.plt g = P.plt f
    · rw [if_pos hg, hg]
      exact Function.update_self _ _ _
    · have hsite : P.plt g - 4 ≠ P.plt f - 4 := by
        have := P.plt_low f
        have := P.plt_low g
        omega
      rw [if_neg hg, ← H.branch g]
      exact Function.update_of_ne hsite _ _
  · intro c hc hret
    rcases List.mem_cons.mp hc with rfl | hc
    · exact ⟨P.newRow f dest, (hmem _).mpr (.inl rfl), rfl, rfl⟩
    · obtain ⟨row, hr, hrow⟩ := H.cached c hc hret
      exact ⟨row, (hmem row).mpr (.inr hr), hrow⟩
  · intro c hc hret
    rcases List.mem_cons.mp hc with rfl | hc
    · cases hret
    · exact H.failed c hc hret

/-! ## Unloading -/

variable (P) in
/-- Only the rows in use are left. -/
def unloaded (live : List Row) (s : State) : State :=
  { s with
    table := P.tableOf (live.filter inUse)
    branch := applyStores s.branch (P.unloadStores (live.filter (!inUse ·))) }

theorem unload_eq (H : Cached P s live) :
    P.unload s =
      if live.length = CACHE_TABLE_SIZE - 1 ∧ live.all inUse = true then none else some (P.unloaded live s) := by
  have hfew := H.few
  have hrows := live.length_eq_length_filter_add inUse
  have hfree : CACHE_TABLE_SIZE - 1 - live.length + (live.filter (!inUse ·)).length =
      CACHE_TABLE_SIZE - 1 - (live.filter inUse).length := by omega
  have hfull : CACHE_TABLE_SIZE - 1 - live.length = 0 ↔ live.length = CACHE_TABLE_SIZE - 1 := by omega
  have hfuel : live.length < CACHE_TABLE_SIZE := Nat.lt_of_le_of_lt hfew (by decide)
  rw [unload, H.table, tableOf]
  simp only
  rw [unloadLoop_eq _ _ _ _ hfuel fun row hrow => H.start_lt hrow, hfree]
  simp only [hfull]
  split <;> rfl

/-- An entry is one row's. -/
theorem Cached.row_unique (H : Cached P s live) {row row' : Row} (hrow : row ∈ live) (hrow' : row' ∈ live)
    (h : row.plt = row'.plt) : row = row' :=
  List.inj_on_of_nodup_map H.distinct hrow hrow' h

theorem Cached.site_ne (H : Cached P s live) {row : Row} (hrow : row ∈ live) {f : ι} (h : row.plt ≠ P.plt f) :
    row.plt - 4 ≠ P.plt f - 4 := by
  obtain ⟨g, hg⟩ := H.holds row hrow
  have := hg.plt
  have := P.plt_low f
  have := P.plt_low g
  omega

/-- Unloading leaves the rows in use where they are. -/
theorem Cached.unloaded (H : Cached P s live) : Cached P (P.unloaded live s) (live.filter inUse) := by
  have hkept : ∀ row ∈ live.filter inUse, row ∈ live := fun row hrow => (List.mem_filter.mp hrow).1
  refine ⟨rfl, ?_, H.laid.sublist List.filter_sublist, ?_, fun row hrow => H.holds row (hkept row hrow),
    fun row hrow => H.counts row (hkept row hrow), ?_, ?_, H.failed⟩
  · exact Nat.le_trans (List.length_filter_le _ _) H.few
  · exact H.distinct.sublist (List.filter_sublist.map _)
  · intro f
    by_cases hout : ∃ row ∈ live.filter (!inUse ·), row.plt = P.plt f
    · -- the entry is stored to, and its row is gone
      obtain ⟨row, hrow, hplt⟩ := hout
      obtain ⟨hrow, hunused⟩ := List.mem_filter.mp hrow
      have hgone : P.plt f ∉ (live.filter inUse).map Row.plt := by
        intro h
        obtain ⟨row', hrow', hplt'⟩ := List.mem_map.mp h
        obtain ⟨hrow', hused⟩ := List.mem_filter.mp hrow'
        rw [H.row_unique hrow' hrow (hplt'.trans hplt.symm)] at hused
        simp [hused] at hunused
      rw [targetOf, if_neg hgone]
      refine applyStores_eq ⟨_, List.mem_map.mpr ⟨row, List.mem_filter.mpr ⟨hrow, hunused⟩, rfl⟩, by rw [hplt]⟩ ?_
      intro x hx hsite
      obtain ⟨row', -, rfl⟩ := List.mem_map.mp hx
      simp only at hsite ⊢
      rw [hsite]
    · have hkeep : P.targetOf (live.filter inUse) f = P.targetOf live f := by
        have hiff : P.plt f ∈ (live.filter inUse).map Row.plt ↔ P.plt f ∈ live.map Row.plt := by
          constructor
          · intro h
            obtain ⟨row, hrow, hplt⟩ := List.mem_map.mp h
            exact List.mem_map.mpr ⟨row, hkept row hrow, hplt⟩
          · intro h
            obtain ⟨row, hrow, hplt⟩ := List.mem_map.mp h
            refine List.mem_map.mpr ⟨row, List.mem_filter.mpr ⟨hrow, ?_⟩, hplt⟩
            by_contra hunused
            exact hout ⟨row, List.mem_filter.mpr ⟨hrow, by simp [hunused]⟩, hplt⟩
        rw [targetOf, targetOf]
        simp only [hiff]
      rw [hkeep, ← H.branch f]
      refine applyStores_of_not_mem ?_
      intro x hx
      obtain ⟨row, hrow, rfl⟩ := List.mem_map.mp hx
      exact H.site_ne (List.mem_filter.mp hrow).1 fun hplt => hout ⟨row, hrow, hplt⟩
  · intro c hc hret
    obtain ⟨row, hrow, hplt, haddress⟩ := H.cached c hc hret
    have hactive : 0 < active s row.plt := List.countP_pos_iff.mpr ⟨c, hc, decide_eq_true ⟨hplt.symm, hret⟩⟩
    have hused : inUse row = true := by
      refine decide_eq_true ?_
      rw [H.counts row hrow]
      exact Nat.pos_iff_ne_zero.mp hactive
    exact ⟨row, List.mem_filter.mpr ⟨hrow, hused⟩, hplt, haddress⟩

end Image

end EDarts.SoftCache
