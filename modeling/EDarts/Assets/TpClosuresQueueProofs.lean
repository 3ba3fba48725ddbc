/-
  EDarts.Assets.TpClosuresQueueProofs — what the closures queue stores, and what each
  call does to it (see `EDarts.Assets.TpClosuresQueue`).

  `Lays` says how a list of closures lies in the space: straight, end to end from the
  head to the tail with no padding; or wrapped, the older ones from the head to the
  padding before the end, the newer ones from the start to the tail. A push puts its
  closure behind the last one (`Lays.push`); a pop takes the first one off
  (`Lays.pop`), except when that empties a queue whose tail stands at the end of the
  space: then the head goes to the start, the tail stays, and the queue shows the whole
  space as closures (`drain_at_end`).
-/

import EDarts.Lib.Tiling
import EDarts.Assets.TpClosuresQueue

namespace EDarts.Assets.TpClosuresQueue

open Lib Multithreading

/-! ## Calls on a free queue -/

theorem lock_free (queue core : Word) {q : TpClosuresQueue} (hf : q.lockMutex = 0) :
    ∃ w, lock queue core q = some { q with lockMutex := w } ∧
      ∀ q' : TpClosuresQueue, q'.lockMutex = w → unlock queue q' = { q' with lockMutex := 0 } := by
  obtain ⟨r, w, hl, hu⟩ := dartsMutexLock_free (mutexPtr queue) core
  refine ⟨w, by rw [lock, hf, hl]; rfl, fun q' hq' => by rw [unlock, hq', hu]⟩

theorem insert_lockMutex (queue : Word) (c : GenericTpClosure) (q : TpClosuresQueue) (w : Word) :
    insert queue c { q with lockMutex := w } = { insert queue c q with lockMutex := w } := by
  by_cases h : q.tailAddress ≤ q.headAddress
  · simp only [insert, h, if_true]
  · by_cases h' : tpSize c.sizeOfArgs ≤ initAddress queue + q.size - q.tailAddress
    · simp only [insert, h, h', if_true, if_false]
    · simp only [insert, h, h', if_false]

theorem removeTop_lockMutex (queue : Word) (q : TpClosuresQueue) (w : Word) :
    removeTop queue { q with lockMutex := w } = { removeTop queue q with lockMutex := w } := by
  have hpass : passTop queue { q with lockMutex := w } = { passTop queue q with lockMutex := w } := by
    by_cases h : q.headAddress + tpSize (sizeOfArgsAt q.mem q.headAddress) + q.padding = initAddress queue + q.size
    · simp only [passTop, h, if_true]
    · simp only [passTop, h, if_false]
  rw [removeTop, hpass, removeTop]
  by_cases h : (passTop queue q).headAddress = (passTop queue q).tailAddress
  · simp only [restart, h, if_true]
  · simp only [restart, h, if_false]

/-- Of the memory, the removal reads the `sizeOfArgs` at the head. -/
theorem removeTop_mem (queue : Word) (q : TpClosuresQueue) {m : Memory}
    (h : sizeOfArgsAt m q.headAddress = sizeOfArgsAt q.mem q.headAddress) :
    removeTop queue { q with mem := m } = { removeTop queue q with mem := m } := by
  have hpass : passTop queue { q with mem := m } = { passTop queue q with mem := m } := by
    simp only [passTop, h]
    by_cases hr : q.headAddress + tpSize (sizeOfArgsAt q.mem q.headAddress) + q.padding = initAddress queue + q.size
    · simp only [hr, if_true]
    · simp only [hr, if_false]
  rw [removeTop, hpass, removeTop]
  by_cases h : (passTop queue q).headAddress = (passTop queue q).tailAddress
  · simp only [restart, h, if_true]
  · simp only [restart, h, if_false]

@[simp] theorem insert_lock (queue : Word) (c : GenericTpClosure) (q : TpClosuresQueue) :
    (insert queue c q).lockMutex = q.lockMutex := by
  have h := congrArg TpClosuresQueue.lockMutex (insert_lockMutex queue c q q.lockMutex)
  exact h

@[simp] theorem removeTop_lock (queue : Word) (q : TpClosuresQueue) :
    (removeTop queue q).lockMutex = q.lockMutex := by
  have h := congrArg TpClosuresQueue.lockMutex (removeTop_lockMutex queue q q.lockMutex)
  exact h

@[simp] theorem removeTop_same (queue : Word) (q : TpClosuresQueue) : (removeTop queue q).mem = q.mem := by
  have h := congrArg TpClosuresQueue.mem (removeTop_mem queue q (m := q.mem) rfl)
  exact h

theorem push_free {queue : Word} (core : Word) (c : GenericTpClosure) {q : TpClosuresQueue}
    (hv : checkIfValidAddress queue = .successOp) (hf : q.lockMutex = 0) :
    pushTpClosureQueue queue core c q =
      some (if calculateMaxFreeSpaceQueue queue q ≤ tpSize c.sizeOfArgs then (.notEnoughSpace, q)
        else (.successOp, insert queue c q)) := by
  obtain ⟨w, hl, hu⟩ := lock_free queue core hf
  have hself : ({ q with lockMutex := 0 } : TpClosuresQueue) = q := by rw [← hf]
  have hins : ({ insert queue c q with lockMutex := 0 } : TpClosuresQueue) = insert queue c q := by
    rw [← hf, ← insert_lock queue c q]
  simp only [pushTpClosureQueue, hv, ne_eq, not_true_eq_false, if_false, hl, Option.map_some]
  rw [hu _ rfl, insert_lockMutex, hu _ rfl]
  simp only [hself, hins]
  rfl

theorem own_free {queue : Word} (core : Word) {q : TpClosuresQueue} (hv : checkIfValidAddress queue = .successOp)
    (hf : q.lockMutex = 0) :
    ownTpClosureQueue queue core q =
      some (if q.queueOwner ≠ 0 then (.notOwner, q) else (.successOp, { q with queueOwner := core })) := by
  obtain ⟨w, hl, hu⟩ := lock_free queue core hf
  simp only [ownTpClosureQueue, hv, ne_eq, not_true_eq_false, if_false, hl, Option.map_some]
  rw [hu _ rfl, hu _ rfl]
  simp only [← hf]

/-- The owner's pop of a queue that is not empty. -/
theorem popWith_free {queue core : Word} (release : TpClosuresQueue → TpClosuresQueue) {q : TpClosuresQueue}
    (hv : checkIfValidAddress queue = .successOp) (hf : q.lockMutex = 0) (ho : q.queueOwner = core)
    (hne : isTpClosureQueueEmpty q = false) :
    popWith release queue core q = some (.successOp, release (removeTop queue q)) := by
  subst ho
  obtain ⟨w, hl, hu⟩ := lock_free queue q.queueOwner hf
  have hrem : ({ removeTop queue q with lockMutex := 0 } : TpClosuresQueue) = removeTop queue q := by
    rw [← hf, ← removeTop_lock queue q]
  have hne' : isTpClosureQueueEmpty { q with lockMutex := w } = false := hne
  simp only [popWith, hv, ne_eq, not_true_eq_false, if_false, hl, Option.map_some, hne', Bool.false_eq_true]
  rw [removeTop_lockMutex, hu _ rfl]
  simp only [hrem]

/-! ## How the closures lie -/

/-- Where the space begins. -/
def base (queue : Word) : Nat := queue.toNat + 24

/-- A place for a queue of `N` bytes: its address has a core id, and the space ends
    below `2 ^ 32`. -/
structure Space (queue : Word) (N : Nat) : Prop where
  valid : checkIfValidAddress queue = .successOp
  fits : queue.toNat + 24 + N < 2 ^ 32

variable {queue : Word} {N : Nat}

theorem initAddress_toNat (S : Space queue N) : (initAddress queue).toNat = base queue := by
  have := S.fits
  unfold initAddress base
  bv_omega

theorem end_toNat (S : Space queue N) {size : Word} (hs : size.toNat = N) :
    (initAddress queue + size).toNat = base queue + N := by
  have := S.fits
  unfold initAddress base
  bv_omega

/-- Straight: end to end from the head to the tail. Wrapped: the older ones up to the
    padding before the end, the newer ones from the start. -/
inductive Layout (queue : Word) (N : Nat) (mem : Memory) (head tail padding : Nat) : List GenericTpClosure → Prop
  | straight {L : List GenericTpClosure} : padding = 0 → base queue ≤ head →
      Tiles GenericTpClosure.bytes mem head L tail → tail ≤ base queue + N → (L = [] → head = base queue) →
      Layout queue N mem head tail padding L
  | wrapped {c : GenericTpClosure} {front back : List GenericTpClosure} {e : Nat} : back ≠ [] →
      Tiles GenericTpClosure.bytes mem head (c :: front) e → e + padding = base queue + N →
      Tiles GenericTpClosure.bytes mem (base queue) back tail → tail < head →
      Layout queue N mem head tail padding (c :: (front ++ back))

/-- The free queue `q` of `N` bytes stores the closures `L`, the oldest first. -/
structure Lays (queue : Word) (N : Nat) (q : TpClosuresQueue) (L : List GenericTpClosure) : Prop where
  size : q.size.toNat = N
  free : q.lockMutex = 0
  layout : Layout queue N q.mem q.headAddress.toNat q.tailAddress.toNat q.padding.toNat L

theorem bytes_pos (c : GenericTpClosure) : 0 < c.bytes.length := by
  rw [GenericTpClosure.bytes_length, GenericTpClosure.size]; omega

theorem lays_init (S : Space queue N) {newSize : Word} (hN : newSize.toNat = N) (q : TpClosuresQueue) :
    Lays queue N (initTpClosuresQueue queue newSize q).2 [] := by
  have hinit := initAddress_toNat S
  simp only [initTpClosuresQueue, S.valid, ne_eq, not_true_eq_false, if_false]
  refine ⟨hN, rfl, .straight rfl (Nat.le_of_eq hinit.symm) rfl ?_ fun _ => hinit⟩
  simp only [hinit]; omega

theorem isTpClosureQueueEmpty_iff {q : TpClosuresQueue} {L : List GenericTpClosure} (H : Lays queue N q L) :
    isTpClosureQueueEmpty q = true ↔ L = [] := by
  rw [isTpClosureQueueEmpty, beq_iff_eq, ← BitVec.toNat_inj]
  obtain ⟨-, -, hlay⟩ := H
  cases hlay with
  | straight hp hb ht he hn =>
    constructor
    · intro h; rw [← h] at ht; exact ht.eq_nil bytes_pos
    · rintro rfl; exact ht
  | wrapped hb htf hpe htb hlt =>
    refine ⟨fun h => by omega, fun h => absurd h (List.cons_ne_nil _ _)⟩

/-- The oldest closure is at the head in one piece, inside the space. -/
theorem Lays.top {q : TpClosuresQueue} {c : GenericTpClosure} {L : List GenericTpClosure}
    (H : Lays queue N q (c :: L)) :
    block q.mem q.headAddress.toNat c.size = c.bytes ∧ base queue ≤ q.headAddress.toNat ∧
      q.headAddress.toNat + c.size ≤ base queue + N := by
  obtain ⟨-, -, hlay⟩ := H
  rw [← GenericTpClosure.bytes_length]
  cases hlay with
  | straight hp hb ht he hn =>
    have hle := Tiles.le ht.2
    exact ⟨ht.1, hb, by omega⟩
  | wrapped hb htf hpe htb hlt =>
    have hle := Tiles.le htf.2
    have hle' := Tiles.le htb
    exact ⟨htf.1, by omega, by omega⟩

/-! ## The insertion -/

theorem tpSize_toNat {c : GenericTpClosure} (hc : 12 + c.sizeOfArgs.toNat < 2 ^ 32) :
    (tpSize c.sizeOfArgs).toNat = c.size := by
  unfold tpSize GenericTpClosure.size
  bv_omega

theorem toNat_add_tpSize {c : GenericTpClosure} (hc : 12 + c.sizeOfArgs.toNat < 2 ^ 32) {p : Word}
    (hp : p.toNat + c.size < 2 ^ 32) : (p + tpSize c.sizeOfArgs).toNat = p.toNat + c.size := by
  rw [BitVec.toNat_add, tpSize_toNat hc, Nat.mod_eq_of_lt hp]

/-- The copied content is the whole closure. -/
theorem content_eq {c : GenericTpClosure} (hc : 12 + c.sizeOfArgs.toNat < 2 ^ 32) :
    c.bytes.take (tpSize c.sizeOfArgs).toNat = c.bytes := by
  rw [tpSize_toNat hc, List.take_of_length_le (by simp)]

/-- The larger gap, straight; the gap between tail and head, wrapped. -/
theorem calculateMaxFreeSpaceQueue_toNat (S : Space queue N) {q : TpClosuresQueue} (hs : q.size.toNat = N)
    (hh : base queue ≤ q.headAddress.toNat) (ht : q.tailAddress.toNat ≤ base queue + N) :
    (calculateMaxFreeSpaceQueue queue q).toNat =
      if q.headAddress.toNat ≤ q.tailAddress.toNat then
        max (q.headAddress.toNat - base queue) (base queue + N - q.tailAddress.toNat)
      else q.headAddress.toNat - q.tailAddress.toNat := by
  have hinit := initAddress_toNat S
  have hend := end_toNat S hs
  have hl : (q.headAddress - initAddress queue).toNat = q.headAddress.toNat - base queue := by
    rw [BitVec.toNat_sub_of_le (by rw [BitVec.le_def]; omega), hinit]
  have hr : (initAddress queue + q.size - q.tailAddress).toNat = base queue + N - q.tailAddress.toNat := by
    rw [BitVec.toNat_sub_of_le (by rw [BitVec.le_def]; omega), hend]
  by_cases h : q.headAddress ≤ q.tailAddress
  · rw [calculateMaxFreeSpaceQueue, if_pos h, if_pos (BitVec.le_def.mp h)]
    by_cases hlr : q.headAddress - initAddress queue ≤ initAddress queue + q.size - q.tailAddress
    · simp only [if_pos hlr]
      rw [BitVec.le_def, hl, hr] at hlr
      omega
    · simp only [if_neg hlr]
      rw [BitVec.le_def, hl, hr] at hlr
      omega
  · have hlt : ¬ q.headAddress.toNat ≤ q.tailAddress.toNat := fun e => h (BitVec.le_def.mpr e)
    rw [calculateMaxFreeSpaceQueue, if_neg h, if_neg hlt]
    exact BitVec.toNat_sub_of_le (by rw [BitVec.le_def]; omega)

/-- With more room than the closure takes in one of the gaps, the insertion lays it
    behind the last one. -/
theorem Lays.push (S : Space queue N) {q : TpClosuresQueue} {L : List GenericTpClosure} (H : Lays queue N q L)
    {c : GenericTpClosure} (hc : 12 + c.sizeOfArgs.toNat < 2 ^ 32)
    (hroom : ¬ calculateMaxFreeSpaceQueue queue q ≤ tpSize c.sizeOfArgs) : Lays queue N (insert queue c q) (L ++ [c]) := by
  have hfit := S.fits
  have hsz := tpSize_toNat hc
  have hlen := c.bytes_length
  have hinit := initAddress_toNat S
  have hend := end_toNat S H.size
  have hbase : base queue = queue.toNat + 24 := rfl
  obtain ⟨hs, hf, hlay⟩ := H
  rw [BitVec.le_def, hsz] at hroom
  simp only [insert, content_eq hc]
  cases hlay with
  | straight hp hb ht he hn =>
    have hle := Tiles.le ht
    rw [calculateMaxFreeSpaceQueue_toNat S hs hb he, if_pos hle] at hroom
    have hsp : (initAddress queue + q.size - q.tailAddress).toNat = base queue + N - q.tailAddress.toNat := by
      rw [BitVec.toNat_sub_of_le (by rw [BitVec.le_def]; omega), hend]
    by_cases hemp : q.tailAddress ≤ q.headAddress
    · -- the tail is not below the head, so the queue is empty and starts at the base
      have heq : q.headAddress.toNat = q.tailAddress.toNat := Nat.le_antisymm hle (BitVec.le_def.mp hemp)
      have hstart := hn ((heq ▸ ht).eq_nil bytes_pos)
      have hadd := toNat_add_tpSize (p := q.tailAddress) hc (by omega)
      rw [if_pos hemp]
      refine ⟨hs, hf, .straight hp hb ?_ (by rw [hadd]; omega) fun e => absurd e (by simp)⟩
      rw [hadd, ← hlen]
      exact ht.storeBytes_snoc c (by omega)
    · have hlt : ¬ q.tailAddress.toNat ≤ q.headAddress.toNat := fun e => hemp (BitVec.le_def.mpr e)
      rw [if_neg hemp]
      by_cases hfits : tpSize c.sizeOfArgs ≤ initAddress queue + q.size - q.tailAddress
      · rw [if_pos hfits]
        rw [BitVec.le_def, hsp, hsz] at hfits
        have hadd := toNat_add_tpSize (p := q.tailAddress) hc (by omega)
        refine ⟨hs, hf, .straight hp hb ?_ (by rw [hadd]; omega) fun e => absurd e (by simp)⟩
        rw [hadd, ← hlen]
        exact ht.storeBytes_snoc c (by omega)
      · rw [if_neg hfits]
        rw [BitVec.le_def, hsp, hsz] at hfits
        have hadd := toNat_add_tpSize (p := initAddress queue) hc (by omega)
        rw [hinit, ← hlen] at hadd
        -- the tail is above the head, so there is an oldest closure to wrap around
        cases L with
        | nil => exact absurd ht (by unfold Tiles; omega)
        | cons d front =>
          refine ⟨hs, hf, .wrapped (List.cons_ne_nil c []) (ht.storeBytes (by omega) (by omega) (by omega)) ?_ ?_ ?_⟩
          · rw [hsp]; omega
          · rw [hadd]
            exact ⟨by rw [← hinit]; exact block_storeBytes _ (by omega), rfl⟩
          · show _ < q.headAddress.toNat
            rw [hadd]; omega
  | wrapped hb htf hpe htb hlt =>
    have hle := Tiles.le htf
    have hle' := Tiles.le htb
    have hnot : ¬ q.headAddress.toNat ≤ q.tailAddress.toNat := by omega
    rw [calculateMaxFreeSpaceQueue_toNat S hs (by omega) (by omega), if_neg hnot] at hroom
    have hadd := toNat_add_tpSize (p := q.tailAddress) hc (by omega)
    rw [if_pos (BitVec.le_def.mpr (Nat.le_of_lt hlt))]
    simp only [List.cons_append, List.append_assoc]
    refine ⟨hs, hf, .wrapped (by simp) (htf.storeBytes (by omega) (by omega) (by omega)) hpe ?_ ?_⟩
    · rw [hadd, ← hlen]
      exact htb.storeBytes_snoc c (by omega)
    · show _ < q.headAddress.toNat
      rw [hadd]; omega

/-! ## The removal -/

/-- The removal would empty the queue, and the tail stands at the end of the space. -/
def DrainsAtEnd (queue : Word) (q : TpClosuresQueue) : Prop :=
  q.tailAddress = initAddress queue + q.size ∧
    q.headAddress + tpSize (sizeOfArgsAt q.mem q.headAddress) = q.tailAddress

instance (queue : Word) (q : TpClosuresQueue) : Decidable (DrainsAtEnd queue q) :=
  inferInstanceAs (Decidable (_ ∧ _))

/-- The `sizeOfArgs` in memory at the head is the oldest closure's. -/
theorem Lays.sizeOfArgsAt_head (S : Space queue N) {q : TpClosuresQueue} {c : GenericTpClosure}
    {L : List GenericTpClosure} (H : Lays queue N q (c :: L)) :
    sizeOfArgsAt q.mem q.headAddress = c.sizeOfArgs := by
  have hfit := S.fits
  obtain ⟨htop, hb, he⟩ := H.top
  have hsize : c.size = 12 + c.sizeOfArgs.toNat := rfl
  have hbase : base queue = queue.toNat + 24 := rfl
  have h8 : (q.headAddress + 8).toNat = q.headAddress.toNat + 8 := by bv_omega
  rw [← c.sizeOfArgs_bytes, ← htop, block_drop _ _ (by omega), block_take _ _ (by omega), sizeOfArgsAt, h8]

/-- Where the head goes. -/
theorem Lays.next (S : Space queue N) {q : TpClosuresQueue} {c : GenericTpClosure} {L : List GenericTpClosure}
    (H : Lays queue N q (c :: L)) :
    (q.headAddress + tpSize (sizeOfArgsAt q.mem q.headAddress)).toNat = q.headAddress.toNat + c.size := by
  have hfit := S.fits
  obtain ⟨-, hb, he⟩ := H.top
  have hsize : c.size = 12 + c.sizeOfArgs.toNat := rfl
  have hbase : base queue = queue.toNat + 24 := rfl
  rw [H.sizeOfArgsAt_head S, toNat_add_tpSize (by omega) (by omega)]

/-- The test for the padding or the end, in numbers. -/
theorem reachesEnd_iff (S : Space queue N) {q : TpClosuresQueue} {c : GenericTpClosure} {L : List GenericTpClosure}
    (H : Lays queue N q (c :: L)) (hle : q.headAddress.toNat + c.size + q.padding.toNat ≤ base queue + N) :
    q.headAddress + tpSize (sizeOfArgsAt q.mem q.headAddress) + q.padding = initAddress queue + q.size ↔
      q.headAddress.toNat + c.size + q.padding.toNat = base queue + N := by
  have hfit := S.fits
  have hbase : base queue = queue.toNat + 24 := rfl
  rw [← BitVec.toNat_inj, end_toNat S H.size, BitVec.toNat_add, H.next S, Nat.mod_eq_of_lt (by omega)]

theorem drainsAtEnd_iff (S : Space queue N) {q : TpClosuresQueue} {c : GenericTpClosure} {L : List GenericTpClosure}
    (H : Lays queue N q (c :: L)) :
    DrainsAtEnd queue q ↔
      q.tailAddress.toNat = base queue + N ∧ q.headAddress.toNat + c.size = q.tailAddress.toNat := by
  rw [DrainsAtEnd, ← BitVec.toNat_inj, ← BitVec.toNat_inj, end_toNat S H.size, H.next S]

/-- Below the padding and the end, the head moves behind the oldest closure. -/
theorem passTop_below (S : Space queue N) {q : TpClosuresQueue} {c : GenericTpClosure} {L : List GenericTpClosure}
    (H : Lays queue N q (c :: L)) (hlt : q.headAddress.toNat + c.size + q.padding.toNat < base queue + N) :
    passTop queue q = { q with headAddress := q.headAddress + tpSize (sizeOfArgsAt q.mem q.headAddress) } := by
  rw [passTop, if_neg fun e => ?_]
  have := (reachesEnd_iff S H (Nat.le_of_lt hlt)).mp e
  omega

/-- At them, it starts over. -/
theorem passTop_at (S : Space queue N) {q : TpClosuresQueue} {c : GenericTpClosure} {L : List GenericTpClosure}
    (H : Lays queue N q (c :: L)) (he : q.headAddress.toNat + c.size + q.padding.toNat = base queue + N) :
    passTop queue q = { q with headAddress := initAddress queue, padding := 0 } := by
  rw [passTop, if_pos ((reachesEnd_iff S H (Nat.le_of_eq he)).mpr he)]

/-- Unless the queue drains at the end, the removal leaves all closures but the oldest. -/
theorem Lays.pop (S : Space queue N) {q : TpClosuresQueue} {c : GenericTpClosure} {L : List GenericTpClosure}
    (H : Lays queue N q (c :: L)) (hd : ¬ DrainsAtEnd queue q) : Lays queue N (removeTop queue q) L := by
  have hnext := H.next S
  have hinit := initAddress_toNat S
  have hbelow := passTop_below S H
  have hat := passTop_at S H
  have hlen := c.bytes_length
  have hpos := bytes_pos c
  rw [drainsAtEnd_iff S H] at hd
  obtain ⟨hs, hf, hlay⟩ := H
  cases hlay with
  | straight hp hb ht he hn =>
    have hle := Tiles.le ht.2
    rw [removeTop, hbelow (by omega)]
    by_cases hempty : q.headAddress + tpSize (sizeOfArgsAt q.mem q.headAddress) = q.tailAddress
    · -- the last closure: the queue starts over
      have htail := hnext
      rw [hempty, ← hlen] at htail
      have hnil := ht.2
      rw [← htail] at hnil
      obtain rfl := hnil.eq_nil bytes_pos
      simp only [restart, hempty, if_true]
      exact ⟨hs, hf, .straight rfl (Nat.le_of_eq hinit.symm) rfl (by simp only [hinit]; omega) fun _ => hinit⟩
    · simp only [restart, hempty, if_false]
      have ht' := ht.2
      rw [hlen, ← hnext] at ht'
      refine ⟨hs, hf, .straight hp (by simp only [hnext]; omega) ht' he ?_⟩
      intro e
      subst e
      exact absurd (BitVec.toNat_inj.mp ht') hempty
  | wrapped hb htf hpe htb hlt =>
    rename_i front back e
    have hle := Tiles.le htf.2
    have hlt' := htb.lt bytes_pos hb
    cases front with
    | nil =>
      -- the last one before the padding: the head goes to the start
      have he : q.headAddress.toNat + c.bytes.length = e := htf.2
      have hne : initAddress queue ≠ q.tailAddress := fun h => by
        rw [← BitVec.toNat_inj, hinit] at h; omega
      rw [removeTop, hat (by omega)]
      simp only [restart, hne, if_false]
      have htail : q.tailAddress.toNat ≤ base queue + N := by omega
      exact ⟨hs, hf, .straight rfl (Nat.le_of_eq hinit.symm) (by rw [hinit]; exact htb) htail fun h => absurd h hb⟩
    | cons d front =>
      have hlt'' := Tiles.lt bytes_pos htf.2 (List.cons_ne_nil d front)
      have hne : q.headAddress + tpSize (sizeOfArgsAt q.mem q.headAddress) ≠ q.tailAddress := fun h => by
        rw [← BitVec.toNat_inj, hnext] at h; omega
      rw [removeTop, hbelow (by omega)]
      simp only [restart, hne, if_false]
      have ht' := htf.2
      rw [hlen, ← hnext] at ht'
      refine ⟨hs, hf, .wrapped hb ht' hpe htb ?_⟩
      show q.tailAddress.toNat < (q.headAddress + tpSize (sizeOfArgsAt q.mem q.headAddress)).toNat
      rw [hnext]; omega

/-- Draining a queue whose tail is at the end of the space moves the head only. -/
theorem drain_eq (S : Space queue N) {q : TpClosuresQueue} {c : GenericTpClosure} {L : List GenericTpClosure}
    (H : Lays queue N q (c :: L)) (hd : DrainsAtEnd queue q) :
    L = [] ∧ q.headAddress.toNat ≤ q.tailAddress.toNat ∧ initAddress queue ≠ q.tailAddress ∧
      removeTop queue q = { q with headAddress := initAddress queue, padding := 0 } := by
  have hinit := initAddress_toNat S
  have hat := passTop_at S H
  have hlen := c.bytes_length
  have hpos := bytes_pos c
  obtain ⟨htail, hnext⟩ := (drainsAtEnd_iff S H).mp hd
  obtain ⟨hs, hf, hlay⟩ := H
  cases hlay with
  | straight hp hb ht he hn =>
    have hne : initAddress queue ≠ q.tailAddress := fun h => by
      rw [← BitVec.toNat_inj, hinit] at h; omega
    have hnil := ht.2
    rw [hlen, hnext] at hnil
    refine ⟨hnil.eq_nil bytes_pos, by omega, hne, ?_⟩
    rw [removeTop, hat (by omega)]
    simp only [restart, hne, if_false]
  | wrapped hb htf hpe htb hlt => omega

/-- So the drained queue does not look empty. -/
theorem drain_at_end (S : Space queue N) {q : TpClosuresQueue} {c : GenericTpClosure} {L : List GenericTpClosure}
    (H : Lays queue N q (c :: L)) (hd : DrainsAtEnd queue q) :
    L = [] ∧ isTpClosureQueueEmpty (removeTop queue q) = false := by
  obtain ⟨hnil, -, hne, hrem⟩ := drain_eq S H hd
  refine ⟨hnil, ?_⟩
  rw [hrem, isTpClosureQueueEmpty]
  simpa using hne

/-! ## The tests' closures -/

/-- A closure with `n` bytes of arguments, which are all `b`. -/
def filled (b : Byte) (n : Nat) (h : n < 2 ^ 32) : GenericTpClosure where
  metadataCtor := 0x2000 + 0x10 * BitVec.ofNat 32 b.toNat
  userInitCtorExec := 0x2004 + 0x10 * BitVec.ofNat 32 b.toNat
  sizeOfArgs := BitVec.ofNat 32 n
  args := List.replicate n b
  args_length := by rw [List.length_replicate, BitVec.toNat_ofNat, Nat.mod_eq_of_lt h]

end EDarts.Assets.TpClosuresQueue
