/-
  EDarts.Assets.CodeletsQueueProofs — the codelets queue is a byte ring, and what that
  makes of a run of calls (see `EDarts.Assets.CodeletsQueue`).

  `Holds` says which codelets the ring stores: their bytes, one after another from the
  head, split wherever the space ends. Both branches of the insertion are one store
  into the ring (`insert_eq`), both branches of the removal one load (`remove_eq`).

  - `queueEmpty_iff_balanced`: all along a run, the queue looks empty exactly when as
    many codelets were popped as pushed, if and only if no push is made with the head
    not above the tail and exactly 12 bytes free. Such a push makes the tail meet the
    head, so a full queue looks empty: `a_full_queue_looks_empty` does it with the 300
    bytes of the test. A size that 12 does not divide never gets there
    (`not_fillsRing`).
  - `refines_fifo`: with such a size the queue is a bounded first-in first-out queue of
    `size / 12` codelets, and a call that fails changes nothing.
-/

import EDarts.Lib.Ring
import EDarts.Lib.Runs
import EDarts.Assets.CodeletsQueue

namespace EDarts.Assets.CodeletsQueue

open Lib Multithreading

/-! ## Calls on a free queue -/

theorem lock_free (queue core : Word) {q : CodeletsQueue} (hf : q.lockMutex = 0) :
    ∃ w, lock queue core q = some { q with lockMutex := w } ∧
      ∀ q' : CodeletsQueue, q'.lockMutex = w → unlock queue q' = { q' with lockMutex := 0 } := by
  obtain ⟨r, w, hl, hu⟩ := dartsMutexLock_free (mutexPtr queue) core
  refine ⟨w, by rw [lock, hf, hl]; rfl, fun q' hq' => by rw [unlock, hq', hu]⟩

theorem insert_lockMutex (queue : Word) (c : Codelet) (q : CodeletsQueue) (w : Word) :
    insert queue c { q with lockMutex := w } = { insert queue c q with lockMutex := w } := by
  by_cases h : q.tailAddress + 12 < initAddress queue + q.size
  · simp only [insert, endAddress, h, if_true]
  · simp only [insert, endAddress, h, if_false]

theorem remove_lockMutex (queue : Word) (q : CodeletsQueue) (w : Word) :
    remove queue { q with lockMutex := w } =
      ((remove queue q).1, { (remove queue q).2 with lockMutex := w }) := by
  by_cases h : q.headAddress + 12 < initAddress queue + q.size
  · simp only [remove, endAddress, h, if_true]
  · simp only [remove, endAddress, h, if_false]

@[simp] theorem insert_lock (queue : Word) (c : Codelet) (q : CodeletsQueue) :
    (insert queue c q).lockMutex = q.lockMutex := by
  unfold insert; split <;> rfl

@[simp] theorem remove_lock (queue : Word) (q : CodeletsQueue) : (remove queue q).2.lockMutex = q.lockMutex := by
  unfold remove; split <;> rfl

/-- A push on a free queue returns, and leaves it free. -/
theorem push_free {queue : Word} (core : Word) (c : Codelet) {q : CodeletsQueue} (hv : isAddressValid queue = true)
    (hf : q.lockMutex = 0) :
    pushCodeletQueue queue core c q =
      some (if availableSpace q < 12 then (.notEnoughSpace, q) else (.successOp, insert queue c q)) := by
  obtain ⟨w, hl, hu⟩ := lock_free queue core hf
  have hself : ({ q with lockMutex := 0 } : CodeletsQueue) = q := by rw [← hf]
  have hins : ({ insert queue c q with lockMutex := 0 } : CodeletsQueue) = insert queue c q := by
    rw [← hf, ← insert_lock queue c q]
  simp only [pushCodeletQueue, hv, Bool.not_true, Bool.false_eq_true, if_false, hl, Option.map_some]
  rw [hu _ rfl, insert_lockMutex, hu _ rfl]
  simp only [hself, hins]
  rfl

theorem pop_free {queue : Word} (core : Word) {q : CodeletsQueue} (hv : isAddressValid queue = true)
    (hf : q.lockMutex = 0) :
    popCodeletQueue queue core q =
      some (if availableSpace q = q.size then ((.emptyQueue, none), q)
        else ((.successOp, some (remove queue q).1), (remove queue q).2)) := by
  obtain ⟨w, hl, hu⟩ := lock_free queue core hf
  have hself : ({ q with lockMutex := 0 } : CodeletsQueue) = q := by rw [← hf]
  have hrem : ({ (remove queue q).2 with lockMutex := 0 } : CodeletsQueue) = (remove queue q).2 := by
    rw [← hf, ← remove_lock queue q]
  simp only [popCodeletQueue, hv, Bool.not_true, Bool.false_eq_true, if_false, hl, Option.map_some]
  rw [hu _ rfl, remove_lockMutex, hu _ rfl]
  simp only [hself, hrem]
  rfl

/-! ## The space as a ring -/

/-- Where the space begins. -/
def base (queue : Word) : Nat := queue.toNat + 16

/-- A place for a queue of `N` bytes: its address has a core id, a codelet fits, and the
    space ends at least 12 bytes below `2 ^ 32`. -/
structure Space (queue : Word) (N : Nat) : Prop where
  valid : isAddressValid queue = true
  twelve : 12 ≤ N
  fits : queue.toNat + 16 + N + 12 ≤ 2 ^ 32

theorem Space.pos {queue : Word} {N : Nat} (S : Space queue N) : 0 < N := by have := S.twelve; omega

theorem Space.base_lt {queue : Word} {N : Nat} (S : Space queue N) : base queue + N < 2 ^ 32 := by
  have := S.fits
  unfold base; omega

theorem Space.base_le {queue : Word} {N : Nat} (S : Space queue N) : base queue + N ≤ 2 ^ 32 := Nat.le_of_lt S.base_lt

theorem initAddress_eq {queue : Word} {N : Nat} (S : Space queue N) :
    initAddress queue = BitVec.ofNat 32 (base queue) := by
  have := S.fits
  unfold initAddress base
  bv_omega

theorem endAddress_eq {queue : Word} {N : Nat} (S : Space queue N) {q : CodeletsQueue} (hs : q.size.toNat = N) :
    endAddress queue q = BitVec.ofNat 32 (base queue + N) := by
  have := S.fits
  unfold endAddress initAddress base
  bv_omega

variable {queue : Word} {N : Nat}

/-- Twelve bytes on from a position, with no wrap in 32 bits. -/
theorem toNat_add_twelve (S : Space queue N) (t : Nat) :
    (ringAddr 32 (base queue) N t + 12).toNat = base queue + t % N + 12 := by
  have ht := toNat_ringAddr S.pos S.base_le t
  have hlt := Nat.mod_lt t S.pos
  have hfit := S.fits
  unfold base at *
  bv_omega

theorem add_twelve_lt_end (S : Space queue N) {q : CodeletsQueue} (hs : q.size.toNat = N) (t : Nat) :
    ringAddr 32 (base queue) N t + 12 < endAddress queue q ↔ t % N + 12 < N := by
  have hb := S.base_lt
  rw [endAddress_eq S hs, BitVec.lt_def, toNat_add_twelve S, BitVec.toNat_ofNat, Nat.mod_eq_of_lt hb]
  omega

theorem add_twelve (S : Space queue N) {t : Nat} (h : t % N + 12 < N) :
    ringAddr 32 (base queue) N t + 12 = ringAddr 32 (base queue) N (t + 12) := by
  rw [← BitVec.toNat_inj, toNat_add_twelve S, toNat_ringAddr S.pos S.base_le, add_mod_of_lt (by omega), if_pos h,
    Nat.add_assoc]

theorem splitInsert_eq (S : Space queue N) : ∀ (bs : List Byte) (mem : Memory) (t : Nat),
    splitInsert (BitVec.ofNat 32 (base queue)) (BitVec.ofNat 32 (base queue + N)) mem (ringAddr 32 (base queue) N t) bs =
      (ringStore (base queue) N mem t bs, ringAddr 32 (base queue) N (t + bs.length)) := by
  intro bs
  induction bs with
  | nil => intro mem t; rfl
  | cons b bs ih =>
    intro mem t
    rw [splitInsert, ringAddr_succ S.pos S.base_lt, ih, ringStore, List.length_cons, Nat.add_assoc, Nat.add_comm 1]

theorem splitRemove_eq (S : Space queue N) (mem : Memory) : ∀ (n h : Nat),
    splitRemove (BitVec.ofNat 32 (base queue)) (BitVec.ofNat 32 (base queue + N)) mem n (ringAddr 32 (base queue) N h) =
      (ringLoad (base queue) N mem h n, ringAddr 32 (base queue) N (h + n)) := by
  intro n
  induction n with
  | zero => intro h; rfl
  | succ n ih =>
    intro h
    rw [splitRemove, ringAddr_succ S.pos S.base_lt, ih, Nat.add_comm n 1, ringLoad_add, ← Nat.add_assoc]
    rfl

/-- Whichever branch it takes, an insertion stores the codelet's bytes into the ring. -/
theorem insert_eq (S : Space queue N) {q : CodeletsQueue} (hs : q.size.toNat = N) {t : Nat}
    (ht : q.tailAddress = ringAddr 32 (base queue) N t) (c : Codelet) :
    insert queue c q = { q with
      mem := ringStore (base queue) N q.mem t c.bytes
      tailAddress := ringAddr 32 (base queue) N (t + 12) } := by
  by_cases h : t % N + 12 < N
  · have hc := (add_twelve_lt_end S hs t).mpr h
    rw [insert, ht, if_pos hc, ringStore_eq_storeBytes S.pos S.base_lt _ _ _ (by simpa using h), add_twelve S h]
  · have hc := fun e => h ((add_twelve_lt_end S hs t).mp e)
    rw [insert, ht, if_neg hc, initAddress_eq S, endAddress_eq S hs, splitInsert_eq S, Codelet.bytes_length]

theorem remove_eq (S : Space queue N) {q : CodeletsQueue} (hs : q.size.toNat = N) {h : Nat}
    (hh : q.headAddress = ringAddr 32 (base queue) N h) :
    remove queue q = (Codelet.ofBytes (ringLoad (base queue) N q.mem h 12),
      { q with headAddress := ringAddr 32 (base queue) N (h + 12) }) := by
  by_cases hlt : h % N + 12 < N
  · have hc := (add_twelve_lt_end S hs h).mpr hlt
    rw [remove, hh, if_pos hc, block_eq_ringLoad S.pos S.base_le _ (Nat.le_of_lt hlt), add_twelve S hlt]
  · have hc := fun e => hlt ((add_twelve_lt_end S hs h).mp e)
    rw [remove, hh, if_neg hc, initAddress_eq S, endAddress_eq S hs, splitRemove_eq S]

/-! ## What the ring holds -/

/-- The queue stores the codelets `L`, the oldest first, from ring position `h` on. -/
structure Holds (queue : Word) (N : Nat) (q : CodeletsQueue) (h : Nat) (L : List Codelet) : Prop where
  size : q.size.toNat = N
  free : q.lockMutex = 0
  head : q.headAddress = ringAddr 32 (base queue) N h
  tail : q.tailAddress = ringAddr 32 (base queue) N (h + 12 * L.length)
  room : 12 * L.length < N
  bytes : RingHolds (base queue) N q.mem h (L.flatMap Codelet.bytes)

theorem flatMap_bytes_length (L : List Codelet) : (L.flatMap Codelet.bytes).length = 12 * L.length := by
  induction L with
  | nil => rfl
  | cons c L ih => rw [List.flatMap_cons, List.length_append, ih, Codelet.bytes_length, List.length_cons]; omega

theorem holds_init (S : Space queue N) {newSize : Word} (hN : newSize.toNat = N) (q : CodeletsQueue) :
    Holds queue N (initCodeletsQueue queue newSize q).2 0 [] := by
  have hpos := S.pos
  have hinit : initAddress queue = ringAddr 32 (base queue) N 0 := by rw [initAddress_eq S, ringAddr, Nat.zero_mod]; rfl
  simp only [initCodeletsQueue, S.valid, Bool.not_true, Bool.false_eq_true, if_false]
  exact ⟨hN, rfl, hinit, hinit, by simpa using hpos, rfl⟩

/-- The head is not above the tail exactly when the codelets do not pass the end. -/
theorem head_le_tail (S : Space queue N) {q : CodeletsQueue} {h : Nat} {L : List Codelet} (H : Holds queue N q h L) :
    q.headAddress ≤ q.tailAddress ↔ h % N + 12 * L.length < N := by
  have hroom := H.room
  have hlt := Nat.mod_lt h S.pos
  rw [H.head, H.tail, BitVec.le_def, toNat_ringAddr S.pos S.base_le, toNat_ringAddr S.pos S.base_le,
    add_mod_of_lt hroom]
  split <;> omega

/-- The two formulas of the available space: the second holds a byte back. -/
theorem availableSpace_toNat (S : Space queue N) {q : CodeletsQueue} {h : Nat} {L : List Codelet}
    (H : Holds queue N q h L) :
    (availableSpace q).toNat =
      if h % N + 12 * L.length < N then N - 12 * L.length else N - 12 * L.length - 1 := by
  have hroom := H.room
  have hlt := Nat.mod_lt h S.pos
  have hb := S.base_lt
  have hs := H.size
  have hh : q.headAddress.toNat = base queue + h % N := by rw [H.head, toNat_ringAddr S.pos S.base_le]
  have ht : q.tailAddress.toNat = base queue + (h + 12 * L.length) % N := by
    rw [H.tail, toNat_ringAddr S.pos S.base_le]
  rw [add_mod_of_lt hroom] at ht
  by_cases e : h % N + 12 * L.length < N
  · rw [if_pos e] at ht ⊢
    rw [availableSpace, if_pos ((head_le_tail S H).mpr e)]
    bv_omega
  · rw [if_neg e] at ht ⊢
    rw [availableSpace, if_neg (fun h => e ((head_le_tail S H).mp h))]
    bv_omega

theorem availableSpace_eq_size (S : Space queue N) {q : CodeletsQueue} {h : Nat} {L : List Codelet}
    (H : Holds queue N q h L) : availableSpace q = q.size ↔ L = [] := by
  have hav := availableSpace_toNat S H
  have hpos := S.pos
  have hroom := H.room
  have hlt := Nat.mod_lt h S.pos
  rw [← BitVec.toNat_inj, hav, H.size]
  cases L with
  | nil =>
    simp only [List.length_nil, Nat.mul_zero, Nat.add_zero, if_pos hlt]
    simp
  | cons c L =>
    simp only [List.length_cons] at hroom ⊢
    have : ¬ (c :: L = []) := List.cons_ne_nil c L
    simp only [this, iff_false]
    split <;> omega

theorem queueEmpty_iff (S : Space queue N) {q : CodeletsQueue} {h : Nat} {L : List Codelet}
    (H : Holds queue N q h L) : queueEmpty q = true ↔ L = [] := by
  rw [queueEmpty, beq_iff_eq, availableSpace_eq_size S H]

/-! ## What a call does to the stored codelets -/

/-- A push that would make the tail meet the head: the head is not above the tail and
    exactly one codelet's bytes are free. -/
def FillsRing (q : CodeletsQueue) : Op → Prop
  | .push _ _ => q.headAddress ≤ q.tailAddress ∧ availableSpace q = 12
  | .pop _ => False

theorem fillsRing_iff (S : Space queue N) {q : CodeletsQueue} {h : Nat} {L : List Codelet} (H : Holds queue N q h L)
    (core : Word) (c : Codelet) :
    FillsRing q (.push core c) ↔ h % N + 12 * L.length < N ∧ 12 * L.length + 12 = N := by
  have hroom := H.room
  rw [FillsRing, head_le_tail S H, ← BitVec.toNat_inj, availableSpace_toNat S H]
  constructor
  · intro h
    obtain ⟨h1, h2⟩ := h
    rw [if_pos h1] at h2
    exact ⟨h1, by simp at h2; omega⟩
  · intro h
    obtain ⟨h1, h2⟩ := h
    rw [if_pos h1]
    exact ⟨h1, by simp; omega⟩

/-- A size that 12 does not divide is never filled to the last byte. -/
theorem not_fillsRing (S : Space queue N) (hN : N % 12 ≠ 0) {q : CodeletsQueue} {h : Nat} {L : List Codelet}
    (H : Holds queue N q h L) (op : Op) : ¬ FillsRing q op := by
  cases op with
  | push core c => rw [fillsRing_iff S H]; omega
  | pop core => exact id

/-- With a codelet's bytes free and one more left over, a push stores its codelet last. -/
theorem Holds.push (S : Space queue N) {q : CodeletsQueue} {h : Nat} {L : List Codelet} (H : Holds queue N q h L)
    (c : Codelet) (hroom : 12 * (L.length + 1) < N) : Holds queue N (insert queue c q) h (L ++ [c]) := by
  have hlen := flatMap_bytes_length L
  rw [insert_eq S H.size H.tail]
  refine ⟨H.size, H.free, H.head, ?_, by simpa using hroom, ?_⟩
  · simp only [List.length_append, List.length_singleton, Nat.mul_add, Nat.mul_one, Nat.add_assoc]
  · rw [List.flatMap_append, List.flatMap_singleton, ← hlen]
    exact H.bytes.append S.pos S.base_le (by rw [hlen, Codelet.bytes_length]; omega)

/-- A pop reads the oldest codelet, split or not, and leaves the others. -/
theorem Holds.pop (S : Space queue N) {q : CodeletsQueue} {h : Nat} {c : Codelet} {L : List Codelet}
    (H : Holds queue N q h (c :: L)) :
    (remove queue q).1 = c ∧ Holds queue N (remove queue q).2 (h + 12) L := by
  have hroom := H.room
  have htail := H.tail
  obtain ⟨hc, hrest⟩ := RingHolds.split c.bytes (L.flatMap Codelet.bytes) H.bytes
  rw [Codelet.bytes_length] at hc hrest
  rw [List.length_cons] at hroom htail
  rw [remove_eq S H.size H.head]
  refine ⟨by rw [hc, Codelet.ofBytes_bytes], H.size, H.free, rfl, ?_, by omega, hrest⟩
  simp only [htail, Nat.mul_add, Nat.mul_one, Nat.add_assoc, Nat.add_comm 12]

/-- The push that fills the ring is accepted and leaves the tail on the head. -/
theorem push_fills (S : Space queue N) {q : CodeletsQueue} {h : Nat} {L : List Codelet} (H : Holds queue N q h L)
    (core : Word) (c : Codelet) (hf : FillsRing q (.push core c)) :
    pushCodeletQueue queue core c q = some (.successOp, insert queue c q) ∧ queueEmpty (insert queue c q) = true := by
  have hlt : ¬ availableSpace q < 12 := by rw [hf.2]; decide
  obtain ⟨-, hN⟩ := (fillsRing_iff S H core c).mp hf
  refine ⟨by rw [push_free core c S.valid H.free, if_neg hlt], ?_⟩
  have hmeet : ringAddr 32 (base queue) N (h + 12 * L.length + 12) = ringAddr 32 (base queue) N h := by
    rw [Nat.add_assoc, hN, ringAddr, Nat.add_mod_right, ringAddr]
  rw [insert_eq S H.size H.tail, queueEmpty, availableSpace, hmeet, H.head]
  simp

/-- A push that does not fill the ring: refused and nothing changed, or stored last. -/
theorem push_holds (S : Space queue N) {q : CodeletsQueue} {h : Nat} {L : List Codelet} (H : Holds queue N q h L)
    (core : Word) (c : Codelet) (hf : ¬ FillsRing q (.push core c)) :
    (N ≤ 12 * (L.length + 1) ∧ pushCodeletQueue queue core c q = some (.notEnoughSpace, q)) ∨
    (12 * (L.length + 1) < N ∧ pushCodeletQueue queue core c q = some (.successOp, insert queue c q) ∧
      Holds queue N (insert queue c q) h (L ++ [c])) := by
  have hroom := H.room
  have hav := availableSpace_toNat S H
  rw [fillsRing_iff S H] at hf
  have hiff : availableSpace q < 12 ↔ N ≤ 12 * (L.length + 1) := by
    rw [BitVec.lt_def, hav]
    simp only [BitVec.reduceToNat]
    split <;> omega
  rw [push_free core c S.valid H.free]
  by_cases hlt : availableSpace q < 12
  · exact Or.inl ⟨hiff.mp hlt, by rw [if_pos hlt]⟩
  · have hsp : 12 * (L.length + 1) < N := Nat.lt_of_not_le fun e => hlt (hiff.mpr e)
    exact Or.inr ⟨hsp, by rw [if_neg hlt], H.push S c hsp⟩

theorem pop_holds (S : Space queue N) {q : CodeletsQueue} {h : Nat} {L : List Codelet} (H : Holds queue N q h L)
    (core : Word) :
    (L = [] ∧ popCodeletQueue queue core q = some ((.emptyQueue, none), q)) ∨
    ∃ c L' q', L = c :: L' ∧ popCodeletQueue queue core q = some ((.successOp, some c), q') ∧
      Holds queue N q' (h + 12) L' := by
  have hiff := availableSpace_eq_size S H
  rw [pop_free core S.valid H.free]
  cases L with
  | nil => exact Or.inl ⟨rfl, by rw [if_pos (hiff.mpr rfl)]⟩
  | cons c L =>
    obtain ⟨hc, hrest⟩ := H.pop S
    have hne : ¬ availableSpace q = q.size := fun e => List.cons_ne_nil c L (hiff.mp e)
    exact Or.inr ⟨c, L, _, rfl, by rw [if_neg hne, hc], hrest⟩

/-! ## Full is not empty -/

/-- The queue, and how many pushes and pops succeeded so far. -/
structure Counted where
  q : CodeletsQueue
  pushes : Nat
  pops : Nat

def countStep (queue : Word) (s : Counted) (op : Op) : Option (Out × Counted) :=
  (step queue s.q op).map fun r =>
    (r.1, match op, r.1.1 with
      | .push _ _, .successOp => ⟨r.2, s.pushes + 1, s.pops⟩
      | .pop _, .successOp => ⟨r.2, s.pushes, s.pops + 1⟩
      | _, _ => ⟨r.2, s.pushes, s.pops⟩)

def started (queue newSize : Word) (q : CodeletsQueue) : Counted := ⟨(initCodeletsQueue queue newSize q).2, 0, 0⟩

/-- The queue looks empty, to `queueEmpty` and to a pop, exactly when every codelet
    pushed was popped. -/
def NeverConfused (queue : Word) (s : Counted) : Prop :=
  s.pops ≤ s.pushes ∧ (queueEmpty s.q = true ↔ s.pushes = s.pops) ∧
    ∀ core, ((∃ r, popCodeletQueue queue core s.q = some r ∧ r.1.1 = .emptyQueue) ↔ s.pushes = s.pops)

/-- The ring stores what was pushed and not popped. -/
def Balanced (queue : Word) (N : Nat) (s : Counted) : Prop :=
  ∃ h L, Holds queue N s.q h L ∧ s.pushes = s.pops + L.length

theorem Balanced.neverConfused (S : Space queue N) {s : Counted} (B : Balanced queue N s) : NeverConfused queue s := by
  obtain ⟨h, L, H, hn⟩ := B
  have hnil : L = [] ↔ s.pushes = s.pops := by rw [← List.length_eq_zero_iff]; omega
  refine ⟨by omega, by rw [queueEmpty_iff S H, hnil], fun core => ?_⟩
  rw [← hnil]
  rcases pop_holds S H core with ⟨hL, hp⟩ | ⟨c, L', q', hL, hp, -⟩
  · exact ⟨fun _ => hL, fun _ => ⟨_, hp, rfl⟩⟩
  · refine ⟨?_, fun e => absurd (hL.symm.trans e) (List.cons_ne_nil c L')⟩
    intro h
    obtain ⟨r, hr, hc⟩ := h
    rw [hp] at hr
    obtain rfl := Option.some.inj hr
    cases hc

theorem Balanced.step (S : Space queue N) {s : Counted} (B : Balanced queue N s) (op : Op) (hf : ¬ FillsRing s.q op) :
    ∃ o s', countStep queue s op = some (o, s') ∧ Balanced queue N s' := by
  obtain ⟨h, L, H, hn⟩ := B
  cases op with
  | push core c =>
    rcases push_holds S H core c hf with ⟨-, hp⟩ | ⟨-, hp, H'⟩
    · exact ⟨_, _, by rw [countStep, CodeletsQueue.step, hp]; rfl, h, L, H, hn⟩
    · refine ⟨_, _, by rw [countStep, CodeletsQueue.step, hp]; rfl, h, L ++ [c], H', ?_⟩
      simp only [List.length_append, List.length_singleton]
      omega
  | pop core =>
    rcases pop_holds S H core with ⟨-, hp⟩ | ⟨c, L', q', hL, hp, H'⟩
    · exact ⟨_, _, by rw [countStep, CodeletsQueue.step, hp]; rfl, h, L, H, hn⟩
    · refine ⟨_, _, by rw [countStep, CodeletsQueue.step, hp]; rfl, _, L', H', ?_⟩
      simp only [hL, List.length_cons] at hn ⊢
      omega

theorem Balanced.start (S : Space queue N) {newSize : Word} (hN : newSize.toNat = N) (q : CodeletsQueue) :
    Balanced queue N (started queue newSize q) := ⟨0, [], holds_init S hN q, rfl⟩

/-- After a push that fills the ring, the queue is confused. -/
theorem Balanced.confused (S : Space queue N) {s : Counted} (B : Balanced queue N s) {op : Op} (hf : FillsRing s.q op) :
    ∃ o s', countStep queue s op = some (o, s') ∧ ¬ NeverConfused queue s' := by
  obtain ⟨h, L, H, hn⟩ := B
  cases op with
  | push core c =>
    obtain ⟨hp, he⟩ := push_fills S H core c hf
    refine ⟨_, _, by rw [countStep, CodeletsQueue.step, hp]; rfl, ?_⟩
    intro h
    obtain ⟨-, hemp, -⟩ := h
    have := hemp.mp he
    simp only at this
    omega
  | pop core => exact hf.elim

/-- As many pushes as codelets fit a multiple of 12, from the empty queue: the last one
    fills the ring. -/
theorem pushes_fill (S : Space queue N) (core : Word) (c : Codelet) : ∀ (n : Nat) (s : Counted) (L : List Codelet),
    Holds queue N s.q 0 L → 12 * (L.length + (n + 1)) = N →
      ¬ EachStep (countStep queue) (fun s op => ¬ FillsRing s.q op) s (List.replicate (n + 1) (.push core c)) := by
  intro n
  induction n with
  | zero =>
    rintro s L H hN ⟨hnot, -⟩
    refine hnot ((fillsRing_iff S H core c).mpr ⟨?_, by omega⟩)
    rw [Nat.zero_mod]; omega
  | succ n ih =>
    intro s L H hN ⟨hnot, hrest⟩
    rcases push_holds S H core c hnot with ⟨hfull, -⟩ | ⟨-, hp, H'⟩
    · omega
    · refine ih ⟨insert queue c s.q, s.pushes + 1, s.pops⟩ (L ++ [c]) H' ?_ (hrest (.successOp, none) _ ?_)
      · rw [List.length_append, List.length_singleton]; omega
      · rw [countStep, CodeletsQueue.step, hp]; rfl

/-- All along a run of calls the queue looks empty exactly when it is, if and only if
    no push fills the ring; and so it is in every run exactly for the sizes that 12 does
    not divide. -/
theorem queueEmpty_iff_balanced (queue newSize : Word) (q : CodeletsQueue) (S : Space queue newSize.toNat) :
    (∀ ops, Throughout (countStep queue) (NeverConfused queue) (started queue newSize q) ops ↔
      EachStep (countStep queue) (fun s op => ¬ FillsRing s.q op) (started queue newSize q) ops) ∧
    ((∀ ops, Throughout (countStep queue) (NeverConfused queue) (started queue newSize q) ops) ↔
      newSize.toNat % 12 ≠ 0) := by
  have hstart := Balanced.start S rfl q
  have hrun : ∀ ops, Throughout (countStep queue) (NeverConfused queue) (started queue newSize q) ops ↔
      EachStep (countStep queue) (fun s op => ¬ FillsRing s.q op) (started queue newSize q) ops := fun ops =>
    throughout_iff (A := fun _ _ => True) (fun s B => B.neverConfused S) (fun s op B _ hf => B.step S op hf)
      (fun s op B _ hf => B.confused S (Classical.not_not.mp hf)) ops _ hstart
      (EachStep.of_forall (fun _ _ => trivial) ops _)
  refine ⟨hrun, fun hall hdvd => ?_, fun hmod ops => ?_⟩
  · have h12 := S.twelve
    obtain ⟨n, hn⟩ : ∃ n, 12 * (n + 1) = newSize.toNat := ⟨newSize.toNat / 12 - 1, by omega⟩
    exact pushes_fill S 1 ⟨0, 0, 0⟩ n _ [] (holds_init S rfl q) (by simpa using hn) ((hrun _).mp (hall _))
  · -- no push of such a size fills the ring, so every step keeps the balance
    refine (throughout_iff (C := fun _ _ => True) (A := fun _ _ => True) (fun s B => B.neverConfused S)
      (fun s op B _ _ => B.step S op ?_) (fun s op _ _ h => absurd trivial h) ops _ hstart
      (EachStep.of_forall (fun _ _ => trivial) ops _)).mpr (EachStep.of_forall (fun _ _ => trivial) ops _)
    obtain ⟨h, L, H, -⟩ := B
    exact not_fillsRing S hmod H op

theorem space_test (N : Nat) (h : 12 ≤ N) (hf : N < 1000) : Space 0x80803004 N :=
  ⟨rfl, h, by simp only [BitVec.reduceToNat]; omega⟩

/-- The test's queue, before `initCodeletsQueue`. -/
def testQueue : CodeletsQueue := ⟨0, 0, 0, 0, fun _ => 0⟩

/-- With the runtime's 200 bytes every run keeps full and empty apart, one that pushes
    until the queue is full and then pops among them. -/
theorem queueEmpty_iff_balanced_200 :
    Throughout (countStep 0x80803004) (NeverConfused 0x80803004) (started 0x80803004 200 testQueue)
      (List.replicate 17 (.push 0x808 ⟨0, 0, 0⟩) ++ [.pop 0x808]) :=
  (queueEmpty_iff_balanced 0x80803004 200 testQueue (space_test 200 (by decide) (by decide))).2.mpr (by decide) _

/-- The test's queue of 300 bytes, filled: 25 pushes succeed and the queue looks empty. -/
theorem a_full_queue_looks_empty :
    ¬ ∀ queue newSize q, Space queue newSize.toNat → ∀ ops,
      Throughout (countStep queue) (NeverConfused queue) (started queue newSize q) ops := by
  intro hall
  let ops := List.replicate 25 (Op.push 0x808 ⟨0, 0, 0⟩)
  have hrun : (run (countStep 0x80803004) (started 0x80803004 300 testQueue) ops).map
      (fun r => (queueEmpty r.2.q, r.2.pushes, r.2.pops)) = some (true, 25, 0) := by decide +kernel
  obtain ⟨⟨os, s⟩, hrun, hs⟩ := Option.map_eq_some_iff.mp hrun
  simp only [Prod.mk.injEq] at hs
  obtain ⟨he, hpush, hpop⟩ := hs
  have hP := (hall 0x80803004 300 testQueue (space_test 300 (by decide) (by decide)) ops).last hrun
  have := hP.2.1.mp he
  omega

/-! ## A bounded queue -/

def ofFifo : Fifo.Out Codelet → Out
  | .pushed => (.successOp, none)
  | .full => (.notEnoughSpace, none)
  | .popped c => (.successOp, some c)
  | .empty => (.emptyQueue, none)

/-- What a bounded queue of codelets answers to the calls. -/
def fifoStep (cap : Nat) (L : List Codelet) : Op → Out × List Codelet
  | .push _ c => (ofFifo (Fifo.step cap L (.push c)).1, (Fifo.step cap L (.push c)).2)
  | .pop _ => (ofFifo (Fifo.step cap L .pop).1, (Fifo.step cap L .pop).2)

/-- One call agrees with the bounded queue; if it fails, it changes nothing. -/
theorem step_fifo (S : Space queue N) (hN : N % 12 ≠ 0) {q : CodeletsQueue} {h : Nat} {L : List Codelet}
    (H : Holds queue N q h L) (op : Op) :
    ∃ q', step queue q op = some ((fifoStep (N / 12) L op).1, q') ∧
      (∃ h', Holds queue N q' h' (fifoStep (N / 12) L op).2) ∧ ((fifoStep (N / 12) L op).1.1 ≠ .successOp → q' = q) := by
  cases op with
  | push core c =>
    rcases push_holds S H core c (not_fillsRing S hN H _) with ⟨hfull, hp⟩ | ⟨hroom, hp, H'⟩
    · have hcap : ¬ L.length < N / 12 := by omega
      rw [CodeletsQueue.step, hp, fifoStep, Fifo.step, if_neg hcap]
      exact ⟨q, rfl, ⟨h, H⟩, fun _ => rfl⟩
    · have hcap : L.length < N / 12 := by omega
      rw [CodeletsQueue.step, hp, fifoStep, Fifo.step, if_pos hcap]
      exact ⟨_, rfl, ⟨h, H'⟩, fun hne => absurd rfl hne⟩
  | pop core =>
    rcases pop_holds S H core with ⟨rfl, hp⟩ | ⟨c, L', q', rfl, hp, H'⟩
    · exact ⟨q, hp, ⟨h, H⟩, fun _ => rfl⟩
    · exact ⟨q', hp, ⟨_, H'⟩, fun hne => absurd rfl hne⟩

/-- With a size that 12 does not divide, every run of calls answers as a bounded queue of
    `newSize / 12` codelets does; wherever it stands then, the mutex is free and a call
    that fails changes nothing. -/
theorem refines_fifo (queue newSize : Word) (q : CodeletsQueue) (S : Space queue newSize.toNat)
    (hmod : newSize.toNat % 12 ≠ 0) (ops : List Op) :
    ∃ q', run (step queue) (initCodeletsQueue queue newSize q).2 ops =
        some ((absRun (fifoStep (newSize.toNat / 12)) [] ops).1, q') ∧
      q'.lockMutex = 0 ∧
      ∀ op, ∃ out q'', step queue q' op = some (out, q'') ∧ q''.lockMutex = 0 ∧ (out.1 ≠ .successOp → q'' = q') := by
  obtain ⟨q', hrun, h, H⟩ := run_refines (fifoStep (newSize.toNat / 12)) (fun q L => ∃ h, Holds queue newSize.toNat q h L)
    (fun q L op ⟨h, H⟩ => by
      obtain ⟨q', hst, H', -⟩ := step_fifo S hmod H op
      exact ⟨q', hst, H'⟩)
    ops _ [] ⟨0, holds_init S rfl q⟩
  refine ⟨q', hrun, H.free, fun op => ?_⟩
  obtain ⟨q'', hst, ⟨h'', H''⟩, hfail⟩ := step_fifo S hmod H op
  exact ⟨_, q'', hst, H''.free, hfail⟩

/-- Codelets with different bytes. -/
def numbered (i : Nat) : Codelet := ⟨BitVec.ofNat 32 i, 0x6088, 0x100 + 0x01020304 * BitVec.ofNat 32 i⟩

/-- The runtime's 200 bytes hold 16 codelets: the 17th push is refused. After a pop it is not, and
    the codelet is split: 8 of its bytes are at the end of the space and 4 at the start. All come
    out as they went in. -/
theorem refines_fifo_200 :
    ∃ q', run (step 0x80803004) (initCodeletsQueue 0x80803004 200 testQueue).2
        ((List.range 17).map (fun i => .push 0x808 (numbered i)) ++ [.pop 0x809, .push 0x808 (numbered 16)] ++
          List.replicate 16 (.pop 0x809)) =
      some (List.replicate 16 (.successOp, none) ++
        [(.notEnoughSpace, none), (.successOp, some (numbered 0)), (.successOp, none)] ++
        (List.range 16).map (fun i => (.successOp, some (numbered (i + 1)))), q') :=
  (refines_fifo 0x80803004 200 testQueue (space_test 200 (by decide) (by decide)) (by decide)
    ((List.range 17).map (fun i => .push 0x808 (numbered i)) ++ [.pop 0x809, .push 0x808 (numbered 16)] ++
      List.replicate 16 (.pop 0x809))).imp fun _ h => h.1

end EDarts.Assets.CodeletsQueue
