/-
  EDarts.Assets.CodeletsQueueModular — the two branches of a push and of a pop are one
  modular copy, for any header that points into the space (see
  `EDarts.Assets.CodeletsQueueProofs` for runs of calls).

  Byte `i` of a codelet stored at address `a` is `offset` bytes behind `a`, counted around
  the space: at `base + (a - base + i) % size`. What else the header or the space holds
  does not matter, and a call that returns leaves the mutex as it found it.

  - `push_pop_modular`: a push that succeeds stores the codelet's bytes there, from the
    tail on, a pop reads them from the head on, each moves its end by the same rule and
    changes nothing else. A pop from where a codelet was pushed returns it.
-/

import EDarts.Assets.CodeletsQueueProofs

namespace EDarts.Assets.CodeletsQueue

open Lib Multithreading

variable {queue core : Word} {c : Codelet} {q q' : CodeletsQueue}

/-! ## Positions -/

/-- The address `i` bytes on from `a`, around the space. -/
def position (queue : Word) (q : CodeletsQueue) (a : Word) (i : Nat) : Nat :=
  base queue + (a.toNat - base queue + i) % q.size.toNat

/-- `a` points into the space. -/
def InSpace (queue : Word) (q : CodeletsQueue) (a : Word) : Prop :=
  base queue ≤ a.toNat ∧ a.toNat < base queue + q.size.toNat

instance (queue : Word) (q : CodeletsQueue) (a : Word) : Decidable (InSpace queue q a) :=
  inferInstanceAs (Decidable (_ ∧ _))

/-- A header for a space that holds a codelet and ends 12 bytes below `2 ^ 32`. -/
structure Positioned (queue : Word) (q : CodeletsQueue) : Prop where
  twelve : 12 ≤ q.size.toNat
  fits : queue.toNat + 16 + q.size.toNat + 12 ≤ 2 ^ 32
  head : InSpace queue q q.headAddress
  tail : InSpace queue q q.tailAddress

theorem Positioned.space (P : Positioned queue q) (hv : isAddressValid queue = true) : Space queue q.size.toNat :=
  ⟨hv, P.twelve, P.fits⟩

/-- An address in the space is a position of the ring. -/
theorem InSpace.eq_ringAddr {a : Word} (h : InSpace queue q a) :
    a = ringAddr 32 (base queue) q.size.toNat (a.toNat - base queue) := by
  obtain ⟨hlo, hhi⟩ := h
  have ha := a.isLt
  rw [← BitVec.toNat_inj, ringAddr, Nat.mod_eq_of_lt (by omega), BitVec.toNat_ofNat, Nat.mod_eq_of_lt (by omega)]
  omega

theorem position_eq (queue : Word) (q : CodeletsQueue) (a : Word) (i : Nat) :
    BitVec.ofNat 32 (position queue q a i) = ringAddr 32 (base queue) q.size.toNat (a.toNat - base queue + i) := rfl

theorem toNat_position (S : Space queue q.size.toNat) (a : Word) (i : Nat) :
    (ringAddr 32 (base queue) q.size.toNat (a.toNat - base queue + i)).toNat = position queue q a i :=
  toNat_ringAddr S.pos S.base_le _

theorem position_inSpace (S : Space queue q.size.toNat) (a : Word) (i : Nat) :
    InSpace queue q (BitVec.ofNat 32 (position queue q a i)) := by
  have hlt := Nat.mod_lt (a.toNat - base queue + i) S.pos
  rw [position_eq, InSpace, toNat_position S, position]
  omega

/-! ## The mutex around a call -/

/-- A lock that returns, with the unlock behind it, leaves the word as it was; and it was
    0 unless the mutex is refused. -/
theorem lock_unlock (h : lock queue core q = some q') :
    q' = { q with lockMutex := q'.lockMutex } ∧ (mutexPtr queue &&& 0x000FFFFF ≠ 0 → q.lockMutex = 0) ∧
      ∀ q'' : CodeletsQueue, q''.lockMutex = q'.lockMutex →
        unlock queue q'' = { q'' with lockMutex := q.lockMutex } := by
  simp only [lock, Option.map_eq_some_iff] at h
  obtain ⟨⟨r, w⟩, hl, rfl⟩ := h
  refine ⟨rfl, ?_⟩
  by_cases hm : mutexPtr queue &&& 0x000FFFFF = 0
  · simp only [dartsMutexLock, hm, if_true, Option.some.injEq, Prod.mk.injEq] at hl
    obtain ⟨-, rfl⟩ := hl
    refine ⟨fun hne => absurd hm hne, fun q'' hq => ?_⟩
    simp only [unlock, dartsMutexUnlock, hm, if_true, hq]
  · rw [dartsMutexLock_eq hm] at hl
    by_cases hw : q.lockMutex = 0
    · refine ⟨fun _ => hw, fun q'' _ => ?_⟩
      simp only [unlock, dartsMutexUnlock, hm, if_false, hw]
    · rw [if_neg hw] at hl
      cases hl

/-- What a push that succeeds did. -/
theorem push_succeeds (h : pushCodeletQueue queue core c q = some (.successOp, q')) :
    isAddressValid queue = true ∧ (mutexPtr queue &&& 0x000FFFFF ≠ 0 → q.lockMutex = 0) ∧ q' = insert queue c q := by
  unfold pushCodeletQueue at h
  by_cases hv : isAddressValid queue = true
  · simp only [hv, Bool.not_true, Bool.false_eq_true, if_false, Option.map_eq_some_iff] at h
    obtain ⟨q₁, hl, h⟩ := h
    obtain ⟨hq₁, hfree, hun⟩ := lock_unlock hl
    by_cases hs : availableSpace q₁ < 12
    · simp only [if_pos hs, Prod.mk.injEq, reduceCtorEq, false_and] at h
    · simp only [if_neg hs, Prod.mk.injEq, true_and] at h
      refine ⟨hv, hfree, ?_⟩
      rw [← h, hun _ (insert_lock queue c q₁), hq₁, insert_lockMutex, ← insert_lock queue c q]
  · simp only [hv, Bool.not_false, if_true, Option.some.injEq, Prod.mk.injEq, reduceCtorEq, false_and] at h

theorem pop_succeeds {out : Option Codelet} (h : popCodeletQueue queue core q = some ((.successOp, out), q')) :
    isAddressValid queue = true ∧ (mutexPtr queue &&& 0x000FFFFF ≠ 0 → q.lockMutex = 0) ∧
      out = some (remove queue q).1 ∧ q' = (remove queue q).2 := by
  unfold popCodeletQueue at h
  by_cases hv : isAddressValid queue = true
  · simp only [hv, Bool.not_true, Bool.false_eq_true, if_false, Option.map_eq_some_iff] at h
    obtain ⟨q₁, hl, h⟩ := h
    obtain ⟨hq₁, hfree, hun⟩ := lock_unlock hl
    by_cases hs : availableSpace q₁ = q₁.size
    · simp only [if_pos hs, Prod.mk.injEq, reduceCtorEq, false_and] at h
    · simp only [if_neg hs, Prod.mk.injEq, true_and] at h
      obtain ⟨hout, h⟩ := h
      rw [hun _ (remove_lock queue q₁), hq₁, remove_lockMutex, ← remove_lock queue q] at h
      rw [hq₁, remove_lockMutex] at hout
      exact ⟨hv, hfree, hout.symm, h.symm⟩
  · simp only [hv, Bool.not_false, if_true, Option.some.injEq, Prod.mk.injEq, reduceCtorEq, false_and] at h

/-! ## The copy -/

/-- The codelet went into the space at the tail, the tail went on, and that is all. -/
structure PushedAt (queue : Word) (c : Codelet) (q q' : CodeletsQueue) : Prop where
  stored : ∀ i < 12, c.bytes[i]? = some (q'.mem (BitVec.ofNat 32 (position queue q q.tailAddress i)))
  kept : ∀ a : Word, (∀ i < 12, a.toNat ≠ position queue q q.tailAddress i) → q'.mem a = q.mem a
  tail : q'.tailAddress.toNat = position queue q q.tailAddress 12
  inside : InSpace queue q q'.tailAddress
  header : q' = { q with mem := q'.mem, tailAddress := q'.tailAddress }
  /-- Of a mutex that is not refused, or was free. -/
  free : q.lockMutex = 0 ∨ mutexPtr queue &&& 0x000FFFFF ≠ 0 → q'.lockMutex = 0

/-- The codelet was read at the head, the head went on, and that is all. -/
structure PoppedAt (queue : Word) (c : Codelet) (q q' : CodeletsQueue) : Prop where
  read : ∀ i < 12, c.bytes[i]? = some (q.mem (BitVec.ofNat 32 (position queue q q.headAddress i)))
  head : q'.headAddress.toNat = position queue q q.headAddress 12
  inside : InSpace queue q q'.headAddress
  header : q' = { q with headAddress := q'.headAddress }
  free : q.lockMutex = 0 ∨ mutexPtr queue &&& 0x000FFFFF ≠ 0 → q'.lockMutex = 0

theorem pushedAt (P : Positioned queue q) (h : pushCodeletQueue queue core c q = some (.successOp, q')) :
    PushedAt queue c q q' := by
  obtain ⟨hv, hfree, rfl⟩ := push_succeeds h
  have S := P.space hv
  have hins := insert_eq S rfl P.tail.eq_ringAddr c
  have hmem : (insert queue c q).mem =
      ringStore (base queue) q.size.toNat q.mem (q.tailAddress.toNat - base queue) c.bytes := by rw [hins]
  have hlen := c.bytes_length
  have htwelve := P.twelve
  refine ⟨fun i hi => ?_, fun a ha => ?_, ?_, ?_, ?_, fun h => ?_⟩
  · rw [hmem, position_eq, ringStore_in S.pos S.base_le _ _ _ i (by omega) (by omega), List.getElem?_eq_getElem]
  · rw [hmem]
    apply ringStore_out
    intro i hi e
    refine ha i (by omega) ?_
    rw [e, toNat_position S]
  · rw [hins, toNat_position S]
  · rw [hins, ← position_eq]
    exact position_inSpace S _ _
  · rw [hins]
  · rw [insert_lock]
    exact h.elim id hfree

theorem poppedAt (P : Positioned queue q) {out : Option Codelet}
    (h : popCodeletQueue queue core q = some ((.successOp, out), q')) : ∃ c, out = some c ∧ PoppedAt queue c q q' := by
  obtain ⟨hv, hfree, rfl, rfl⟩ := pop_succeeds h
  have S := P.space hv
  have hrem := remove_eq S rfl P.head.eq_ringAddr
  refine ⟨_, rfl, fun i hi => ?_, ?_, ?_, ?_, fun h => ?_⟩
  · rw [hrem, Codelet.bytes_ofBytes (ringLoad_length _ _ _ _ _), position_eq]
    simp [ringLoad, hi]
  · rw [hrem, toNat_position S]
  · rw [hrem, ← position_eq]
    exact position_inSpace S _ _
  · rw [hrem]
  · rw [remove_lock]
    exact h.elim id hfree

/-- Whichever branch it takes, a push that succeeds is a modular copy to the tail and a pop
    one from the head; and a pop from where a codelet was pushed, with its bytes still
    there, returns it. -/
theorem push_pop_modular (queue core : Word) (c : Codelet) (q : CodeletsQueue) (P : Positioned queue q) :
    (∀ q', pushCodeletQueue queue core c q = some (.successOp, q') → PushedAt queue c q q') ∧
    (∀ out q', popCodeletQueue queue core q = some ((.successOp, out), q') →
      ∃ c', out = some c' ∧ PoppedAt queue c' q q') ∧
    (∀ q₁ q₂ core₂ out q₃, pushCodeletQueue queue core c q = some (.successOp, q₁) → Positioned queue q₂ →
      q₂.size = q.size → q₂.headAddress = q.tailAddress →
      (∀ i < 12, q₂.mem (BitVec.ofNat 32 (position queue q q.tailAddress i)) =
        q₁.mem (BitVec.ofNat 32 (position queue q q.tailAddress i))) →
      popCodeletQueue queue core₂ q₂ = some ((.successOp, out), q₃) → out = some c) := by
  refine ⟨fun q' h => pushedAt P h, fun out q' h => poppedAt P h, ?_⟩
  intro q₁ q₂ core₂ out q₃ hpush P₂ hsize hhead hsame hpop
  have hstored := (pushedAt P hpush).stored
  obtain ⟨c', rfl, hread⟩ := poppedAt P₂ hpop
  -- byte for byte, what was read is what was stored
  have hbytes : c'.bytes = c.bytes := by
    apply List.ext_getElem?
    intro i
    by_cases hi : i < 12
    · rw [hread.read i hi, hstored i hi, ← hsame i hi, hhead, position, position, hsize]
    · rw [List.getElem?_eq_none (by rw [Codelet.bytes_length]; omega),
        List.getElem?_eq_none (by rw [Codelet.bytes_length]; omega)]
  rw [← Codelet.ofBytes_bytes c', hbytes, Codelet.ofBytes_bytes]

/-- A queue of 17 bytes with both ends 7 bytes before the end of the space. -/
def splitQueue : CodeletsQueue := ⟨0x8080301E, 0x8080301E, 17, 0, fun _ => 0⟩

/-- The codelet goes around the end of the space, and comes back. -/
theorem push_pop_modular_split :
    ∃ q₁ q₂, pushCodeletQueue 0x80803004 0x808 ⟨1, 2, 3⟩ splitQueue = some (.successOp, q₁) ∧
      q₁.tailAddress.toNat = 0x80803014 + (10 + 12) % 17 ∧
      popCodeletQueue 0x80803004 0x809 q₁ = some ((.successOp, some ⟨1, 2, 3⟩), q₂) := by
  have P : Positioned 0x80803004 splitQueue := ⟨by decide, by decide, by decide, by decide⟩
  have hrun : ((pushCodeletQueue 0x80803004 0x808 ⟨1, 2, 3⟩ splitQueue).bind fun r =>
      (popCodeletQueue 0x80803004 0x809 r.2).map fun p => (r.1, p.1.1)) = some (.successOp, .successOp) := by
    decide +kernel
  obtain ⟨⟨code, q₁⟩, hpush, hrun⟩ := Option.bind_eq_some_iff.mp hrun
  obtain ⟨⟨⟨code', out⟩, q₂⟩, hpop, hcodes⟩ := Option.map_eq_some_iff.mp hrun
  obtain ⟨rfl, rfl⟩ := Prod.mk.inj hcodes
  have hM := push_pop_modular 0x80803004 0x808 ⟨1, 2, 3⟩ splitQueue P
  have hat := hM.1 q₁ hpush
  have hsize : q₁.size = splitQueue.size := by rw [hat.header]
  have hhead : q₁.headAddress = splitQueue.tailAddress := by rw [hat.header]; rfl
  have P₁ : Positioned 0x80803004 q₁ := by
    refine ⟨by rw [hsize]; decide, by rw [hsize]; decide, ?_, ?_⟩
    · rw [InSpace, hhead, hsize]
      decide
    · rw [InSpace, hsize]
      exact hat.inside
  obtain rfl := hM.2.2 q₁ q₁ 0x809 out q₂ hpush P₁ hsize hhead (fun _ _ => rfl) hpop
  exact ⟨q₁, q₂, hpush, hat.tail, hpop⟩

end EDarts.Assets.CodeletsQueue
