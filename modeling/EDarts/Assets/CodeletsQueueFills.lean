/-
  EDarts.Assets.CodeletsQueueFills — what the codelets queue answers at every size.

  A push that fills the ring to its last byte (`FillsRing`; only sizes that are multiples of 12
  have one) puts the tail on the head, and the queue is an empty one: the codelets in it are
  gone, and the next push writes where the oldest was. `ringStep` is the bounded queue that
  does this. Whether a push fills the ring depends on where the oldest codelet is: only from the
  start of the space do the codelets end at its end.

  - `refines_ring`: all along a run of calls, of any size, the queue answers as `ringStep` does.
-/

import EDarts.Assets.CodeletsQueueProofs

namespace EDarts.Assets.CodeletsQueue

open Lib

structure Ring where
  /-- Where in the space the oldest codelet is. -/
  position : Nat
  stored : List Codelet

def Ring.Fills (N : Nat) (r : Ring) : Prop := r.position + 12 * r.stored.length < N ∧ 12 * r.stored.length + 12 = N

instance (N : Nat) (r : Ring) : Decidable (r.Fills N) := inferInstanceAs (Decidable (_ ∧ _))

def ringStep (N : Nat) (r : Ring) : Op → Out × Ring
  | .push _ c =>
    if r.Fills N then ((.successOp, none), { r with stored := [] })
    else if 12 * (r.stored.length + 1) < N then ((.successOp, none), { r with stored := r.stored ++ [c] })
    else ((.notEnoughSpace, none), r)
  | .pop _ =>
    match r.stored with
    | [] => ((.emptyQueue, none), r)
    | c :: L => ((.successOp, some c), ⟨(r.position + 12) % N, L⟩)

def Stores (queue : Word) (N : Nat) (q : CodeletsQueue) (r : Ring) : Prop :=
  ∃ h, h % N = r.position ∧ Holds queue N q h r.stored

instance (q : CodeletsQueue) : ∀ op, Decidable (FillsRing q op)
  | .push _ _ => inferInstanceAs (Decidable (q.headAddress ≤ q.tailAddress ∧ availableSpace q = 12))
  | .pop _ => isFalse id

variable {queue : Word} {N : Nat} {q : CodeletsQueue}

theorem stores_init (S : Space queue N) {newSize : Word} (hN : newSize.toNat = N) (q : CodeletsQueue) :
    Stores queue N (initCodeletsQueue queue newSize q).2 ⟨0, []⟩ := ⟨0, Nat.zero_mod N, holds_init S hN q⟩

/-- After the push that fills the ring nothing is stored. -/
theorem Holds.fills (S : Space queue N) {h : Nat} {L : List Codelet} (H : Holds queue N q h L) (core : Word) (c : Codelet)
    (hf : FillsRing q (.push core c)) : Holds queue N (insert queue c q) h [] := by
  obtain ⟨-, hN⟩ := (fillsRing_iff S H core c).mp hf
  have hmeet : ringAddr 32 (base queue) N (h + 12 * L.length + 12) = ringAddr 32 (base queue) N h := by
    rw [Nat.add_assoc, hN, ringAddr, Nat.add_mod_right, ringAddr]
  rw [insert_eq S H.size H.tail]
  exact ⟨H.size, H.free, H.head, hmeet, S.pos, rfl⟩

/-- A push fills the ring, or is refused, or stores its codelet last. -/
theorem Stores.push (S : Space queue N) {r : Ring} (H : Stores queue N q r) (core : Word) (c : Codelet) :
    (FillsRing q (.push core c) ∧ r.Fills N ∧ ¬ availableSpace q < 12 ∧
      pushCodeletQueue queue core c q = some (.successOp, insert queue c q) ∧
        Stores queue N (insert queue c q) { r with stored := [] }) ∨
    (¬ FillsRing q (.push core c) ∧ ¬ r.Fills N ∧
      (N ≤ 12 * (r.stored.length + 1) ∧ availableSpace q < 12 ∧
          pushCodeletQueue queue core c q = some (.notEnoughSpace, q) ∨
        12 * (r.stored.length + 1) < N ∧ ¬ availableSpace q < 12 ∧
          pushCodeletQueue queue core c q = some (.successOp, insert queue c q) ∧
            Stores queue N (insert queue c q) { r with stored := r.stored ++ [c] })) := by
  obtain ⟨h, hposition, H⟩ := H
  have hfills := fillsRing_iff S H core c
  have hfree := push_free core c S.valid H.free
  rw [hposition] at hfills
  by_cases hf : r.Fills N
  · have hring := hfills.mpr hf
    refine .inl ⟨hring, hf, ?_, (push_fills S H core c hring).1, h, hposition, H.fills S core c hring⟩
    rw [hring.2]
    decide
  · have hring : ¬ FillsRing q (.push core c) := fun hring => hf (hfills.mp hring)
    refine .inr ⟨hring, hf, ?_⟩
    rcases push_holds S H core c hring with ⟨hfull, hp⟩ | ⟨hroom, hp, H'⟩
    · refine .inl ⟨hfull, ?_, hp⟩
      by_contra hlt
      rw [hp, if_neg hlt] at hfree
      cases hfree
    · refine .inr ⟨hroom, fun hlt => ?_, hp, h, hposition, H'⟩
      rw [hp, if_pos hlt] at hfree
      cases hfree

theorem Stores.pop (S : Space queue N) {r : Ring} (H : Stores queue N q r) (core : Word) :
    (r.stored = [] ∧ popCodeletQueue queue core q = some ((.emptyQueue, none), q)) ∨
    ∃ c L q', r.stored = c :: L ∧ popCodeletQueue queue core q = some ((.successOp, some c), q') ∧
      Stores queue N q' ⟨(r.position + 12) % N, L⟩ := by
  obtain ⟨h, hposition, H⟩ := H
  rcases pop_holds S H core with hempty | ⟨c, L, q', hL, hp, H'⟩
  · exact .inl hempty
  · exact .inr ⟨c, L, q', hL, hp, h + 12, by rw [Nat.add_mod, hposition, Nat.add_mod_mod], H'⟩

theorem Stores.queueEmpty_iff (S : Space queue N) {r : Ring} (H : Stores queue N q r) : queueEmpty q = true ↔ r.stored = [] := by
  obtain ⟨h, -, H⟩ := H
  exact CodeletsQueue.queueEmpty_iff S H

/-- There is room in a queue that stores nothing. -/
theorem Stores.room (S : Space queue N) {r : Ring} (H : Stores queue N q r) (hempty : r.stored = []) :
    ¬ availableSpace q < 12 := by
  obtain ⟨h, -, H⟩ := H
  have h12 := S.twelve
  have hlt := Nat.mod_lt h S.pos
  rw [BitVec.lt_def, availableSpace_toNat S H, hempty, List.length_nil, Nat.mul_zero, Nat.add_zero, if_pos hlt,
    show (12 : Word).toNat = 12 from rfl]
  omega

theorem Stores.step (S : Space queue N) {r : Ring} (H : Stores queue N q r) (op : Op) :
    ∃ q', step queue q op = some ((ringStep N r op).1, q') ∧ Stores queue N q' (ringStep N r op).2 := by
  cases op with
  | push core c =>
    rw [CodeletsQueue.step, ringStep]
    rcases H.push S core c with ⟨-, hf, -, hp, H'⟩ | ⟨-, hf, ⟨hfull, -, hp⟩ | ⟨hroom, -, hp, H'⟩⟩
    · rw [if_pos hf, hp]
      exact ⟨_, rfl, H'⟩
    · rw [if_neg hf, if_neg (Nat.not_lt.mpr hfull), hp]
      exact ⟨q, rfl, H⟩
    · rw [if_neg hf, if_pos hroom, hp]
      exact ⟨_, rfl, H'⟩
  | pop core =>
    rcases H.pop S core with ⟨hempty, hp⟩ | ⟨c, L, q', hL, hp, H'⟩
    · rw [CodeletsQueue.step, hp, ringStep, hempty]
      exact ⟨q, rfl, H⟩
    · rw [CodeletsQueue.step, hp, ringStep, hL]
      exact ⟨q', rfl, H'⟩

/-- Of whatever size, all along a run of calls the queue answers as the bounded queue that
    loses what it stores when a push fills it to the end. -/
theorem refines_ring (queue newSize : Word) (q : CodeletsQueue) (S : Space queue newSize.toNat) (ops : List Op) :
    ∃ q', run (step queue) (initCodeletsQueue queue newSize q).2 ops =
      some ((absRun (ringStep newSize.toNat) ⟨0, []⟩ ops).1, q') := by
  obtain ⟨q', hrun, -⟩ := run_refines (ringStep newSize.toNat) (fun q r => Stores queue newSize.toNat q r)
    (fun q r op H => H.step S op) ops _ ⟨0, []⟩ (stores_init S rfl q)
  exact ⟨q', hrun⟩

/-- The 300 bytes of the test hold 25 codelets: after 26 pushes the first pop returns the last
    of them. -/
theorem refines_ring_300 :
    ∃ q', run (step 0x80803004) (initCodeletsQueue 0x80803004 300 testQueue).2
        (List.replicate 25 (.push 0x808 ⟨0, 0, 0⟩) ++ [.push 0x808 ⟨1, 0, 0⟩, .pop 0x809, .pop 0x809]) =
      some (List.replicate 26 (.successOp, none) ++ [(.successOp, some ⟨1, 0, 0⟩), (.emptyQueue, none)], q') :=
  refines_ring 0x80803004 300 testQueue (space_test 300 (by decide) (by decide))
    (List.replicate 25 (.push 0x808 ⟨0, 0, 0⟩) ++ [.push 0x808 ⟨1, 0, 0⟩, .pop 0x809, .pop 0x809])

end EDarts.Assets.CodeletsQueue
