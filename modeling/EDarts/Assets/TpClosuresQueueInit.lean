/-
  EDarts.Assets.TpClosuresQueueInit — what a closures queue remembers of the time before
  `initTpClosuresQueue`.

  Two runs begin with the same initialization of two different memories and go on with
  the same calls by any cores, `isTpClosureQueueEmpty` among them; a peak that succeeds
  also shows the closure that it points to. `Remains` is what makes the two agree: the
  bytes that are read, those of the stored closures and, after a drain at the end of the
  space, those of the closures before them, were all written since the initialization.
  `initTpClosuresQueue` sets every word of the header but `queueOwner`.

  - `same_answers`: with the same owner left in the header, the two runs see the same.
  - `init_forgets_iff`: the past is irrelevant exactly when the owner left is 0 in both.
  - `a_past_owner_is_remembered`: core 0x808 owned the queue before.
-/

import EDarts.Lib.Runs
import EDarts.Assets.TpClosuresQueueCalls

namespace EDarts.Assets.TpClosuresQueue

open Lib Multithreading

variable {queue : Word} {N : Nat}

/-! ## What the callers see -/

inductive Call where
  | op (o : Op)
  | isEmpty

/-- What a call shows: its answer and the closure that a peak points to, or whether the
    queue is empty. -/
inductive Seen where
  | answer (out : Out) (closure : List Byte)
  | empty (b : Bool)
  deriving DecidableEq

/-- The closure at the pointer of a peak that succeeded. -/
def peakedClosure (q : TpClosuresQueue) : Out → List Byte
  | (.successOp, some p) => block q.mem p.toNat (12 + (sizeOfArgsAt q.mem p).toNat)
  | _ => []

def callStep (queue : Word) (q : TpClosuresQueue) : Call → Option (Seen × TpClosuresQueue)
  | .op o => (step queue q o).map fun r => (.answer r.1 (peakedClosure q r.1), r.2)
  | .isEmpty => some (.empty (isTpClosureQueueEmpty q), q)

/-- The closure of a push takes less than `2 ^ 32` bytes. -/
def Fits : Call → Prop
  | .op (.push _ c) => 12 + c.sizeOfArgs.toNat < 2 ^ 32
  | _ => True

/-- What the calls see after the initialization of `q`; `none`: one of them spins forever. -/
def seen (queue newSize : Word) (q : TpClosuresQueue) (calls : List Call) : Option (List Seen) :=
  (run (callStep queue) (initTpClosuresQueue queue newSize q).2 calls).map Prod.fst

/-- The first own after the initialization of `q` succeeds. -/
def FirstOwnSucceeds (queue newSize : Word) (q : TpClosuresQueue) : Prop :=
  ∀ core, (ownTpClosureQueue queue core (initTpClosuresQueue queue newSize q).2).map Prod.fst = some .successOp

structure PastIrrelevant (queue newSize : Word) (q₁ q₂ : TpClosuresQueue) : Prop where
  seen : ∀ calls, (∀ c ∈ calls, Fits c) → seen queue newSize q₁ calls = seen queue newSize q₂ calls
  own₁ : FirstOwnSucceeds queue newSize q₁
  own₂ : FirstOwnSucceeds queue newSize q₂

/-! ## What is left in the space -/

/-- The queue stores `L`; straight, the closures `old` fill the space before the head. -/
structure Remains (queue : Word) (N : Nat) (q : TpClosuresQueue) (old L : List GenericTpClosure) : Prop where
  lays : Lays queue N q L
  old : q.headAddress.toNat ≤ q.tailAddress.toNat →
    Tiles GenericTpClosure.bytes q.mem (base queue) old q.headAddress.toNat

theorem remains_init (S : Space queue N) {newSize : Word} (hN : newSize.toNat = N) (q : TpClosuresQueue) :
    Remains queue N (initTpClosuresQueue queue newSize q).2 [] [] := by
  refine ⟨lays_init S hN q, fun _ => ?_⟩
  simp only [initTpClosuresQueue, S.valid, ne_eq, not_true_eq_false, if_false]
  exact (initAddress_toNat S).symm

theorem Remains.owner {q : TpClosuresQueue} {old L : List GenericTpClosure} (H : Remains queue N q old L)
    (owner : Word) : Remains queue N { q with queueOwner := owner } old L := ⟨⟨H.lays.size, H.lays.free, H.lays.layout⟩, H.old⟩

/-- When the queue is straight behind an insertion, it was before, and the insertion went
    to the tail. -/
theorem straight_before (S : Space queue N) {q : TpClosuresQueue} (hs : q.size.toNat = N)
    (hin : q.tailAddress.toNat ≤ base queue + N) {c : GenericTpClosure} (hc : 12 + c.sizeOfArgs.toNat < 2 ^ 32)
    (hgap : HasGap queue q c.size) (hle : q.headAddress.toNat ≤ (dest queue c q).toNat + c.size) :
    AtTail queue c q ∧ q.headAddress.toNat ≤ q.tailAddress.toNat := by
  unfold HasGap at hgap
  unfold dest at hle
  by_cases hstraight : q.headAddress.toNat ≤ q.tailAddress.toNat
  · refine ⟨?_, hstraight⟩
    by_contra hat
    rw [if_neg hat, initAddress_toNat S] at hle
    rw [if_pos hstraight] at hgap
    have hsp : (initAddress queue + q.size - q.tailAddress).toNat = base queue + N - q.tailAddress.toNat := by
      rw [BitVec.toNat_sub_of_le (by rw [BitVec.le_def, end_toNat S hs]; omega), end_toNat S hs]
    rw [AtTail, BitVec.le_def, BitVec.le_def, tpSize_toNat hc, hsp, not_or] at hat
    omega
  · have hat : AtTail queue c q := .inl (BitVec.le_def.mpr (by omega))
    rw [if_pos hat] at hle
    rw [if_neg hstraight] at hgap
    omega

theorem Remains.push (S : Space queue N) {q : TpClosuresQueue} {old L : List GenericTpClosure}
    (H : Remains queue N q old L) {c : GenericTpClosure} (hc : 12 + c.sizeOfArgs.toNat < 2 ^ 32)
    (hroom : ¬ calculateMaxFreeSpaceQueue queue q ≤ tpSize c.sizeOfArgs) :
    Remains queue N (insert queue c q) old (L ++ [c]) := by
  have hfit := S.fits
  have hbase : base queue = queue.toNat + 24 := rfl
  have hlen := c.bytes_length
  have hgap := (hasGap_iff S H.lays hc).mpr hroom
  obtain ⟨hlow, hhigh, hbeside⟩ := H.lays.place S hc hgap
  have hlays := H.lays.push S hc hroom
  refine ⟨hlays, ?_⟩
  rw [insert_eq, content_eq hc]
  simp only [toNat_add_tpSize hc (show (dest queue c q).toNat + c.size < 2 ^ 32 by omega)]
  intro hle
  have hin : q.tailAddress.toNat ≤ base queue + N := by
    cases H.lays.layout with
    | straight hp hb ht he hn => exact he
    | wrapped hb htf hpe htb hlt =>
      have := Tiles.le htf
      omega
  obtain ⟨hat, hstraight⟩ := straight_before S H.lays.size hin hc hgap hle
  have hdest : (dest queue c q).toNat = q.tailAddress.toNat := by rw [dest, if_pos hat]
  exact (H.old hstraight).storeBytes (by omega) (by omega) (by omega)

/-! ## The removal -/

theorem passTop_cases (queue : Word) (q : TpClosuresQueue) :
    (passTop queue q).headAddress = initAddress queue ∨
      passTop queue q = { q with headAddress := q.headAddress + tpSize (sizeOfArgsAt q.mem q.headAddress) } := by
  unfold passTop
  by_cases h : q.headAddress + tpSize (sizeOfArgsAt q.mem q.headAddress) + q.padding = initAddress queue + q.size
  · simp only [h, if_true, true_or]
  · simp only [h, if_false, or_true]

/-- The head goes to the start, or behind the oldest closure with the tail where it was. -/
theorem removeTop_cases (queue : Word) (q : TpClosuresQueue) :
    (removeTop queue q).headAddress = initAddress queue ∨
      (removeTop queue q).headAddress = q.headAddress + tpSize (sizeOfArgsAt q.mem q.headAddress) ∧
        (removeTop queue q).tailAddress = q.tailAddress := by
  unfold removeTop restart
  by_cases h : (passTop queue q).headAddress = (passTop queue q).tailAddress
  · left
    rw [if_pos h]
  · rw [if_neg h]
    rcases passTop_cases queue q with hinit | hpass
    · exact .inl hinit
    · right
      rw [hpass]
      exact ⟨rfl, rfl⟩

/-- The closures before the head, after a removal. -/
def oldAfter (queue : Word) (q : TpClosuresQueue) (old : List GenericTpClosure) (c : GenericTpClosure) :
    List GenericTpClosure :=
  if (removeTop queue q).headAddress = initAddress queue then [] else old ++ [c]

theorem Remains.pop (S : Space queue N) {q : TpClosuresQueue} {old L : List GenericTpClosure} {c : GenericTpClosure}
    (H : Remains queue N q old (c :: L)) (hd : ¬ DrainsAtEnd queue q) :
    Remains queue N (removeTop queue q) (oldAfter queue q old c) L := by
  refine ⟨H.lays.pop S hd, fun hle => ?_⟩
  unfold oldAfter
  by_cases hinit : (removeTop queue q).headAddress = initAddress queue
  · rw [if_pos hinit, hinit, initAddress_toNat S]
    rfl
  · obtain ⟨hhead, htail⟩ := (removeTop_cases queue q).resolve_left hinit
    have hnext := H.lays.next S
    obtain ⟨htop, -, -⟩ := H.lays.top
    rw [if_neg hinit, removeTop_same, hhead, hnext, ← c.bytes_length]
    rw [hhead, hnext, htail] at hle
    exact (H.old (by omega)).snoc (by rw [c.bytes_length]; exact htop)

/-- A drain at the end brings back all the closures before it. -/
theorem Remains.drain (S : Space queue N) {q : TpClosuresQueue} {old L : List GenericTpClosure} {c : GenericTpClosure}
    (H : Remains queue N q old (c :: L)) (hd : DrainsAtEnd queue q) :
    Remains queue N (removeTop queue q) [] (old ++ [c]) := by
  have hinit := initAddress_toNat S
  obtain ⟨htop, -, -⟩ := H.lays.top
  obtain ⟨htail, hnext⟩ := (drainsAtEnd_iff S H.lays).mp hd
  obtain ⟨-, hle, -, hrem⟩ := drain_eq S H.lays hd
  have htiles := (H.old hle).snoc (x := c) (by rw [c.bytes_length]; exact htop)
  rw [c.bytes_length, hnext, ← hinit] at htiles
  rw [hrem]
  refine ⟨⟨H.lays.size, H.lays.free, ?_⟩, fun _ => hinit.symm⟩
  exact .straight rfl (Nat.le_of_eq hinit.symm) htiles (Nat.le_of_eq htail) fun h => absurd h (by simp)

/-! ## Two memories under one header -/

/-- The owner popped the empty queue and left with the mutex. -/
structure Stuck (queue : Word) (q : TpClosuresQueue) : Prop where
  taken : q.lockMutex ≠ 0
  kept : mutexPtr queue &&& 0x000FFFFF ≠ 0
  empty : isTpClosureQueueEmpty q = true

/-- With the memory `m` in the place of its own, the queue stores the same. -/
def Alike (queue : Word) (N : Nat) (m : Memory) (q : TpClosuresQueue) : Prop :=
  (∃ old L, Remains queue N q old L ∧ Remains queue N { q with mem := m } old L) ∨ Stuck queue q

theorem lock_stuck {q : TpClosuresQueue} (H : Stuck queue q) (core : Word) : lock queue core q = none := by
  rw [lock, dartsMutexLock_eq H.kept, if_neg H.taken]
  rfl

theorem Stuck.mem {q : TpClosuresQueue} (H : Stuck queue q) (m : Memory) : Stuck queue { q with mem := m } :=
  ⟨H.taken, H.kept, H.empty⟩

/-- Of the memory, a pop reads the `sizeOfArgs` at the head, if there is one. -/
theorem popWith_mem (queue core : Word) (release : TpClosuresQueue → TpClosuresQueue)
    (hrel : ∀ (q : TpClosuresQueue) (m : Memory), release { q with mem := m } = { release q with mem := m })
    {q : TpClosuresQueue} {m : Memory}
    (h : isTpClosureQueueEmpty q = true ∨ sizeOfArgsAt m q.headAddress = sizeOfArgsAt q.mem q.headAddress) :
    popWith release queue core { q with mem := m } =
      (popWith release queue core q).map fun r => (r.1, { r.2 with mem := m }) := by
  by_cases hv : checkIfValidAddress queue = .successOp
  · by_cases ho : q.queueOwner = core
    · subst ho
      simp only [popWith, hv, ne_eq, not_true_eq_false, if_false, lock]
      cases dartsMutexLock (mutexPtr queue) q.queueOwner q.lockMutex with
      | none => rfl
      | some r =>
        simp only [Option.map_some, isTpClosureQueueEmpty]
        by_cases he : q.headAddress = q.tailAddress
        · simp only [he, beq_self_eq_true, if_true]
        · have hargs := h.resolve_left (by simpa [isTpClosureQueueEmpty] using he)
          have hb : (q.headAddress == q.tailAddress) = false := by simpa using he
          simp only [hb, Bool.false_eq_true, if_false, Option.some.injEq, Prod.mk.injEq, true_and]
          have hrem := removeTop_mem queue { q with lockMutex := r.2 } (m := m) hargs
          rw [hrem]
          exact hrel (unlock queue (removeTop queue { q with lockMutex := r.2 })) m
    · simp only [popWith, hv, ho, ne_eq, not_true_eq_false, not_false_eq_true, if_true, if_false, Option.map_some]
  · simp only [popWith, hv, ne_eq, not_false_eq_true, if_true, Option.map_some]

/-! ## The two runs side by side -/

/-- Both calls spin, or both answer the same and leave alike queues under one header. -/
def Together {α : Type} (queue : Word) (N : Nat) (r₁ r₂ : Option (α × TpClosuresQueue)) : Prop :=
  (r₁ = none ∧ r₂ = none) ∨
  ∃ o q m, r₁ = some (o, q) ∧ r₂ = some (o, { q with mem := m }) ∧ Alike queue N m q

theorem Together.map {α β : Type} {r₁ r₂ : Option (α × TpClosuresQueue)} (h : Together queue N r₁ r₂) (g : α → β) :
    Together queue N (r₁.map fun r => (g r.1, r.2)) (r₂.map fun r => (g r.1, r.2)) := by
  rcases h with ⟨rfl, rfl⟩ | ⟨o, q, m, rfl, rfl, h⟩
  · exact .inl ⟨rfl, rfl⟩
  · exact .inr ⟨g o, q, m, rfl, rfl, h⟩

theorem together_push (S : Space queue N) {q : TpClosuresQueue} {m : Memory} (H : Alike queue N m q) (core : Word)
    {c : GenericTpClosure} (hc : 12 + c.sizeOfArgs.toNat < 2 ^ 32) :
    Together queue N (pushTpClosureQueue queue core c q) (pushTpClosureQueue queue core c { q with mem := m }) := by
  rcases H with ⟨old, L, H, H'⟩ | H
  · have hspace : calculateMaxFreeSpaceQueue queue { q with mem := m } = calculateMaxFreeSpaceQueue queue q := rfl
    rw [push_free core c S.valid H.lays.free, push_free core c S.valid H'.lays.free, hspace]
    by_cases hfull : calculateMaxFreeSpaceQueue queue q ≤ tpSize c.sizeOfArgs
    · rw [if_pos hfull, if_pos hfull]
      exact .inr ⟨_, q, m, rfl, rfl, .inl ⟨old, L, H, H'⟩⟩
    · have hins : insert queue c { q with mem := m } =
          { insert queue c q with mem := (insert queue c { q with mem := m }).mem } := by
        rw [insert_eq, insert_eq]
        rfl
      have hpush' := H'.push S hc hfull
      rw [hins] at hpush'
      rw [if_neg hfull, if_neg hfull, hins]
      exact .inr ⟨_, insert queue c q, _, rfl, rfl, .inl ⟨old, L ++ [c], H.push S hc hfull, hpush'⟩⟩
  · simp only [pushTpClosureQueue, S.valid, ne_eq, not_true_eq_false, if_false, lock_stuck H, lock_stuck (H.mem m),
      Option.map_none]
    exact .inl ⟨rfl, rfl⟩

theorem together_own (S : Space queue N) {q : TpClosuresQueue} {m : Memory} (H : Alike queue N m q) (core : Word) :
    Together queue N (ownTpClosureQueue queue core q) (ownTpClosureQueue queue core { q with mem := m }) := by
  rcases H with ⟨old, L, H, H'⟩ | H
  · rw [own_free core S.valid H.lays.free, own_free core S.valid H'.lays.free]
    by_cases ho : q.queueOwner ≠ 0
    · rw [if_pos ho, if_pos ho]
      exact .inr ⟨_, q, m, rfl, rfl, .inl ⟨old, L, H, H'⟩⟩
    · rw [if_neg ho, if_neg ho]
      exact .inr ⟨_, { q with queueOwner := core }, m, rfl, rfl, .inl ⟨old, L, H.owner core, H'.owner core⟩⟩
  · simp only [ownTpClosureQueue, S.valid, ne_eq, not_true_eq_false, if_false, lock_stuck H, lock_stuck (H.mem m),
      Option.map_none]
    exact .inl ⟨rfl, rfl⟩

theorem Alike.owner {q : TpClosuresQueue} {m : Memory} (H : Alike queue N m q) (owner : Word) :
    Alike queue N m { q with queueOwner := owner } := by
  rcases H with ⟨old, L, H, H'⟩ | H
  · exact .inl ⟨old, L, H.owner owner, H'.owner owner⟩
  · exact .inr ⟨H.taken, H.kept, H.empty⟩

theorem together_disown {q : TpClosuresQueue} {m : Memory} (H : Alike queue N m q) (core : Word) :
    Together queue N (some (disownTpClosureQueue queue core q))
      (some (disownTpClosureQueue queue core { q with mem := m })) := by
  unfold disownTpClosureQueue
  by_cases hv : checkIfValidAddress queue ≠ .successOp
  · rw [if_pos hv, if_pos hv]
    exact .inr ⟨_, q, m, rfl, rfl, H⟩
  · rw [if_neg hv, if_neg hv]
    by_cases ho : q.queueOwner ≠ core
    · rw [if_pos ho, if_pos ho]
      exact .inr ⟨_, q, m, rfl, rfl, H⟩
    · rw [if_neg ho, if_neg ho]
      exact .inr ⟨_, { q with queueOwner := 0 }, m, rfl, rfl, H.owner 0⟩

/-- The size of the closure at the head is the same in both memories. -/
theorem Alike.reads (S : Space queue N) {q : TpClosuresQueue} {m : Memory} (H : Alike queue N m q) :
    isTpClosureQueueEmpty q = true ∨ ∃ c : GenericTpClosure, sizeOfArgsAt q.mem q.headAddress = c.sizeOfArgs ∧
      sizeOfArgsAt m q.headAddress = c.sizeOfArgs ∧ block q.mem q.headAddress.toNat c.size = c.bytes ∧
      block m q.headAddress.toNat c.size = c.bytes := by
  rcases H with ⟨old, L, H, H'⟩ | H
  · cases L with
    | nil => exact .inl ((isTpClosureQueueEmpty_iff H.lays).mpr rfl)
    | cons c L =>
      exact .inr ⟨c, H.lays.sizeOfArgsAt_head S, H'.lays.sizeOfArgsAt_head S, H.lays.top.1, H'.lays.top.1⟩
  · exact .inl H.empty

theorem Alike.popWith (S : Space queue N) {q : TpClosuresQueue} {m : Memory} (H : Alike queue N m q) {core : Word}
    {release : TpClosuresQueue → TpClosuresQueue}
    (hrel : ∀ (q : TpClosuresQueue) (m : Memory), Alike queue N m q → Alike queue N m (release q)) {code : Code}
    {q' : TpClosuresQueue} (h : popWith release queue core q = some (code, q')) : Alike queue N m q' := by
  by_cases hok : checkIfValidAddress queue = .successOp ∧ q.queueOwner = core
  · obtain ⟨hv, rfl⟩ := hok
    rcases H with ⟨old, L, H, H'⟩ | H
    · cases L with
      | nil =>
        -- the mutex stays taken, unless the lock took none
        have he := (isTpClosureQueueEmpty_iff H.lays).mpr rfl
        obtain ⟨w, hp, hw⟩ := popWith_empty release hv H.lays.free he
        rw [hp, Option.some.injEq, Prod.mk.injEq] at h
        obtain ⟨-, rfl⟩ := h
        by_cases hz : w = 0
        · have hself : ({ q with lockMutex := w } : TpClosuresQueue) = q := by rw [hz, ← H.lays.free]
          rw [hself]
          exact .inl ⟨old, [], H, H'⟩
        · have hno := fun e => hz (hw.mpr e)
          exact .inr ⟨hz, fun e => hno (.inl e), he⟩
      | cons c L =>
        have he : isTpClosureQueueEmpty q = false := by
          rw [← Bool.not_eq_true, isTpClosureQueueEmpty_iff H.lays]
          exact List.cons_ne_nil c L
        have hargs : sizeOfArgsAt m q.headAddress = sizeOfArgsAt q.mem q.headAddress :=
          (H'.lays.sizeOfArgsAt_head S).trans (H.lays.sizeOfArgsAt_head S).symm
        have hmem := removeTop_mem queue q hargs
        rw [popWith_free release hv H.lays.free rfl he, Option.some.injEq, Prod.mk.injEq] at h
        obtain ⟨-, rfl⟩ := h
        have hdrain : DrainsAtEnd queue { q with mem := m } ↔ DrainsAtEnd queue q := by
          unfold DrainsAtEnd
          rw [hargs]
        apply hrel
        by_cases hd : DrainsAtEnd queue q
        · have hd' := H'.drain S (hdrain.mpr hd)
          rw [hmem] at hd'
          exact .inl ⟨[], old ++ [c], H.drain S hd, hd'⟩
        · have hp' := H'.pop S fun e => hd (hdrain.mp e)
          rw [oldAfter, hmem] at hp'
          exact .inl ⟨oldAfter queue q old c, L, H.pop S hd, hp'⟩
    · rw [TpClosuresQueue.popWith] at h
      simp only [hv, ne_eq, not_true_eq_false, if_false, lock_stuck H, Option.map_none] at h
      cases h
  · obtain ⟨code', hp⟩ := popWith_refused release hok
    rw [hp, Option.some.injEq, Prod.mk.injEq] at h
    exact h.2 ▸ H

theorem together_pop (S : Space queue N) {q : TpClosuresQueue} {m : Memory} (H : Alike queue N m q) (core : Word)
    (release : TpClosuresQueue → TpClosuresQueue)
    (hmem : ∀ (q : TpClosuresQueue) (m : Memory), release { q with mem := m } = { release q with mem := m })
    (hrel : ∀ (q : TpClosuresQueue) (m : Memory), Alike queue N m q → Alike queue N m (release q)) :
    Together queue N (popWith release queue core q) (popWith release queue core { q with mem := m }) := by
  have hargs : isTpClosureQueueEmpty q = true ∨ sizeOfArgsAt m q.headAddress = sizeOfArgsAt q.mem q.headAddress := by
    rcases H.reads S with he | ⟨c, hc, hc', -, -⟩
    · exact .inl he
    · exact .inr (hc'.trans hc.symm)
  rw [popWith_mem queue core release hmem hargs]
  cases hp : popWith release queue core q with
  | none => exact .inl ⟨rfl, rfl⟩
  | some r => exact .inr ⟨r.1, r.2, m, rfl, rfl, H.popWith S hrel hp⟩

/-- The peak shows the same closure. -/
theorem peakedClosure_eq (S : Space queue N) {q : TpClosuresQueue} {m : Memory} (H : Alike queue N m q) (core : Word) :
    peakedClosure { q with mem := m } (peakTopElement queue core q) = peakedClosure q (peakTopElement queue core q) := by
  unfold peakTopElement
  by_cases hv : checkIfValidAddress queue ≠ .successOp
  · rw [if_pos hv]
    rfl
  · rw [if_neg hv]
    by_cases ho : q.queueOwner ≠ core
    · rw [if_pos ho]
      rfl
    · rw [if_neg ho]
      rcases H.reads S with he | ⟨c, hc, hc', hb, hb'⟩
      · rw [if_pos he]
        rfl
      · by_cases he : isTpClosureQueueEmpty q = true
        · rw [if_pos he]
          rfl
        · have hsize : c.size = 12 + c.sizeOfArgs.toNat := rfl
          rw [if_neg he]
          simp only [peakedClosure, hc, hc', ← hsize, hb, hb']

theorem together_step (S : Space queue N) {q : TpClosuresQueue} {m : Memory} (H : Alike queue N m q) {call : Call}
    (hfits : Fits call) : Together queue N (callStep queue q call) (callStep queue { q with mem := m } call) := by
  have hplain : ∀ {o : Op} {r₁ r₂ : Option (Code × TpClosuresQueue)},
      step queue q o = r₁.map (fun r => ((r.1, none), r.2)) →
      step queue { q with mem := m } o = r₂.map (fun r => ((r.1, none), r.2)) → Together queue N r₁ r₂ →
      Together queue N (callStep queue q (.op o)) (callStep queue { q with mem := m } (.op o)) := by
    intro o r₁ r₂ h₁ h₂ h
    have hnone : ∀ (q : TpClosuresQueue) (code : Code), peakedClosure q (code, none) = [] := by
      intro q code
      cases code <;> rfl
    simp only [callStep, h₁, h₂, Option.map_map, Function.comp_def, hnone]
    exact h.map fun code => Seen.answer (code, none) []
  cases call with
  | isEmpty => exact .inr ⟨_, q, m, rfl, rfl, H⟩
  | op o =>
    cases o with
    | push core c => exact hplain rfl rfl (together_push S H core hfits)
    | own core => exact hplain rfl rfl (together_own S H core)
    | disown core => exact hplain rfl rfl (together_disown H core)
    | peak core =>
      have hpeak : peakTopElement queue core { q with mem := m } = peakTopElement queue core q := rfl
      refine .inr ⟨.answer (peakTopElement queue core q) (peakedClosure q (peakTopElement queue core q)), q, m, rfl, ?_, H⟩
      simp only [callStep, step, Option.map_some, hpeak, peakedClosure_eq S H core]
    | pop core => exact hplain rfl rfl (together_pop S H core _ (fun _ _ => rfl) fun _ _ h => h)
    | popAndDisown core => exact hplain rfl rfl (together_pop S H core _ (fun _ _ => rfl) fun _ _ h => h.owner 0)

/-- Whatever was in memory: if the same owner was left in the header, two runs of the
    same calls see the same. -/
theorem same_answers {newSize : Word} (S : Space queue newSize.toNat) {q₁ q₂ : TpClosuresQueue}
    (ho : q₁.queueOwner = q₂.queueOwner) {calls : List Call} (hfits : ∀ c ∈ calls, Fits c) :
    seen queue newSize q₁ calls = seen queue newSize q₂ calls := by
  apply run_lockstep (fun s t => ∃ m, t = { s with mem := m } ∧ Alike queue newSize.toNat m s) Fits _ calls _ _ _ hfits
  · intro s t call ⟨m, ht, H⟩ hfit
    rw [ht]
    rcases together_step S H hfit with h | ⟨o, q, m', h₁, h₂, H'⟩
    · exact .inl h
    · exact .inr ⟨o, q, _, h₁, h₂, m', rfl, H'⟩
  · have hhead : (initTpClosuresQueue queue newSize q₂).2 = { (initTpClosuresQueue queue newSize q₁).2 with mem := q₂.mem } := by
      simp only [initTpClosuresQueue, S.valid, ne_eq, not_true_eq_false, if_false, ho]
    have H₂ := remains_init S rfl q₂
    rw [hhead] at H₂
    exact ⟨q₂.mem, hhead, .inl ⟨[], [], remains_init S rfl q₁, H₂⟩⟩

/-! ## The owner left in the header -/

theorem firstOwnSucceeds_iff {newSize : Word} (S : Space queue newSize.toNat) (q : TpClosuresQueue) :
    FirstOwnSucceeds queue newSize q ↔ q.queueOwner = 0 := by
  have hfree := (lays_init S rfl q).free
  have howner : (initTpClosuresQueue queue newSize q).2.queueOwner = q.queueOwner := by
    simp only [initTpClosuresQueue, S.valid, ne_eq, not_true_eq_false, if_false]
  unfold FirstOwnSucceeds
  constructor
  · intro h
    by_contra ho
    have hown := h 0
    rw [own_free 0 S.valid hfree, howner, if_pos ho] at hown
    cases hown
  · intro ho core
    rw [own_free core S.valid hfree, howner, if_neg (by simp [ho])]
    rfl

/-- The past of the memory is irrelevant exactly when both contents have no owner. -/
theorem init_forgets_iff (queue newSize : Word) (S : Space queue newSize.toNat) (q₁ q₂ : TpClosuresQueue) :
    PastIrrelevant queue newSize q₁ q₂ ↔ q₁.queueOwner = 0 ∧ q₂.queueOwner = 0 := by
  constructor
  · intro h
    exact ⟨(firstOwnSucceeds_iff S q₁).mp h.own₁, (firstOwnSucceeds_iff S q₂).mp h.own₂⟩
  · intro h
    exact ⟨fun _ hfits => same_answers S (h.1.trans h.2.symm) hfits, (firstOwnSucceeds_iff S q₁).mpr h.1,
      (firstOwnSucceeds_iff S q₂).mpr h.2⟩

/-- A memory full of zeros and one full of ones, with no owner in either header. -/
theorem init_forgets_iff_100 :
    PastIrrelevant 0x80803004 100 ⟨0, 0, 0, 0, 0, 0, fun _ => 0⟩ ⟨1, 1, 1, 1, 1, 0, fun _ => 1⟩ :=
  (init_forgets_iff 0x80803004 100 space_100 ⟨0, 0, 0, 0, 0, 0, fun _ => 0⟩ ⟨1, 1, 1, 1, 1, 0, fun _ => 1⟩).mpr ⟨rfl, rfl⟩

/-- Core 0x808 owned the queue when it was initialized again: core 0x809 is turned away. -/
theorem a_past_owner_is_remembered :
    ¬ ∀ (queue newSize : Word) (q₁ q₂ : TpClosuresQueue), Space queue newSize.toNat →
      PastIrrelevant queue newSize q₁ q₂ := by
  intro hall
  have h := hall 0x80803004 100 ⟨0, 0, 0, 0, 0, 0, fun _ => 0⟩ ⟨0, 0, 0, 0, 0, 0x808, fun _ => 0⟩ space_100
  have hseen := h.seen [.op (.own 0x809)] (by simp [Fits])
  exact absurd hseen (by decide +kernel)

end EDarts.Assets.TpClosuresQueue
