/-
  EDarts.Multithreading.BarrierSafety — what the barrier is for, and where it goes wrong
  (see `EDarts.Multithreading.BarrierProofs`).

  - `barrier_safe`: with two participants or more, nobody returns from its `k`-th call
    before all have entered theirs; and when the last one to come has left the critical
    section, every other one was sent one signal, which it gets in the same call.
  - `never_stranded_iff`: nobody is left waiting when all have arrived, if and only if
    there are two participants or more. A single one takes the branch of the first
    arrival and waits for a last one.
  - `store_allowed_iff`: every store goes to the barrier or to a waiting participant's
    mailbox, but for the last turn of the signalling loop, which stores to the null
    address (`the_last_turn_stores_to_null`), and for locking a barrier that was not set
    up on its own core.
-/

import EDarts.Multithreading.BarrierProofs

namespace EDarts.Multithreading.Barrier

open Lib

variable {n : Nat} {coreID barrier : Word} {s : State n}

/-! ## Episodes -/

structure Safe (s : State n) : Prop where
  /-- Who returned from its `k`-th call did so when all had entered theirs. -/
  together : ∀ p q, (s.parts p).returned ≤ (s.parts q).entered
  /-- At most one signal is sent to a participant in a call. -/
  once : ∀ p k, s.sent p k ≤ 1
  /-- What is on its way to a participant was sent for the call it is in. -/
  current : ∀ p, (s.parts p).pc ≠ .idle → ∀ k ∈ s.flight (s.parts p).mailbox, k = (s.parts p).entered
  /-- Who is about to wake was sent one signal in this call, got this one, and no other
      is on its way. -/
  consumed : ∀ p, (s.parts p).pc = .spinning → s.mem (s.parts p).mailbox ≠ 0 →
    s.sent p (s.parts p).entered = 1 ∧ s.stamp (s.parts p).mailbox = (s.parts p).entered ∧
      s.flight (s.parts p).mailbox = []
  /-- Once somebody has returned from its `k`-th call, and nobody is in the critical section of
      its `k`-th call any more, all participants but one were sent one signal in that call. -/
  each : ∀ k, 1 ≤ k → (∃ q, k ≤ (s.parts q).returned) → (∀ q, s.holder = some q → (s.parts q).entered ≠ k) →
    ∃ p, ∀ q, s.sent q k = if q = p then 0 else 1

/-- The two calls a participant may be in, and the two it may have returned from. -/
theorem Inv.counts {e : Nat} {W R : List (Fin n)} (H : Inv e W R s) (q : Fin n) :
    e ≤ (s.parts q).entered ∧ (s.parts q).returned ≤ e ∧
      (q ∈ R → (s.parts q).returned + 1 = e) := by
  have hr := H.role q
  have hpend := H.pending q
  cases hpc : (s.parts q).pc with
  | spinning =>
    simp only [Role, hpc] at hr
    rcases hr with ⟨h1, h2, -, -⟩ | ⟨h1, h2, -, -⟩
    · exact ⟨by omega, by omega, fun hq => by have := (hpend hq).2; omega⟩
    · exact ⟨by omega, by omega, fun _ => h2⟩
  | _ =>
    simp only [Role, hpc] at hr
    exact ⟨by omega, by omega, fun hq => by have := (hpend hq).1; rw [hpc] at this; cases this⟩

/-- Only the loop over the mailboxes has participants still to signal. -/
theorem Doing.none {W R : List (Fin n)} {pc : Pc} (h : Doing W R s pc) (hpc : ∀ i, pc ≠ .signalling i) : R = [] := by
  cases pc with
  | deciding => exact Ready.none h
  | clearing i => exact h.2.2.2
  | registering => exact h.2.2.2.2
  | counting => exact h.2.2.2.2
  | unlocking => exact h.2.2.2.2
  | signalling i => exact absurd rfl (hpc i)
  | resetting => exact h.2
  | unlockingLast => exact h.2.2
  | _ => exact h.elim

theorem Inv.signalling {e : Nat} {W R : List (Fin n)} (H : Inv e W R s) (hR : R ≠ []) :
    ∃ p, s.holder = some p ∧ (s.parts p).entered = e := by
  have hst := H.stage
  unfold Stage at hst
  cases hh : s.holder with
  | none =>
    rw [hh] at hst
    exact absurd hst.none hR
  | some p =>
    rw [hh] at hst
    refine ⟨p, rfl, ?_⟩
    by_contra hent
    refine hR (hst.none fun i hpc => hent ?_)
    have hr := H.role p
    simp only [Role, hpc] at hr
    exact hr.1

/-- The barrier holds everyone until everyone is there, however often it is used. -/
theorem barrier_safe (hn : 2 ≤ n) (h : Reachable coreID barrier s) : Safe s := by
  obtain ⟨e, W, R, H⟩ := Reachable.inv hn h
  refine ⟨fun p q => Nat.le_trans (H.counts p).2.1 (H.counts q).1, H.once, fun p hp k hk => ?_, fun p hpc hm => ?_,
    fun k hk hreturned hout => ?_⟩
  · -- a mailbox that a signal is on its way to is a spinning participant's
    have hne : s.flight (s.parts p).mailbox ≠ [] := List.ne_nil_of_mem hk
    rcases H.flights _ hne with hlow | ⟨q, hq, hbx⟩
    · exact absurd hlow (H.low p hp)
    · obtain rfl := H.distinct q p (by rw [hq]; decide) hp hbx
      have hr := H.role q
      simp only [Role, hq] at hr
      rcases hr with ⟨-, -, -, hquiet⟩ | ⟨h1, -, -, ⟨-, hquiet⟩ | ⟨-, hs⟩⟩
      · exact absurd hquiet.flight hne
      · exact absurd hquiet.flight hne
      · rcases hs.mail with ⟨-, hf⟩ | ⟨-, hf, -⟩
        · rw [hf] at hk
          rw [h1]
          simpa using hk
        · exact absurd hf hne
  · obtain ⟨h1, -, -, -, hsent, hf, hst⟩ := H.awake hpc hm
    rw [h1]
    exact ⟨hsent, hst, hf⟩
  · obtain ⟨r, hr⟩ := hreturned
    have hke : k ≤ e := Nat.le_trans hr (H.counts r).2.1
    obtain ⟨p, -, hp⟩ := H.each k hk hke
    refine ⟨p, fun q => ?_⟩
    have hR : ¬ (k = e ∧ q ∈ R) := by
      intro h
      obtain ⟨rfl, hq⟩ := h
      obtain ⟨l, hl, hent⟩ := H.signalling (List.ne_nil_of_mem hq)
      exact hout l hl hent
    rw [hp q]
    simp [hR]

/-! ## Nobody is stranded -/

/-- All have entered their `k`-th call and none is on its way to the critical section or
    in it, and still one spins in its `k`-th call and no signal is coming. -/
def Stranded (s : State n) : Prop :=
  ∃ k p, (∀ q, k ≤ (s.parts q).entered) ∧ (∀ q, (s.parts q).pc = .idle ∨ (s.parts q).pc = .spinning) ∧
    (s.parts p).pc = .spinning ∧ (s.parts p).entered = k ∧ s.mem (s.parts p).mailbox = 0 ∧
    s.flight (s.parts p).mailbox = []

theorem not_stranded (hn : 2 ≤ n) (h : Reachable coreID barrier s) : ¬ Stranded s := by
  obtain ⟨e, W, R, H⟩ := Reachable.inv hn h
  intro h
  obtain ⟨k, p, hall, hout, hpc, hent, hm, hf⟩ := h
  have hh : s.holder = none := by
    cases hh : s.holder with
    | none => rfl
    | some r =>
      have hin := (H.holds r).mp hh
      rcases hout r with h | h <;> rw [h] at hin <;> cases hin
  have hst := H.stage
  simp only [Stage, hh] at hst
  have hr := H.role p
  simp only [Role, hpc] at hr
  rcases hr with ⟨h1, -, -, -⟩ | ⟨-, -, -, ⟨hR, -⟩ | ⟨-, hs⟩⟩
  · -- everyone is in its call `e + 1` and waits: one more than the barrier registers
    have hW : ∀ q, q ∈ W := fun q => by
      have hq := hall q
      have hrole := H.role q
      rcases hout q with hi | hs
      · simp only [Role, hi] at hrole
        omega
      · simp only [Role, hs] at hrole
        rcases hrole with ⟨-, -, h, -⟩ | ⟨h, -, -, -⟩
        · exact h
        · omega
    have hlen : n ≤ W.length := by
      have hsub : (List.finRange n).length ≤ W.length :=
        ((List.nodup_finRange n).subperm fun q _ => hW q).length_le
      simpa using hsub
    have := hst.room
    omega
  · rw [hst.none] at hR
    cases hR
  · rcases hs.mail with ⟨-, h⟩ | ⟨h, -⟩
    · rw [hf] at h; cases h
    · exact h hm

section Lone

theorem fieldAddress_toNat (hplace : 0 < barrier.toNat ∧ barrier.toNat + 80 ≤ 2 ^ 32) {i : Nat} (hi : i < 20) :
    (fieldAddress barrier i).toNat = barrier.toNat + 4 * i := by
  unfold fieldAddress
  rw [BitVec.toNat_add, BitVec.toNat_ofNat]
  omega

/-- The state of a barrier with a single participant. -/
def lone (b : DartsBarrier) (holder : Option (Fin 1)) (me : Participant) : State 1 :=
  ⟨b, holder, fun _ => me, fun _ => 0, fun _ => [], fun _ => 0, fun _ _ => 0⟩

theorem lone_set (b : DartsBarrier) (holder : Option (Fin 1)) (me me' : Participant) :
    (lone b holder me).set 0 me' = lone b holder me' := by
  simp only [State.set, lone]
  congr
  funext q
  simp [Subsingleton.elim q 0]

/-- Some place on the stack for a mailbox variable: off the barrier, and not the mutex. -/
theorem exists_fresh (hplace : 0 < barrier.toNat ∧ barrier.toNat + 80 ≤ 2 ^ 32) (b : DartsBarrier) :
    ∃ a, Fresh barrier (lone b none ⟨.idle, 0, 0, 0⟩) a := by
  -- below or above the barrier; of two such places one is not the mutex
  have hoff : ∀ a : Word, (a.toNat < barrier.toNat ∨ barrier.toNat + 80 ≤ a.toNat) → ∀ i < 20, a ≠ fieldAddress barrier i := by
    rintro a ha i hi rfl
    rw [fieldAddress_toNat hplace hi] at ha
    omega
  have hone : ∀ a a' : Word, a ≠ a' → a &&& 0x000FFFFF ≠ 0 → a' &&& 0x000FFFFF ≠ 0 →
      (∀ i < 20, a ≠ fieldAddress barrier i) → (∀ i < 20, a' ≠ fieldAddress barrier i) →
      ∃ a, Fresh barrier (lone b none ⟨.idle, 0, 0, 0⟩) a := fun a a' hne hl hl' h h' => by
    have hidle : ∀ x : Word, ∀ q : Fin 1, ((lone b none ⟨.idle, 0, 0, 0⟩).parts q).pc ≠ .idle →
        ((lone b none ⟨.idle, 0, 0, 0⟩).parts q).mailbox ≠ x := fun x q hq => absurd rfl hq
    by_cases e : a = b.lockFullAddressPtr
    · exact ⟨a', hl', hidle a', fun e' => hne (e.trans e'.symm), h'⟩
    · exact ⟨a, hl, hidle a, e, h⟩
  by_cases hlow : barrier.toNat < 1000
  · exact hone 2000 2004 (by decide) (by decide) (by decide) (hoff _ (Or.inr (by simp; omega)))
      (hoff _ (Or.inr (by simp; omega)))
  · exact hone 4 8 (by decide) (by decide) (by decide) (hoff _ (Or.inl (by simp; omega))) (hoff _ (Or.inl (by simp; omega)))

theorem lone_next {b b' : DartsBarrier} {holder holder' : Option (Fin 1)} {me : Participant} (me' : Participant)
    {o : Option Word} (h : Reachable coreID barrier (lone b holder me))
    (hm : move barrier 0 (lone b holder me) = some (o, (lone b' holder' me).set 0 me')) :
    Reachable coreID barrier (lone b' holder' me') := by
  rw [lone_set] at hm
  exact h.step ⟨.move 0, o, hm⟩

/-- A single participant takes itself for the first arrival, and waits. -/
theorem lone_stranded (coreID : Word) (hplace : 0 < barrier.toNat ∧ barrier.toNat + 80 ≤ 2 ^ 32)
    (hoffset : barrier &&& 0x000FFFFF ≠ 0) :
    ∃ s : State 1, Reachable coreID barrier s ∧ Stranded s := by
  let b : DartsBarrier := darts_barrier_init coreID barrier 1 ⟨0, 0, 0, fun _ => 0⟩
  obtain ⟨a, ha⟩ := exists_fresh hplace b
  have hidle : Reachable coreID barrier (lone b none ⟨.idle, 0, 0, 0⟩) :=
    .init ⟨by decide, hplace, hoffset, ⟨_, rfl⟩, rfl, fun _ => ⟨rfl, rfl, rfl⟩, fun _ => rfl, fun _ _ => rfl⟩
  have henter : Reachable coreID barrier (lone b none ⟨.checking, a, 1, 0⟩) := by
    refine hidle.step ⟨.enter 0 a, none, (if_pos ⟨rfl, ha⟩).trans ?_⟩
    have hmem : (fun x => if x = a then 0 else (lone b none ⟨.idle, 0, 0, 0⟩).mem x) = fun _ => 0 := by
      funext x
      exact ite_self 0
    rw [hmem]
    exact congrArg (fun s => some (none, s)) (lone_set b none ⟨.idle, 0, 0, 0⟩ _)
  have hcheck : Reachable coreID barrier (lone b none ⟨.acquiring, a, 1, 0⟩) :=
    lone_next _ (o := none) henter (if_neg (by rintro (h | h) <;> [exact h rfl; exact ha.1 h]))
  have hacquire : Reachable coreID barrier (lone b (some 0) ⟨.deciding, a, 1, 0⟩) := lone_next _ hcheck rfl
  have hfirst : Reachable coreID barrier (lone b (some 0) ⟨.clearing 0, a, 1, 0⟩) := lone_next _ hacquire rfl
  have hclear : Reachable coreID barrier
      (lone { b with mailboxes := fun j => if j = 0 then 0 else b.mailboxes j } (some 0) ⟨.clearing 1, a, 1, 0⟩) :=
    lone_next _ hfirst rfl
  have hcleared := lone_next ⟨.registering, a, 1, 0⟩ hclear rfl
  have hregister := lone_next ⟨.counting, a, 1, 0⟩ hcleared rfl
  have hcount := lone_next ⟨.unlocking, a, 1, 0⟩ hregister rfl
  have hunlock := lone_next ⟨.spinning, a, 1, 0⟩ hcount rfl
  exact ⟨_, hunlock, 1, 0, fun _ => Nat.le_refl 1, fun _ => Or.inr rfl, rfl, rfl, rfl, rfl⟩

end Lone

/-- Nobody is stranded, on any barrier of `n` threads whose lock is not refused, exactly if there
    are two or more. -/
theorem never_stranded_iff (n : Nat) (coreID barrier : Word) (hn : 1 ≤ n) (hmax : n ≤ MAX_NUM_THREADS_BARRIER)
    (hplace : 0 < barrier.toNat ∧ barrier.toNat + 80 ≤ 2 ^ 32) (hoffset : barrier &&& 0x000FFFFF ≠ 0) :
    (∀ s : State n, Reachable coreID barrier s → ¬ Stranded s) ↔ 2 ≤ n := by
  constructor
  · intro h
    by_contra hlt
    obtain rfl : n = 1 := by omega
    obtain ⟨s, hs, hst⟩ := lone_stranded coreID hplace hoffset
    exact h s hs hst
  · exact fun h s hs => not_stranded h hs

theorem a_single_participant_is_stranded :
    ¬ ∀ (n : Nat) (coreID barrier : Word), 1 ≤ n → n ≤ MAX_NUM_THREADS_BARRIER →
      0 < barrier.toNat ∧ barrier.toNat + 80 ≤ 2 ^ 32 → barrier &&& 0x000FFFFF ≠ 0 →
        ∀ s : State n, Reachable coreID barrier s → ¬ Stranded s := by
  intro hall
  have hplace : 0 < (0x8080200C : Word).toNat ∧ (0x8080200C : Word).toNat + 80 ≤ 2 ^ 32 := by decide
  have hoffset : (0x8080200C : Word) &&& 0x000FFFFF ≠ 0 := by decide
  obtain ⟨s, hs, hst⟩ := lone_stranded 0x808 hplace hoffset
  exact hall 1 0x808 0x8080200C (by decide) (by decide) hplace hoffset s hs hst

theorem never_stranded_iff_two :
    (∀ s : State 2, Reachable 0x808 0x8080200C s → ¬ Stranded s) ↔ 2 ≤ 2 :=
  never_stranded_iff 2 0x808 0x8080200C (by decide) (by decide) (by decide) (by decide)

/-! ## Stores -/

/-- A field of the barrier, or the mailbox of a participant that waits in the episode of
    `p`'s call and was not signalled. -/
def Allowed (barrier : Word) (s : State n) (p : Fin n) (a : Word) : Prop :=
  (∃ i < 20, a = fieldAddress barrier i) ∨
    ∃ q, (s.parts q).pc = .spinning ∧ (s.parts q).entered = (s.parts p).entered ∧ s.mem (s.parts q).mailbox = 0 ∧
      a = (s.parts q).mailbox

/-- At the lock or at an unlock. -/
def Pc.atMutex : Pc → Bool
  | .acquiring | .unlocking | .unlockingLast => true
  | _ => false

/-- The mutex address that `darts_barrier_init` makes. -/
def lockAddress (coreID barrier : Word) : Word := (coreID <<< 20) + (barrier &&& 0x000FFFFF)

theorem Reachable.size (h : Reachable coreID barrier s) : 0 < n ∧ n ≤ MAX_NUM_THREADS_BARRIER :=
  Reach.inv (fun _ => 0 < n ∧ n ≤ MAX_NUM_THREADS_BARRIER) (fun _ hs => hs.size) (fun _ _ H _ => H) h

/-- Nobody changes the mutex address, and the barrier stays where it is. -/
theorem Reachable.lock (h : Reachable coreID barrier s) :
    s.barrier.lockFullAddressPtr = lockAddress coreID barrier ∧ 0 < barrier.toNat ∧ barrier.toNat + 80 ≤ 2 ^ 32 := by
  refine Reach.inv (fun s => s.barrier.lockFullAddressPtr = lockAddress coreID barrier ∧
    0 < barrier.toNat ∧ barrier.toNat + 80 ≤ 2 ^ 32) (fun s hs => ?_) (fun s s' H hst => ?_) h
  · obtain ⟨b, hb⟩ := hs.init
    exact ⟨by rw [hb]; rfl, hs.place⟩
  · obtain ⟨a, o, hst⟩ := hst
    cases a with
    | enter p a =>
      simp only [step] at hst
      split at hst <;> cases hst
      exact H
    | move p => cases move_moves hst <;> exact H
    | deliver a k =>
      simp only [step] at hst
      split at hst <;> cases hst
      exact H

/-- The mutex address is a field's only if it is the barrier's own lock's. -/
theorem lockAddress_field (hplace : 0 < barrier.toNat ∧ barrier.toNat + 80 ≤ 2 ^ 32) {i : Nat} (hi : i < 20)
    (h : lockAddress coreID barrier = fieldAddress barrier i) : lockAddress coreID barrier = barrier := by
  have hf := fieldAddress_toNat hplace hi
  have hlow : (lockAddress coreID barrier).toNat % 2 ^ 20 = barrier.toNat % 2 ^ 20 := by
    rw [lockAddress, BitVec.toNat_add, BitVec.toNat_shiftLeft, toNat_lower, Nat.shiftLeft_eq]
    omega
  have hi0 : i = 0 := by
    rw [h, hf] at hlow
    omega
  subst hi0
  rw [h, ← BitVec.toNat_inj, hf]
  omega

theorem allowed_field (barrier : Word) (s : State n) (p : Fin n) {i : Nat} (hi : i < 20) : Allowed barrier s p (fieldAddress barrier i) :=
  Or.inl ⟨i, hi, rfl⟩

theorem allowed_lock_iff {e : Nat} {W R : List (Fin n)} (H : Inv e W R s) (p : Fin n)
    (hlock : s.barrier.lockFullAddressPtr = lockAddress coreID barrier)
    (hplace : 0 < barrier.toNat ∧ barrier.toNat + 80 ≤ 2 ^ 32) :
    Allowed barrier s p s.barrier.lockFullAddressPtr ↔ lockAddress coreID barrier = barrier := by
  constructor
  · intro h
    rcases h with ⟨i, hi, h⟩ | ⟨q, hq, -, -, h⟩
    · exact lockAddress_field hplace hi (hlock.symm.trans h)
    · exact absurd h.symm (H.apart q (by rw [hq]; decide))
  · intro h
    have h0 : s.barrier.lockFullAddressPtr = fieldAddress barrier 0 := by
      rw [hlock, h, ← BitVec.toNat_inj, fieldAddress_toNat hplace (by decide)]
      rfl
    rw [h0]
    exact allowed_field barrier s p (by decide)

theorem not_allowed_null {e : Nat} {W R : List (Fin n)} (H : Inv e W R s) (p : Fin n)
    (hplace : 0 < barrier.toNat ∧ barrier.toNat + 80 ≤ 2 ^ 32) : ¬ Allowed barrier s p 0 := by
  intro h
  rcases h with ⟨i, hi, h⟩ | ⟨q, hq, -, -, h⟩
  · have := fieldAddress_toNat hplace hi
    rw [← h] at this
    simp only [BitVec.toNat_zero, BitVec.ofNat_eq_ofNat] at this
    omega
  · exact H.low q (by rw [hq]; decide) (by rw [← h]; rfl)

/-- The store to a slot is a signal, but for the last slot, which is null. -/
theorem allowed_signal_iff {e i : Nat} {W R : List (Fin n)} (H : Inv e W R s) {p : Fin n}
    (hplace : 0 < barrier.toNat ∧ barrier.toNat + 80 ≤ 2 ^ 32) (hpc : (s.parts p).pc = .signalling i) (hi : i < n) :
    Allowed barrier s p (s.barrier.mailboxes i) ↔ i ≠ n - 1 := by
  obtain ⟨-, hW, -, hlen, hslots, hzero⟩ := H.owner hpc rfl
  by_cases hlast : i = n - 1
  · obtain ⟨hnull, -⟩ := H.lastSlot hpc hlast
    rw [hnull]
    exact ⟨fun h => absurd h (not_allowed_null H p hplace), fun h => absurd hlast h⟩
  · -- the slot holds a participant that was not signalled yet
    cases R with
    | nil => simp only [List.length_nil] at hlen; omega
    | cons r R' =>
      obtain ⟨hrpc, hrent⟩ := H.pending r (by simp)
      have hslot : s.barrier.mailboxes i = (s.parts r).mailbox := hslots 0 (by simp)
      have hent : (s.parts p).entered = e := by
        have hr := H.role p
        simp only [Role, hpc] at hr
        exact hr.1
      have hr := H.role r
      simp only [Role, hrpc] at hr
      have hm : s.mem (s.parts r).mailbox = 0 := by
        rcases hr with ⟨-, -, -, hq⟩ | ⟨-, -, -, ⟨-, hq⟩ | ⟨hnot, -⟩⟩
        · exact hq.mem
        · exact hq.mem
        · exact absurd (by simp) hnot
      exact ⟨fun _ => hlast, fun _ => Or.inr ⟨r, hrpc, by rw [hrent, hent], hm, hslot⟩⟩

/-- Every store of a call goes where it may, but for the last turn of the signalling
    loop, and for the mutex of a barrier that is not on the core that set it up. -/
theorem store_allowed_iff (hn : 2 ≤ n) (h : Reachable coreID barrier s) (p : Fin n) {a : Word} {s' : State n}
    (hmove : move barrier p s = some (some a, s')) :
    Allowed barrier s p a ↔ (s.parts p).pc ≠ .signalling (n - 1) ∧
      ((s.parts p).pc.atMutex = true → lockAddress coreID barrier = barrier) := by
  obtain ⟨e, W, R, H⟩ := Reachable.inv hn h
  obtain ⟨hlock, hplace⟩ := h.lock
  obtain ⟨-, hmax⟩ : 0 < n ∧ n ≤ MAX_NUM_THREADS_BARRIER := h.size
  cases hpc : (s.parts p).pc with
  | acquiring =>
    simp only [move, hpc] at hmove
    split at hmove <;> cases hmove
    simp [allowed_lock_iff H p hlock hplace, Pc.atMutex]
  | clearing i =>
    simp only [move, hpc] at hmove
    split at hmove <;> cases hmove
    have hi : i < n := by rw [← H.threads]; assumption
    have := allowed_field barrier s p (i := mailboxField i) (by unfold mailboxField MAX_NUM_THREADS_BARRIER at *; omega)
    simp [this, Pc.atMutex]
  | registering =>
    obtain ⟨-, hc, hroom, -⟩ := H.owner hpc rfl
    simp only [move, hpc] at hmove
    cases hmove
    have := allowed_field barrier s p (i := mailboxField s.barrier.counter)
      (by unfold mailboxField MAX_NUM_THREADS_BARRIER at *; omega)
    simp [this, Pc.atMutex]
  | counting =>
    simp only [move, hpc] at hmove
    cases hmove
    have := allowed_field barrier s p (i := counterField) (by decide)
    simp [this, Pc.atMutex]
  | unlocking =>
    simp only [move, hpc] at hmove
    cases hmove
    simp [allowed_lock_iff H p hlock hplace, Pc.atMutex]
  | signalling i =>
    simp only [move, hpc] at hmove
    split at hmove <;> cases hmove
    have hi : i < n := by rw [← H.threads]; assumption
    simp [allowed_signal_iff H hplace hpc hi, Pc.atMutex]
  | resetting =>
    simp only [move, hpc] at hmove
    cases hmove
    have := allowed_field barrier s p (i := counterField) (by decide)
    simp [this, Pc.atMutex]
  | unlockingLast =>
    simp only [move, hpc] at hmove
    cases hmove
    simp [allowed_lock_iff H p hlock hplace, Pc.atMutex]
  | idle => simp only [move, hpc] at hmove; cases hmove
  | checking =>
    simp only [move, hpc] at hmove
    split at hmove <;> cases hmove
  | deciding =>
    simp only [move, hpc] at hmove
    split at hmove
    · cases hmove
    · split at hmove <;> cases hmove
  | spinning =>
    simp only [move, hpc] at hmove
    split at hmove <;> cases hmove

/-! ## Two participants -/

/-- The barrier of the test, set up for two on the core it is on. -/
def twoStart : State 2 :=
  ⟨darts_barrier_init 0x808 0x8080200C 2 ⟨0, 0, 0, fun _ => 0⟩, none, fun _ => ⟨.idle, 0, 0, 0⟩, fun _ => 0, fun _ => [],
    fun _ => 0, fun _ _ => 0⟩

theorem start_two : Start 0x808 0x8080200C twoStart :=
  ⟨by decide, by decide, by decide, ⟨_, rfl⟩, rfl, fun _ => ⟨rfl, rfl, rfl⟩, fun _ => rfl, fun _ _ => rfl⟩

/-- Participant 0 arrives first and waits; 1 arrives last and is in its signalling loop. -/
def arrivals : List (Action 2) :=
  .enter 0 0x80807F00 :: List.replicate 9 (.move 0) ++ .enter 1 0x80907F00 :: List.replicate 3 (.move 1)

/-- The rest of the episode. -/
def departures : List (Action 2) := List.replicate 5 (.move 1) ++ [.deliver 0x80807F00 1, .move 0]

theorem barrier_safe_two :
    ∃ os s, run (step 0x8080200C) twoStart (arrivals ++ departures) = some (os, s) ∧ Safe s := by
  have hrun : (run (step 0x8080200C) twoStart (arrivals ++ departures)).isSome = true := by decide +kernel
  obtain ⟨⟨os, s⟩, hrun⟩ := Option.isSome_iff_exists.mp hrun
  have hreach : Reachable 0x808 0x8080200C s := Reach.of_run _ (.init start_two) hrun
  exact ⟨os, s, hrun, barrier_safe (by decide) hreach⟩

instance (s : State n) (p : Fin n) (a : Word) : Decidable (Allowed barrier s p a) := inferInstanceAs (Decidable (_ ∨ _))

/-- The first turn of the loop signals to participant 0. -/
theorem store_allowed_iff_two :
    ∃ os s s', run (step 0x8080200C) twoStart arrivals = some (os, s) ∧
      move 0x8080200C 1 s = some (some 0x80807F00, s') ∧ Allowed 0x8080200C s 1 0x80807F00 := by
  have hrun : (run (step 0x8080200C) twoStart arrivals).map (fun r =>
      ((move 0x8080200C 1 r.2).map (·.1), (r.2.parts 1).pc)) = some (some (some 0x80807F00), .signalling 0) := by decide +kernel
  obtain ⟨⟨os, s⟩, hrun, hs⟩ := Option.map_eq_some_iff.mp hrun
  obtain ⟨hm, hpc⟩ := Prod.mk.inj hs
  obtain ⟨⟨o, s'⟩, hm, rfl⟩ := Option.map_eq_some_iff.mp hm
  have hreach : Reachable 0x808 0x8080200C s := Reach.of_run _ (.init start_two) hrun
  refine ⟨os, s, s', hrun, hm, (store_allowed_iff (by decide) hreach 1 hm).mpr ?_⟩
  simp only at hpc
  rw [hpc]
  exact ⟨by decide, fun h => by cases h⟩

/-- The second and last turn stores to the null address. -/
theorem the_last_turn_stores_to_null :
    ¬ ∀ (n : Nat) (coreID barrier : Word) (s s' : State n) (p : Fin n) (a : Word), 2 ≤ n → Reachable coreID barrier s →
      move barrier p s = some (some a, s') → Allowed barrier s p a := by
  intro hall
  have hrun : (run (step 0x8080200C) twoStart (arrivals ++ [.move 1])).map (fun r =>
      ((move 0x8080200C 1 r.2).map (·.1), decide (Allowed 0x8080200C r.2 1 0))) = some (some (some 0), false) := by
    decide +kernel
  obtain ⟨⟨os, s⟩, hrun, hs⟩ := Option.map_eq_some_iff.mp hrun
  obtain ⟨hm, hnot⟩ := Prod.mk.inj hs
  obtain ⟨⟨o, s'⟩, hm, rfl⟩ := Option.map_eq_some_iff.mp hm
  have hreach : Reachable 0x808 0x8080200C s := Reach.of_run _ (.init start_two) hrun
  exact of_decide_eq_false hnot (hall 2 0x808 0x8080200C s s' 1 0 (by decide) hreach hm)

end EDarts.Multithreading.Barrier
