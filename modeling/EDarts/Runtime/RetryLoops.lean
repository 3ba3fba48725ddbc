/-
  EDarts.Runtime.RetryLoops — the loops of the runtime that repeat a push until it succeeds
  (`e_darts_cu_scheduler.c`, `e_darts_su_scheduler.c`), run by a codelet that the core's
  scheduler is firing.

  The queue is the core's own. Its only consumer is the scheduler loop of the same core,
  which goes on when the codelet has returned; before each attempt other cores make pushes
  of their own. A codelet finds its queue through the runtime elements of its core, a CU's
  or an SU's; the two `decDepAndPush` and the two `addCodeletSelfQueue` differ in nothing
  else. `fuel` bounds the attempts of each push.

  - `retry_loops_end_iff`: `decDepAndPush` returns exactly when it has nothing to push or
    the queue has room for all that is pushed until its last codelet; `addCodeletSelfQueue`
    when there is room for one codelet, `invokeSelfQueue` when there is room for the closure.
  - `seventeen_codelets_never_fit`: a slot of 17 codelets, on an empty queue.
-/

import EDarts.Lib.Retry
import EDarts.Runtime.DecDep
import EDarts.Assets.CodeletsQueueProofs
import EDarts.Assets.TpClosuresQueueCalls

namespace EDarts.Runtime.RetryLoops

open Lib Multithreading Assets DecDep

/-! ## The codelets queue -/

section Codelets

open CodeletsQueue

/-- The queue of the calling core, by its full address. -/
def thisCodeletQueue : Caller → Word
  | .cu core dartsCUElements => DARTS_APPEND_COREID core (dartsCUElements + CU_CODELETS_QUEUE)
  | .su core dartsSUElements => DARTS_APPEND_COREID core (dartsSUElements + SU_CODELETS_QUEUE)

def coreOf : Caller → Word
  | .cu core _ | .su core _ => core

/-- The pushes of other cores: who, and what. -/
abbrev Pushes := List (Word × Codelet)

def othersPush (queue : Word) : Pushes → CodeletsQueue → CodeletsQueue
  | [], q => q
  | (core, c) :: ps, q => othersPush queue ps ((pushCodeletQueue queue core c q).elim q Prod.snd)

/-- `while (pushCodeletQueue(queue, c) != CODELET_QUEUE_SUCCESS_OP);` -/
def pushLoop (queue core : Word) (c : Codelet) (others : Nat → Pushes) (fuel n : Nat) (q : CodeletsQueue) :
    Option (Nat × CodeletsQueue) :=
  retry (fun q => (pushCodeletQueue queue core c q).map fun r => (r.1 == .successOp, r.2))
    (fun n => othersPush queue (others n)) fuel n q

def addCodeletSelfQueue (caller : Caller) (toAdd : Codelet) (others : Nat → Pushes) (fuel : Nat) (q : CodeletsQueue) :
    Option (Nat × CodeletsQueue) :=
  pushLoop (thisCodeletQueue caller) (coreOf caller) toAdd others fuel 0 q

/-- The loop over the slot's codelets from `i` on, the last `todo` of them. -/
def pushCodelets (caller : Caller) (toDecDep : SyncSlot) (others : Nat → Pushes) (fuel : Nat) :
    Nat → Word → Nat → CodeletsQueue → Option (Nat × CodeletsQueue)
  | 0, _, n, q => some (n, q)
  | todo + 1, i, n, q =>
    let codelet := { toDecDep.codeletTemplate with codeletID := i }
    match pushLoop (thisCodeletQueue caller) (coreOf caller) codelet others fuel n q with
    | none => none
    | some (n, q) => pushCodelets caller toDecDep others fuel todo (i + 1) n q

/-- Between the decrement and the read of the counter, `late` makes the decrements of other
    cores. -/
def decDepAndPush (caller : Caller) (toDecDep : SyncSlot) (late : Word) (others : Nat → Pushes) (fuel : Nat)
    (q : CodeletsQueue) : Option (Nat × CodeletsQueue) :=
  match toDecDep.decrement (coreOf caller) with
  | none => none
  | some slot =>
    let slot := { slot with currentDep := slot.currentDep - late }
    if slot.result = 0 then pushCodelets caller slot others fuel slot.numCodelets.toNat 0 0 q else some (0, q)

/-- The pushes of others before the attempts `n` to `n + k - 1`. -/
def pushedBefore (others : Nat → Pushes) : Nat → Nat → Nat
  | _, 0 => 0
  | n, k + 1 => (others n).length + pushedBefore others (n + 1) k

variable {queue : Word}

/-- What others push comes behind, as far as there is room: 16 codelets fit. -/
theorem othersPush_holds (S : Space queue 200) : ∀ (ps : Pushes) {q : CodeletsQueue} {h : Nat} {L : List Codelet},
    Holds queue 200 q h L → ∃ L', Holds queue 200 (othersPush queue ps q) h L' ∧
      L'.length = min 16 (L.length + ps.length) := by
  intro ps
  induction ps with
  | nil =>
    intro q h L H
    have hroom := H.room
    exact ⟨L, H, by simp only [List.length_nil]; omega⟩
  | cons p ps ih =>
    intro q h L H
    obtain ⟨core, c⟩ := p
    have hnot := not_fillsRing S (by decide) H (.push core c)
    rcases push_holds S H core c hnot with ⟨hfull, hp⟩ | ⟨hroom, hp, H'⟩
    · obtain ⟨L', H', hlen⟩ := ih H
      simp only [othersPush, hp, Option.elim_some]
      exact ⟨L', H', by simp only [List.length_cons]; omega⟩
    · obtain ⟨L', H', hlen⟩ := ih H'
      simp only [othersPush, hp, Option.elim_some]
      refine ⟨L', H', ?_⟩
      simp only [List.length_append, List.length_cons, List.length_nil] at hlen ⊢
      omega

/-- With room left by the others, the first attempt succeeds. -/
theorem pushLoop_now (S : Space queue 200) {q : CodeletsQueue} {h : Nat} {L : List Codelet} (H : Holds queue 200 q h L)
    (core : Word) (c : Codelet) (others : Nat → Pushes) (n : Nat) (hroom : L.length + (others n).length < 16) :
    ∃ q' L', Holds queue 200 q' h L' ∧ L'.length = L.length + (others n).length + 1 ∧
      ∀ fuel, pushLoop queue core c others (fuel + 1) n q = some (n + 1, q') := by
  obtain ⟨L₁, H₁, hlen⟩ := othersPush_holds S (others n) H
  have hnot := not_fillsRing S (by decide) H₁ (.push core c)
  rcases push_holds S H₁ core c hnot with ⟨hfull, -⟩ | ⟨-, hp, H'⟩
  · omega
  · refine ⟨_, L₁ ++ [c], H', ?_, fun fuel => retry_now ?_ fuel⟩
    · rw [List.length_append, List.length_singleton]
      omega
    · rw [hp]
      rfl

/-- A full queue stays full: nobody pops. -/
theorem pushLoop_stuck (S : Space queue 200) {q : CodeletsQueue} {h : Nat} {L : List Codelet} (H : Holds queue 200 q h L)
    (core : Word) (c : Codelet) (others : Nat → Pushes) (n : Nat) (hfull : 16 ≤ L.length + (others n).length) (fuel : Nat) :
    pushLoop queue core c others fuel n q = none := by
  refine retry_stuck (p := fun q => ∃ L, Holds queue 200 q h L ∧ L.length = 16) ?_ ?_ fuel n ?_
  · intro k q hq
    obtain ⟨L₁, H₁, hlen₁⟩ := hq
    obtain ⟨L₂, H₂, hlen₂⟩ := othersPush_holds S (others k) H₁
    exact ⟨L₂, H₂, by omega⟩
  · intro q hq
    obtain ⟨L₁, H₁, hlen₁⟩ := hq
    have hnot := not_fillsRing S (by decide) H₁ (.push core c)
    rcases push_holds S H₁ core c hnot with ⟨-, hp⟩ | ⟨hroom, -, -⟩
    · exact ⟨q, by rw [hp]; rfl, L₁, H₁, hlen₁⟩
    · omega
  · obtain ⟨L₁, H₁, hlen₁⟩ := othersPush_holds S (others n) H
    exact ⟨L₁, H₁, by omega⟩

/-- Each codelet finds room, and its first attempt succeeds. -/
theorem pushCodelets_now {caller : Caller} (S : Space (thisCodeletQueue caller) 200) (slot : SyncSlot)
    (others : Nat → Pushes) : ∀ (todo : Nat) (i : Word) (n : Nat) {q : CodeletsQueue} {h : Nat} {L : List Codelet},
    Holds (thisCodeletQueue caller) 200 q h L → (todo = 0 ∨ L.length + pushedBefore others n todo + todo ≤ 16) →
    ∃ r, ∀ fuel, pushCodelets caller slot others (fuel + 1) todo i n q = some r := by
  intro todo
  induction todo with
  | zero =>
    intro i n q h L _ _
    exact ⟨(n, q), fun _ => rfl⟩
  | succ todo ih =>
    intro i n q h L H hroom
    rw [pushedBefore] at hroom
    obtain ⟨q', L', H', hlen, hnow⟩ := pushLoop_now S H (coreOf caller) { slot.codeletTemplate with codeletID := i }
      others n (by omega)
    obtain ⟨r, hr⟩ := ih (i + 1) (n + 1) H' (by omega)
    exact ⟨r, fun fuel => by simp only [pushCodelets, hnow fuel, hr fuel]⟩

/-- Some codelet finds the queue full. -/
theorem pushCodelets_stuck {caller : Caller} (S : Space (thisCodeletQueue caller) 200) (slot : SyncSlot)
    (others : Nat → Pushes) (fuel : Nat) : ∀ (todo : Nat) (i : Word) (n : Nat) {q : CodeletsQueue} {h : Nat}
      {L : List Codelet}, Holds (thisCodeletQueue caller) 200 q h L → todo ≠ 0 →
    16 < L.length + pushedBefore others n todo + todo → pushCodelets caller slot others fuel todo i n q = none := by
  intro todo
  induction todo with
  | zero =>
    intro i n q h L _ hne
    exact absurd rfl hne
  | succ todo ih =>
    intro i n q h L H _ hover
    rw [pushedBefore] at hover
    by_cases hroom : L.length + (others n).length < 16
    · obtain ⟨q', L', H', hlen, hnow⟩ := pushLoop_now S H (coreOf caller) { slot.codeletTemplate with codeletID := i }
        others n hroom
      have hne : todo ≠ 0 := by
        intro e
        subst e
        rw [pushedBefore] at hover
        omega
      cases fuel with
      | zero => rfl
      | succ fuel =>
        simp only [pushCodelets, hnow fuel]
        exact ih (i + 1) (n + 1) H' hne (by omega)
    · have hstuck := pushLoop_stuck S H (coreOf caller) { slot.codeletTemplate with codeletID := i } others n
        (Nat.le_of_not_lt hroom) fuel
      simp only [pushCodelets, hstuck]

theorem pushCodelets_iff {caller : Caller} (S : Space (thisCodeletQueue caller) 200) (slot : SyncSlot)
    (others : Nat → Pushes) (todo : Nat) (i : Word) (n : Nat) {q : CodeletsQueue} {h : Nat} {L : List Codelet}
    (H : Holds (thisCodeletQueue caller) 200 q h L) :
    (∃ fuel r, pushCodelets caller slot others fuel todo i n q = some r) ↔
      todo = 0 ∨ L.length + pushedBefore others n todo + todo ≤ 16 := by
  constructor
  · intro ⟨fuel, r, hr⟩
    by_contra hno
    rw [pushCodelets_stuck S slot others fuel todo i n H (by omega) (by omega)] at hr
    cases hr
  · intro hroom
    obtain ⟨r, hr⟩ := pushCodelets_now S slot others todo i n H hroom
    exact ⟨1, r, hr 0⟩

theorem addCodeletSelfQueue_iff {caller : Caller} (S : Space (thisCodeletQueue caller) 200) (toAdd : Codelet)
    (others : Nat → Pushes) {q : CodeletsQueue} {h : Nat} {L : List Codelet}
    (H : Holds (thisCodeletQueue caller) 200 q h L) :
    (∃ fuel r, addCodeletSelfQueue caller toAdd others fuel q = some r) ↔ L.length + (others 0).length + 1 ≤ 16 := by
  unfold addCodeletSelfQueue
  constructor
  · intro ⟨fuel, r, hr⟩
    by_contra hno
    rw [pushLoop_stuck S H (coreOf caller) toAdd others 0 (by omega) fuel] at hr
    cases hr
  · intro hroom
    obtain ⟨q', -, -, -, hnow⟩ := pushLoop_now S H (coreOf caller) toAdd others 0 (by omega)
    exact ⟨1, _, hnow 0⟩

theorem decDepAndPush_iff {caller : Caller} (S : Space (thisCodeletQueue caller) 200) {toDecDep : SyncSlot}
    (hf : toDecDep.lockMutex = 0) (late : Word) (others : Nat → Pushes) {q : CodeletsQueue} {h : Nat} {L : List Codelet}
    (H : Holds (thisCodeletQueue caller) 200 q h L) :
    (∃ fuel r, decDepAndPush caller toDecDep late others fuel q = some r) ↔
      toDecDep.currentDep - 1 - late ≠ 0 ∨ toDecDep.numCodelets = 0 ∨
        L.length + pushedBefore others 0 toDecDep.numCodelets.toNat + toDecDep.numCodelets.toNat ≤ 16 := by
  have hres : ∀ slot : SyncSlot, slot.result = 0 ↔ slot.currentDep = 0 := by
    intro slot
    rw [SyncSlot.result_eq_zero, ← BitVec.toNat_inj]
    rfl
  simp only [decDepAndPush, SyncSlot.decrement_free (coreOf caller) hf, hres]
  by_cases hz : toDecDep.currentDep - 1 - late = 0
  · simp only [hz, if_true, ne_eq, not_true_eq_false, false_or]
    rw [pushCodelets_iff S _ others _ 0 0 H, ← BitVec.toNat_inj]
    rfl
  · simp only [hz, if_false, ne_eq, not_false_eq_true, true_or, iff_true]
    exact ⟨0, _, rfl⟩

end Codelets

/-! ## The closures queue -/

section Closures

open TpClosuresQueue

def thisTPCQueue (core dartsSUElements : Word) : Word :=
  DARTS_APPEND_COREID core (dartsSUElements + SU_TPCLOSURES_QUEUE)

abbrev TpPushes := List (Word × GenericTpClosure)

def othersInvoke (queue : Word) : TpPushes → TpClosuresQueue → TpClosuresQueue
  | [], q => q
  | (core, c) :: ps, q => othersInvoke queue ps ((pushTpClosureQueue queue core c q).elim q Prod.snd)

/-- The SU's. -/
def invokeSelfQueue (core dartsSUElements : Word) (tpClosure : GenericTpClosure) (others : Nat → TpPushes) (fuel : Nat)
    (q : TpClosuresQueue) : Option (Nat × TpClosuresQueue) :=
  retry (fun q => (pushTpClosureQueue (thisTPCQueue core dartsSUElements) core tpClosure q).map fun r =>
      (r.1 == .successOp, r.2))
    (fun n => othersInvoke (thisTPCQueue core dartsSUElements) (others n)) fuel 0 q

variable {queue : Word} {N : Nat}

/-- A push leaves no larger gap than it found. -/
theorem hasGap_of_insert (S : Space queue N) {q : TpClosuresQueue} {L : List GenericTpClosure} (H : Lays queue N q L)
    {c : GenericTpClosure} (hc : 12 + c.sizeOfArgs.toNat < 2 ^ 32) (hgap : HasGap queue q c.size) {n : Nat}
    (h : HasGap queue (insert queue c q) n) : HasGap queue q n := by
  have hfit := S.fits
  have hinit := initAddress_toNat S
  have hend := end_toNat S H.size
  have hbase : base queue = queue.toNat + 24 := rfl
  have hsz := tpSize_toNat hc
  obtain ⟨hlow, hhigh, -⟩ := H.place S hc hgap
  have htail : (insert queue c q).tailAddress.toNat = (dest queue c q).toNat + c.size := by
    rw [insert_eq]
    exact toNat_add_tpSize hc (by omega)
  have hhead : (insert queue c q).headAddress = q.headAddress := by rw [insert_eq]
  have hsize : (insert queue c q).size = q.size := by rw [insert_eq]
  unfold HasGap at h hgap ⊢
  rw [htail, hhead, hsize] at h
  by_cases hat : AtTail queue c q
  · rw [dest, if_pos hat] at h
    split_ifs at h hgap ⊢ <;> omega
  · rw [dest, if_neg hat, hinit] at h
    rw [AtTail, not_or, BitVec.le_def, BitVec.le_def, hsz] at hat
    -- it wraps, so the tail was above the head, and the closure went before the head
    have hs := H.size
    cases H.layout with
    | straight hp hb ht he hn =>
      have hright : (initAddress queue + q.size - q.tailAddress).toNat = base queue + N - q.tailAddress.toNat := by
        rw [BitVec.toNat_sub_of_le (by rw [BitVec.le_def]; omega), hend]
      rw [hright] at hat
      split_ifs at h hgap ⊢ <;> omega
    | wrapped hb htf hpe htb hlt => omega

/-- Closures that do not overflow. -/
def Fits (ps : TpPushes) : Prop := ∀ p ∈ ps, 12 + p.2.sizeOfArgs.toNat < 2 ^ 32

/-- The queue is well-formed, and no gap takes `n` bytes. -/
def NoGap (queue : Word) (N n : Nat) (q : TpClosuresQueue) : Prop := ∃ L, Lays queue N q L ∧ ¬ HasGap queue q n

theorem othersInvoke_lays (S : Space queue N) : ∀ (ps : TpPushes) {q : TpClosuresQueue} {L : List GenericTpClosure},
    Fits ps → Lays queue N q L →
    (∃ L', Lays queue N (othersInvoke queue ps q) L') ∧
      ∀ n, HasGap queue (othersInvoke queue ps q) n → HasGap queue q n := by
  intro ps
  induction ps with
  | nil =>
    intro q L _ H
    exact ⟨⟨L, H⟩, fun _ h => h⟩
  | cons p ps ih =>
    intro q L hfits H
    obtain ⟨core, c⟩ := p
    have hc : 12 + c.sizeOfArgs.toNat < 2 ^ 32 := hfits (core, c) List.mem_cons_self
    have hrest : Fits ps := fun p hp => hfits p (List.mem_cons_of_mem _ hp)
    have hp := push_free core c S.valid H.free
    by_cases hfull : calculateMaxFreeSpaceQueue queue q ≤ tpSize c.sizeOfArgs
    · rw [if_pos hfull] at hp
      simp only [othersInvoke, hp, Option.elim_some]
      exact ih hrest H
    · rw [if_neg hfull] at hp
      simp only [othersInvoke, hp, Option.elim_some]
      obtain ⟨hlays, hgap⟩ := ih hrest (H.push S hc hfull)
      exact ⟨hlays, fun n h => hasGap_of_insert S H hc ((hasGap_iff S H hc).mpr hfull) (hgap n h)⟩

theorem invokeSelfQueue_iff {core dartsSUElements : Word} (S : Space (thisTPCQueue core dartsSUElements) N)
    {c : GenericTpClosure} (hc : 12 + c.sizeOfArgs.toNat < 2 ^ 32) {others : Nat → TpPushes} (hothers : ∀ n, Fits (others n))
    {q : TpClosuresQueue} {L : List GenericTpClosure} (H : Lays (thisTPCQueue core dartsSUElements) N q L) :
    (∃ fuel r, invokeSelfQueue core dartsSUElements c others fuel q = some r) ↔
      HasGap (thisTPCQueue core dartsSUElements) (othersInvoke (thisTPCQueue core dartsSUElements) (others 0) q) c.size := by
  obtain ⟨⟨L₀, H₀⟩, -⟩ := othersInvoke_lays S (others 0) (hothers 0) H
  have hiff := hasGap_iff S H₀ hc
  constructor
  · intro ⟨fuel, r, hr⟩
    by_contra hno
    have hstuck : invokeSelfQueue core dartsSUElements c others fuel q = none := by
      refine retry_stuck (p := NoGap (thisTPCQueue core dartsSUElements) N c.size) ?_ ?_ fuel 0 ⟨L₀, H₀, hno⟩
      · intro n q ⟨L₁, H₁, hno₁⟩
        obtain ⟨⟨L₂, H₂⟩, hgap⟩ := othersInvoke_lays S (others n) (hothers n) H₁
        exact ⟨L₂, H₂, fun h => hno₁ (hgap _ h)⟩
      · intro q ⟨L₁, H₁, hno₁⟩
        have hfull := Classical.not_not.mp (mt (hasGap_iff S H₁ hc).mpr hno₁)
        refine ⟨q, ?_, L₁, H₁, hno₁⟩
        rw [push_free core c S.valid H₁.free, if_pos hfull]
        rfl
    rw [hstuck] at hr
    cases hr
  · intro hgap
    have hp := push_free core c S.valid H₀.free
    rw [if_neg (hiff.mp hgap)] at hp
    have hok : (pushTpClosureQueue (thisTPCQueue core dartsSUElements) core c
        (othersInvoke (thisTPCQueue core dartsSUElements) (others 0) q)).map (fun r => (r.1 == .successOp, r.2)) =
        some (true, insert (thisTPCQueue core dartsSUElements) c
          (othersInvoke (thisTPCQueue core dartsSUElements) (others 0) q)) := by
      rw [hp]
      rfl
    exact ⟨1, _, retry_now hok 0⟩

end Closures

/-! ## The runtime's loops -/

/-- For every fill level of the core's own queues, slot, codelet and closure that an empty
    queue takes, and whatever the others push meanwhile: when the calls return. -/
theorem retry_loops_end_iff {caller : Caller} (S : CodeletsQueue.Space (thisCodeletQueue caller) 200) {q : CodeletsQueue}
    {h : Nat} {L : List Codelet} (H : CodeletsQueue.Holds (thisCodeletQueue caller) 200 q h L) (toDecDep : SyncSlot)
    (hf : toDecDep.lockMutex = 0) (late : Word) (toAdd : Codelet) (others : Nat → Pushes)
    {core dartsSUElements : Word} (T : TpClosuresQueue.Space (thisTPCQueue core dartsSUElements) 500)
    {t : TpClosuresQueue} {M : List GenericTpClosure}
    (K : TpClosuresQueue.Lays (thisTPCQueue core dartsSUElements) 500 t M) (tpClosure : GenericTpClosure)
    (hfit : tpClosure.size < 500) (tpOthers : Nat → TpPushes) (hothers : ∀ n, Fits (tpOthers n)) :
    ((∃ fuel r, decDepAndPush caller toDecDep late others fuel q = some r) ↔
      toDecDep.currentDep - 1 - late ≠ 0 ∨ toDecDep.numCodelets = 0 ∨
        L.length + pushedBefore others 0 toDecDep.numCodelets.toNat + toDecDep.numCodelets.toNat ≤ 16) ∧
    ((∃ fuel r, addCodeletSelfQueue caller toAdd others fuel q = some r) ↔ L.length + (others 0).length + 1 ≤ 16) ∧
    ((∃ fuel r, invokeSelfQueue core dartsSUElements tpClosure tpOthers fuel t = some r) ↔
      TpClosuresQueue.HasGap (thisTPCQueue core dartsSUElements)
        (othersInvoke (thisTPCQueue core dartsSUElements) (tpOthers 0) t) tpClosure.size) := by
  have hc : 12 + tpClosure.sizeOfArgs.toNat < 2 ^ 32 := by
    unfold GenericTpClosure.size at hfit
    omega
  exact ⟨decDepAndPush_iff S hf late others H, addCodeletSelfQueue_iff S toAdd others H, invokeSelfQueue_iff T hc hothers K⟩

/-- The CU of core 0x808, its elements at 0x5000, with an empty queue. -/
def testCU : Caller := .cu 0x808 0x5000

theorem space_testCU : CodeletsQueue.Space (thisCodeletQueue testCU) 200 := ⟨rfl, by decide, by decide⟩

def freshQueue : CodeletsQueue := (CodeletsQueue.initCodeletsQueue (thisCodeletQueue testCU) 200 CodeletsQueue.testQueue).2

theorem holds_freshQueue : CodeletsQueue.Holds (thisCodeletQueue testCU) 200 freshQueue 0 [] :=
  CodeletsQueue.holds_init space_testCU rfl _

/-- A slot whose last dependency is about to be satisfied. -/
def lastDep (numCodelets : Word) : SyncSlot := ⟨0, 1, 1, 0, ⟨0, 0x6088, 0x100⟩, numCodelets, 0, 0x80806020⟩

theorem space_testSU : TpClosuresQueue.Space (thisTPCQueue 0x808 0x5000) 500 := ⟨rfl, by decide⟩

def freshTPCQueue : TpClosuresQueue :=
  (TpClosuresQueue.initTpClosuresQueue (thisTPCQueue 0x808 0x5000) 500 ⟨0, 0, 0, 0, 0, 0, fun _ => 0⟩).2

theorem lays_freshTPCQueue : TpClosuresQueue.Lays (thisTPCQueue 0x808 0x5000) 500 freshTPCQueue [] :=
  TpClosuresQueue.lays_init space_testSU rfl _

/-- Into empty queues everything is pushed, as long as it is 16 codelets at most. -/
theorem retry_loops_end_iff_empty :
    (∃ fuel r, decDepAndPush testCU (lastDep 16) 0 (fun _ => []) fuel freshQueue = some r) ∧
    (∃ fuel r, addCodeletSelfQueue testCU ⟨0, 0, 0⟩ (fun _ => []) fuel freshQueue = some r) ∧
    ∃ fuel r, invokeSelfQueue 0x808 0x5000 TpClosuresQueue.withoutArgs (fun _ => []) fuel freshTPCQueue = some r := by
  have hgap := (TpClosuresQueue.hasGap_iff space_testSU lays_freshTPCQueue (c := TpClosuresQueue.withoutArgs)
    (by decide)).mpr (by decide)
  obtain ⟨hdec, hadd, hinv⟩ := retry_loops_end_iff space_testCU holds_freshQueue (lastDep 16) rfl 0 ⟨0, 0, 0⟩
    (fun _ => []) space_testSU lays_freshTPCQueue TpClosuresQueue.withoutArgs (by decide) (fun _ => [])
    (fun n p hp => by cases hp)
  exact ⟨hdec.mpr (by decide), hadd.mpr (by decide), hinv.mpr hgap⟩

/-- A slot of 17 codelets, and the queue of the core is empty. -/
theorem seventeen_codelets_never_fit :
    ¬ ∀ (caller : Caller) (q : CodeletsQueue) (h : Nat) (L : List Codelet) (toDecDep : SyncSlot),
      CodeletsQueue.Space (thisCodeletQueue caller) 200 → CodeletsQueue.Holds (thisCodeletQueue caller) 200 q h L →
      toDecDep.lockMutex = 0 → ∃ fuel r, decDepAndPush caller toDecDep 0 (fun _ => []) fuel q = some r := by
  intro hall
  have h := hall testCU freshQueue 0 [] (lastDep 17) space_testCU holds_freshQueue rfl
  rw [decDepAndPush_iff space_testCU rfl 0 (fun _ => []) holds_freshQueue] at h
  exact absurd h (by decide)

end EDarts.Runtime.RetryLoops
