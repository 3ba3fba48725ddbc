/-
  EDarts.Runtime.CodeletProgramProofs — a codelet program on one core fires each codelet
  once, and none before its dependencies (see `EDarts.Runtime.CodeletProgram`).

  The program refines its dataflow graph (`EDarts.Lib.Dataflow`): a decrement is the arrival
  of a signal, a push to the queue issues a task, a pop fires it, and nothing else is a step
  of the graph. The ready tasks are the codelets in the queue, and the counter of a slot is
  what it still waits for (`Refines`). A call that got 0 is about to issue the slot's tasks,
  and no other one ever is: the graph is balanced, so the counter gets to 0 once and stays.

  - `Refines.step`: every step of the core is a step of the graph, or none.
  - `dependency_safe`: in every reachable state the codelets fired are codelets of the
    slots, each of them once, and each after the decrements of its slot.
-/

import EDarts.Assets.CodeletsQueueProofs
import EDarts.Runtime.CodeletProgram

namespace EDarts.Runtime.CodeletProgram

open Lib Assets CodeletsQueue Dataflow

variable {ι : Type} [DecidableEq ι]

namespace Program

/-- What the program's slots wait for, and what its codelets signal. -/
def graph (P : Program ι) : Graph ι where
  deps := fun p => (P.initDep p).toNat
  copies := fun p => (P.numCodelets p).toNat
  startup := P.startup
  succ := P.succ

/-- A copy of the slot's template. -/
def copy (P : Program ι) (x : TaskOf ι) : Codelet := { P.template x.1 with codeletID := BitVec.ofNat 32 x.2 }

end Program

variable (P : Program ι)

/-- The slot `p` after `n` decrements, but for the id in its template. -/
structure SlotAt (p : ι) (n : Nat) (slot : SyncSlot) : Prop where
  free : slot.lockMutex = 0
  numCodelets : slot.numCodelets = P.numCodelets p
  syncSlot : slot.codeletTemplate.syncSlot = (P.template p).syncSlot
  fire : slot.codeletTemplate.fire = (P.template p).fire
  count : slot.currentDep.toNat + n = (P.initDep p).toNat

/-- The calls that are still to decrement. -/
def outstanding : Pc ι → List ι
  | .test | .pop | .stopped => []
  | .fire todo => todo
  | .decDep p c todo => if c.pc = .start then p :: todo else todo

/-- How far a call on slot `p` is with the slot's codelets. -/
def Issuing (p : ι) (slot : SyncSlot) (σ : Dataflow.State ι) : DecDep.Pc → Prop
  | .start | .done => True
  | .decremented => σ.issued p = 0
  | .loop i => σ.issued p = i.toNat ∧ (signaled σ.history).count p = (P.initDep p).toNat ∧
      i.toNat ≤ (P.numCodelets p).toNat
  | .pushing i => σ.issued p = i.toNat ∧ (signaled σ.history).count p = (P.initDep p).toNat ∧
      i.toNat < (P.numCodelets p).toNat ∧ slot.codeletTemplate.codeletID = i

/-- The call in progress, by this core. -/
def Calling (s : State ι) (σ : Dataflow.State ι) : Prop :=
  match s.pc with
  | .decDep p c _ => c.core = P.core ∧ c.queue = P.dartsCUElements + CU_CODELETS_QUEUE ∧ Issuing P p (s.slots p) σ c.pc
  | _ => True

structure Refines (s : State ι) (σ : Dataflow.State ι) : Prop where
  log : s.log = σ.history.map (Event.map P.copy)
  queue : ∃ h, Holds P.thisCodeletQueue 200 s.queue h (σ.ready.map P.copy)
  slots : ∀ p, SlotAt P p ((signaled σ.history).count p) (s.slots p)
  owed : sent P.graph σ.history = signaled σ.history ++ outstanding s.pc
  calling : Calling P s σ

variable {P}

/-! ## The start -/

theorem Refines.start (S : Space P.thisCodeletQueue 200) (slots : ι → SyncSlot) (queue : CodeletsQueue) :
    Refines P (P.start slots queue) .start where
  log := rfl
  queue := ⟨0, holds_init S rfl queue⟩
  slots := fun _ => ⟨rfl, rfl, rfl, rfl, rfl⟩
  owed := by
    show P.startup ++ [] = [] ++ P.startup
    rw [List.append_nil, List.nil_append]
  calling := trivial

/-! ## The scheduler's loop -/

/-- Between two calls only the place in the code changes. -/
theorem Refines.goto {s : State ι} {σ : Dataflow.State ι} (R : Refines P s σ) {pc : Pc ι}
    (howed : outstanding pc = outstanding s.pc) (hcalling : Calling P { s with pc := pc } σ) :
    Refines P { s with pc := pc } σ :=
  ⟨R.log, R.queue, R.slots, howed ▸ R.owed, hcalling⟩

/-- The next codelet is popped and fired. -/
theorem Refines.fires {s : State ι} {σ : Dataflow.State ι} (R : Refines P s σ) (hpc : s.pc = .pop) (x : TaskOf ι)
    {rest : List (TaskOf ι)} {q : CodeletsQueue} {h : Nat} (H : Holds P.thisCodeletQueue 200 q h (rest.map P.copy)) :
    Refines P { s with queue := q, pc := .fire (P.calls (P.copy x)), log := s.log ++ [.fire (P.copy x)] }
      ⟨σ.history ++ [.fire x], rest⟩ where
  log := by
    rw [R.log, List.map_append]
    rfl
  queue := ⟨h, H⟩
  slots := by
    intro p
    rw [signaled_fire]
    exact R.slots p
  owed := by
    have howed := R.owed
    rw [hpc] at howed
    show sent P.graph (σ.history ++ [.fire x]) = _ ++ P.calls (P.copy x)
    rw [signaled_fire, sent, fired_fire, List.flatMap_append, ← List.append_assoc, List.flatMap_singleton]
    rw [sent, outstanding, List.append_nil] at howed
    rw [howed, Program.copy, P.calls_template]
    rfl
  calling := trivial

/-! ## A call of `decDepAndPush` -/

/-- The slot of a call changes, the others do not. -/
theorem slots_update {s : State ι} {σ σ' : Dataflow.State ι} (R : Refines P s σ) {p : ι} {slot : SyncSlot}
    (hslot : SlotAt P p ((signaled σ'.history).count p) slot)
    (hothers : ∀ q, q ≠ p → (signaled σ'.history).count q = (signaled σ.history).count q) :
    ∀ q, SlotAt P q ((signaled σ'.history).count q) (Function.update s.slots p slot q) := by
  apply (Function.forall_update_iff s.slots fun q slot => SlotAt P q ((signaled σ'.history).count q) slot).mpr
  refine ⟨hslot, fun q hq => ?_⟩
  rw [hothers q hq]
  exact R.slots q

variable {s : State ι} {σ : Dataflow.State ι} {p : ι} {c : DecDep.Call} {todo : List ι}

/-- The decrement is the arrival of a signal. -/
theorem Refines.decrement [Fintype ι] (hG : P.graph.Balanced) (I : Inv P.graph σ) (R : Refines P s σ)
    (hpc : s.pc = .decDep p c todo) (hc : c.pc = .start) :
    (signaled σ.history).count p < (sent P.graph σ.history).count p ∧
    Refines P
      { s with
        slots := Function.update s.slots p { s.slots p with currentDep := (s.slots p).currentDep - 1 }
        pc := .decDep p { c with pc := .decremented } todo
        log := s.log ++ [.signal p] }
      { σ with history := σ.history ++ [.signal p] } := by
  have howed := R.owed
  rw [hpc, outstanding, if_pos hc] at howed
  have hlt : (signaled σ.history).count p < (sent P.graph σ.history).count p := by
    rw [howed, List.count_append, List.count_cons_self]
    omega
  have hdeps : (signaled σ.history).count p < (P.initDep p).toNat := I.lt_deps hG hlt
  obtain ⟨hfree, hnum, hsync, hfire, hcount⟩ := R.slots p
  have hcall := R.calling
  rw [Calling, hpc] at hcall
  have hissued : σ.issued p = 0 := I.issued_eq_zero hdeps
  refine ⟨hlt, ?_, R.queue, ?_, ?_, ?_⟩
  · rw [R.log, List.map_append]
    rfl
  · refine slots_update R ⟨hfree, hnum, hsync, hfire, ?_⟩ fun q hq => ?_
    · rw [signaled_signal, List.count_append, List.count_singleton_self]
      show ((s.slots p).currentDep - 1).toNat + _ = _
      bv_omega
    · rw [signaled_signal, List.count_append, List.count_singleton]
      simp [Ne.symm hq]
  · show sent P.graph (σ.history ++ [.signal p]) = signaled (σ.history ++ [.signal p]) ++ todo
    rw [signaled_signal, sent, fired_signal, List.append_assoc]
    exact howed
  · refine ⟨hcall.1, hcall.2.1, ?_⟩
    show State.issued { σ with history := σ.history ++ [.signal p] } p = 0
    rw [issued_of_tasks (tasks_signal σ p), hissued]

/-- Nothing but the place in the call, and the id in the slot's template. -/
theorem Refines.advance (R : Refines P s σ) (hpc : s.pc = .decDep p c todo) (hc : c.pc ≠ .start) (c' : DecDep.Call)
    (hcore : c'.core = c.core) (hqueue : c'.queue = c.queue) (hc' : c'.pc ≠ .start) (i : Word)
    (hissuing : Issuing P p { s.slots p with codeletTemplate := { (s.slots p).codeletTemplate with codeletID := i } } σ c'.pc) :
    Refines P
      { s with
        slots := Function.update s.slots p
          { s.slots p with codeletTemplate := { (s.slots p).codeletTemplate with codeletID := i } }
        pc := .decDep p c' todo } σ := by
  obtain ⟨hfree, hnum, hsync, hfire, hcount⟩ := R.slots p
  have hcall := R.calling
  have howed := R.owed
  rw [Calling, hpc] at hcall
  rw [hpc, outstanding, if_neg hc] at howed
  refine ⟨R.log, R.queue, slots_update R ⟨hfree, hnum, hsync, hfire, hcount⟩ fun _ _ => rfl, ?_, ?_⟩
  · rw [outstanding, if_neg hc']
    exact howed
  · refine ⟨hcore.trans hcall.1, hqueue.trans hcall.2.1, ?_⟩
    show Issuing P p (Function.update s.slots p _ p) σ c'.pc
    rw [Function.update_self]
    exact hissuing

/-- A push that succeeds issues the next task of the slot. -/
theorem Refines.push (R : Refines P s σ) {i : Word} (hpc : s.pc = .decDep p c todo) (hc : c.pc = .pushing i)
    {q : CodeletsQueue} {h : Nat}
    (H : Holds P.thisCodeletQueue 200 q h (σ.ready.map P.copy ++ [(s.slots p).codeletTemplate])) :
    ((signaled σ.history).count p = P.graph.deps p ∧ σ.issued p < P.graph.copies p) ∧
    Refines P { s with queue := q, pc := .decDep p { c with pc := .loop (i + 1) } todo }
      { σ with ready := σ.ready ++ [(p, σ.issued p)] } := by
  have hcall := R.calling
  have howed := R.owed
  have hslot := R.slots p
  rw [hpc, outstanding, if_neg (by simp [hc])] at howed
  rw [Calling, hpc] at hcall
  obtain ⟨hcore, hqueue, hissuing⟩ := hcall
  rw [hc] at hissuing
  obtain ⟨hissued, hdeps, hlt, hid⟩ := hissuing
  have hcopy : P.copy (p, σ.issued p) = (s.slots p).codeletTemplate := by
    rw [Program.copy, hissued, BitVec.ofNat_toNat, BitVec.setWidth_eq, ← hslot.syncSlot, ← hslot.fire, ← hid]
  have hnext : (i + 1).toNat = i.toNat + 1 := by bv_omega
  refine ⟨⟨hdeps, hissued ▸ hlt⟩, R.log, ⟨h, ?_⟩, R.slots, howed, hcore, hqueue, ?_, hdeps, ?_⟩
  · rw [List.map_append, List.map_singleton, hcopy]
    exact H
  · rw [issued_issue, if_pos rfl, hnext, hissued]
  · rw [hnext]
    exact hlt

/-- The place of a call in the slot's own terms. -/
theorem Refines.issuing (R : Refines P s σ) (hpc : s.pc = .decDep p c todo) : Issuing P p (s.slots p) σ c.pc := by
  have hcall := R.calling
  rw [Calling, hpc] at hcall
  exact hcall.2.2

section Call

variable {r : DecDep.Call × DecDep.State} (h : DecDep.callStep c ⟨s.slots p, fun _ => s.queue, [c], []⟩ = some r)
include h

/-- A call that got 0 finds all dependencies satisfied, and nothing issued. -/
theorem Refines.read (R : Refines P s σ) (hpc : s.pc = .decDep p c todo) (hc : c.pc = .decremented) :
    Refines P (P.stepped s p c todo r) σ := by
  have hissued := R.issuing hpc
  rw [hc] at hissued
  by_cases hr : (s.slots p).result = 0
  · simp only [DecDep.callStep, hc, hr, if_true, Option.some.injEq] at h
    subst h
    have hz := (SyncSlot.result_eq_zero _).mp hr
    have hcount := (R.slots p).count
    rw [Program.stepped, hc]
    refine R.advance hpc (by simp [hc]) { c with pc := .loop 0, ret := some 0 } rfl rfl (by simp)
      (s.slots p).codeletTemplate.codeletID ?_
    exact ⟨hissued, by omega, Nat.zero_le _⟩
  · simp only [DecDep.callStep, hc, hr, if_false, Option.some.injEq] at h
    subst h
    rw [Program.stepped, hc]
    exact R.advance hpc (by simp [hc]) { c with pc := .done, ret := some (s.slots p).result } rfl rfl (by simp)
      (s.slots p).codeletTemplate.codeletID trivial

theorem Refines.loop (R : Refines P s σ) {i : Word} (hpc : s.pc = .decDep p c todo) (hc : c.pc = .loop i) :
    Refines P (P.stepped s p c todo r) σ := by
  have hissuing := R.issuing hpc
  rw [hc] at hissuing
  obtain ⟨hissued, hdeps, -⟩ := hissuing
  by_cases hi : i < (s.slots p).numCodelets
  · simp only [DecDep.callStep, hc, hi, if_true, Option.some.injEq] at h
    subst h
    rw [(R.slots p).numCodelets, BitVec.lt_def] at hi
    rw [Program.stepped, hc]
    apply R.advance hpc (by simp [hc]) { c with pc := .pushing i } rfl rfl (by simp) i
    exact ⟨hissued, hdeps, hi, rfl⟩
  · simp only [DecDep.callStep, hc, hi, if_false, Option.some.injEq] at h
    subst h
    rw [Program.stepped, hc]
    exact R.advance hpc (by simp [hc]) { c with pc := .done } rfl rfl (by simp)
      (s.slots p).codeletTemplate.codeletID trivial

theorem Refines.attempt (S : Space P.thisCodeletQueue 200) (R : Refines P s σ) {i : Word}
    (hpc : s.pc = .decDep p c todo) (hc : c.pc = .pushing i) :
    ∃ σ', (σ' = σ ∨ Step P.graph σ σ') ∧ Refines P (P.stepped s p c todo r) σ' := by
  obtain ⟨head, H⟩ := R.queue
  have hcall := R.calling
  rw [Calling, hpc] at hcall
  have hthis : DARTS_APPEND_COREID c.core c.queue = P.thisCodeletQueue := by
    rw [hcall.1, hcall.2.1, Program.thisCodeletQueue]
  have hnot := not_fillsRing S (by decide) H (.push c.core (s.slots p).codeletTemplate)
  rcases push_holds S H c.core (s.slots p).codeletTemplate hnot with ⟨-, hp⟩ | ⟨-, hp, H'⟩
  · -- no room: it tries again
    simp only [DecDep.callStep, hc, hthis, hp, Option.map_some, Option.some.injEq] at h
    rw [if_pos (by decide)] at h
    subst h
    refine ⟨σ, Or.inl rfl, ?_⟩
    simp only [Program.stepped, hc, Function.update_eq_self, if_true, reduceCtorEq, if_false]
    rw [← hpc]
    exact R
  · simp only [DecDep.callStep, hc, hthis, hp, Option.map_some, Option.some.injEq] at h
    rw [if_neg (by decide)] at h
    subst h
    obtain ⟨⟨hdeps, hlt⟩, R'⟩ := R.push hpc hc H'
    refine ⟨_, Or.inr (.issue σ p hdeps hlt), ?_⟩
    simp only [Program.stepped, hc, Function.update_eq_self, if_true, reduceCtorEq, if_false]
    exact R'

/-- A step of a call is a decrement, a push, or no step of the graph. -/
theorem Refines.call [Fintype ι] (S : Space P.thisCodeletQueue 200) (hG : P.graph.Balanced) (I : Inv P.graph σ)
    (R : Refines P s σ) (hpc : s.pc = .decDep p c todo) :
    ∃ σ', (σ' = σ ∨ Step P.graph σ σ') ∧ Refines P (P.stepped s p c todo r) σ' := by
  cases hc : c.pc with
  | start =>
    simp only [DecDep.callStep, hc, SyncSlot.decrement_free c.core (R.slots p).free, Option.map_some,
      Option.some.injEq] at h
    subst h
    obtain ⟨hlt, R'⟩ := R.decrement hG I hpc hc
    rw [Program.stepped, hc]
    exact ⟨_, Or.inr (.signal σ p hlt), R'⟩
  | decremented => exact ⟨σ, Or.inl rfl, R.read h hpc hc⟩
  | loop i => exact ⟨σ, Or.inl rfl, R.loop h hpc hc⟩
  | pushing i => exact R.attempt h S hpc hc
  | done => simp [DecDep.callStep, hc] at h

end Call

/-! ## Runs -/

/-- Every step of the core is a step of the graph, or none. -/
theorem Refines.step [Fintype ι] (S : Space P.thisCodeletQueue 200) (hG : P.graph.Balanced) (I : Inv P.graph σ)
    (R : Refines P s σ) {alive : Bool} {o : Unit} {s' : State ι} (h : P.step s alive = some (o, s')) :
    ∃ σ', (σ' = σ ∨ Step P.graph σ σ') ∧ Refines P s' σ' := by
  cases hpc : s.pc with
  | test =>
    simp only [Program.step, hpc, Option.some.injEq, Prod.mk.injEq] at h
    obtain ⟨-, rfl⟩ := h
    refine ⟨σ, Or.inl rfl, R.goto ?_ ?_⟩
    · cases alive <;> rw [hpc] <;> rfl
    · cases alive <;> exact trivial
  | pop =>
    obtain ⟨head, H⟩ := R.queue
    rcases pop_holds S H P.core with ⟨-, hp⟩ | ⟨c, L, q, hL, hp, H'⟩
    · simp only [Program.step, hpc, hp, Option.map_some, Option.some.injEq, Prod.mk.injEq] at h
      obtain ⟨-, rfl⟩ := h
      exact ⟨σ, Or.inl rfl, R.goto (by rw [hpc]; rfl) trivial⟩
    · simp only [Program.step, hpc, hp, Option.map_some, Option.some.injEq, Prod.mk.injEq] at h
      obtain ⟨-, rfl⟩ := h
      obtain ⟨x, rest, hready, rfl, rfl⟩ := List.map_eq_cons_iff.mp hL
      exact ⟨_, Or.inr (.fire σ x rest hready), R.fires hpc x H'⟩
  | fire todo =>
    cases todo with
    | nil =>
      simp only [Program.step, hpc, Option.some.injEq, Prod.mk.injEq] at h
      obtain ⟨-, rfl⟩ := h
      exact ⟨σ, Or.inl rfl, R.goto (by rw [hpc]; rfl) trivial⟩
    | cons p todo =>
      simp only [Program.step, hpc, Option.some.injEq, Prod.mk.injEq] at h
      obtain ⟨-, rfl⟩ := h
      exact ⟨σ, Or.inl rfl, R.goto (by rw [hpc]; rfl) ⟨rfl, rfl, trivial⟩⟩
  | decDep p c todo =>
    by_cases hc : c.pc = .done
    · simp only [Program.step, hpc, hc, if_true, Option.some.injEq, Prod.mk.injEq] at h
      obtain ⟨-, rfl⟩ := h
      exact ⟨σ, Or.inl rfl, R.goto (by rw [hpc, outstanding, outstanding, hc, if_neg (by decide)]) trivial⟩
    · simp only [Program.step, hpc, hc, if_false, Option.map_eq_some_iff, Prod.mk.injEq] at h
      obtain ⟨r, hr, -, rfl⟩ := h
      exact R.call hr S hG I hpc
  | stopped => simp only [Program.step, hpc] at h; cases h

/-- Every reachable state refines a reachable state of the graph. -/
theorem refines_graph [Fintype ι] (S : Space P.thisCodeletQueue 200) (hG : P.graph.Balanced) (h : P.Reachable s) :
    ∃ σ, Dataflow.Reachable P.graph σ ∧ Refines P s σ := by
  refine Reach.simulated (Refines P) ?_ ?_ h
  · intro s hs
    obtain ⟨slots, queue, rfl⟩ := hs
    exact ⟨_, rfl, Refines.start S slots queue⟩
  · intro s σ s' hσ R hst
    obtain ⟨alive, o, hst⟩ := hst
    exact R.step S hG (Reachable.inv hG hσ) hst

/-- For every program whose slots wait for exactly the decrements that it can make, and every
    reachable state: the codelets fired are copies of templates with the id of a codelet of
    their slot, each of them was fired once, and each after all decrements of its slot. -/
theorem dependency_safe [Fintype ι] (P : Program ι) (S : Space P.thisCodeletQueue 200) (hG : P.graph.Balanced)
    {s : State ι} (h : P.Reachable s) : ∃ A, s.log = A.map (Event.map P.copy) ∧ Safe P.graph A := by
  obtain ⟨σ, hσ, R⟩ := refines_graph S hG h
  exact ⟨σ.history, R.log, Reachable.safe hG hσ⟩

/-- The slots 1 and 2 signal 3, which signals 0. -/
def myTestSucc : Fin 4 → List (Fin 4)
  | 0 => []
  | 1 | 2 => [3]
  | 3 => [0]

def myTestDeps : Fin 4 → Word
  | 0 | 1 | 2 => 1
  | 3 => 2

/-- Where the code of the codelets is. -/
def myTestFire (p : Fin 4) : Word := 0x100 + 0x40 * BitVec.ofNat 32 p

/-- What the code at an address signals. -/
def myTestCalls (fire : Word) : List (Fin 4) := ((List.finRange 4).filter fun p => myTestFire p = fire).flatMap myTestSucc

theorem myTestCalls_fire : ∀ p, myTestCalls (myTestFire p) = myTestSucc p := by decide

/-- The threaded procedure of the tests, on core 0x808; the core signals its slots 1 and 2. -/
def myTest : Program (Fin 4) where
  core := 0x808
  dartsCUElements := 0x5000
  slotAddress := fun p => 0x6088 + 40 * BitVec.ofNat 32 p
  slotID := fun p => BitVec.ofNat 32 p
  resetDep := myTestDeps
  initDep := myTestDeps
  template := fun p => ⟨0, 0x6088 + 40 * BitVec.ofNat 32 p, myTestFire p⟩
  numCodelets := fun _ => 1
  startup := [1, 2]
  calls := fun c => myTestCalls c.fire
  succ := myTestSucc
  calls_template := fun p _ => myTestCalls_fire p

theorem space_myTest : Space myTest.thisCodeletQueue 200 := ⟨rfl, by decide, by decide⟩

theorem balanced_myTest : myTest.graph.Balanced := by
  unfold Graph.Balanced
  decide

def myTestLog : List (Event (Fin 4) Codelet) :=
  [.signal 1, .signal 2, .fire (myTest.copy (1, 0)), .signal 3, .fire (myTest.copy (2, 0)), .signal 3,
    .fire (myTest.copy (3, 0)), .signal 0, .fire (myTest.copy (0, 0))]

/-- The run in which all its codelets are fired. -/
theorem dependency_safe_myTest : ∃ A, myTestLog = A.map (Event.map myTest.copy) ∧ Safe myTest.graph A := by
  let s := myTest.start (fun _ => ⟨0, 0, 0, 0, ⟨0, 0, 0⟩, 0, 0, 0⟩) testQueue
  have hrun : (run myTest.step s (List.replicate 45 true)).map (fun r => r.2.log) = some myTestLog := by decide +kernel
  obtain ⟨r, hr, hlog⟩ := Option.map_eq_some_iff.mp hrun
  have hreach : myTest.Reachable r.2 := Reach.of_run _ (.init ⟨_, _, rfl⟩) hr
  rw [← hlog]
  exact dependency_safe myTest space_myTest balanced_myTest hreach

end EDarts.Runtime.CodeletProgram
