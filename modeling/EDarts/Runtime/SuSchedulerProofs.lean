/-
  EDarts.Runtime.SuSchedulerProofs — the SU's loop executes codelets as a CU's does, and no
  closure leaves its queue (see `EDarts.Runtime.SuScheduler`).

  Of the codelets, a round of the SU is a round of `cu_scheduler_round_robin` (`asCu`): what it
  does with the closures queue before it pops is no step of that loop (`suStep_simulates`).
  In the closures queue, which nobody pops, the closures lie from the start of the space in
  the order of the pushes (`Grows`).

  - `codelets_as_on_cu`: in every reachable state the codelets fired are codelets of the slots,
    once and in order, and all of them whenever the SU is between codelets with its codelets
    queue empty.
  - `closures_never_leave`: in every reachable state the closures pushed are all in the
    queue, and a push succeeds exactly if they stay below the size of its space; one that
    there is no room for is refused in every run from there.
  - `an_invocation_without_room_stops_the_su`: in no run from there does the SU fire another
    codelet.
-/

import EDarts.Assets.TpClosuresQueueGrows
import EDarts.Runtime.CodeletProgramCompletes
import EDarts.Runtime.SuScheduler

namespace EDarts.Runtime.SuScheduler

open Lib Assets CodeletsQueue Dataflow

variable {ι : Type} {P : Program ι}

/-! ## The codelets -/

/-- The calls that a CU's codelet could make as well. -/
def decDeps (todo : List (Call ι)) : List ι :=
  todo.filterMap fun c =>
    match c with
    | .decDep p => some p
    | .invoke _ => none

/-- The same slots and codelets on a CU whose codelets queue is where the SU's is. -/
def Program.asCu (P : Program ι) : CodeletProgram.Program ι where
  core := P.core
  dartsCUElements := P.dartsSUElements + SU_CODELETS_QUEUE - CU_CODELETS_QUEUE
  slotAddress := P.slotAddress
  slotID := P.slotID
  resetDep := P.resetDep
  initDep := P.initDep
  template := P.template
  numCodelets := P.numCodelets
  startup := decDeps P.startup
  calls := fun c => decDeps (P.calls c)
  succ := fun p => decDeps (P.code p)
  calls_template := fun p i => by rw [P.calls_template]

theorem asCu_thisCodeletQueue (P : Program ι) : P.asCu.thisCodeletQueue = P.thisCodeletQueue := by
  show DARTS_APPEND_COREID P.core (P.dartsSUElements + SU_CODELETS_QUEUE - CU_CODELETS_QUEUE + CU_CODELETS_QUEUE) = _
  rw [BitVec.sub_add_cancel]
  rfl

theorem asCu_decDepAndPush (P : Program ι) : DecDep.cuDecDepAndPush P.asCu.core P.asCu.dartsCUElements =
    DecDep.suDecDepAndPush P.core P.dartsSUElements := by
  show (⟨P.core, P.dartsSUElements + SU_CODELETS_QUEUE - CU_CODELETS_QUEUE + CU_CODELETS_QUEUE, .start, none⟩ : DecDep.Call) = _
  rw [BitVec.sub_add_cancel]
  rfl

/-- Where a CU would be. -/
def Pc.asCu : Pc ι → CodeletProgram.Pc ι
  | .test => .test
  | .own | .peak | .disown | .pop => .pop
  | .fire todo => .fire (decDeps todo)
  | .decDep p c todo => .decDep p c (decDeps todo)
  | .stopped => .stopped

def State.asCu (s : State ι) : CodeletProgram.State ι where
  slots := s.slots
  queue := s.queue
  pc := s.pc.asCu
  log := s.log

variable {s s' : State ι}

theorem closuresCall_asCu {op : TpClosuresQueue.Op} {next : TpClosuresQueue.Code → Pc ι}
    (hnext : ∀ code, (next code).asCu = s.pc.asCu) (h : P.closuresCall s op next = some s') : s'.asCu = s.asCu := by
  obtain ⟨r, -, rfl⟩ := Option.map_eq_some_iff.mp h
  show CodeletProgram.State.mk s.slots s.queue (next r.1.1).asCu s.log = _
  rw [hnext]
  rfl

variable [DecidableEq ι]

/-- A step of the SU is one of the CU, or the CU sees nothing of it. -/
theorem suStep_simulates {alive : Bool} (h : P.suStep s alive = some s') :
    s'.asCu = s.asCu ∨ ∃ alive o, P.asCu.step s.asCu alive = some (o, s'.asCu) := by
  cases hpc : s.pc with
  | test =>
    rw [Program.suStep, hpc] at h
    cases h
    refine .inr ⟨alive, (), ?_⟩
    have hcu : s.asCu.pc = .test := congrArg Pc.asCu hpc
    rw [CodeletProgram.Program.step, hcu]
    cases alive <;> rfl
  | own =>
    rw [Program.suStep, hpc] at h
    refine .inl (closuresCall_asCu (fun code => ?_) h)
    rw [hpc]
    split <;> rfl
  | peak =>
    rw [Program.suStep, hpc] at h
    exact .inl (closuresCall_asCu (fun code => by rw [hpc]; rfl) h)
  | disown =>
    rw [Program.suStep, hpc] at h
    exact .inl (closuresCall_asCu (fun code => by rw [hpc]; rfl) h)
  | pop =>
    simp only [Program.suStep, hpc, Option.map_eq_some_iff] at h
    obtain ⟨r, hr, he⟩ := h
    refine .inr ⟨true, (), ?_⟩
    have hcu : s.asCu.pc = .pop := congrArg Pc.asCu hpc
    have hpop : popCodeletQueue P.asCu.thisCodeletQueue P.asCu.core s.asCu.queue = some r := by
      rw [asCu_thisCodeletQueue]
      exact hr
    rw [CodeletProgram.Program.step, hcu]
    simp only [hpop, Option.map_some]
    split at he <;> cases he <;> simp_all [State.asCu, Pc.asCu, Program.asCu]
  | fire todo =>
    cases todo with
    | nil =>
      rw [Program.suStep, hpc] at h
      cases h
      refine .inr ⟨true, (), ?_⟩
      have hcu : s.asCu.pc = .fire [] := congrArg Pc.asCu hpc
      rw [CodeletProgram.Program.step, hcu]
      rfl
    | cons call todo =>
      cases call with
      | decDep p =>
        rw [Program.suStep, hpc] at h
        cases h
        refine .inr ⟨true, (), ?_⟩
        have hcu : s.asCu.pc = .fire (p :: decDeps todo) := congrArg Pc.asCu hpc
        rw [CodeletProgram.Program.step, hcu]
        simp only [asCu_decDepAndPush]
        rfl
      | invoke g =>
        rw [Program.suStep, hpc] at h
        refine .inl (closuresCall_asCu (fun code => ?_) h)
        rw [hpc]
        split <;> rfl
  | decDep p c todo =>
    have hcu : s.asCu.pc = .decDep p c (decDeps todo) := congrArg Pc.asCu hpc
    simp only [Program.suStep, hpc] at h
    refine .inr ⟨true, (), ?_⟩
    rw [CodeletProgram.Program.step, hcu]
    by_cases hc : c.pc = .done
    · simp only [if_pos hc] at h ⊢
      cases h
      rfl
    · simp only [if_neg hc, Option.map_eq_some_iff] at h ⊢
      obtain ⟨r, hr, rfl⟩ := h
      refine ⟨r, hr, ?_⟩
      rw [CodeletProgram.Program.stepped, asCu_thisCodeletQueue]
      rfl
  | stopped =>
    rw [Program.suStep, hpc] at h
    cases h

theorem reachable_asCu (h : P.Reachable s) : P.asCu.Reachable s.asCu := by
  refine Reach.inv (fun s => P.asCu.Reachable s.asCu) ?_ ?_ h
  · intro s hs
    obtain ⟨slots, queue, closures, rfl⟩ := hs
    refine .init ⟨slots, queue, ?_⟩
    rw [CodeletProgram.Program.start, asCu_thisCodeletQueue]
    rfl
  · intro s s' hs hst
    obtain ⟨a, o, hst⟩ := hst
    have hsim : s'.asCu = s.asCu ∨ ∃ alive o, P.asCu.step s.asCu alive = some (o, s'.asCu) := by
      cases a with
      | su alive =>
        obtain ⟨s₁, hst, he⟩ := Option.map_eq_some_iff.mp hst
        cases he
        exact suStep_simulates hst
      | push core g =>
        obtain ⟨s₁, hst, he⟩ := Option.map_eq_some_iff.mp hst
        cases he
        exact .inl (closuresCall_asCu (fun _ => rfl) hst)
    rcases hsim with hsame | hstep
    · rw [hsame]
      exact hs
    · exact .step hs hstep

/-- The SU is in its loop, or has left it. -/
def Pc.BetweenCodelets : Pc ι → Prop
  | .fire _ | .decDep _ _ _ => False
  | _ => True

/-- A program runs on an SU as on a CU: in every reachable state the codelets fired are codelets of
    the slots, once and after their dependencies, and whenever the SU is between codelets with
    its codelets queue empty, they are all codelets of the program. -/
theorem codelets_as_on_cu [Fintype ι] (P : Program ι) (S : Space P.thisCodeletQueue 200) (hG : P.asCu.graph.Balanced)
    (hA : P.asCu.graph.Acyclic) (hW : P.asCu.Waiting) {s : State ι} (h : P.Reachable s) :
    ∃ A, s.log = A.map (Event.map P.asCu.copy) ∧ Safe P.asCu.graph A ∧
      (s.pc.BetweenCodelets → queueEmpty s.queue = true → Complete P.asCu.graph A) := by
  have hS : Space P.asCu.thisCodeletQueue 200 := (asCu_thisCodeletQueue P).symm ▸ S
  obtain ⟨σ, hσ, R, T⟩ := CodeletProgram.reaches_graph hS hG hW (reachable_asCu h)
  refine ⟨σ.history, R.log, Dataflow.Reachable.safe hG hσ, fun hpc hempty => ?_⟩
  have hcu : s.asCu.pc = .test ∨ s.asCu.pc = .pop ∨ s.asCu.pc = .stopped := by
    show s.pc.asCu = _ ∨ s.pc.asCu = _ ∨ s.pc.asCu = _
    cases hs : s.pc with
    | test => exact .inl rfl
    | stopped => exact .inr (.inr rfl)
    | fire todo =>
      rw [hs] at hpc
      exact hpc.elim
    | decDep p c todo =>
      rw [hs] at hpc
      exact hpc.elim
    | _ => exact .inr (.inl rfl)
  have hstuck := R.stuck T hcu ((R.ready_nil hS).mp hempty)
  exact complete_of_stuck hG hA (Dataflow.Reachable.inv hG hσ) hstuck

/-- A closure with `n` bytes of arguments. -/
def zeros (n : Nat) (h : 12 + n < 2 ^ 32) : Closure where
  closure := TpClosuresQueue.zeros n (by omega)
  small := by
    show 12 + (BitVec.ofNat 32 n).toNat < 2 ^ 32
    rw [BitVec.toNat_ofNat]
    omega

open CodeletProgram (myTestDeps myTestFire myTestSucc myTestRank)

/-- The threaded procedure of the tests, whose last codelet invokes another one. -/
def testCode (g : Closure) : Fin 4 → List (Call (Fin 4))
  | 0 => [.invoke g]
  | p => (myTestSucc p).map .decDep

def testProgram (g : Closure) : Program (Fin 4) where
  core := 0x808
  dartsSUElements := 0x5000
  slotAddress := fun p => 0x6088 + 40 * BitVec.ofNat 32 p
  slotID := fun p => BitVec.ofNat 32 p
  resetDep := myTestDeps
  initDep := myTestDeps
  template := fun p => ⟨0, 0x6088 + 40 * BitVec.ofNat 32 p, myTestFire p⟩
  numCodelets := fun _ => 1
  startup := CodeletProgram.myTest.startup.map .decDep
  calls := fun c => ((List.finRange 4).filter fun p => myTestFire p = c.fire).flatMap (testCode g)
  code := testCode g
  calls_template := by
    intro p i
    have h : ∀ p, (List.finRange 4).filter (fun q => myTestFire q = myTestFire p) = [p] := by decide
    simp only [h, List.flatMap_singleton]

def testStart (g : Closure) : State (Fin 4) :=
  (testProgram g).start (fun _ => ⟨0, 0, 0, 0, ⟨0, 0, 0⟩, 0, 0, 0⟩) CodeletsQueue.testQueue TpClosuresQueue.testQueue

theorem space_testQueue (g : Closure) : Space (testProgram g).thisCodeletQueue 200 := by
  show Space (DARTS_APPEND_COREID 0x808 (0x5000 + SU_CODELETS_QUEUE)) 200
  exact ⟨rfl, by decide, by decide⟩

theorem codelets_as_on_cu_test : ∃ s, (testProgram (zeros 0 (by decide))).Reachable s ∧ s.log.length = 9 ∧
    ∃ A, s.log = A.map (Event.map (testProgram (zeros 0 (by decide))).asCu.copy) ∧
      Safe (testProgram (zeros 0 (by decide))).asCu.graph A ∧
      (s.pc.BetweenCodelets → queueEmpty s.queue = true → Complete (testProgram (zeros 0 (by decide))).asCu.graph A) := by
  let P := testProgram (zeros 0 (by decide))
  have hrun : (run P.step (testStart (zeros 0 (by decide))) (List.replicate 58 (.su true))).map (fun r => r.2.log.length) =
      some 9 := by decide +kernel
  obtain ⟨r, hr, hlog⟩ := Option.map_eq_some_iff.mp hrun
  have hreach : P.Reachable r.2 := Reach.of_run _ (.init ⟨_, _, _, rfl⟩) hr
  have hbalanced : P.asCu.graph.Balanced := by
    unfold Graph.Balanced
    decide
  have hwaiting : P.asCu.Waiting := by
    unfold CodeletProgram.Program.Waiting
    decide
  exact ⟨r.2, hreach, hlog, codelets_as_on_cu P (space_testQueue _) hbalanced ⟨myTestRank, by decide⟩ hwaiting hreach⟩

/-! ## The closures -/

open TpClosuresQueue (Grows Keeping bytesOf)

/-- The step leaves the closures queue as it is, or is one call on it that pops nothing. -/
def Calls (P : Program ι) (s s' : State ι) : Prop :=
  s'.closures = s.closures ∨
    ∃ op out, Keeping op ∧ TpClosuresQueue.histStep P.thisTPCQueue s.closures op = some (out, s'.closures)

omit [DecidableEq ι] in
theorem closuresCall_calls {op : TpClosuresQueue.Op} {next : TpClosuresQueue.Code → Pc ι}
    (h : P.closuresCall s op next = some s') (hop : Keeping op) : Calls P s s' := by
  obtain ⟨r, hr, rfl⟩ := Option.map_eq_some_iff.mp h
  exact .inr ⟨op, r.1, hop, hr⟩

theorem suStep_calls {alive : Bool} (h : P.suStep s alive = some s') : Calls P s s' := by
  unfold Program.suStep at h
  split at h
  · cases h
    exact .inl rfl
  · exact closuresCall_calls h trivial
  · exact closuresCall_calls h trivial
  · exact closuresCall_calls h trivial
  · obtain ⟨r, -, rfl⟩ := Option.map_eq_some_iff.mp h
    split <;> exact .inl rfl
  · cases h
    exact .inl rfl
  · cases h
    exact .inl rfl
  · exact closuresCall_calls h (Closure.small _)
  · split at h
    · cases h
      exact .inl rfl
    · obtain ⟨r, -, rfl⟩ := Option.map_eq_some_iff.mp h
      exact .inl rfl
  · cases h

theorem step_calls {a : Action} {o : Unit} (h : P.step s a = some (o, s')) : Calls P s s' := by
  cases a with
  | su alive =>
    obtain ⟨s₁, hst, he⟩ := Option.map_eq_some_iff.mp h
    cases he
    exact suStep_calls hst
  | push core g =>
    obtain ⟨s₁, hst, he⟩ := Option.map_eq_some_iff.mp h
    cases he
    exact closuresCall_calls hst g.small

omit [DecidableEq ι] in
theorem Calls.grows (h : Calls P s s') (S : TpClosuresQueue.Space P.thisTPCQueue 500)
    (G : Grows P.thisTPCQueue 500 s.closures) : Grows P.thisTPCQueue 500 s'.closures := by
  rcases h with he | ⟨op, out, hop, hst⟩
  · rw [he]
    exact G
  · exact G.step S hop hst

omit [DecidableEq ι] in
theorem Calls.pushed (h : Calls P s s') : s.closures.pushed <+: s'.closures.pushed := by
  rcases h with he | ⟨op, out, -, hst⟩
  · rw [he]
  · exact TpClosuresQueue.histStep_pushed hst

theorem run_pushed (actions : List Action) {os : List Unit} (hrun : run P.step s actions = some (os, s')) :
    s.closures.pushed <+: s'.closures.pushed := by
  have hkeep : ∀ s₁ a o s₂, s.closures.pushed <+: s₁.closures.pushed → P.step s₁ a = some (o, s₂) →
      s.closures.pushed <+: s₂.closures.pushed := by
    intro s₁ a o s₂ hs₁ hst
    exact hs₁.trans (step_calls hst).pushed
  exact run_inv hkeep actions List.prefix_rfl hrun

theorem grows (S : TpClosuresQueue.Space P.thisTPCQueue 500) (h : P.Reachable s) : Grows P.thisTPCQueue 500 s.closures := by
  refine Reach.inv (fun s => Grows P.thisTPCQueue 500 s.closures) ?_ ?_ h
  · intro s hs
    obtain ⟨slots, queue, closures, rfl⟩ := hs
    exact .start S rfl closures
  · intro s s' G hst
    obtain ⟨a, o, hst⟩ := hst
    exact (step_calls hst).grows S G

omit [DecidableEq ι] in
theorem push_iff (S : TpClosuresQueue.Space P.thisTPCQueue 500) (G : Grows P.thisTPCQueue 500 s.closures) (core : Word) (g : Closure) :
    (∃ q', TpClosuresQueue.pushTpClosureQueue P.thisTPCQueue core g.closure s.closures.q = some (.successOp, q')) ↔
      bytesOf s.closures.pushed + g.closure.bytes.length < 500 := by
  rw [G.push_eq S core g.small]
  split <;> simp_all

/-- The SU never makes a threaded procedure of a closure: in every reachable state all closures pushed are
    in its queue, and the push of another one, by whatever core, succeeds exactly if they
    stay below the 500 bytes of the queue. So in no run from there does a push succeed of a closure
    for which there is no room. -/
theorem closures_never_leave (P : Program ι) (S : TpClosuresQueue.Space P.thisTPCQueue 500) {s : State ι} (h : P.Reachable s) :
    TpClosuresQueue.Lays P.thisTPCQueue 500 s.closures.q s.closures.pushed ∧
      (∀ core (g : Closure),
        (∃ q', TpClosuresQueue.pushTpClosureQueue P.thisTPCQueue core g.closure s.closures.q = some (.successOp, q')) ↔
          bytesOf s.closures.pushed + g.closure.bytes.length < 500) ∧
      ∀ (actions : List Action) (os : List Unit) (s' : State ι), run P.step s actions = some (os, s') →
        s.closures.pushed <+: s'.closures.pushed ∧
          ∀ core (g : Closure), 500 ≤ bytesOf s.closures.pushed + g.closure.bytes.length →
            ∀ q', TpClosuresQueue.pushTpClosureQueue P.thisTPCQueue core g.closure s'.closures.q ≠ some (.successOp, q') := by
  have G := grows S h
  refine ⟨G.lays, push_iff S G, fun actions os s' hrun => ?_⟩
  have hpushed := run_pushed actions hrun
  refine ⟨hpushed, fun core g hfull q' hpush => ?_⟩
  have hroom := (push_iff S (grows S (Reach.of_run actions h hrun)) core g).mp ⟨q', hpush⟩
  have hbytes := TpClosuresQueue.bytesOf_mono hpushed
  omega

theorem space_testProgram (g : Closure) : TpClosuresQueue.Space (testProgram g).thisTPCQueue 500 := by
  show TpClosuresQueue.Space (DARTS_APPEND_COREID 0x808 (0x5000 + SU_TPCLOSURES_QUEUE)) 500
  exact ⟨rfl, by decide⟩

/-- Core 0x809 pushes a closure, and then the test's last codelet another one. -/
theorem closures_never_leave_test : ∃ s, (testProgram (zeros 0 (by decide))).Reachable s ∧
    bytesOf s.closures.pushed = 36 ∧
      TpClosuresQueue.Lays (testProgram (zeros 0 (by decide))).thisTPCQueue 500 s.closures.q s.closures.pushed ∧
      ∀ (actions : List Action) (os : List Unit) (s' : State (Fin 4)),
        run (testProgram (zeros 0 (by decide))).step s actions = some (os, s') →
          ∀ core q', TpClosuresQueue.pushTpClosureQueue (testProgram (zeros 0 (by decide))).thisTPCQueue core
            (zeros 452 (by decide)).closure s'.closures.q ≠ some (.successOp, q') := by
  let P := testProgram (zeros 0 (by decide))
  have hrun : (run P.step (testStart (zeros 0 (by decide)))
      (.push 0x809 (zeros 12 (by decide)) :: List.replicate 58 (.su true))).map (fun r => bytesOf r.2.closures.pushed) =
        some 36 := by decide +kernel
  obtain ⟨r, hr, hbytes⟩ := Option.map_eq_some_iff.mp hrun
  have hreach : P.Reachable r.2 := Reach.of_run _ (.init ⟨_, _, _, rfl⟩) hr
  obtain ⟨hlays, -, hruns⟩ := closures_never_leave P (space_testProgram _) hreach
  have hfull : 500 ≤ bytesOf r.2.closures.pushed + (zeros 452 (by decide)).closure.bytes.length := by
    rw [hbytes, GenericTpClosure.bytes_length]
    decide
  exact ⟨r.2, hreach, hbytes, hlays, fun actions os s' hrun' core => (hruns actions os s' hrun').2 core _ hfull⟩

/-- The SU is where it was in `s`, and no closure has left since. -/
def Behind (P : Program ι) (s s' : State ι) : Prop :=
  Grows P.thisTPCQueue 500 s'.closures ∧ s'.pc = s.pc ∧ s'.log = s.log ∧
    bytesOf s.closures.pushed ≤ bytesOf s'.closures.pushed

/-- In an invocation for whose closure there is no room, the SU only tries again. -/
theorem step_without_room (S : TpClosuresQueue.Space P.thisTPCQueue 500) (G : Grows P.thisTPCQueue 500 s.closures)
    {g : Closure} {todo : List (Call ι)} (hpc : s.pc = .fire (.invoke g :: todo))
    (hfull : 500 ≤ bytesOf s.closures.pushed + g.closure.bytes.length) {a : Action} {o : Unit}
    (hst : P.step s a = some (o, s')) : Behind P s s' := by
  have hcalls := step_calls hst
  have G' := hcalls.grows S G
  have hbytes := TpClosuresQueue.bytesOf_mono hcalls.pushed
  cases a with
  | su alive =>
    obtain ⟨s₁, hst, he⟩ := Option.map_eq_some_iff.mp hst
    cases he
    simp only [Program.suStep, hpc, Program.closuresCall, Option.map_eq_some_iff] at hst
    obtain ⟨r, hr, rfl⟩ := hst
    obtain ⟨r', hr', he⟩ := Option.map_eq_some_iff.mp hr
    cases he
    rw [TpClosuresQueue.step, G.push_eq S P.core g.small, if_neg (Nat.not_lt.mpr hfull)] at hr'
    cases hr'
    exact ⟨G', hpc.symm, rfl, hbytes⟩
  | push core g' =>
    obtain ⟨s₁, hst, he⟩ := Option.map_eq_some_iff.mp hst
    cases he
    obtain ⟨r, -, rfl⟩ := Option.map_eq_some_iff.mp hst
    exact ⟨G', rfl, rfl, hbytes⟩

/-- A codelet on the SU that invokes a threaded procedure when there is no room for its closure
    stops the SU: in every run from there, whatever other cores do, it stays where it is and
    fires nothing any more. -/
theorem an_invocation_without_room_stops_the_su (P : Program ι) (S : TpClosuresQueue.Space P.thisTPCQueue 500) {s : State ι}
    (h : P.Reachable s) {g : Closure} {todo : List (Call ι)} (hpc : s.pc = .fire (.invoke g :: todo))
    (hfull : 500 ≤ bytesOf s.closures.pushed + g.closure.bytes.length) (actions : List Action) {os : List Unit} {s' : State ι}
    (hrun : run P.step s actions = some (os, s')) : s'.pc = s.pc ∧ s'.log = s.log := by
  have hkeep : ∀ s₁ a o s₂, Behind P s s₁ → P.step s₁ a = some (o, s₂) → Behind P s s₂ := by
    intro s₁ a o s₂ hs₁ hst
    obtain ⟨G, hpc₁, hlog₁, hbytes₁⟩ := hs₁
    obtain ⟨G', hpc₂, hlog₂, hbytes₂⟩ := step_without_room S G (hpc₁.trans hpc) (by omega) hst
    exact ⟨G', hpc₂.trans hpc₁, hlog₂.trans hlog₁, Nat.le_trans hbytes₁ hbytes₂⟩
  obtain ⟨-, hpc', hlog', -⟩ := run_inv hkeep actions ⟨grows S h, rfl, rfl, Nat.le_refl _⟩ hrun
  exact ⟨hpc', hlog'⟩

/-- The bytes of the closure that is being invoked. -/
def Pc.invoked : Pc ι → Option Nat
  | .fire (.invoke g :: _) => some g.closure.bytes.length
  | _ => none

/-- The test's last codelet invokes a threaded procedure whose closure takes 500 bytes. -/
theorem an_invocation_without_room_stops_the_su_test : ∃ s os s', (testProgram (zeros 488 (by decide))).Reachable s ∧
    run (testProgram (zeros 488 (by decide))).step s [.su true, .push 0x809 (zeros 0 (by decide)), .su true] = some (os, s') ∧
      s'.pc = s.pc ∧ s'.log = s.log := by
  let P := testProgram (zeros 488 (by decide))
  have hrun : ((run P.step (testStart (zeros 488 (by decide))) (List.replicate 56 (.su true))).bind fun r =>
      (run P.step r.2 [.su true, .push 0x809 (zeros 0 (by decide)), .su true]).map fun _ => r.2.pc.invoked) =
      some (some 500) := by decide +kernel
  obtain ⟨r, hr, h⟩ := Option.bind_eq_some_iff.mp hrun
  obtain ⟨⟨os, s'⟩, hrun', hinvoked⟩ := Option.map_eq_some_iff.mp h
  have hreach : P.Reachable r.2 := Reach.of_run _ (.init ⟨_, _, _, rfl⟩) hr
  obtain ⟨g, todo, hpc, hbytes⟩ : ∃ g todo, r.2.pc = .fire (.invoke g :: todo) ∧ g.closure.bytes.length = 500 := by
    unfold Pc.invoked at hinvoked
    split at hinvoked
    · exact ⟨_, _, ‹_›, Option.some.inj hinvoked⟩
    · cases hinvoked
  exact ⟨r.2, os, s', hreach, hrun',
    an_invocation_without_room_stops_the_su P (space_testProgram _) hreach hpc (by omega) _ hrun'⟩

end EDarts.Runtime.SuScheduler
