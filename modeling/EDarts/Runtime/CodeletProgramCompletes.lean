/-
  EDarts.Runtime.CodeletProgramCompletes — a codelet program on one core fires all its
  codelets (see `EDarts.Runtime.CodeletProgramProofs`, which says that it fires none twice).

  The slots wait for exactly the decrements that the program can make, none begins with its
  counter at 0, and no codelet depends on itself.

  - `Refines.next`: a step of the core is a step of the graph, or the core comes closer to
    one, or it found its queue empty, or full.
  - `idle_complete`: whenever the core is in its loop and its queue is empty, every codelet
    of the program was fired, also when `darts_rt_alive` made it leave the loop.
  - `completes`: the core gets there in a bounded number of steps, if the queue has room for
    all codelets.
-/

import EDarts.Runtime.CodeletProgramProofs

namespace EDarts.Runtime.CodeletProgram

open Lib Assets CodeletsQueue Dataflow

variable {ι : Type}

/-- No slot with codelets begins with its counter at 0. -/
def Program.Waiting (P : Program ι) : Prop := ∀ p, (P.numCodelets p).toNat ≠ 0 → (P.initDep p).toNat ≠ 0

/-- The call in progress has decremented slot `p`, and is not done with it. -/
def Attends (pc : Pc ι) (p : ι) : Prop := ∃ c todo, pc = .decDep p c todo ∧ c.pc ≠ .start ∧ c.pc ≠ .done

theorem not_attends_done {p : ι} {c : DecDep.Call} {todo : List ι} (hc : c.pc = .done) (q : ι) :
    ¬ Attends (.decDep p c todo) q := by
  intro h
  obtain ⟨_, _, he, -, hdone⟩ := h
  cases he
  exact hdone hc

/-- How far the core is from a step of the graph, at most. -/
def distance : Pc ι → Nat
  | .test => 2
  | .pop => 1
  | .fire _ => 3
  | .decDep _ c _ =>
    match c.pc with
    | .start => 1
    | .decremented => 6
    | .loop _ => 5
    | .pushing _ => 1
    | .done => 4
  | .stopped => 0

theorem distance_le (pc : Pc ι) : distance pc ≤ 6 := by
  cases pc with
  | decDep p c todo =>
    simp only [distance]
    split <;> omega
  | _ =>
    simp only [distance]
    omega

variable [DecidableEq ι] {P : Program ι} {s s' : State ι} {σ σ' : Dataflow.State ι}

/-- If its decrements have all been made, the slot's codelets have all been issued. -/
def Settles (P : Program ι) (σ : Dataflow.State ι) (p : ι) : Prop :=
  (signaled σ.history).count p = (P.initDep p).toNat → σ.issued p = (P.numCodelets p).toNat

/-- So it is for every slot, but for that of the call in progress. -/
def Attended (P : Program ι) (pc : Pc ι) (σ : Dataflow.State ι) : Prop := ∀ p, Attends pc p ∨ Settles P σ p

theorem Attended.start (hW : P.Waiting) (pc : Pc ι) : Attended P pc .start := by
  intro p
  refine .inr fun hcount => ?_
  by_contra hne
  exact hW p (fun h => hne h.symm) hcount.symm

theorem Settles.congr {p : ι} (h : Settles P σ p) (hcount : (signaled σ'.history).count p = (signaled σ.history).count p)
    (hissued : σ'.issued p = σ.issued p) : Settles P σ' p := by
  intro hdeps
  rw [hissued]
  exact h (hcount ▸ hdeps)

/-- Outside of a call, nothing happens to the slots. -/
theorem Attended.outside {pc pc' : Pc ι} (T : Attended P pc σ) (hpc : ∀ p, ¬ Attends pc p)
    (hsame : ∀ p, Settles P σ p → Settles P σ' p) : Attended P pc' σ' :=
  fun p => .inr (hsame p ((T p).resolve_left (hpc p)))

/-- A step of a call on `p` leaves the other slots alone. -/
theorem Attended.call {p : ι} {c c' : DecDep.Call} {todo : List ι} (T : Attended P (.decDep p c todo) σ)
    (hp : (c'.pc ≠ .start ∧ c'.pc ≠ .done) ∨ Settles P σ' p) (hsame : ∀ q, q ≠ p → Settles P σ q → Settles P σ' q) :
    Attended P (.decDep p c' todo) σ' := by
  intro q
  by_cases hq : q = p
  · subst hq
    rcases hp with hp | hp
    · exact .inl ⟨c', todo, rfl, hp⟩
    · exact .inr hp
  · refine .inr (hsame q hq ((T q).resolve_left ?_))
    intro h
    obtain ⟨_, _, he, -⟩ := h
    cases he
    exact hq rfl

/-- What came of a step: a step of the graph, one closer to it, or a test of the queue that
    has nothing, or no room. -/
def Outcome (P : Program ι) (s s' : State ι) (σ σ' : Dataflow.State ι) : Prop :=
  Step P.graph σ σ' ∨
    (σ' = σ ∧ (distance s'.pc < distance s.pc ∨ (s.pc = .pop ∧ σ.ready = []) ∨
      ((∃ p, σ.issued p < P.graph.copies p) ∧ 200 ≤ 12 * (σ.ready.length + 1))))

structure Next (P : Program ι) (s s' : State ι) (σ σ' : Dataflow.State ι) : Prop where
  refines : Refines P s' σ'
  attended : Attended P s'.pc σ'
  outcome : Outcome P s s' σ σ'

/-- Between two calls only the place in the code changes. -/
theorem Refines.next_goto (R : Refines P s σ) (T : Attended P s.pc σ) {pc : Pc ι}
    (howed : outstanding pc = outstanding s.pc) (hcalling : Calling P { s with pc := pc } σ)
    (hpc : ∀ p, ¬ Attends s.pc p) (hdistance : distance pc < distance s.pc ∨ (s.pc = .pop ∧ σ.ready = [])) :
    Next P s { s with pc := pc } σ σ := by
  refine ⟨R.goto howed hcalling, T.outside hpc fun _ h => h, .inr ⟨rfl, ?_⟩⟩
  rcases hdistance with h | h
  · exact .inl h
  · exact .inr (.inl h)

theorem Refines.next_pop (S : Space P.thisCodeletQueue 200) (R : Refines P s σ) (T : Attended P s.pc σ)
    (hpc : s.pc = .pop) (alive : Bool) : ∃ s' σ', P.step s alive = some ((), s') ∧ Next P s s' σ σ' := by
  have hattends : ∀ p, ¬ Attends s.pc p := by
    intro p h
    obtain ⟨_, _, he, -⟩ := h
    rw [hpc] at he
    cases he
  obtain ⟨head, H⟩ := R.queue
  rcases pop_holds S H P.core with ⟨hL, hp⟩ | ⟨c, L, q, hL, hp, H'⟩
  · refine ⟨{ s with pc := .test }, σ, ?_, R.next_goto T (by rw [hpc]; rfl) trivial hattends ?_⟩
    · simp only [Program.step, hpc, hp, Option.map_some]
    · exact .inr ⟨hpc, List.map_eq_nil_iff.mp hL⟩
  · obtain ⟨x, rest, hready, rfl, rfl⟩ := List.map_eq_cons_iff.mp hL
    have hstep := Step.fire (G := P.graph) σ x rest hready
    refine ⟨_, _, ?_, R.fires hpc x H', T.outside hattends fun p h => ?_, .inl hstep⟩
    · simp only [Program.step, hpc, hp, Option.map_some]
    · refine h.congr (by rw [signaled_fire]) (issued_of_tasks ?_ p)
      simp only [State.tasks, fired_fire, hready, List.append_assoc, List.singleton_append]

section Call

variable {p : ι} {c : DecDep.Call} {todo : List ι}

theorem step_call {r : DecDep.Call × DecDep.State} (hpc : s.pc = .decDep p c todo) (hc : c.pc ≠ .done) (alive : Bool)
    (h : DecDep.callStep c ⟨s.slots p, fun _ => s.queue, [c], []⟩ = some r) :
    P.step s alive = some ((), P.stepped s p c todo r) := by
  simp only [Program.step, hpc, if_neg hc, h, Option.map_some]

theorem Refines.next_start [Fintype ι] (hG : P.graph.Balanced) (I : Inv P.graph σ) (R : Refines P s σ)
    (T : Attended P s.pc σ) (hpc : s.pc = .decDep p c todo) (hc : c.pc = .start) (alive : Bool) :
    ∃ s' σ', P.step s alive = some ((), s') ∧ Next P s s' σ σ' := by
  obtain ⟨hlt, R'⟩ := R.decrement hG I hpc hc
  have hcall : DecDep.callStep c ⟨s.slots p, fun _ => s.queue, [c], []⟩ = some ({ c with pc := .decremented },
      ⟨{ s.slots p with currentDep := (s.slots p).currentDep - 1 }, fun _ => s.queue, [c], []⟩) := by
    simp only [DecDep.callStep, hc, SyncSlot.decrement_free c.core (R.slots p).free, Option.map_some]
  refine ⟨_, _, step_call hpc (by simp [hc]) alive hcall, ?_, ?_, .inl (.signal σ p hlt)⟩
  · rw [Program.stepped, hc]
    exact R'
  · refine Attended.call (hpc ▸ T) (.inl ⟨by simp, by simp⟩) fun q hq h => h.congr ?_ (issued_of_tasks (tasks_signal σ p) q)
    rw [signaled_signal, List.count_append, List.count_singleton]
    simp [Ne.symm hq]

theorem Refines.next_decremented (R : Refines P s σ) (T : Attended P s.pc σ) (hpc : s.pc = .decDep p c todo)
    (hc : c.pc = .decremented) (alive : Bool) : ∃ s' σ', P.step s alive = some ((), s') ∧ Next P s s' σ σ' := by
  have hcount := (R.slots p).count
  by_cases hr : (s.slots p).result = 0
  · have hcall : DecDep.callStep c ⟨s.slots p, fun _ => s.queue, [c], []⟩ =
        some ({ c with pc := .loop 0, ret := some 0 }, ⟨s.slots p, fun _ => s.queue, [c], []⟩) := by
      simp only [DecDep.callStep, hc, hr, if_true]
    refine ⟨_, σ, step_call hpc (by simp [hc]) alive hcall, R.read hcall hpc hc, ?_, .inr ⟨rfl, .inl ?_⟩⟩
    · exact Attended.call (hpc ▸ T) (.inl ⟨by simp, by simp⟩) fun _ _ h => h
    · simp [Program.stepped, distance, hpc, hc]
  · have hcall : DecDep.callStep c ⟨s.slots p, fun _ => s.queue, [c], []⟩ =
        some ({ c with pc := .done, ret := some (s.slots p).result }, ⟨s.slots p, fun _ => s.queue, [c], []⟩) := by
      simp only [DecDep.callStep, hc, hr, if_false]
    refine ⟨_, σ, step_call hpc (by simp [hc]) alive hcall, R.read hcall hpc hc, ?_, .inr ⟨rfl, .inl ?_⟩⟩
    · -- the slot still waits
      refine Attended.call (hpc ▸ T) (.inr fun hdeps => ?_) fun _ _ h => h
      exact absurd ((SyncSlot.result_eq_zero _).mpr (by omega)) hr
    · simp [Program.stepped, distance, hpc, hc]

theorem Refines.next_loop (R : Refines P s σ) (T : Attended P s.pc σ)
    (hpc : s.pc = .decDep p c todo) {i : Word} (hc : c.pc = .loop i) (alive : Bool) :
    ∃ s' σ', P.step s alive = some ((), s') ∧ Next P s s' σ σ' := by
  have hissuing := R.issuing hpc
  rw [hc] at hissuing
  obtain ⟨hissued, -, hle⟩ := hissuing
  by_cases hi : i < (s.slots p).numCodelets
  · have hcall : DecDep.callStep c ⟨s.slots p, fun _ => s.queue, [c], []⟩ = some ({ c with pc := .pushing i },
        ⟨{ s.slots p with codeletTemplate := { (s.slots p).codeletTemplate with codeletID := i } },
          fun _ => s.queue, [c], []⟩) := by
      simp only [DecDep.callStep, hc, hi, if_true]
    refine ⟨_, σ, step_call hpc (by simp [hc]) alive hcall, R.loop hcall hpc hc, ?_, .inr ⟨rfl, .inl ?_⟩⟩
    · exact Attended.call (hpc ▸ T) (.inl ⟨by simp, by simp⟩) fun _ _ h => h
    · simp [Program.stepped, distance, hpc, hc]
  · have hcall : DecDep.callStep c ⟨s.slots p, fun _ => s.queue, [c], []⟩ =
        some ({ c with pc := .done }, ⟨s.slots p, fun _ => s.queue, [c], []⟩) := by
      simp only [DecDep.callStep, hc, hi, if_false]
    refine ⟨_, σ, step_call hpc (by simp [hc]) alive hcall, R.loop hcall hpc hc, ?_, .inr ⟨rfl, .inl ?_⟩⟩
    · -- all the slot's codelets have been issued
      rw [(R.slots p).numCodelets, BitVec.lt_def] at hi
      exact Attended.call (hpc ▸ T) (.inr fun _ => by omega) fun _ _ h => h
    · simp [Program.stepped, distance, hpc, hc]

theorem Refines.next_pushing (S : Space P.thisCodeletQueue 200) (R : Refines P s σ) (T : Attended P s.pc σ)
    (hpc : s.pc = .decDep p c todo) {i : Word} (hc : c.pc = .pushing i) (alive : Bool) :
    ∃ s' σ', P.step s alive = some ((), s') ∧ Next P s s' σ σ' := by
  obtain ⟨head, H⟩ := R.queue
  have hcall := R.calling
  rw [Calling, hpc] at hcall
  have hthis : DARTS_APPEND_COREID c.core c.queue = P.thisCodeletQueue := by
    rw [hcall.1, hcall.2.1, Program.thisCodeletQueue]
  have hnot := not_fillsRing S (by decide) H (.push c.core (s.slots p).codeletTemplate)
  rcases push_holds S H c.core (s.slots p).codeletTemplate hnot with ⟨hfull, hp⟩ | ⟨-, hp, H'⟩
  · -- no room: it tries again
    have hcall : DecDep.callStep c ⟨s.slots p, fun _ => s.queue, [c], []⟩ =
        some (c, ⟨s.slots p, fun _ => s.queue, [c], []⟩) := by
      simp only [DecDep.callStep, hc, hthis, hp, Option.map_some, ite_self]
      rw [if_pos (by decide)]
    have hsame : P.stepped s p c todo (c, ⟨s.slots p, fun _ => s.queue, [c], []⟩) = s := by
      simp only [Program.stepped, hc, Function.update_eq_self, reduceCtorEq, if_false]
      rw [← hpc]
    have hissuing := R.issuing hpc
    rw [hc] at hissuing
    obtain ⟨hissued, -, hlt, -⟩ := hissuing
    rw [List.length_map] at hfull
    refine ⟨s, σ, ?_, R, T, .inr ⟨rfl, .inr (.inr ⟨⟨p, hissued ▸ hlt⟩, hfull⟩)⟩⟩
    rw [step_call hpc (by simp [hc]) alive hcall, hsame]
  · have hcall : DecDep.callStep c ⟨s.slots p, fun _ => s.queue, [c], []⟩ = some ({ c with pc := .loop (i + 1) },
        ⟨s.slots p, fun a => if a = P.thisCodeletQueue then insert P.thisCodeletQueue (s.slots p).codeletTemplate s.queue else
          s.queue, [c], [(s.slots p).codeletTemplate]⟩) := by
      simp only [DecDep.callStep, hc, hthis, hp, Option.map_some]
      rw [if_neg (by decide)]
      rfl
    obtain ⟨⟨hdeps, hlt⟩, R'⟩ := R.push hpc hc H'
    refine ⟨_, _, step_call hpc (by simp [hc]) alive hcall, ?_, ?_, .inl (.issue σ p hdeps hlt)⟩
    · simp only [Program.stepped, hc, Function.update_eq_self, if_true, reduceCtorEq, if_false]
      exact R'
    · have T' : Attended P (.decDep p c todo) σ := hpc ▸ T
      refine T'.call (.inl ⟨by simp, by simp⟩) fun q hq h => h.congr rfl ?_
      rw [issued_issue, if_neg (Ne.symm hq), Nat.add_zero]

end Call

/-- What the core does next, unless it has left the loop. -/
theorem Refines.next [Fintype ι] (S : Space P.thisCodeletQueue 200) (hG : P.graph.Balanced) (I : Inv P.graph σ)
    (R : Refines P s σ) (T : Attended P s.pc σ) (hpc : s.pc ≠ .stopped) (alive : Bool) :
    ∃ s' σ', P.step s alive = some ((), s') ∧ Next P s s' σ σ' := by
  have hfire : ∀ {pc : Pc ι}, (∀ p c todo, pc ≠ .decDep p c todo) → ∀ p, ¬ Attends pc p := by
    intro pc h p hattends
    obtain ⟨c, todo, he, -⟩ := hattends
    exact h p c todo he
  cases h : s.pc with
  | test =>
    refine ⟨{ s with pc := if alive then .pop else .stopped }, σ, by simp only [Program.step, h],
      R.next_goto T ?_ ?_ (hfire (by simp [h])) (.inl ?_)⟩
    · cases alive <;> rw [h] <;> rfl
    · cases alive <;> exact trivial
    · cases alive <;> simp [h, distance]
  | pop => exact R.next_pop S T h alive
  | fire todo =>
    cases todo with
    | nil =>
      refine ⟨{ s with pc := .test }, σ, by simp only [Program.step, h],
        R.next_goto T (by rw [h]; rfl) trivial (hfire (by simp [h])) (.inl ?_)⟩
      simp [h, distance]
    | cons p todo =>
      refine ⟨{ s with pc := .decDep p (DecDep.cuDecDepAndPush P.core P.dartsCUElements) todo }, σ,
        by simp only [Program.step, h], R.next_goto T (by rw [h]; rfl) ⟨rfl, rfl, trivial⟩ (hfire (by simp [h])) (.inl ?_)⟩
      simp [h, distance, DecDep.cuDecDepAndPush]
  | decDep p c todo =>
    cases hc : c.pc with
    | start => exact R.next_start hG I T h hc alive
    | decremented => exact R.next_decremented T h hc alive
    | loop i => exact R.next_loop T h hc alive
    | pushing i => exact R.next_pushing S T h hc alive
    | done =>
      refine ⟨{ s with pc := .fire todo }, σ, by simp only [Program.step, h, hc, if_true],
        R.next_goto T ?_ trivial (h ▸ not_attends_done hc) (.inl ?_)⟩
      · rw [h, outstanding, outstanding, hc, if_neg (by decide)]
      · simp [h, distance, hc]
  | stopped => exact absurd h hpc

/-! ## Runs -/

theorem step_stopped (hpc : s.pc = .stopped) (alive : Bool) : P.step s alive = none := by
  simp only [Program.step, hpc]

/-- The core stays in its loop while it is alive. -/
theorem step_alive {o : Unit} (h : P.step s true = some (o, s')) : s'.pc ≠ .stopped := by
  intro hstopped
  cases hpc : s.pc with
  | test =>
    simp only [Program.step, hpc, Option.some.injEq, Prod.mk.injEq] at h
    rw [← h.2] at hstopped
    cases hstopped
  | pop =>
    simp only [Program.step, hpc, Option.map_eq_some_iff] at h
    obtain ⟨r, -, hr⟩ := h
    split at hr
    all_goals
      cases hr
      cases hstopped
  | fire todo =>
    cases todo with
    | nil =>
      simp only [Program.step, hpc, Option.some.injEq, Prod.mk.injEq] at h
      rw [← h.2] at hstopped
      cases hstopped
    | cons p todo =>
      simp only [Program.step, hpc, Option.some.injEq, Prod.mk.injEq] at h
      rw [← h.2] at hstopped
      cases hstopped
  | decDep p c todo =>
    simp only [Program.step, hpc] at h
    split at h
    · cases h
      cases hstopped
    · obtain ⟨r, -, hr⟩ := Option.map_eq_some_iff.mp h
      cases hr
      cases hstopped
  | stopped =>
    rw [step_stopped hpc] at h
    cases h

theorem reaches_graph [Fintype ι] (S : Space P.thisCodeletQueue 200) (hG : P.graph.Balanced) (hW : P.Waiting)
    (h : P.Reachable s) : ∃ σ, Dataflow.Reachable P.graph σ ∧ Refines P s σ ∧ Attended P s.pc σ := by
  refine Reach.simulated (fun s σ => Refines P s σ ∧ Attended P s.pc σ) ?_ ?_ h
  · intro s hs
    obtain ⟨slots, queue, rfl⟩ := hs
    exact ⟨_, rfl, Refines.start S slots queue, Attended.start hW _⟩
  · intro s σ s' hσ hRT hst
    obtain ⟨R, T⟩ := hRT
    obtain ⟨alive, o, hst⟩ := hst
    have hpc : s.pc ≠ .stopped := by
      intro hpc
      rw [step_stopped hpc] at hst
      cases hst
    obtain ⟨s₁, σ', hst₁, hnext⟩ := R.next S hG (Reachable.inv hG hσ) T hpc alive
    rw [hst] at hst₁
    cases hst₁
    refine ⟨σ', ?_, hnext.refines, hnext.attended⟩
    rcases hnext.outcome with hstep | ⟨he, -⟩
    · exact .inr hstep
    · exact .inl he

/-- With its queue empty, between two codelets, nothing is left to do. -/
theorem Refines.stuck (R : Refines P s σ) (T : Attended P s.pc σ) (hpc : s.pc = .test ∨ s.pc = .pop ∨ s.pc = .stopped)
    (hready : σ.ready = []) : Stuck P.graph σ := by
  have howed : outstanding s.pc = [] := by
    rcases hpc with h | h | h <;> rw [h] <;> rfl
  have hattends : ∀ p, ¬ Attends s.pc p := by
    intro p h
    obtain ⟨_, _, he, -⟩ := h
    rcases hpc with h | h | h <;> rw [h] at he <;> cases he
  intro σ' h
  cases h with
  | signal p hp =>
    rw [R.owed, howed, List.append_nil] at hp
    exact Nat.lt_irrefl _ hp
  | issue p hdeps hlt =>
    have hissued := (T p).resolve_left (hattends p) hdeps
    rw [hissued] at hlt
    exact Nat.lt_irrefl _ hlt
  | fire x rest hx =>
    rw [hready] at hx
    cases hx

theorem Refines.ready_nil (S : Space P.thisCodeletQueue 200) (R : Refines P s σ) :
    queueEmpty s.queue = true ↔ σ.ready = [] := by
  obtain ⟨head, H⟩ := R.queue
  rw [queueEmpty, beq_iff_eq, availableSpace_eq_size S H, List.map_eq_nil_iff]

/-- Whenever the core is in its loop, or has left it, with its queue empty, every codelet of
    the program was fired, once and after its dependencies. -/
theorem idle_complete [Fintype ι] (P : Program ι) (S : Space P.thisCodeletQueue 200) (hG : P.graph.Balanced)
    (hA : P.graph.Acyclic) (hW : P.Waiting) {s : State ι} (h : P.Reachable s)
    (hpc : s.pc = .test ∨ s.pc = .pop ∨ s.pc = .stopped) (hempty : queueEmpty s.queue = true) :
    ∃ A, s.log = A.map (Event.map P.copy) ∧ Safe P.graph A ∧ Complete P.graph A := by
  obtain ⟨σ, hσ, R, T⟩ := reaches_graph S hG hW h
  have hstuck := R.stuck T hpc ((R.ready_nil S).mp hempty)
  exact ⟨σ.history, R.log, Reachable.safe hG hσ, complete_of_stuck hG hA (Reachable.inv hG hσ) hstuck⟩

def myTestRank : Fin 4 → Nat
  | 0 => 2
  | 1 | 2 => 0
  | 3 => 1

theorem acyclic_myTest : myTest.graph.Acyclic := ⟨myTestRank, by decide⟩

theorem waiting_myTest : myTest.Waiting := by
  unfold Program.Waiting
  decide

/-- The run in which the threaded procedure of the tests comes to its end. -/
theorem idle_complete_myTest : ∃ s, myTest.Reachable s ∧
    ∃ A, s.log = A.map (Event.map myTest.copy) ∧ Safe myTest.graph A ∧ Complete myTest.graph A := by
  let s := myTest.start (fun _ => ⟨0, 0, 0, 0, ⟨0, 0, 0⟩, 0, 0, 0⟩) testQueue
  have hrun : (run myTest.step s (List.replicate 45 true)).map (fun r => (distance r.2.pc, queueEmpty r.2.queue)) =
      some (2, true) := by decide +kernel
  obtain ⟨r, hr, he⟩ := Option.map_eq_some_iff.mp hrun
  obtain ⟨hdistance, hempty⟩ := Prod.mk.inj he
  have hpc : r.2.pc = .test := by
    cases h : r.2.pc with
    | test => rfl
    | decDep p c todo => rw [h, distance] at hdistance; split at hdistance <;> cases hdistance
    | _ => rw [h] at hdistance; cases hdistance
  have hreach : myTest.Reachable r.2 := Reach.of_run _ (.init ⟨_, _, rfl⟩) hr
  exact ⟨r.2, hreach, idle_complete myTest space_myTest balanced_myTest acyclic_myTest waiting_myTest hreach (.inl hpc) hempty⟩

/-- A step that does not find the queue empty brings the core closer, if the queue has room for
    all codelets. -/
theorem Next.closer [Fintype ι] (hG : P.graph.Balanced) (hfew : ∑ p, (P.numCodelets p).toNat ≤ 16) (I : Inv P.graph σ)
    (hidle : ¬ (s.pc = .pop ∧ σ.ready = [])) (h : Next P s s' σ σ') :
    Inv P.graph σ' ∧
      7 * (P.graph.total - σ'.progress) + distance s'.pc < 7 * (P.graph.total - σ.progress) + distance s.pc := by
  rcases h.outcome with hstep | ⟨rfl, hcloser | hempty | ⟨hroom, hfull⟩⟩
  · have I' := I.step hG hstep
    have hle := I'.progress_le hG
    have hprogress := hstep.progress
    have hdistance := distance_le s'.pc
    exact ⟨I', by omega⟩
  · exact ⟨I, by omega⟩
  · exact absurd hempty hidle
  · obtain ⟨p, hp⟩ := hroom
    have hlt : σ'.tasks.length < ∑ p, (P.numCodelets p).toNat := I.tasks_lt hp
    rw [State.tasks, List.length_append] at hlt
    omega

theorem Refines.finishes [Fintype ι] (S : Space P.thisCodeletQueue 200) (hG : P.graph.Balanced)
    (hfew : ∑ p, (P.numCodelets p).toNat ≤ 16) (m : Nat) : ∀ {s : State ι} {σ : Dataflow.State ι}, Inv P.graph σ →
      Refines P s σ → Attended P s.pc σ → s.pc ≠ .stopped → 7 * (P.graph.total - σ.progress) + distance s.pc = m →
      ∃ n ≤ m, ∃ os s', run P.step s (List.replicate n true) = some (os, s') ∧ s'.pc = .pop ∧ queueEmpty s'.queue = true := by
  induction m using Nat.strong_induction_on with
  | _ m ih =>
    intro s σ I R T hpc hm
    by_cases hidle : s.pc = .pop ∧ σ.ready = []
    · exact ⟨0, Nat.zero_le _, [], s, rfl, hidle.1, (R.ready_nil S).mpr hidle.2⟩
    · obtain ⟨s₁, σ₁, hst, hnext⟩ := R.next S hG I T hpc true
      obtain ⟨I₁, hlt⟩ := hnext.closer hG hfew I hidle
      obtain ⟨n, hn, os, s', hrun, hs'⟩ := ih _ (hm ▸ hlt) I₁ hnext.refines hnext.attended (step_alive hst) rfl
      refine ⟨n + 1, by omega, () :: os, s', ?_, hs'⟩
      rw [List.replicate_succ, run, hst]
      simp only [hrun, Option.map_some]

/-- If the queue has room for all codelets, the core fires them all, in a number of steps that
    only the program bounds: no decrement is lost, and no call waits for ever. -/
theorem completes [Fintype ι] (P : Program ι) (S : Space P.thisCodeletQueue 200) (hG : P.graph.Balanced)
    (hA : P.graph.Acyclic) (hW : P.Waiting) (hfew : ∑ p, (P.numCodelets p).toNat ≤ 16) {s : State ι} (h : P.Reachable s)
    (hpc : s.pc ≠ .stopped) :
    ∃ n ≤ 7 * P.graph.total + 6, ∃ os s', run P.step s (List.replicate n true) = some (os, s') ∧
      ∃ A, s'.log = A.map (Event.map P.copy) ∧ Safe P.graph A ∧ Complete P.graph A := by
  obtain ⟨σ, hσ, R, T⟩ := reaches_graph S hG hW h
  obtain ⟨n, hn, os, s', hrun, hpop, hempty⟩ := R.finishes S hG hfew _ (Reachable.inv hG hσ) T hpc rfl
  have hdistance := distance_le s.pc
  refine ⟨n, by omega, os, s', hrun, ?_⟩
  obtain ⟨σ', hσ', R', T'⟩ := reaches_graph S hG hW (Reach.of_run _ h hrun)
  have hstuck := R'.stuck T' (.inr (.inl hpop)) ((R'.ready_nil S).mp hempty)
  exact ⟨σ'.history, R'.log, Reachable.safe hG hσ', complete_of_stuck hG hA (Reachable.inv hG hσ') hstuck⟩

/-- The threaded procedure of the tests, from the start. -/
theorem completes_myTest : ∃ n ≤ 97, ∃ os s',
    run myTest.step (myTest.start (fun _ => ⟨0, 0, 0, 0, ⟨0, 0, 0⟩, 0, 0, 0⟩) testQueue) (List.replicate n true) = some (os, s') ∧
      ∃ A, s'.log = A.map (Event.map myTest.copy) ∧ Safe myTest.graph A ∧ Complete myTest.graph A :=
  completes myTest space_myTest balanced_myTest acyclic_myTest waiting_myTest (by decide) (.init ⟨_, _, rfl⟩) (by simp [Program.start])

end EDarts.Runtime.CodeletProgram
