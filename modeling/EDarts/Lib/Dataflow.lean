/-
  EDarts.Lib.Dataflow — tasks that wait for signals.

  Each node of a graph waits for `deps` signals and has `copies` tasks, numbered from 0.
  Signals are sent at the start, and by every task when it is fired. A signal that was sent
  arrives some time later; the tasks of a node become ready, one after the other, when all
  its signals have arrived, and ready tasks are fired in order. The history tells which
  signals arrived and which tasks were fired.

  - `sent_le`: in a balanced graph, where a node waits for all the signals that the graph
    can send to it, no more are sent.
  - `Reachable.safe`: in every reachable state of a balanced graph the tasks fired are tasks of
    the graph, each was fired once, and none before all signals of its node had arrived.
  - `complete_of_stuck`: where no step is possible in a balanced graph without cycles, every
    task of the graph was fired.
  - `Step.progress`, `progress_le`: no run has more steps than the graph has signals, and twice
    its tasks.
-/

import EDarts.Lib.Runs
import Mathlib.Algebra.BigOperators.Group.Finset.Basic
import Mathlib.Algebra.Order.BigOperators.Group.Finset
import Mathlib.Data.Finset.Max

namespace EDarts.Lib.Dataflow

/-! ## Histories -/

/-- A signal to `s` arrives; the task `t` is fired. -/
inductive Event (ι τ : Type) where
  | signal (s : ι)
  | fire (t : τ)
  deriving DecidableEq, Repr

variable {ι τ : Type}

def Event.map {τ' : Type} (f : τ → τ') : Event ι τ → Event ι τ'
  | .signal s => .signal s
  | .fire t => .fire (f t)

def Event.signaled? : Event ι τ → Option ι
  | .signal s => some s
  | .fire _ => none

def Event.fired? : Event ι τ → Option τ
  | .signal _ => none
  | .fire t => some t

def signaled (A : List (Event ι τ)) : List ι := A.filterMap Event.signaled?

def fired (A : List (Event ι τ)) : List τ := A.filterMap Event.fired?

@[simp] theorem signaled_signal (A : List (Event ι τ)) (s : ι) : signaled (A ++ [.signal s]) = signaled A ++ [s] := by
  simp [signaled, Event.signaled?]

@[simp] theorem signaled_fire (A : List (Event ι τ)) (t : τ) : signaled (A ++ [.fire t]) = signaled A := by
  simp [signaled, Event.signaled?]

@[simp] theorem fired_signal (A : List (Event ι τ)) (s : ι) : fired (A ++ [.signal s]) = fired A := by
  simp [fired, Event.fired?]

@[simp] theorem fired_fire (A : List (Event ι τ)) (t : τ) : fired (A ++ [.fire t]) = fired A ++ [t] := by
  simp [fired, Event.fired?]

/-! ## Graphs -/

structure Graph (ι : Type) where
  deps : ι → Nat
  copies : ι → Nat
  /-- The nodes that are signalled at the start. -/
  startup : List ι
  /-- The nodes that each task of a node signals. -/
  succ : ι → List ι

/-- A node, and which of its tasks. -/
abbrev TaskOf (ι : Type) := ι × Nat

structure State (ι : Type) where
  history : List (Event ι (TaskOf ι))
  ready : List (TaskOf ι)

def State.start : State ι := ⟨[], []⟩

/-- The tasks that are ready or fired. -/
def State.tasks (σ : State ι) : List (TaskOf ι) := fired σ.history ++ σ.ready

theorem tasks_signal (σ : State ι) (s : ι) : State.tasks { σ with history := σ.history ++ [.signal s] } = σ.tasks := by
  simp only [State.tasks, fired_signal]

variable [DecidableEq ι] (G : Graph ι)

/-- Each node waits for as many signals as can be sent to it. -/
def Graph.Balanced [Fintype ι] : Prop :=
  ∀ s, G.deps s = G.startup.count s + ∑ p, G.copies p * (G.succ p).count s

/-- The signals sent so far. -/
def sent (A : List (Event ι (TaskOf ι))) : List ι := G.startup ++ (fired A).flatMap fun x => G.succ x.1

/-- How many tasks of a node are. -/
def State.issued (σ : State ι) (p : ι) : Nat := (σ.tasks.map Prod.fst).count p

inductive Step : State ι → State ι → Prop
  | signal (σ : State ι) (s : ι) : (signaled σ.history).count s < (sent G σ.history).count s →
      Step σ { σ with history := σ.history ++ [.signal s] }
  | issue (σ : State ι) (p : ι) : (signaled σ.history).count p = G.deps p → σ.issued p < G.copies p →
      Step σ { σ with ready := σ.ready ++ [(p, σ.issued p)] }
  | fire (σ : State ι) (x : TaskOf ι) (rest : List (TaskOf ι)) : σ.ready = x :: rest →
      Step σ ⟨σ.history ++ [.fire x], rest⟩

/-- Tasks of the graph, each of them once, and each after the signals of its node. -/
structure Safe (A : List (Event ι (TaskOf ι))) : Prop where
  task : ∀ x ∈ fired A, x.2 < G.copies x.1
  once : (fired A).Nodup
  after : ∀ B x, B ++ [.fire x] <+: A → (signaled B).count x.1 = G.deps x.1

/-! ## The invariant -/

structure Inv (σ : State ι) : Prop where
  low : ∀ x ∈ σ.tasks, x.2 < σ.issued x.1
  once : σ.tasks.Nodup
  copies : ∀ p, σ.issued p ≤ G.copies p
  complete : ∀ p, σ.issued p ≠ 0 → (signaled σ.history).count p = G.deps p
  arrived : ∀ s, (signaled σ.history).count s ≤ (sent G σ.history).count s
  after : ∀ B x, B ++ [.fire x] <+: σ.history → (signaled B).count x.1 = G.deps x.1

variable {G}

theorem issued_of_tasks {σ σ' : State ι} (h : σ'.tasks = σ.tasks) (p : ι) : σ'.issued p = σ.issued p := by
  rw [State.issued, h, State.issued]

theorem tasks_issue (σ : State ι) (p : ι) :
    State.tasks { σ with ready := σ.ready ++ [(p, σ.issued p)] } = σ.tasks ++ [(p, σ.issued p)] := by
  simp only [State.tasks, List.append_assoc]

theorem issued_issue (σ : State ι) (p q : ι) :
    State.issued { σ with ready := σ.ready ++ [(p, σ.issued p)] } q = σ.issued q + if p = q then 1 else 0 := by
  rw [State.issued, tasks_issue, List.map_append, List.count_append, List.map_singleton, List.count_singleton]
  simp only [beq_iff_eq, State.issued]

theorem count_sent (A : List (Event ι (TaskOf ι))) (s : ι) :
    (sent G A).count s = G.startup.count s +
      ∑ p ∈ ((fired A).map Prod.fst).toFinset, ((fired A).map Prod.fst).count p * (G.succ p).count s := by
  have hsum := Finset.sum_list_map_count ((fired A).map Prod.fst) fun p => (G.succ p).count s
  rw [List.map_map] at hsum
  rw [sent, List.count_append, List.count_flatMap]
  exact congrArg (G.startup.count s + ·) hsum

/-- No node is signalled more often than it waits for. -/
theorem sent_le [Fintype ι] (hG : G.Balanced) {σ : State ι} (I : Inv G σ) (s : ι) :
    (sent G σ.history).count s ≤ G.deps s := by
  have hfired : ∀ p, ((fired σ.history).map Prod.fst).count p ≤ G.copies p := by
    intro p
    have hissued := I.copies p
    rw [State.issued, State.tasks, List.map_append, List.count_append] at hissued
    omega
  rw [count_sent, hG s]
  apply Nat.add_le_add_left
  calc ∑ p ∈ ((fired σ.history).map Prod.fst).toFinset, ((fired σ.history).map Prod.fst).count p * (G.succ p).count s
      ≤ ∑ p ∈ ((fired σ.history).map Prod.fst).toFinset, G.copies p * (G.succ p).count s :=
        Finset.sum_le_sum fun p _ => Nat.mul_le_mul_right _ (hfired p)
    _ ≤ ∑ p, G.copies p * (G.succ p).count s := Finset.sum_le_sum_of_subset (Finset.subset_univ _)

/-- A signal that is still to arrive is one that its node waits for. -/
theorem Inv.lt_deps [Fintype ι] (hG : G.Balanced) {σ : State ι} (I : Inv G σ) {s : ι}
    (h : (signaled σ.history).count s < (sent G σ.history).count s) : (signaled σ.history).count s < G.deps s :=
  Nat.lt_of_lt_of_le h (sent_le hG I s)

/-- A node that still waits has no task ready or fired. -/
theorem Inv.issued_eq_zero {σ : State ι} (I : Inv G σ) {p : ι} (h : (signaled σ.history).count p < G.deps p) :
    σ.issued p = 0 := by
  by_contra hne
  have := I.complete p hne
  omega

theorem Inv.start : Inv G (State.start : State ι) where
  low := fun _ hx => nomatch hx
  once := .nil
  copies := fun _ => Nat.zero_le _
  complete := fun _ h => absurd rfl h
  arrived := fun _ => Nat.zero_le _
  after := by
    intro B x h
    exact absurd (List.prefix_nil.mp h) (by simp)

theorem Inv.signal [Fintype ι] (hG : G.Balanced) {σ : State ι} (I : Inv G σ) {s : ι}
    (h : (signaled σ.history).count s < (sent G σ.history).count s) :
    Inv G { σ with history := σ.history ++ [.signal s] } := by
  have htasks := tasks_signal σ s
  have hissued := issued_of_tasks htasks
  have hsent : sent G (σ.history ++ [.signal s]) = sent G σ.history := by
    simp only [sent, fired_signal]
  refine ⟨?_, htasks ▸ I.once, fun p => hissued p ▸ I.copies p, ?_, ?_, ?_⟩
  · intro x hx
    rw [hissued]
    exact I.low x (htasks ▸ hx)
  · intro p hp
    rw [hissued] at hp
    -- nothing of `s` has been issued yet
    have hne : p ≠ s := by
      intro e
      subst e
      exact hp (I.issued_eq_zero (I.lt_deps hG h))
    rw [signaled_signal, List.count_append, I.complete p hp, List.count_singleton]
    simp [Ne.symm hne]
  · intro p
    have hp := I.arrived p
    rw [hsent, signaled_signal, List.count_append, List.count_singleton]
    by_cases e : s = p
    · subst e
      simpa using Nat.succ_le_of_lt h
    · simpa [e] using hp
  · intro B x hB
    rcases List.prefix_concat_iff.mp hB with he | hB
    · exact absurd (List.append_inj' he rfl).2 (by simp)
    · exact I.after B x hB

theorem Inv.issue {σ : State ι} (I : Inv G σ) {p : ι} (hd : (signaled σ.history).count p = G.deps p)
    (hlt : σ.issued p < G.copies p) : Inv G { σ with ready := σ.ready ++ [(p, σ.issued p)] } := by
  have htasks := tasks_issue σ p
  have hissued := issued_issue σ p
  refine ⟨?_, ?_, ?_, ?_, I.arrived, I.after⟩
  · intro x hx
    rw [htasks, List.mem_append, List.mem_singleton] at hx
    rw [hissued]
    rcases hx with hx | rfl
    · exact Nat.lt_of_lt_of_le (I.low x hx) (Nat.le_add_right _ _)
    · simp
  · rw [htasks]
    -- the tasks of `p` issued before have smaller numbers
    apply I.once.append (List.nodup_singleton _)
    intro x hx hnew
    rw [List.mem_singleton] at hnew
    subst hnew
    exact absurd (I.low _ hx) (Nat.lt_irrefl _)
  · intro q
    rw [hissued]
    have hq := I.copies q
    split
    · subst_vars
      omega
    · exact hq
  · intro q hq
    rw [hissued] at hq
    by_cases e : p = q
    · exact e ▸ hd
    · exact I.complete q (by simpa [e] using hq)

theorem Inv.fire {σ : State ι} (I : Inv G σ) {x : TaskOf ι} {rest : List (TaskOf ι)} (hr : σ.ready = x :: rest) :
    Inv G ⟨σ.history ++ [.fire x], rest⟩ := by
  have htasks : State.tasks ⟨σ.history ++ [.fire x], rest⟩ = σ.tasks := by
    simp only [State.tasks, fired_fire, hr, List.append_assoc, List.singleton_append]
  have hissued := issued_of_tasks htasks
  have hx : σ.issued x.1 ≠ 0 := by
    have hlow := I.low x (by simp [State.tasks, hr])
    omega
  refine ⟨?_, htasks ▸ I.once, fun p => hissued p ▸ I.copies p, ?_, ?_, ?_⟩
  · intro y hy
    rw [hissued]
    exact I.low y (htasks ▸ hy)
  · intro p hp
    rw [hissued] at hp
    rw [signaled_fire]
    exact I.complete p hp
  · intro s
    have hs := I.arrived s
    simp only [signaled_fire, sent, fired_fire, List.flatMap_append, ← List.append_assoc, List.count_append] at hs ⊢
    omega
  · intro B y hB
    rcases List.prefix_concat_iff.mp hB with he | hB
    · obtain ⟨rfl, hy⟩ := List.append_inj' he rfl
      obtain rfl : y = x := by simpa using hy
      exact I.complete _ hx
    · exact I.after B y hB

theorem Inv.step [Fintype ι] (hG : G.Balanced) {σ σ' : State ι} (I : Inv G σ) (h : Step G σ σ') : Inv G σ' := by
  cases h with
  | signal s hs => exact I.signal hG hs
  | issue p hd hlt => exact I.issue hd hlt
  | fire x rest hr => exact I.fire hr

theorem Inv.safe {σ : State ι} (I : Inv G σ) : Safe G σ.history where
  task := by
    intro x hx
    exact Nat.lt_of_lt_of_le (I.low x (List.mem_append_left _ hx)) (I.copies x.1)
  once := (List.nodup_append.mp I.once).1
  after := I.after

/-! ## Runs -/

variable (G) in
abbrev Reachable (σ : State ι) : Prop := Reach (· = State.start) (Step G) σ

theorem Reachable.inv [Fintype ι] (hG : G.Balanced) {σ : State ι} (h : Reachable G σ) : Inv G σ := by
  refine Reach.inv (Inv G) ?_ (fun _ _ I hst => I.step hG hst) h
  intro s hs
  subst hs
  exact Inv.start

theorem Reachable.safe [Fintype ι] (hG : G.Balanced) {σ : State ι} (h : Reachable G σ) : Safe G σ.history :=
  (h.inv hG).safe

/-! ## Completion -/

variable (G) in
def Graph.Acyclic : Prop := ∃ rank : ι → Nat, ∀ p, ∀ q ∈ G.succ p, rank p < rank q

variable (G) in
/-- Nothing can happen any more. -/
def Stuck (σ : State ι) : Prop := ∀ σ', ¬ Step G σ σ'

variable (G) in
/-- Every task of the graph was fired. -/
def Complete (A : List (Event ι (TaskOf ι))) : Prop := ∀ p i, i < G.copies p → (p, i) ∈ fired A

/-- Nodes whose tasks have all been issued have issued each of them. -/
theorem Inv.mem_tasks {σ : State ι} (I : Inv G σ) {p : ι} {i : Nat} (hi : i < σ.issued p) : (p, i) ∈ σ.tasks := by
  have hlen : ((σ.tasks.filter fun x => x.1 = p).map Prod.snd).length = σ.issued p := by
    rw [List.length_map, State.issued, List.count, List.countP_map, List.countP_eq_length_filter]
    rfl
  have hmem : ∀ j ∈ (σ.tasks.filter fun x => x.1 = p).map Prod.snd, (p, j) ∈ σ.tasks := by
    intro j hj
    obtain ⟨x, hx, rfl⟩ := List.mem_map.mp hj
    obtain ⟨htask, hp⟩ := List.mem_filter.mp hx
    obtain rfl := of_decide_eq_true hp
    exact htask
  have hnodup : ((σ.tasks.filter fun x => x.1 = p).map Prod.snd).Nodup := by
    refine (I.once.filter _).map_on ?_
    intro x hx y hy hxy
    have hx1 := of_decide_eq_true (List.mem_filter.mp hx).2
    have hy1 := of_decide_eq_true (List.mem_filter.mp hy).2
    exact Prod.ext (hx1.trans hy1.symm) hxy
  -- as many numbers as there are below `issued p`, all of them below it
  have hsub : ((σ.tasks.filter fun x => x.1 = p).map Prod.snd).toFinset ⊆ Finset.range (σ.issued p) := by
    intro j hj
    exact Finset.mem_range.mpr (I.low (p, j) (hmem j (List.mem_toFinset.mp hj)))
  have hall := Finset.eq_of_subset_of_card_le hsub (by rw [Finset.card_range, List.toFinset_card_of_nodup hnodup, hlen])
  exact hmem i (List.mem_toFinset.mp (hall ▸ Finset.mem_range.mpr hi))

/-- A node gets all its signals if the nodes before it have fired all their tasks. -/
theorem sent_eq [Fintype ι] (hG : G.Balanced) {σ : State ι} {s : ι}
    (hbefore : ∀ p, s ∈ G.succ p → ((fired σ.history).map Prod.fst).count p = G.copies p) :
    (sent G σ.history).count s = G.deps s := by
  have hterm : ∀ p, ((fired σ.history).map Prod.fst).count p * (G.succ p).count s = G.copies p * (G.succ p).count s := by
    intro p
    by_cases hp : s ∈ G.succ p
    · rw [hbefore p hp]
    · rw [List.count_eq_zero_of_not_mem hp, Nat.mul_zero, Nat.mul_zero]
  have huniv : ∑ p ∈ ((fired σ.history).map Prod.fst).toFinset, ((fired σ.history).map Prod.fst).count p * (G.succ p).count s =
      ∑ p, ((fired σ.history).map Prod.fst).count p * (G.succ p).count s := by
    refine Finset.sum_subset (Finset.subset_univ _) fun p _ hp => ?_
    rw [List.count_eq_zero_of_not_mem fun hmem => hp (List.mem_toFinset.mpr hmem), Nat.zero_mul]
  rw [count_sent, huniv, hG s, Finset.sum_congr rfl fun p _ => hterm p]

/-- Where nothing can happen any more, everything has happened. -/
theorem complete_of_stuck [Fintype ι] (hG : G.Balanced) (hA : G.Acyclic) {σ : State ι} (I : Inv G σ) (hS : Stuck G σ) :
    Complete G σ.history := by
  obtain ⟨rank, hrank⟩ := hA
  have hready : σ.ready = [] := by
    cases hr : σ.ready with
    | nil => rfl
    | cons x rest => exact absurd (Step.fire σ x rest hr) (hS _)
  have harrived : ∀ s, (signaled σ.history).count s = (sent G σ.history).count s := by
    intro s
    have hle := I.arrived s
    by_contra hne
    exact hS _ (Step.signal σ s (by omega))
  have hissue : ∀ p, (signaled σ.history).count p = G.deps p → σ.issued p = G.copies p := by
    intro p hp
    have hle := I.copies p
    by_contra hne
    exact hS _ (Step.issue σ p hp (by omega))
  have htasks : σ.tasks = fired σ.history := by rw [State.tasks, hready, List.append_nil]
  have hissued : ∀ p, σ.issued p = ((fired σ.history).map Prod.fst).count p := by
    intro p
    rw [State.issued, htasks]
  -- by induction on the rank: the nodes before `p` are complete
  have hall : ∀ n p, rank p = n → σ.issued p = G.copies p := by
    intro n
    induction n using Nat.strong_induction_on with
    | _ n ih =>
      intro p hp
      apply hissue
      rw [harrived]
      refine sent_eq hG fun q hq => ?_
      rw [← hissued]
      exact ih (rank q) (hp ▸ hrank q p hq) q rfl
  intro p i hi
  rw [← htasks]
  exact I.mem_tasks (hall _ p rfl ▸ hi)

/-- Some node waits for nothing but the signals of the start. -/
theorem exists_source [Fintype ι] [Nonempty ι] (hG : G.Balanced) (hA : G.Acyclic) :
    ∃ s, G.deps s = G.startup.count s := by
  obtain ⟨rank, hrank⟩ := hA
  obtain ⟨s, -, hs⟩ := Finset.exists_min_image Finset.univ rank Finset.univ_nonempty
  refine ⟨s, ?_⟩
  have hzero : ∀ p, G.copies p * (G.succ p).count s = 0 := by
    intro p
    have hp : s ∉ G.succ p := fun hmem => Nat.not_lt_of_le (hs p (Finset.mem_univ p)) (hrank p s hmem)
    rw [List.count_eq_zero_of_not_mem hp, Nat.mul_zero]
  rw [hG s, Finset.sum_eq_zero fun p _ => hzero p, Nat.add_zero]

/-- The signals arrived, the tasks issued and the tasks fired. -/
def State.progress (σ : State ι) : Nat := (signaled σ.history).length + σ.tasks.length + (fired σ.history).length

variable (G) in
def Graph.total [Fintype ι] : Nat := ∑ p, G.deps p + 2 * ∑ p, G.copies p

theorem Step.progress {σ σ' : State ι} (h : Step G σ σ') : σ'.progress = σ.progress + 1 := by
  cases h with
  | signal s _ =>
    simp only [State.progress, State.tasks, signaled_signal, fired_signal, List.length_append, List.length_singleton]
    omega
  | issue p _ _ =>
    simp only [State.progress, tasks_issue, List.length_append, List.length_singleton]
    omega
  | fire x rest hr =>
    simp only [State.progress, State.tasks, hr, signaled_fire, fired_fire, List.length_append, List.length_cons,
      List.length_nil]
    omega

theorem length_eq_sum_count [Fintype ι] (l : List ι) : l.length = ∑ p, l.count p := by
  have hsum := l.sum_toFinset_count_eq_length
  rw [← hsum]
  refine Finset.sum_subset (Finset.subset_univ _) fun p _ hp => ?_
  exact List.count_eq_zero_of_not_mem fun hmem => hp (List.mem_toFinset.mpr hmem)

theorem Inv.tasks_le [Fintype ι] {σ : State ι} (I : Inv G σ) : σ.tasks.length ≤ ∑ p, G.copies p := by
  rw [← List.length_map Prod.fst, length_eq_sum_count]
  exact Finset.sum_le_sum fun p _ => I.copies p

theorem Inv.tasks_lt [Fintype ι] {σ : State ι} (I : Inv G σ) {p : ι} (hp : σ.issued p < G.copies p) :
    σ.tasks.length < ∑ p, G.copies p := by
  rw [← List.length_map Prod.fst, length_eq_sum_count]
  exact Finset.sum_lt_sum (fun p _ => I.copies p) ⟨p, Finset.mem_univ p, hp⟩

theorem Inv.progress_le [Fintype ι] (hG : G.Balanced) {σ : State ι} (I : Inv G σ) : σ.progress ≤ G.total := by
  have hsignals : (signaled σ.history).length ≤ ∑ p, G.deps p := by
    rw [length_eq_sum_count]
    exact Finset.sum_le_sum fun p _ => Nat.le_trans (I.arrived p) (sent_le hG I p)
  have htasks := I.tasks_le
  have hfired : (fired σ.history).length ≤ σ.tasks.length := by
    rw [State.tasks, List.length_append]
    omega
  unfold State.progress Graph.total
  omega

end EDarts.Lib.Dataflow
