/-
  EDarts.Lib.Runs — runs of a machine, and the rules that carry one step's facts to a
  whole run.

  A machine is a step function on a state and an operation; `none` is an operation
  that never returns. A transition system is a relation on states.

  - `run_refines`: a machine that matches an abstract one step by step gives the same
    outputs over every sequence of operations.
  - `run_lockstep`: two runs of one machine that stay related give the same outputs.
  - `run_simulated`, `Throughout.simulated`: one machine has the runs of another.
  - `throughout_iff`: a property holds in every state of a run exactly when each step
    meets a condition, if the steps that meet it keep an invariant that implies the
    property and the steps that do not meet it break the property.
  - `EachStep.throughout`: the direction for a condition that is only enough.
  - `Reach.inv`: what holds at the start and is kept by every step holds in every
    reachable state.
  - `Reach.simulated`: forward simulation, where a step may be no abstract step.
-/

namespace EDarts.Lib

section Machine

variable {σ ι ω : Type}

/-- The outputs and the last state of a sequence of operations. -/
def run (step : σ → ι → Option (ω × σ)) : σ → List ι → Option (List ω × σ)
  | s, [] => some ([], s)
  | s, i :: is =>
    match step s i with
    | none => none
    | some (o, s') => (run step s' is).map fun r => (o :: r.1, r.2)

/-- Every operation returns, and `P` holds at the start and after each of them. -/
def Throughout (step : σ → ι → Option (ω × σ)) (P : σ → Prop) : σ → List ι → Prop
  | s, [] => P s
  | s, i :: is => P s ∧ ∃ o s', step s i = some (o, s') ∧ Throughout step P s' is

/-- `C` holds of each operation and the state it is called in. -/
def EachStep (step : σ → ι → Option (ω × σ)) (C : σ → ι → Prop) : σ → List ι → Prop
  | _, [] => True
  | s, i :: is => C s i ∧ ∀ o s', step s i = some (o, s') → EachStep step C s' is

variable {step : σ → ι → Option (ω × σ)}

instance EachStep.decidable (C : σ → ι → Prop) [∀ s i, Decidable (C s i)] :
    ∀ (s : σ) (is : List ι), Decidable (EachStep step C s is)
  | _, [] => isTrue trivial
  | s, i :: is =>
    match h : step s i with
    | none => decidable_of_iff (C s i) ⟨fun hc => ⟨hc, fun _ _ h' => by rw [h] at h'; cases h'⟩, fun h' => h'.1⟩
    | some (o, s') =>
      have := EachStep.decidable C s' is
      decidable_of_iff (C s i ∧ EachStep step C s' is)
        ⟨fun hc => ⟨hc.1, fun o₁ s₁ h' => by rw [h] at h'; cases h'; exact hc.2⟩, fun h' => ⟨h'.1, h'.2 o s' h⟩⟩

theorem Throughout.head {P : σ → Prop} {s : σ} : ∀ {is : List ι}, Throughout step P s is → P s
  | [], h => h
  | _ :: _, h => h.1

theorem Throughout.last {P : σ → Prop} : ∀ {is : List ι} {s s' : σ} {os : List ω}, Throughout step P s is →
    run step s is = some (os, s') → P s'
  | [], s, s', os, h, hr => by
    obtain ⟨-, rfl⟩ : [] = os ∧ s = s' := by simpa [run] using hr
    exact h
  | i :: is, s, s', os, ⟨_, o, s₁, hst, ht⟩, hr => by
    simp only [run, hst, Option.map_eq_some_iff] at hr
    obtain ⟨⟨os₁, s₂⟩, hrun, he⟩ := hr
    obtain ⟨-, rfl⟩ : o :: os₁ = os ∧ s₂ = s' := by simpa using he
    exact ht.last hrun

theorem EachStep.of_forall {C : σ → ι → Prop} (h : ∀ s i, C s i) : ∀ (is : List ι) (s : σ), EachStep step C s is
  | [], _ => trivial
  | i :: is, s => ⟨h s i, fun _ s' _ => EachStep.of_forall h is s'⟩

theorem EachStep.cons_iff {C : σ → ι → Prop} {s s' : σ} {i : ι} {is : List ι} {o : ω} (h : step s i = some (o, s')) :
    EachStep step C s (i :: is) ↔ C s i ∧ EachStep step C s' is := by
  constructor
  · exact fun hs => ⟨hs.1, hs.2 o s' h⟩
  · intro hs
    obtain ⟨hc, hrest⟩ := hs
    refine ⟨hc, fun o₁ s₁ h₁ => ?_⟩
    rw [h] at h₁
    obtain ⟨-, rfl⟩ : o = o₁ ∧ s' = s₁ := by simpa using h₁
    exact hrest

theorem EachStep.of_inv {Inv : σ → Prop} {C : σ → ι → Prop}
    (keep : ∀ s i o s', Inv s → step s i = some (o, s') → Inv s') (h : ∀ s i, Inv s → C s i) :
    ∀ (is : List ι) (s : σ), Inv s → EachStep step C s is
  | [], _, _ => trivial
  | i :: is, s, hs => ⟨h s i hs, fun o s' hst => EachStep.of_inv keep h is s' (keep s i o s' hs hst)⟩

/-- A nonempty run is its first step and a run from there. -/
theorem run_cons {s s' : σ} {i : ι} {is : List ι} {os : List ω} (h : run step s (i :: is) = some (os, s')) :
    ∃ o s₁ os₁, step s i = some (o, s₁) ∧ run step s₁ is = some (os₁, s') ∧ os = o :: os₁ := by
  rw [run] at h
  cases hst : step s i with
  | none => rw [hst] at h; cases h
  | some r =>
    simp only [hst, Option.map_eq_some_iff] at h
    obtain ⟨⟨os₁, s₂⟩, hrun, he⟩ := h
    obtain ⟨rfl, rfl⟩ : r.1 :: os₁ = os ∧ s₂ = s' := by simpa using he
    exact ⟨r.1, r.2, os₁, rfl, hrun, rfl⟩

theorem run_append {s' : σ} (js : List ι) : ∀ (is : List ι) {s : σ} {os : List ω},
    run step s is = some (os, s') → run step s (is ++ js) = (run step s' js).map fun r => (os ++ r.1, r.2)
  | [], _, _, h => by
    cases h
    simp
  | i :: is, _, _, h => by
    obtain ⟨o, s₁, os₁, hst, hrun, rfl⟩ := run_cons h
    rw [List.cons_append, run, hst]
    simp only [run_append js is hrun, Option.map_map]
    rfl

/-- What every allowed operation keeps, a run of allowed operations keeps. -/
theorem run_inv_of {Inv : σ → Prop} {A : ι → Prop}
    (keep : ∀ s i o s', Inv s → A i → step s i = some (o, s') → Inv s') :
    ∀ (is : List ι) {s s' : σ} {os : List ω}, (∀ i ∈ is, A i) → Inv s → run step s is = some (os, s') → Inv s' := by
  intro is
  induction is with
  | nil =>
    intro s s' os _ hs hrun
    obtain ⟨-, rfl⟩ : [] = os ∧ s = s' := by simpa [run] using hrun
    exact hs
  | cons i is ih =>
    intro s s' os hA hs hrun
    obtain ⟨o, s₁, os₁, hst, hrun, -⟩ := run_cons hrun
    exact ih (fun j hj => hA j (List.mem_cons_of_mem i hj)) (keep s i o s₁ hs (hA i List.mem_cons_self) hst) hrun

theorem run_inv {Inv : σ → Prop} (keep : ∀ s i o s', Inv s → step s i = some (o, s') → Inv s') (is : List ι)
    {s s' : σ} {os : List ω} (hs : Inv s) (hrun : run step s is = some (os, s')) : Inv s' :=
  run_inv_of (A := fun _ => True) (fun s i o s' hs _ => keep s i o s' hs) is (fun _ _ => trivial) hs hrun

/-- What each step of a run says, if the invariant allows nothing else. -/
theorem run_outputs {Inv : σ → Prop} {A : ι → Prop} {p : ω → Prop}
    (keep : ∀ s i o s', Inv s → A i → step s i = some (o, s') → Inv s' ∧ p o) :
    ∀ (is : List ι) {s s' : σ} {os : List ω}, (∀ i ∈ is, A i) → Inv s → run step s is = some (os, s') →
      ∀ o ∈ os, p o := by
  intro is
  induction is with
  | nil =>
    intro s s' os _ _ hrun o ho
    obtain ⟨rfl, -⟩ : [] = os ∧ s = s' := by simpa [run] using hrun
    cases ho
  | cons i is ih =>
    intro s s' os hA hs hrun o ho
    obtain ⟨o₁, s₁, os₁, hst, hrun₁, rfl⟩ := run_cons hrun
    obtain ⟨hs₁, ho₁⟩ := keep s i o₁ s₁ hs (hA i List.mem_cons_self) hst
    rcases List.mem_cons.mp ho with rfl | ho
    · exact ho₁
    · exact ih (fun j hj => hA j (List.mem_cons_of_mem i hj)) hs₁ hrun₁ o ho

/-- In a run whose steps all meet the condition `C`, the property holds all along. -/
theorem EachStep.throughout {Inv P : σ → Prop} {C : σ → ι → Prop} (hP : ∀ s, Inv s → P s)
    (keep : ∀ s i o s', Inv s → C s i → step s i = some (o, s') → Inv s') :
    ∀ (is : List ι) {s s' : σ} {os : List ω}, Inv s → EachStep step C s is → run step s is = some (os, s') →
      Throughout step P s is := by
  intro is
  induction is with
  | nil => intro s s' os hs _ _; exact hP s hs
  | cons i is ih =>
    intro s s' os hs hc hrun
    obtain ⟨o, s₁, os₁, hst, hrun, -⟩ := run_cons hrun
    exact ⟨hP s hs, o, s₁, hst, ih (keep s i o s₁ hs hc.1 hst) (hc.2 o s₁ hst) hrun⟩

/-- A property holds all along a run of allowed operations exactly when each of them
    meets the condition `C`. -/
theorem throughout_iff {Inv P : σ → Prop} {A C : σ → ι → Prop} (hP : ∀ s, Inv s → P s)
    (keep : ∀ s i, Inv s → A s i → C s i → ∃ o s', step s i = some (o, s') ∧ Inv s')
    (breaks : ∀ s i, Inv s → A s i → ¬ C s i → ∃ o s', step s i = some (o, s') ∧ ¬ P s') :
    ∀ (is : List ι) (s : σ), Inv s → EachStep step A s is → (Throughout step P s is ↔ EachStep step C s is) := by
  intro is
  induction is with
  | nil => intro s hs _; exact ⟨fun _ => trivial, fun _ => hP s hs⟩
  | cons i is ih =>
    intro s hs ⟨ha, hrest⟩
    by_cases hc : C s i
    · obtain ⟨o, s', hst, hs'⟩ := keep s i hs ha hc
      have hih := ih s' hs' (hrest o s' hst)
      constructor
      · intro hall
        obtain ⟨-, o₁, s₁, hst₁, ht⟩ := hall
        rw [hst] at hst₁
        obtain ⟨rfl, rfl⟩ : o = o₁ ∧ s' = s₁ := by simpa using hst₁
        refine ⟨hc, fun o₂ s₂ hst₂ => ?_⟩
        rw [hst] at hst₂
        obtain ⟨rfl, rfl⟩ : o = o₂ ∧ s' = s₂ := by simpa using hst₂
        exact hih.mp ht
      · intro hall
        obtain ⟨-, he⟩ := hall
        exact ⟨hP s hs, o, s', hst, hih.mpr (he o s' hst)⟩
    · obtain ⟨o, s', hst, hn⟩ := breaks s i hs ha hc
      refine ⟨?_, fun h => absurd h.1 hc⟩
      intro hall
      obtain ⟨-, o₁, s₁, hst₁, ht⟩ := hall
      rw [hst] at hst₁
      obtain ⟨rfl, rfl⟩ : o = o₁ ∧ s' = s₁ := by simpa using hst₁
      exact absurd ht.head hn

/-- Two runs of the same operations: machines that answer alike in related states, or
    both block, give the same outputs. -/
theorem run_lockstep (R : σ → σ → Prop) (A : ι → Prop)
    (sim : ∀ s t i, R s t → A i → (step s i = none ∧ step t i = none) ∨
      ∃ o s' t', step s i = some (o, s') ∧ step t i = some (o, t') ∧ R s' t') :
    ∀ (is : List ι) (s t : σ), R s t → (∀ i ∈ is, A i) →
      (run step s is).map Prod.fst = (run step t is).map Prod.fst := by
  intro is
  induction is with
  | nil => intro s t _ _; rfl
  | cons i is ih =>
    intro s t h hA
    rcases sim s t i h (hA i List.mem_cons_self) with ⟨hs, ht⟩ | ⟨o, s', t', hs, ht, h'⟩
    · simp only [run, hs, ht]
    · have hih := ih s' t' h' fun j hj => hA j (List.mem_cons_of_mem i hj)
      have hmap : ∀ r : Option (List ω × σ), (r.map fun r => (o :: r.1, r.2)).map Prod.fst =
          (r.map Prod.fst).map (o :: ·) := by
        intro r
        cases r <;> rfl
      simp only [run, hs, ht, hmap, hih]

/-- A machine that can do what another one does has its runs, with their outputs. -/
theorem run_simulated {α : Type} {astep : α → ι → Option (ω × α)} (R : α → σ → Prop)
    (sim : ∀ a s i o a', R a s → astep a i = some (o, a') → ∃ s', step s i = some (o, s') ∧ R a' s') :
    ∀ (is : List ι) {a a' : α} {s : σ} {os : List ω}, R a s → run astep a is = some (os, a') →
      ∃ s', run step s is = some (os, s') ∧ R a' s' := by
  intro is
  induction is with
  | nil =>
    intro a a' s os h hrun
    obtain ⟨rfl, rfl⟩ : [] = os ∧ a = a' := by simpa [run] using hrun
    exact ⟨s, rfl, h⟩
  | cons i is ih =>
    intro a a' s os h hrun
    obtain ⟨o, a₁, os₁, hst, hrun₁, rfl⟩ := run_cons hrun
    obtain ⟨s₁, hst₁, h₁⟩ := sim a s i o a₁ h hst
    obtain ⟨s', hrun', h'⟩ := ih h₁ hrun₁
    exact ⟨s', by simp only [run, hst₁, hrun', Option.map_some], h'⟩

/-- And where it can do so only into states with `Q`, it has the runs through those. -/
theorem Throughout.simulated {α : Type} {astep : α → ι → Option (ω × α)} {Q : α → Prop} (R : α → σ → Prop)
    (sim : ∀ a s i o a', R a s → astep a i = some (o, a') → Q a' → ∃ s', step s i = some (o, s') ∧ R a' s') :
    ∀ (is : List ι) {a : α} {s : σ}, R a s → Throughout astep Q a is →
      ∃ os a' s', run astep a is = some (os, a') ∧ run step s is = some (os, s') ∧ R a' s' := by
  intro is
  induction is with
  | nil =>
    intro a s h _
    exact ⟨[], a, s, rfl, rfl, h⟩
  | cons i is ih =>
    intro a s h hall
    obtain ⟨-, o, a₁, hst, hall⟩ := hall
    obtain ⟨s₁, hst₁, h₁⟩ := sim a s i o a₁ h hst hall.head
    obtain ⟨os, a', s', hrun, hrun', h'⟩ := ih h₁ hall
    refine ⟨o :: os, a', s', ?_, ?_, h'⟩
    · simp only [run, hst, hrun, Option.map_some]
    · simp only [run, hst₁, hrun', Option.map_some]

/-- An abstract machine never blocks: it answers every operation. -/
def absRun {α : Type} (astep : α → ι → ω × α) : α → List ι → List ω × α
  | a, [] => ([], a)
  | a, i :: is => let r := absRun astep (astep a i).2 is; ((astep a i).1 :: r.1, r.2)

/-- Step by step agreement is agreement over every sequence of operations. -/
theorem run_refines {α : Type} (astep : α → ι → ω × α) (R : σ → α → Prop)
    (sim : ∀ s a i, R s a → ∃ s', step s i = some ((astep a i).1, s') ∧ R s' (astep a i).2) :
    ∀ (is : List ι) (s : σ) (a : α), R s a →
      ∃ s', run step s is = some ((absRun astep a is).1, s') ∧ R s' (absRun astep a is).2 := by
  intro is
  induction is with
  | nil => intro s a h; exact ⟨s, rfl, h⟩
  | cons i is ih =>
    intro s a h
    obtain ⟨s₁, hst, h₁⟩ := sim s a i h
    obtain ⟨s₂, hrun, h₂⟩ := ih s₁ _ h₁
    exact ⟨s₂, by simp only [run, hst, hrun, Option.map_some, absRun], h₂⟩

end Machine

section Transitions

variable {σ : Type}

inductive Reach (init : σ → Prop) (step : σ → σ → Prop) : σ → Prop
  | init {s : σ} : init s → Reach init step s
  | step {s s' : σ} : Reach init step s → step s s' → Reach init step s'

theorem Reach.inv {init : σ → Prop} {step : σ → σ → Prop} (Inv : σ → Prop) (start : ∀ s, init s → Inv s)
    (keep : ∀ s s', Inv s → step s s' → Inv s') {s : σ} (h : Reach init step s) : Inv s := by
  induction h with
  | init hi => exact start _ hi
  | step _ hst ih => exact keep _ _ ih hst

/-- Forward simulation: a system whose every step is a step of an abstract one, or none, has
    a reachable abstract state related to each reachable state. -/
theorem Reach.simulated {α : Type} {init : σ → Prop} {step : σ → σ → Prop} {ainit : α → Prop} {astep : α → α → Prop}
    (R : σ → α → Prop) (start : ∀ s, init s → ∃ a, ainit a ∧ R s a)
    (sim : ∀ s a s', Reach ainit astep a → R s a → step s s' → ∃ a', (a' = a ∨ astep a a') ∧ R s' a') {s : σ}
    (h : Reach init step s) : ∃ a, Reach ainit astep a ∧ R s a := by
  induction h with
  | init hi =>
    obtain ⟨a, ha, hR⟩ := start _ hi
    exact ⟨a, .init ha, hR⟩
  | step _ hst ih =>
    obtain ⟨a, ha, hR⟩ := ih
    obtain ⟨a', hstep, hR'⟩ := sim _ a _ ha hR hst
    rcases hstep with rfl | hstep
    · exact ⟨a', ha, hR'⟩
    · exact ⟨a', .step ha hstep, hR'⟩

/-- Where a run of a machine ends is reachable. -/
theorem Reach.of_run {ι ω : Type} {init : σ → Prop} {step : σ → ι → Option (ω × σ)} (is : List ι) {s s' : σ}
    {os : List ω} (hs : Reach init (fun s s' => ∃ i o, step s i = some (o, s')) s) (hrun : run step s is = some (os, s')) :
    Reach init (fun s s' => ∃ i o, step s i = some (o, s')) s' :=
  run_inv (fun _ i o _ hs hst => .step hs ⟨i, o, hst⟩) is hs hrun

theorem Reach.of_run_of {ι ω : Type} {init : σ → Prop} {step : σ → ι → Option (ω × σ)} {A : ι → Prop} (is : List ι)
    {s s' : σ} {os : List ω} (hA : ∀ i ∈ is, A i) (hs : Reach init (fun s s' => ∃ i o, A i ∧ step s i = some (o, s')) s)
    (hrun : run step s is = some (os, s')) : Reach init (fun s s' => ∃ i o, A i ∧ step s i = some (o, s')) s' :=
  run_inv_of (fun _ i o _ hs ha hst => .step hs ⟨i, o, ha, hst⟩) is hA hs hrun

/-- The same, where every step of the run is one that may be taken. -/
theorem Reach.of_eachStep {ι ω : Type} {init : σ → Prop} {step : σ → ι → Option (ω × σ)} {C : σ → ι → Prop} :
    ∀ (is : List ι) {s s' : σ} {os : List ω}, Reach init (fun s s' => ∃ i o, C s i ∧ step s i = some (o, s')) s →
      EachStep step C s is → run step s is = some (os, s') →
      Reach init (fun s s' => ∃ i o, C s i ∧ step s i = some (o, s')) s'
  | [], _, _, _, hs, _, hrun => by
    cases hrun
    exact hs
  | i :: is, _, _, _, hs, hC, hrun => by
    obtain ⟨o, s₁, os', hst, hrun', -⟩ := run_cons hrun
    exact of_eachStep is (.step hs ⟨i, o, hC.1, hst⟩) (hC.2 o s₁ hst) hrun'

end Transitions

/-! ## A bounded queue -/

namespace Fifo

variable {α : Type}

inductive Op (α : Type) where
  | push (a : α)
  | pop

inductive Out (α : Type) where
  | pushed
  | full
  | popped (a : α)
  | empty

/-- A first-in first-out queue of at most `cap` elements. -/
def step (cap : Nat) : List α → Op α → Out α × List α
  | q, .push a => if q.length < cap then (.pushed, q ++ [a]) else (.full, q)
  | [], .pop => (.empty, [])
  | a :: q, .pop => (.popped a, q)

end Fifo

end EDarts.Lib
