/-
  EDarts.Runtime.PseudoRuntimeProofs — a threaded procedure of the pseudo runtime runs its
  dataflow graph (see `EDarts.Runtime.PseudoRuntime`).

  A constructor and its codelets make a graph (`EDarts.Lib.Dataflow`) of the slots: each waits
  for its `numDep` decrements and has its `numExec` codelets. `Runs` relates a threaded
  procedure's slots and its log to a state of that graph. A slot has fired nothing and counts
  down what it waits for, or has fired everything and stands at its reset value. While it is
  visited it stands at 0, and its codelets are issued and fired one by one.

  - `Runs.signal`, `Runs.fire`, `Runs.leave`: the code's steps are steps of the graph.
  - `visit_zero`, `visit_ne`: the visit of a slot fires all its codelets, or does nothing.
  - `Runs.complete`: when every slot waits for something, everything was fired.
-/

import EDarts.Runtime.PseudoRuntime

namespace EDarts.PseudoRuntime

open Lib Assets TpClosure ThreadedProcedure Dataflow

/-! ## The graph -/

/-- The slots with these numbers. -/
def slotsOf (k : Nat) (ns : List Nat) : List (Fin k) := ns.filterMap fun n => if h : n < k then some ⟨n, h⟩ else none

theorem slotsOf_val {k : Nat} {ns : List Nat} (h : ∀ n ∈ ns, n < k) : (slotsOf k ns).map Fin.val = ns := by
  induction ns with
  | nil => rfl
  | cons n ns ih =>
    have hn := h n List.mem_cons_self
    have hrest := ih fun m hm => h m (List.mem_cons_of_mem n hm)
    rw [slotsOf, List.filterMap_cons_some (dif_pos hn), List.map_cons, ← slotsOf, hrest]

/-- What the slots of a threaded procedure wait for, and what its codelets signal. -/
def Program.graph (P : Program) (I : Initialization) : Graph (Fin I.slots.length) where
  deps := fun j => (I.slots.get j).numDep.toNat
  copies := fun j => (I.slots.get j).numExec.toNat
  startup := slotsOf _ I.startup
  succ := fun j => slotsOf _ (P.codelets (I.slots.get j).codeletFunction)

/-- An event of the graph, by the numbers of the slots. -/
def eventOf {k : Nat} : Event (Fin k) (TaskOf (Fin k)) → Event Nat (TaskOf Nat)
  | .signal s => .signal s.val
  | .fire x => .fire (x.1.val, x.2)

variable {P : Program} {I : Initialization}

/-! ## One threaded procedure -/

/-- A slot after `signaled` decrements, of whose codelets `issued` have been fired; or while it
    is `visited`. -/
structure SlotAt (A : Assignment) (visited : Prop) (issued signaled : Nat) (s : SyncSlot) : Prop where
  free : s.lockMutex = 0
  fire : s.codeletTemplate.fire = A.codeletFunction
  numCodelets : s.numCodelets = A.numExec
  resetDep : s.resetDep = A.resetDep
  zero : visited → s.currentDep = 0 ∧ signaled = A.numDep.toNat
  counts : ¬ visited → (issued = 0 ∧ s.currentDep.toNat + signaled = A.numDep.toNat) ∨
    (issued = A.numExec.toNat ∧ s.currentDep = A.resetDep ∧ signaled = A.numDep.toNat)

variable (P I) in
/-- The code of the threaded procedure has still to decrement the slots `pending`, and is
    about the codelets of the slot `visited`. -/
structure Runs (σ : State (Fin I.slots.length)) (visited : Option (Fin I.slots.length)) (pending : List (Fin I.slots.length))
    (log : List (Event Nat (TaskOf Nat))) (t : Tp) : Prop where
  reachable : Reachable (P.graph I) σ
  log : log = σ.history.map eventOf
  ready : σ.ready = []
  owed : sent (P.graph I) σ.history = signaled σ.history ++ pending
  numSyncSlots : t.metadata.numSyncSlots.toNat = I.slots.length
  length : t.slots.length = I.slots.length
  slots : ∀ (j : Fin I.slots.length) (hj : j.val < t.slots.length),
    SlotAt (I.slots.get j) (visited = some j) (σ.issued j) ((signaled σ.history).count j) t.slots[j.val]

section Steps

variable {σ : State (Fin I.slots.length)} {visited : Option (Fin I.slots.length)} {pending : List (Fin I.slots.length)}
  {log : List (Event Nat (TaskOf Nat))} {t : Tp} {j : Fin I.slots.length}

theorem Runs.lt (R : Runs P I σ visited pending log t) (j : Fin I.slots.length) : j.val < t.slots.length := by
  rw [R.length]
  exact j.isLt

/-- A change of one slot. -/
theorem Runs.set {σ' : State (Fin I.slots.length)} {visited' : Option (Fin I.slots.length)}
    {pending' : List (Fin I.slots.length)} {log' : List (Event Nat (TaskOf Nat))} (R : Runs P I σ visited pending log t)
    (hreachable : Reachable (P.graph I) σ') (hlog : log' = σ'.history.map eventOf) (hready : σ'.ready = [])
    (howed : sent (P.graph I) σ'.history = signaled σ'.history ++ pending') (s : SyncSlot)
    (hs : SlotAt (I.slots.get j) (visited' = some j) (σ'.issued j) ((signaled σ'.history).count j) s)
    (hothers : ∀ k ≠ j, (visited' = some k ↔ visited = some k) ∧ σ'.issued k = σ.issued k ∧
      (signaled σ'.history).count k = (signaled σ.history).count k) :
    Runs P I σ' visited' pending' log' { t with slots := t.slots.set j.val s } where
  reachable := hreachable
  log := hlog
  ready := hready
  owed := howed
  numSyncSlots := R.numSyncSlots
  length := by rw [List.length_set, R.length]
  slots := by
    intro k hk
    by_cases hkj : k = j
    · subst hkj
      rw [List.getElem_set_self]
      exact hs
    · obtain ⟨hvisited, hissued, hsignaled⟩ := hothers k hkj
      have hne : j.val ≠ k.val := fun e => hkj (Fin.ext e.symm)
      simp only [List.getElem_set_ne hne]
      rw [hissued, hsignaled, hvisited]
      exact R.slots k (R.lt k)

/-- A slot that is about to be decremented still counts down. -/
theorem Runs.waiting (hG : (P.graph I).Balanced) (R : Runs P I σ visited (j :: pending) log t) (hj : j.val < t.slots.length) :
    (signaled σ.history).count j < (sent (P.graph I) σ.history).count j ∧ visited ≠ some j ∧ σ.issued j = 0 ∧
      t.slots[j.val].currentDep.toNat + (signaled σ.history).count j = (I.slots.get j).numDep.toNat ∧
      0 < t.slots[j.val].currentDep.toNat := by
  have hS := R.slots j hj
  have hlt : (signaled σ.history).count j < (sent (P.graph I) σ.history).count j := by
    rw [R.owed, List.count_append, List.count_cons_self]
    omega
  have hdeps : (signaled σ.history).count j < (I.slots.get j).numDep.toNat := (R.reachable.inv hG).lt_deps hG hlt
  have hvisited : visited ≠ some j := by
    intro h
    have := (hS.zero h).2
    omega
  rcases hS.counts hvisited with ⟨hissued, hcount⟩ | ⟨-, -, hdone⟩
  · exact ⟨hlt, hvisited, hissued, hcount, by omega⟩
  · omega

theorem Runs.signal (hG : (P.graph I).Balanced) (R : Runs P I σ visited (j :: pending) log t) (hj : j.val < t.slots.length) :
    Runs P I ⟨σ.history ++ [.signal j], σ.ready⟩ visited pending (log ++ [.signal j.val])
      { t with slots := t.slots.set j.val { t.slots[j.val] with currentDep := t.slots[j.val].currentDep - 1 } } := by
  have hS := R.slots j hj
  obtain ⟨hlt, hvisited, hissued, hcount, hpos⟩ := R.waiting hG hj
  have hissues : ∀ k, State.issued ⟨σ.history ++ [.signal j], σ.ready⟩ k = σ.issued k := issued_of_tasks (tasks_signal σ j)
  refine R.set (.step R.reachable (.signal σ j hlt)) ?_ R.ready ?_ _ ?_ ?_
  · rw [R.log, List.map_append]
    rfl
  · have howed := R.owed
    simp only [sent, fired_signal, signaled_signal, List.append_assoc] at howed ⊢
    exact howed
  · refine ⟨hS.free, hS.fire, hS.numCodelets, hS.resetDep, fun h => absurd h hvisited, fun _ => .inl ⟨?_, ?_⟩⟩
    · rw [hissues, hissued]
    · have hone : (1 : Word) ≤ t.slots[j.val].currentDep := BitVec.le_def.mpr hpos
      rw [signaled_signal, List.count_append, List.count_singleton_self, BitVec.toNat_sub_of_le hone,
        show (1 : Word).toNat = 1 from rfl]
      omega
  · intro k hk
    refine ⟨Iff.rfl, hissues k, ?_⟩
    rw [signaled_signal, List.count_append, List.count_singleton, if_neg (by simpa using Ne.symm hk), Nat.add_zero]

variable (I) in
/-- No slot has been visited yet. -/
def Fresh (σ : State (Fin I.slots.length)) (t : Tp) : Prop :=
  (∀ k, σ.issued k = 0) ∧ ∀ (k : Fin I.slots.length) (hk : k.val < t.slots.length),
    t.slots[k.val].currentDep.toNat + (signaled σ.history).count k = (I.slots.get k).numDep.toNat

theorem Fresh.signal (hF : Fresh I σ t) (hG : (P.graph I).Balanced) (R : Runs P I σ visited (j :: pending) log t)
    (hj : j.val < t.slots.length) :
    Fresh I ⟨σ.history ++ [.signal j], σ.ready⟩
      { t with slots := t.slots.set j.val { t.slots[j.val] with currentDep := t.slots[j.val].currentDep - 1 } } := by
  refine ⟨fun k => (issued_of_tasks (tasks_signal σ j) k).trans (hF.1 k), fun k hk => ?_⟩
  rw [List.length_set] at hk
  have hcount := hF.2 k hk
  rw [signaled_signal, List.count_append, List.count_singleton]
  by_cases hkj : j = k
  · subst hkj
    have hpos := (R.waiting hG hj).2.2.2.2
    have hone : (1 : Word) ≤ t.slots[j.val].currentDep := BitVec.le_def.mpr hpos
    rw [List.getElem_set_self, BitVec.toNat_sub_of_le hone, show (1 : Word).toNat = 1 from rfl, beq_self_eq_true, if_pos rfl]
    omega
  · have hne : j.val ≠ k.val := fun e => hkj (Fin.ext e)
    simp only [List.getElem_set_ne hne]
    rw [if_neg (by simpa using hkj), Nat.add_zero]
    exact hcount

/-- The visit of a slot that stands at 0. -/
theorem Runs.enter (R : Runs P I σ none [] log t) (hj : j.val < t.slots.length) (hreset : (I.slots.get j).resetDep ≠ 0)
    (hzero : t.slots[j.val].currentDep = 0) : Runs P I σ (some j) [] log t ∧ σ.issued j = 0 := by
  have hS := R.slots j hj
  rcases hS.counts (by simp) with ⟨hissued, hcount⟩ | ⟨-, hdone, -⟩
  · refine ⟨{ R with slots := fun k hk => ?_ }, hissued⟩
    by_cases hkj : k = j
    · subst hkj
      rw [hzero] at hcount
      exact { hS with zero := fun _ => ⟨hzero, by simpa using hcount⟩, counts := fun h => absurd rfl h }
    · have hne : some j ≠ some k := fun e => hkj (Option.some.inj e).symm
      exact { R.slots k hk with zero := fun h => absurd h hne, counts := fun _ => (R.slots k hk).counts (by simp) }
  · exact absurd (hdone.symm.trans hzero) hreset

/-- The next codelet of the visited slot is issued, and fired. -/
theorem Runs.fire (R : Runs P I σ (some j) [] log t) (hlt : σ.issued j < (I.slots.get j).numExec.toNat) :
    ∃ σ', Runs P I σ' (some j) ((P.graph I).succ j) (log ++ [.fire (j.val, σ.issued j)]) t ∧
      σ'.issued j = σ.issued j + 1 := by
  have hj := R.lt j
  have hissue : Step (P.graph I) σ { σ with ready := σ.ready ++ [(j, σ.issued j)] } :=
    .issue σ j ((R.slots j hj).zero rfl).2 hlt
  have hready : State.ready { σ with ready := σ.ready ++ [(j, σ.issued j)] } = (j, σ.issued j) :: [] := by
    rw [R.ready]
    rfl
  have hissues : ∀ k, State.issued ⟨σ.history ++ [.fire (j, σ.issued j)], []⟩ k = σ.issued k + if j = k then 1 else 0 := by
    intro k
    rw [← issued_issue]
    apply issued_of_tasks
    simp only [State.tasks, fired_fire, R.ready, List.nil_append, List.append_nil]
  refine ⟨⟨σ.history ++ [.fire (j, σ.issued j)], []⟩, ⟨?_, ?_, rfl, ?_, R.numSyncSlots, R.length, ?_⟩, ?_⟩
  · exact .step (.step R.reachable hissue) (.fire _ _ _ hready)
  · rw [R.log, List.map_append]
    rfl
  · have howed := R.owed
    rw [List.append_nil] at howed
    simp only [sent, fired_fire, signaled_fire, List.flatMap_append, List.flatMap_singleton, ← List.append_assoc] at howed ⊢
    rw [howed]
  · intro k hk
    have hS := R.slots k hk
    rw [hissues, signaled_fire]
    by_cases hkj : j = k
    · subst hkj
      exact { hS with counts := fun h => absurd rfl h }
    · rw [if_neg hkj, Nat.add_zero]
      exact hS
  · rw [hissues, if_pos rfl]

/-- The slot is reset when all its codelets were fired. -/
theorem Runs.leave (R : Runs P I σ (some j) [] log t) (hj : j.val < t.slots.length)
    (hall : σ.issued j = (I.slots.get j).numExec.toNat) :
    Runs P I σ none [] log
      { t with slots := t.slots.set j.val { t.slots[j.val] with currentDep := t.slots[j.val].resetDep } } := by
  have hS := R.slots j hj
  refine R.set R.reachable R.log R.ready R.owed _ ?_ ?_
  · exact { hS with zero := fun h => (nomatch h), counts := fun _ => .inr ⟨hall, hS.resetDep, (hS.zero rfl).2⟩ }
  · intro k hk
    exact ⟨⟨fun h => (nomatch h), fun h => absurd (Option.some.inj h).symm hk⟩, rfl, rfl⟩

end Steps

/-! ## The visit of a slot -/

/-- `c'` is `c` but for the memory, the log of the `i`th threaded procedure, and whether anything
    was fired. -/
structure Keeps (i : Nat) (c c' : Consumer) : Prop where
  rest : c' = { c with mem := c'.mem, log := c'.log, stillExecuting := c'.stillExecuting }
  logs : ∀ k ≠ i, c'.log k = c.log k

theorem Keeps.refl (i : Nat) (c : Consumer) : Keeps i c c := ⟨rfl, fun _ _ => rfl⟩

theorem Keeps.trans {i : Nat} {c c' c'' : Consumer} (h : Keeps i c c') (h' : Keeps i c' c'') : Keeps i c c'' := by
  refine ⟨?_, fun k hk => (h'.logs k hk).trans (h.logs k hk)⟩
  rw [h'.rest, h.rest]

theorem Keeps.note (i : Nat) (e : Event Nat (TaskOf Nat)) (c : Consumer) : Keeps i c (c.note i e) :=
  ⟨rfl, fun _ hk => Function.update_of_ne hk _ _⟩

theorem Keeps.foldlM {α : Type} {i : Nat} {f : Consumer → α → Option Consumer}
    (hf : ∀ c x c', f c x = some c' → Keeps i c c') :
    ∀ (xs : List α) {c c' : Consumer}, xs.foldlM f c = some c' → Keeps i c c' := by
  intro xs
  induction xs with
  | nil =>
    intro c c' h
    cases h
    exact .refl i c
  | cons x xs ih =>
    intro c c' h
    rw [List.foldlM_cons] at h
    obtain ⟨c₁, h₁, h⟩ := Option.bind_eq_some_iff.mp h
    exact (hf c x c₁ h₁).trans (ih h)

theorem signalAll_keeps {core tp : Word} {i : Nat} {ns : List Nat} {c c' : Consumer}
    (h : Consumer.signalAll core i tp ns c = some c') : Keeps i c c' := by
  refine Keeps.foldlM (fun c n c' hc => ?_) ns h
  obtain ⟨mem, -, rfl⟩ := Option.map_eq_some_iff.mp hc
  exact ⟨rfl, fun _ hk => Function.update_of_ne hk _ _⟩

theorem visit_keeps {core tp currentSyncSlot : Word} {i j : Nat} {c c' : Consumer}
    (h : P.visit core i tp j currentSyncSlot c = some c') : Keeps i c c' := by
  simp only [Program.visit] at h
  split at h
  · obtain ⟨c₁, hall, h⟩ := Option.bind_eq_some_iff.mp h
    obtain ⟨mem, -, rfl⟩ := Option.map_eq_some_iff.mp h
    have hkeeps : Keeps i c c₁ := Keeps.foldlM (fun c k c' hc => (Keeps.note i _ c).trans (signalAll_keeps hc)) _ hall
    exact hkeeps.trans ⟨rfl, fun _ _ => rfl⟩
  · cases h
    exact .refl i c

@[simp] theorem note_log_self (i : Nat) (e : Event Nat (TaskOf Nat)) (c : Consumer) : (c.note i e).log i = c.log i ++ [e] :=
  Function.update_self i _ _

section Visit

variable {a b : Nat} {before behind : List Cell} {tp : Word} {t : Tp} {core : Word} {i : Nat} {c : Consumer}
  {σ : State (Fin I.slots.length)} {visited : Option (Fin I.slots.length)} {pending : List (Fin I.slots.length)}
  {j : Fin I.slots.length}

theorem signalAll_eq (core : Word) (hG : (P.graph I).Balanced) (hT : TpAt c.mem a before tp t behind b)
    (R : Runs P I σ visited pending (c.log i) t) :
    ∃ c' σ' t', Consumer.signalAll core i tp (pending.map Fin.val) c = some c' ∧ TpAt c'.mem a before tp t' behind b ∧
      Runs P I σ' visited [] (c'.log i) t' ∧ (∀ k, σ'.issued k = σ.issued k) ∧ (Fresh I σ t → Fresh I σ' t') := by
  induction pending generalizing c σ t with
  | nil => exact ⟨c, σ, t, rfl, hT, R, fun _ => rfl, fun h => h⟩
  | cons j pending ih =>
    have hj := R.lt j
    obtain ⟨mem', hmem, hT'⟩ := hT.decDep hj core (R.slots j hj).free
    have R' := R.signal hG hj
    have hstep : Consumer.signal core i tp c j.val = some (Consumer.note i (.signal j.val) { c with mem := mem' }) := by
      rw [Consumer.signal, hmem, Option.map_some]
    have hlog : (Consumer.note i (.signal j.val) { c with mem := mem' }).log i = c.log i ++ [.signal j.val] :=
      note_log_self i _ _
    rw [← hlog] at R'
    obtain ⟨c', σ', t', hall, hT'', R'', hissued, hfresh⟩ := ih hT' R'
    refine ⟨c', σ', t', ?_, hT'', R'', fun k => ?_, fun hF => hfresh (hF.signal hG R hj)⟩
    · rw [Consumer.signalAll, List.map_cons, List.foldlM_cons, hstep]
      exact hall
    · rw [hissued]
      exact issued_of_tasks (tasks_signal σ j) k

/-- The first `m` codelets of the visited slot. -/
theorem fire_eq (core : Word) (hG : (P.graph I).Balanced)
    (hlt : ∀ A ∈ I.slots, ∀ n ∈ P.codelets A.codeletFunction, n < I.slots.length)
    {codelet : Codelet} (hcodelet : codelet.fire = (I.slots.get j).codeletFunction)
    (hT : TpAt c.mem a before tp t behind b) (R : Runs P I σ (some j) [] (c.log i) t) (hzero : σ.issued j = 0) :
    ∀ {m : Nat}, m ≤ (I.slots.get j).numExec.toNat →
      ∃ c' σ' t', (List.range m).foldlM (P.fire core i tp j.val codelet) c = some c' ∧
        TpAt c'.mem a before tp t' behind b ∧ Runs P I σ' (some j) [] (c'.log i) t' ∧ σ'.issued j = m := by
  intro m
  induction m with
  | zero => exact fun _ => ⟨c, σ, t, rfl, hT, R, hzero⟩
  | succ m ih =>
    intro hm
    obtain ⟨c₁, σ₁, t₁, hall, hT₁, R₁, hissued⟩ := ih (by omega)
    obtain ⟨σ₂, R₂, hissued₂⟩ := R₁.fire (by omega)
    rw [hissued] at R₂ hissued₂
    rw [← note_log_self] at R₂
    obtain ⟨c₃, σ₃, t₃, hsignals, hT₃, R₃, hissued₃, -⟩ := signalAll_eq core hG
      (show TpAt (c₁.note i (.fire (j.val, m))).mem a before tp t₁ behind b from hT₁) R₂
    refine ⟨c₃, σ₃, t₃, ?_, hT₃, R₃, (hissued₃ j).trans hissued₂⟩
    rw [Program.graph, slotsOf_val (hlt _ (List.get_mem _ _))] at hsignals
    rw [List.range_succ, List.foldlM_append, hall]
    simp only [bind, Option.bind_some, List.foldlM_cons, List.foldlM_nil, Program.fire, hcodelet, hsignals]
    rfl

/-- A slot that waits for something is passed. -/
theorem visit_ne (hT : TpAt c.mem a before tp t behind b) {n : Nat} (hn : n < t.slots.length)
    (hne : t.slots[n].currentDep ≠ 0) : P.visit core i tp n (getSyncSlot tp n) c = some c := by
  rw [Program.visit, hT.slot hn, if_neg hne]

/-- A slot that waits for nothing fires its codelets, and is reset. -/
theorem visit_zero (core : Word) (hG : (P.graph I).Balanced)
    (hlt : ∀ A ∈ I.slots, ∀ n ∈ P.codelets A.codeletFunction, n < I.slots.length)
    (hreset : (I.slots.get j).resetDep ≠ 0) (hT : TpAt c.mem a before tp t behind b) (R : Runs P I σ none [] (c.log i) t)
    (hj : j.val < t.slots.length) (hzero : t.slots[j.val].currentDep = 0) :
    ∃ c' σ' t', P.visit core i tp j.val (getSyncSlot tp j.val) c = some c' ∧ c'.stillExecuting = true ∧
      TpAt c'.mem a before tp t' behind b ∧ Runs P I σ' none [] (c'.log i) t' := by
  have hS := R.slots j hj
  obtain ⟨Rj, hissued⟩ := R.enter hj hreset hzero
  obtain ⟨c₁, σ₁, t₁, hall, hT₁, R₁, hdone⟩ := fire_eq core hG hlt hS.fire hT Rj hissued (Nat.le_refl _)
  have hj₁ := R₁.lt j
  obtain ⟨mem', hmem, hT'⟩ := hT₁.resetDep hj₁ core (R₁.slots j hj₁).free
  refine ⟨{ c₁ with mem := mem', stillExecuting := true }, σ₁, _, ?_, rfl, hT', R₁.leave hj₁ hdone⟩
  rw [Program.visit, hT.slot hj, if_pos hzero, hS.numCodelets, hall]
  simp only [Option.bind_some, hmem, Option.map_some]

end Visit

/-! ## When nothing is fired -/

/-- Every slot waits for something. -/
def Idle (t : Tp) : Prop := ∀ s ∈ t.slots, s.currentDep ≠ 0

section Idle

variable {σ : State (Fin I.slots.length)} {log : List (Event Nat (TaskOf Nat))} {t : Tp}

theorem Runs.complete (hG : (P.graph I).Balanced) (hA : (P.graph I).Acyclic) (R : Runs P I σ none [] log t)
    (hidle : Idle t) : Complete (P.graph I) σ.history := by
  refine complete_of_stuck hG hA (R.reachable.inv hG) fun σ' hstep => ?_
  have howed := R.owed
  rw [List.append_nil] at howed
  cases hstep with
  | signal s hs =>
    rw [howed] at hs
    exact Nat.lt_irrefl _ hs
  | issue p hd hlt =>
    have hp := R.lt p
    have hne := hidle _ (List.getElem_mem hp)
    rcases (R.slots p hp).counts (by simp) with ⟨-, hcount⟩ | ⟨hissued, -, -⟩
    · have hdeps : (signaled σ.history).count p = (I.slots.get p).numDep.toNat := hd
      exact hne (BitVec.eq_of_toNat_eq (by simpa [hdeps] using hcount))
    · exact absurd hlt (Nat.not_lt_of_le (Nat.le_of_eq hissued.symm))
  | fire x rest hr =>
    rw [R.ready] at hr
    cases hr

/-- Behind its constructor some slot of a threaded procedure is ready. -/
theorem Fresh.not_idle (hF : Fresh I σ t) (hG : (P.graph I).Balanced) (hA : (P.graph I).Acyclic) (hne : I.slots ≠ [])
    (R : Runs P I σ none [] log t) : ¬ Idle t := by
  have hnonempty : Nonempty (Fin I.slots.length) := ⟨⟨0, List.length_pos_iff.mpr hne⟩⟩
  obtain ⟨j, hj⟩ := exists_source hG hA
  have hlt := R.lt j
  -- nothing was fired, so that all decrements are those of the constructor
  have hfired : fired σ.history = [] := by
    have hnone : σ.tasks.map Prod.fst = [] := by
      refine List.eq_nil_iff_forall_not_mem.mpr fun k hk => ?_
      have hpos := List.count_pos_iff.mpr hk
      have hzero : (σ.tasks.map Prod.fst).count k = 0 := hF.1 k
      omega
    rw [List.map_eq_nil_iff, State.tasks, List.append_eq_nil_iff] at hnone
    exact hnone.1
  have howed := R.owed
  rw [List.append_nil, sent, hfired, List.flatMap_nil, List.append_nil] at howed
  have hdeps : (I.slots.get j).numDep.toNat = (signaled σ.history).count j := by
    rw [← howed]
    exact hj
  have hcount := hF.2 j hlt
  have hzero : t.slots[j.val].currentDep.toNat = 0 := by omega
  intro hidle
  exact hidle _ (List.getElem_mem hlt) (BitVec.eq_of_toNat_eq hzero)

end Idle

end EDarts.PseudoRuntime
