/-
  EDarts.Runtime.PseudoRuntimeRuns — the pseudo runtime executes its threaded procedures (see
  `EDarts.Runtime.PseudoRuntime`).

  - `Executes.step`: every step of a consumer keeps its heap, its place in the walk, and what
    it has seen of the queue.
  - `codelets_in_order`: in every reachable state, of each threaded procedure of a consumer no
    codelet was fired twice, and none before all decrements of its slot.
  - `nothing_left_behind`: a consumer that has left the loop has fired every codelet of its
    threaded procedures, and every closure that was in the queue when it last looked has been
    made a threaded procedure, by it or by another one.
-/

import EDarts.Runtime.PseudoRuntimeQueue

namespace EDarts.PseudoRuntime

open Lib Assets TpClosuresQueue TpClosure ThreadedProcedure Dataflow

variable {P : Program}

/-! ## One consumer -/

/-- Some slot of some threaded procedure waits for nothing. -/
def Ready (tps : List Tp) : Prop := ∃ t ∈ tps, ¬ Idle t

/-- Where a consumer is in its walk: what it has passed without firing anything is idle. -/
def Position (c : Consumer) (tps : List Tp) : Prop :=
  match c.pc with
  | .test => c.stillExecuting = false → ∀ t ∈ tps, Idle t
  | .tps i tp => tp.toNat = address tps i ∧ i ≤ tps.length ∧ (c.stillExecuting = false → ∀ t ∈ tps.take i, Idle t)
  | .slots i tp j slot => tp.toNat = address tps i ∧ slot = getSyncSlot tp j ∧ ∃ t, tps[i]? = some t ∧ j ≤ t.slots.length ∧
      (c.stillExecuting = false → (∀ u ∈ tps.take i, Idle u) ∧ ∀ s ∈ t.slots.take j, s.currentDep ≠ 0)
  | .stopped => ∀ t ∈ tps, Idle t
  | _ => True

/-- The closures a consumer saw have been made threaded procedures, `n` in all; or it has made one
    itself that it has still to fire. -/
def Settles (n : Nat) (c : Consumer) (tps : List Tp) : Prop :=
  match c.pc with
  | .pop => Ready tps
  | .disown | .tps _ _ | .slots _ _ _ _ => c.stillExecuting = true ∨ c.seen ≤ n ∨ Ready tps
  | .test => c.stillExecuting = true ∨ c.seen ≤ n
  | .stopped => c.seen ≤ n
  | _ => True

variable (P) in
/-- Every threaded procedure has slots, without a cycle between them. -/
def Program.Acyclic : Prop := ∀ x, P.Invoked x → (P.graph (P.init x)).Acyclic ∧ (P.init x).slots ≠ []

variable (P) in
structure Executes (n : Nat) (c : Consumer) (tps : List Tp) : Prop where
  heap : Heap P c tps
  position : Position c tps
  settles : P.Acyclic → Settles n c tps

theorem Executes.start (n : Nat) (mem : Memory) : Executes P n (.start mem) [] where
  heap := .start mem
  position := fun _ _ ht => absurd ht List.not_mem_nil
  settles := fun _ => .inr (Nat.zero_le n)

/-- Elsewhere more threaded procedures are made. -/
theorem Settles.mono {n n' : Nat} {c : Consumer} {tps : List Tp} (hS : Settles n c tps) (h : n ≤ n') : Settles n' c tps := by
  cases hpc : c.pc with
  | pop =>
    simp only [Settles, hpc] at hS ⊢
    exact hS
  | test =>
    simp only [Settles, hpc] at hS ⊢
    exact hS.imp_right fun hseen => hseen.trans h
  | stopped =>
    simp only [Settles, hpc] at hS ⊢
    exact hS.trans h
  | disown | tps | slots =>
    simp only [Settles, hpc] at hS ⊢
    exact hS.imp_right (Or.imp_left fun hseen => hseen.trans h)
  | own | look | peek | create => simp only [Settles, hpc]

/-- The heap is not about the consumer's place in its loop. -/
theorem Heap.moved {c c' : Consumer} {tps : List Tp} (H : Heap P c tps)
    (he : c' = { c with pc := c'.pc, stillExecuting := c'.stillExecuting, seen := c'.seen }) : Heap P c' tps := by
  rw [he]
  exact ⟨H.tiles, H.top, H.length, H.count, H.invoked, H.runs, H.unused⟩

section Step

variable {core : Word} {newMetadata : TpMetadata} {finalSignal : Bool} {h h' : Hist} {c c' : Consumer} {tps : List Tp} {n : Nat}

/-- The loop's test, and the calls on the queue. -/
theorem Executes.calls (E : Executes P n c tps) (hst : P.consumerStep core newMetadata finalSignal h c = some (h', c'))
    (hpeek : c.pc = .peek → peakTopElement P.queue core h.q = (.successOp, some h.q.headAddress))
    (hlook : c.pc = .look → isTpClosureQueueEmpty h.q = true → h.pushed.length ≤ n)
    (hpc : c.pc = .test ∨ c.pc = .own ∨ c.pc = .look ∨ c.pc = .peek ∨ c.pc = .pop ∨ c.pc = .disown) :
    Executes P n c' tps := by
  have hP := E.position
  have hS := E.settles
  have hmoves : (∀ p, c.pc ≠ .create p) ∧ ∀ i tp j slot, c.pc ≠ .slots i tp j slot := by
    rcases hpc with h | h | h | h | h | h <;> simp [h]
  have H := E.heap.moved (consumer_moves hst hmoves.1 hmoves.2).1
  rcases hpc with hpc | hpc | hpc | hpc | hpc | hpc
  · -- the test
    simp only [Program.consumerStep, hpc] at hst
    simp only [Position, Settles, hpc] at hP hS
    split at hst
    · cases hst
      exact ⟨H, trivial, fun _ => trivial⟩
    · rename_i hleave
      have hstill : c.stillExecuting = false := by simpa using fun hs => hleave (.inr hs)
      cases hst
      exact ⟨H, hP hstill, fun hA => (hS hA).resolve_left (by simp [hstill])⟩
  · -- the owning
    simp only [Program.consumerStep, hpc, Option.map_eq_some_iff] at hst
    obtain ⟨r, -, hst⟩ := hst
    cases hst
    by_cases hcode : r.1.1 = .successOp
    · simp only [hcode, if_true] at H ⊢
      exact ⟨H, trivial, fun _ => trivial⟩
    · simp only [hcode, if_false] at H ⊢
      exact ⟨H, trivial, fun _ => trivial⟩
  · -- the look
    simp only [Program.consumerStep, hpc] at hst
    cases hst
    cases hempty : isTpClosureQueueEmpty h.q with
    | true =>
      rw [hempty] at H
      exact ⟨H, trivial, fun _ => .inr (.inl (hlook hpc hempty))⟩
    | false =>
      rw [hempty] at H
      exact ⟨H, trivial, fun _ => trivial⟩
  · -- the peek
    simp only [Program.consumerStep, hpc, histStep, TpClosuresQueue.step, hpeek hpc, Option.map_some] at hst
    cases hst
    exact ⟨H, trivial, fun _ => trivial⟩
  · -- the pop
    simp only [Program.consumerStep, hpc, Option.map_eq_some_iff] at hst
    simp only [Settles, hpc] at hS
    obtain ⟨r, -, hst⟩ := hst
    cases hst
    exact ⟨H, trivial, fun hA => .inr (.inr (hS hA))⟩
  · -- the disowning
    simp only [Program.consumerStep, hpc, Option.map_eq_some_iff] at hst
    simp only [Settles, hpc] at hS
    obtain ⟨r, -, hst⟩ := hst
    cases hst
    by_cases hcode : r.1.1 = .successOp
    · simp only [hcode, if_true] at H ⊢
      exact ⟨H, ⟨rfl, Nat.zero_le _, fun _ t ht => absurd ht List.not_mem_nil⟩, hS⟩
    · simp only [hcode, if_false] at H ⊢
      exact ⟨H, trivial, hS⟩

/-- The loop over the threaded procedures. -/
theorem Executes.nextTp {i : Nat} {tp : Word} (E : Executes P n c tps)
    (hst : P.consumerStep core newMetadata finalSignal h c = some (h', c')) (hpc : c.pc = .tps i tp) :
    Executes P n c' tps := by
  have H := E.heap.moved (consumer_moves hst (by simp [hpc]) (by simp [hpc])).1
  have hP := E.position
  have hS := E.settles
  have hcount := E.heap.count
  have hlength := E.heap.length
  simp only [Position, Settles, hpc] at hP hS
  obtain ⟨haddress, hi, hidle⟩ := hP
  simp only [Program.consumerStep, hpc] at hst
  cases hst
  by_cases hlt : i < c.numCreatedTps
  · simp only [hlt, if_true] at H ⊢
    have hi' : i < tps.length := by omega
    refine ⟨H, ⟨haddress, ?_, tps[i], List.getElem?_eq_getElem hi', Nat.zero_le _, fun hstill => ⟨hidle hstill, ?_⟩⟩, hS⟩
    · rw [getSyncSlot]
      simp
    · exact fun _ hs => absurd hs List.not_mem_nil
  · simp only [hlt, if_false] at H ⊢
    have hall : c.stillExecuting = false → ∀ t ∈ tps, Idle t := by
      intro hstill t ht
      have hlen : i = tps.length := by omega
      exact hidle hstill t (by rw [hlen, List.take_length]; exact ht)
    refine ⟨H, hall, fun hA => ?_⟩
    rcases hS hA with hstill | hseen | ⟨t, ht, hready⟩
    · exact .inl hstill
    · exact .inr hseen
    · by_cases hstill : c.stillExecuting = true
      · exact .inl hstill
      · exact absurd (hall (by simpa using hstill) t ht) hready

/-- The loop over the slots of a threaded procedure. -/
theorem Executes.nextSlot (hB : P.Balanced) {i j : Nat} {tp slot : Word} (E : Executes P n c tps) (hfits : P.Fits c.created)
    (hst : P.consumerStep core newMetadata finalSignal h c = some (h', c')) (hpc : c.pc = .slots i tp j slot) :
    ∃ tps', Executes P n c' tps' := by
  have hP := E.position
  have hS := E.settles
  simp only [Position, Settles, hpc] at hP hS
  obtain ⟨haddress, rfl, t, ht, hj, hidle⟩ := hP
  have hnum := E.heap.numSyncSlots hfits ht haddress
  simp only [Program.consumerStep, hpc, hnum] at hst
  by_cases hlt : j < t.slots.length
  · rw [if_pos hlt] at hst
    obtain ⟨c₁, hvisit, he⟩ := Option.map_eq_some_iff.mp hst
    cases he
    rcases E.heap.visit hB hfits ht haddress hlt core with ⟨hsame, hne⟩ | ⟨c₂, t', hfired, hstill, hlen, H'⟩
    · rw [hsame] at hvisit
      cases hvisit
      refine ⟨tps, E.heap.moved rfl, ⟨haddress, (getSyncSlot_succ tp j).symm, t, ht, hlt, fun hstill => ⟨(hidle hstill).1, ?_⟩⟩, hS⟩
      rw [List.take_add_one, List.getElem?_eq_getElem hlt, Option.toList_some]
      intro s hs
      rcases List.mem_append.mp hs with hs | hs
      · exact (hidle hstill).2 s hs
      · rw [List.mem_singleton.mp hs]
        exact hne
    · rw [hfired] at hvisit
      cases hvisit
      have htake : (tps.set i t').take i = tps.take i := List.take_set_of_le (Nat.le_refl i)
      have hset : (tps.set i t')[i]? = some t' := List.getElem?_set_self (List.getElem?_eq_some_iff.mp ht).1
      refine ⟨tps.set i t', H'.moved rfl, ⟨?_, (getSyncSlot_succ tp j).symm, t', hset, by omega, ?_⟩, fun _ => .inl hstill⟩
      · rw [address, htake]
        exact haddress
      · intro h0
        rw [hstill] at h0
        cases h0
  · rw [if_neg hlt] at hst
    cases hst
    have hi := (List.getElem?_eq_some_iff.mp ht).1
    refine ⟨tps, E.heap.moved rfl, ⟨E.heap.next hfits ht haddress, hi, fun hstill => ?_⟩, hS⟩
    obtain ⟨hbefore, hslots⟩ := hidle hstill
    rw [List.take_of_length_le (by omega)] at hslots
    rw [List.take_add_one, ht, Option.toList_some]
    intro u hu
    rcases List.mem_append.mp hu with hu | hu
    · exact hbefore u hu
    · rw [List.mem_singleton.mp hu]
      exact hslots

/-- The construction. -/
theorem Executes.create (hB : P.Balanced) {p : Word} (E : Executes P n c tps) {x : Invocation} (hx : P.Invoked x)
    (hfits : P.Fits c'.created) (hmetadata : metadataCtor P.tps h.q.mem p = some x.1)
    (hexec : userInitCtorExec P.tps h.q.mem p = some x)
    (hst : P.consumerStep core newMetadata finalSignal h c = some (h', c')) (hpc : c.pc = .create p) :
    ∃ tps', Executes P n c' tps' := by
  simp only [Program.consumerStep, hpc, Option.map_eq_some_iff] at hst
  obtain ⟨c₁, hc, he⟩ := hst
  cases he
  have hcreated := (createTp_created hexec hc).1
  rw [hcreated] at hfits
  obtain ⟨c₂, t, σ, hc₂, H, R, hF⟩ := E.heap.create hB hx hfits hmetadata hexec core newMetadata
  rw [hc] at hc₂
  cases hc₂
  refine ⟨tps ++ [t], H.moved rfl, trivial, fun hA => ⟨t, by simp, ?_⟩⟩
  exact hF.not_idle (hB.balanced x hx) (hA x hx).1 (hA x hx).2 R

end Step

/-! ## All of them -/

variable (P) in
/-- Every consumer whose threaded procedures fit executes them. -/
def Executing (s : System) : Prop :=
  ∀ core ∈ P.consumers, P.Fits (s.consumer core).created → ∃ tps, Executes P s.created.length (s.consumer core) tps

theorem fits_append {xs ys : List Invocation} (h : P.Fits (xs ++ ys)) : P.Fits xs := by
  unfold Program.Fits Program.heapCells at h ⊢
  rw [List.map_append, List.sum_append] at h
  omega

theorem Executing.step (hB : P.Balanced) {s s' : System} {op : PseudoRuntime.Op} {o : Unit} (hD : Disciplined P s)
    (hM : Made P s) (hE : Executing P s) (hdrain : ¬ P.Drains s op) (hst : P.step s op = some (o, s')) :
    Executing P s' := by
  cases op with
  | consumer core newMetadata =>
    obtain ⟨hcore, h', c', hc, rfl⟩ := consumer_step hst
    have hat := hD.at' core hcore
    intro other hother hfits
    have hlen : s.created.length ≤ (s.created ++ (c'.created.drop (s.consumer core).created.length).map (core, ·)).length := by
      rw [List.length_append]
      omega
    by_cases he : other = core
    · subst he
      simp only [Function.update_self] at hfits ⊢
      suffices hstep : ∃ tps, Executes P s.created.length c' tps by
        obtain ⟨tps, E⟩ := hstep
        exact ⟨tps, E.heap, E.position, fun hA => (E.settles hA).mono hlen⟩
      by_cases hcreate : ∃ p, (s.consumer other).pc = .create p
      · obtain ⟨p, hpc⟩ := hcreate
        obtain ⟨D, args, hmem, -, hmetadata, hexec⟩ := hD.oldest hcore hpc
        have hfits₀ : P.Fits (s.consumer other).created := by
          have hc₀ := hc
          simp only [Program.consumerStep, hpc, Option.map_eq_some_iff] at hc₀
          obtain ⟨c₁, hc₁, he⟩ := hc₀
          cases he
          exact fits_append ((createTp_created hexec hc₁).1 ▸ hfits)
        obtain ⟨tps, E⟩ := hE other hcore hfits₀
        exact E.create hB (x := (D, args.fields)) ⟨hmem, args, rfl⟩ hfits hmetadata hexec hc hpc
      · have hne : ∀ p, (s.consumer other).pc ≠ .create p := fun p hp => hcreate ⟨p, hp⟩
        rw [(consumer_created hc hne).1] at hfits
        obtain ⟨tps, E⟩ := hE other hcore hfits
        have hpeek : (s.consumer other).pc = .peek →
            peakTopElement P.queue other s.queue.q = (.successOp, some s.queue.q.headAddress) := by
          intro hpc
          rw [hpc] at hat
          exact peak_eq hat.1 hat.2
        have hlook : (s.consumer other).pc = .look → isTpClosureQueueEmpty s.queue.q = true →
            s.queue.pushed.length ≤ s.created.length := by
          intro _ hempty
          rw [isTpClosureQueueEmpty_iff hD.stored.lays, Hist.left_eq_nil hD.stored.count] at hempty
          rw [← hempty]
          exact hM.length.1
        cases hpc : (s.consumer other).pc with
        | tps i tp => exact ⟨tps, E.nextTp hc hpc⟩
        | slots i tp j slot => exact E.nextSlot hB hfits hc hpc
        | create p => exact absurd hpc (hne p)
        | stopped =>
          simp only [Program.consumerStep, hpc] at hc
          cases hc
        | _ => exact ⟨tps, E.calls hc hpeek hlook (by simp [hpc])⟩
    · simp only [Function.update_of_ne he] at hfits ⊢
      obtain ⟨tps, E⟩ := hE other hother hfits
      exact ⟨tps, E.heap, E.position, fun hA => (E.settles hA).mono hlen⟩
  | push core D args =>
    obtain ⟨-, -, -, he⟩ := push_step hD.stored hst
    rw [he]
    exact hE
  | finish =>
    cases hst
    exact hE

theorem Executing.of_reachable (hB : P.Balanced) {s : System} (h : P.Reachable s) :
    Executing P s := by
  have hall : (Disciplined P s ∧ Made P s) ∧ Executing P s := by
    refine Reach.inv (fun s => (Disciplined P s ∧ Made P s) ∧ Executing P s) ?_ ?_ h
    · intro s hs
      obtain ⟨q, mem, rfl⟩ := hs
      exact ⟨⟨.start q mem, .start q mem⟩, fun core _ _ => ⟨[], .start _ (mem core)⟩⟩
    · intro s s' hI hst
      obtain ⟨⟨hD, hM⟩, hE⟩ := hI
      obtain ⟨op, o, hdrain, hst⟩ := hst
      exact ⟨⟨hD.step hdrain hst, hM.step hD hdrain hst⟩, hE.step hB hD hM hdrain hst⟩
  exact hall.2

/-- The walk over the heap executes: in every reachable state, the log of each threaded
    procedure of a consumer is one of its graph, in which each codelet is fired at most once, and none before
    all decrements of its slot. -/
theorem codelets_in_order (hB : P.Balanced) {s : System} (h : P.Reachable s) {core : Word} (hcore : core ∈ P.consumers)
    (hfits : P.Fits (s.consumer core).created) {i : Nat} {x : Invocation} (hx : (s.consumer core).created[i]? = some x) :
    ∃ A, (s.consumer core).log i = A.map eventOf ∧ Safe (P.graph (P.init x)) A := by
  obtain ⟨tps, E⟩ := Executing.of_reachable hB h core hcore hfits
  have hi : i < tps.length := by
    rw [E.heap.length]
    exact (List.getElem?_eq_some_iff.mp hx).1
  obtain ⟨σ, R⟩ := E.heap.runs i x _ hx (List.getElem?_eq_getElem hi)
  have hx' : P.Invoked x := E.heap.invoked x (List.mem_of_getElem? hx)
  exact ⟨σ.history, R.log, R.reachable.safe (hB.balanced x hx')⟩

theorem balanced_test : testProgram.Balanced where
  balanced := by
    have h : ∀ D ∈ testProgram.tps, (testProgram.graph (testInit D)).Balanced := by
      unfold Graph.Balanced
      decide
    exact fun x hx => h x.1 hx.1
  resetDep := by
    have h : ∀ D ∈ testProgram.tps, ∀ A ∈ (testInit D).slots, A.resetDep ≠ 0 := by decide
    exact fun x hx => h x.1 hx.1

theorem fits_test : testProgram.Fits [(complexTp, complexArgs.fields)] := by
  unfold Program.Fits
  decide

/-- The codelets of `complex_tp`. -/
theorem codelets_in_order_test : ∃ s, testProgram.Reachable s ∧ ∃ A, (s.consumer 0x808).log 0 = A.map eventOf ∧
    Safe (testProgram.graph (testProgram.init (complexTp, complexArgs.fields))) A := by
  obtain ⟨s, h, hcreated, -⟩ := reachable_test
  have hfits : testProgram.Fits (s.consumer 0x808).created := hcreated ▸ fits_test
  exact ⟨s, h, codelets_in_order balanced_test h (by decide) hfits (by rw [hcreated]; rfl)⟩

/-- A consumer that has left the loop leaves nothing behind: it has fired every codelet of its threaded
    procedures, once and in order; and every closure pushed before it last looked into
    the queue has been made a threaded procedure, its own or another consumer's. -/
theorem nothing_left_behind (hB : P.Balanced) (hA : P.Acyclic) {s : System} (h : P.Reachable s) {core : Word}
    (hcore : core ∈ P.consumers) (hfits : P.Fits (s.consumer core).created) (hstopped : (s.consumer core).pc = .stopped) :
    (∀ (i : Nat) (x : Invocation), (s.consumer core).created[i]? = some x → ∃ A, (s.consumer core).log i = A.map eventOf ∧
      Safe (P.graph (P.init x)) A ∧ Complete (P.graph (P.init x)) A) ∧ (s.consumer core).seen ≤ s.created.length := by
  obtain ⟨tps, E⟩ := Executing.of_reachable hB h core hcore hfits
  have hP := E.position
  have hS := E.settles hA
  simp only [Position, Settles, hstopped] at hP hS
  refine ⟨fun i x hx => ?_, hS⟩
  have hi : i < tps.length := by
    rw [E.heap.length]
    exact (List.getElem?_eq_some_iff.mp hx).1
  obtain ⟨σ, R⟩ := E.heap.runs i x _ hx (List.getElem?_eq_getElem hi)
  have hx' : P.Invoked x := E.heap.invoked x (List.mem_of_getElem? hx)
  exact ⟨σ.history, R.log, R.reachable.safe (hB.balanced x hx'),
    R.complete (hB.balanced x hx') (hA x hx').1 (hP _ (List.getElem_mem hi))⟩

/-- The ranks of the slots: `print_codelet` waits for `mult_c_and_d_to_c`, which waits for the additions. -/
def testRank (D : TpDefinition) (n : Nat) : Nat :=
  if D = complexTp then (if n = 0 then 2 else if n = 3 then 1 else 0) else 0

theorem acyclic_test : testProgram.Acyclic := by
  have h : ∀ D ∈ testProgram.tps, (∀ p, ∀ q ∈ (testProgram.graph (testInit D)).succ p, testRank D p < testRank D q) ∧
      (testInit D).slots ≠ [] := by decide
  exact fun x hx => ⟨⟨fun p => testRank x.1 p, (h x.1 hx.1).1⟩, (h x.1 hx.1).2⟩

theorem nothing_left_behind_test : ∃ s, testProgram.Reachable s ∧
    (∀ (i : Nat) (x : Invocation), (s.consumer 0x808).created[i]? = some x → ∃ A, (s.consumer 0x808).log i = A.map eventOf ∧
      Safe (testProgram.graph (testProgram.init x)) A ∧ Complete (testProgram.graph (testProgram.init x)) A) ∧
        (s.consumer 0x808).seen ≤ s.created.length := by
  obtain ⟨s, h, hcreated, hstopped⟩ := reachable_test
  have hfits : testProgram.Fits (s.consumer 0x808).created := hcreated ▸ fits_test
  exact ⟨s, h, nothing_left_behind balanced_test acyclic_test h (by decide) hfits hstopped⟩

end EDarts.PseudoRuntime
