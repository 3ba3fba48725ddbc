/-
  EDarts.Runtime.PseudoRuntimeQueue — the consumers of the pseudo runtime on their queue (see
  `EDarts.Runtime.PseudoRuntime`).

  From its `ownTpClosureQueue` that succeeds to its `disownTpClosureQueue` a consumer is the
  owner of the queue, and no other one changes it; cores that push do not touch the head. So
  what a consumer has seen is still so when it acts on it (`AtQueue`).

  - `Disciplined.step`: every step without a drain at the end keeps that, for all consumers.
  - `created_in_order`: in every reachable state the threaded procedures made are those of the
    oldest closures pushed, in order: each by one consumer, with the arguments it was pushed
    with, and none of them lost or made twice.
-/

import EDarts.Runtime.PseudoRuntimeHeap

namespace EDarts.PseudoRuntime

open Lib Assets TpClosuresQueue TpClosure ThreadedProcedure

variable {P : Program}

/-! ## One consumer -/

/-- What a consumer knows of the queue. -/
def AtQueue (h : Hist) (core : Word) : Pc → Prop
  | .look | .disown => h.q.queueOwner = core
  | .peek => h.q.queueOwner = core ∧ isTpClosureQueueEmpty h.q = false
  | .create p => h.q.queueOwner = core ∧ h.peaked = true ∧ p = h.q.headAddress
  | .pop => h.q.queueOwner = core ∧ h.peaked = true
  | _ => True

/-- Of the queue, when a core has pushed. -/
structure Pushed (g : GenericTpClosure) (h h' : Hist) : Prop where
  owner : h'.q.queueOwner = h.q.queueOwner
  head : h'.q.headAddress = h.q.headAddress
  peaked : h'.peaked = h.peaked
  popped : h'.popped = h.popped
  pushed : h'.pushed = h.pushed ∨ h'.pushed = h.pushed ++ [g]

theorem pushed_of_step {queue core : Word} {N : Nat} (S : Space queue N) {h h' : Hist} {g : GenericTpClosure} {o : Out}
    (H : Stored queue N h) (hst : histStep queue h (.push core g) = some (o, h')) : Pushed g h h' := by
  rw [histStep, TpClosuresQueue.step, push_free core g S.valid H.lays.free] at hst
  split at hst
  · cases hst
    exact ⟨rfl, rfl, rfl, rfl, .inl rfl⟩
  · cases hst
    have hinsert : (TpClosuresQueue.insert queue g h.q).queueOwner = h.q.queueOwner ∧
        (TpClosuresQueue.insert queue g h.q).headAddress = h.q.headAddress := by
      simp only [TpClosuresQueue.insert]
      split
      · exact ⟨rfl, rfl⟩
      · split <;> exact ⟨rfl, rfl⟩
    exact ⟨hinsert.1, hinsert.2, rfl, rfl, .inr rfl⟩

theorem removeTop_owner (queue : Word) (q : TpClosuresQueue) : (removeTop queue q).queueOwner = q.queueOwner := by
  have hpass : (passTop queue q).queueOwner = q.queueOwner := by
    simp only [passTop]
    split <;> rfl
  rw [removeTop, restart]
  split <;> exact hpass

/-- The owner's peak of a queue that does not look empty. -/
theorem peak_eq {h : Hist} {core : Word} (howner : h.q.queueOwner = core) (hempty : isTpClosureQueueEmpty h.q = false) :
    peakTopElement P.queue core h.q = (.successOp, some h.q.headAddress) := by
  simp [peakTopElement, P.space.valid, howner, hempty]

variable (P) in
/-- What a step of a consumer does to the queue. -/
structure QueueStep (core : Word) (h h' : Hist) (pc pc' : Pc) : Prop where
  stored : Stored P.queue P.newSize.toNat h'
  at' : AtQueue h' core pc'
  pushed : h'.pushed = h.pushed
  popped : h'.popped = if pc = .pop then h.popped + 1 else h.popped
  /-- Nothing, while another core owns the queue. -/
  others : h.q.queueOwner ≠ 0 → h.q.queueOwner ≠ core → h' = h

theorem consumer_queue {core : Word} {newMetadata : TpMetadata} {finalSignal : Bool} {h h' : Hist} {c c' : Consumer}
    (H : Stored P.queue P.newSize.toNat h) (hat : AtQueue h core c.pc)
    (hdrain : ¬ (c.pc = .pop ∧ DrainsAtEnd P.queue h.q))
    (hst : P.consumerStep core newMetadata finalSignal h c = some (h', c')) : QueueStep P core h h' c.pc c'.pc := by
  have hvalid := P.space.valid
  have hfree := H.lays.free
  cases hpc : c.pc with
  | test =>
    simp only [Program.consumerStep, hpc] at hst
    split at hst <;> cases hst <;> exact ⟨H, trivial, rfl, rfl, fun _ _ => rfl⟩
  | own =>
    simp only [Program.consumerStep, hpc, histStep, TpClosuresQueue.step, own_free core hvalid hfree, Option.map_some] at hst
    by_cases howner : h.q.queueOwner ≠ 0
    · simp only [howner, if_true, ne_eq, not_false_eq_true] at hst
      cases hst
      exact ⟨H, trivial, rfl, rfl, fun _ _ => rfl⟩
    · simp only [howner, if_false] at hst
      cases hst
      exact ⟨⟨H.lays.owner core, H.count, H.peaked⟩, rfl, rfl, rfl, fun h0 => absurd h0 howner⟩
  | look =>
    rw [hpc] at hat
    simp only [Program.consumerStep, hpc] at hst
    cases hst
    cases hempty : isTpClosureQueueEmpty h.q with
    | true => exact ⟨H, hat, rfl, rfl, fun _ _ => rfl⟩
    | false => exact ⟨H, ⟨hat, hempty⟩, rfl, rfl, fun _ _ => rfl⟩
  | peek =>
    rw [hpc] at hat
    obtain ⟨howner, hempty⟩ := hat
    have hpeak := peak_eq (P := P) howner hempty
    have hne : h.left ≠ [] := by
      intro hleft
      rw [(isTpClosureQueueEmpty_iff H.lays).mpr hleft] at hempty
      cases hempty
    simp only [Program.consumerStep, hpc, histStep, TpClosuresQueue.step, hpeak, Option.map_some] at hst
    cases hst
    exact ⟨⟨H.lays, H.count, fun _ => hne⟩, ⟨howner, rfl, rfl⟩, rfl, rfl, fun _ hother => absurd howner hother⟩
  | create p =>
    rw [hpc] at hat
    simp only [Program.consumerStep, hpc, Option.map_eq_some_iff] at hst
    obtain ⟨c₁, -, hst⟩ := hst
    cases hst
    exact ⟨H, ⟨hat.1, hat.2.1⟩, rfl, rfl, fun _ _ => rfl⟩
  | pop =>
    rw [hpc] at hat
    obtain ⟨howner, hpeaked⟩ := hat
    have hne := H.peaked hpeaked
    have hempty : isTpClosureQueueEmpty h.q = false := by
      rw [← Bool.not_eq_true, isTpClosureQueueEmpty_iff H.lays]
      exact hne
    have hd : ¬ TpClosuresQueue.Drains P.queue h.q (.pop core) := fun h => hdrain ⟨hpc, h⟩
    have hallowed : Allowed h.q h.peaked (.pop core) := ⟨howner, hpeaked⟩
    obtain ⟨o, h₁, hst₁, H₁⟩ := H.step P.space hallowed hd
    simp only [Program.consumerStep, hpc, hst₁, Option.map_some] at hst
    cases hst
    rw [histStep, TpClosuresQueue.step, popTopElementQueue, popWith_free _ hvalid hfree howner hempty] at hst₁
    cases hst₁
    exact ⟨H₁, (removeTop_owner _ _).trans howner, rfl, rfl, fun _ hother => absurd howner hother⟩
  | disown =>
    rw [hpc] at hat
    have howner : h.q.queueOwner = core := hat
    simp only [Program.consumerStep, hpc, histStep, TpClosuresQueue.step, disownTpClosureQueue, hvalid, howner, ne_eq,
      not_true_eq_false, if_false, Option.map_some] at hst
    cases hst
    exact ⟨⟨H.lays.owner 0, H.count, H.peaked⟩, trivial, rfl, rfl, fun _ hother => absurd howner hother⟩
  | tps i currentTp =>
    simp only [Program.consumerStep, hpc] at hst
    cases hst
    refine ⟨H, ?_, rfl, rfl, fun _ _ => rfl⟩
    simp only
    split <;> trivial
  | slots i currentTp j currentSyncSlot =>
    simp only [Program.consumerStep, hpc] at hst
    split at hst
    · obtain ⟨c₁, -, hst⟩ := Option.map_eq_some_iff.mp hst
      cases hst
      exact ⟨H, trivial, rfl, rfl, fun _ _ => rfl⟩
    · cases hst
      exact ⟨H, trivial, rfl, rfl, fun _ _ => rfl⟩
  | stopped =>
    simp only [Program.consumerStep, hpc] at hst
    cases hst

/-! ## All of them -/

variable (P) in
structure Disciplined (s : System) : Prop where
  stored : Stored P.queue P.newSize.toNat s.queue
  closures : ∀ g ∈ s.queue.pushed, ∃ D ∈ P.tps, ∃ args, g = closure D args
  at' : ∀ core ∈ P.consumers, AtQueue s.queue core (s.consumer core).pc

/-- What a consumer knows survives the pushes of others. -/
theorem AtQueue.push {h h' : Hist} {g : GenericTpClosure} {core : Word} {pc : Pc} (hat : AtQueue h core pc)
    (H : Stored P.queue P.newSize.toNat h) (H' : Stored P.queue P.newSize.toNat h') (hp : Pushed g h h') :
    AtQueue h' core pc := by
  cases pc with
  | look => exact hp.owner.trans hat
  | disown => exact hp.owner.trans hat
  | peek =>
    obtain ⟨howner, hempty⟩ := hat
    refine ⟨hp.owner.trans howner, ?_⟩
    rw [← Bool.not_eq_true, isTpClosureQueueEmpty_iff H'.lays, Hist.left_eq_nil H'.count, hp.popped]
    rw [← Bool.not_eq_true, isTpClosureQueueEmpty_iff H.lays, Hist.left_eq_nil H.count] at hempty
    have hcount := H.count
    rcases hp.pushed with hpushed | hpushed
    · rw [hpushed]
      exact hempty
    · rw [hpushed, List.length_append, List.length_singleton]
      omega
  | create p =>
    obtain ⟨howner, hpeaked, rfl⟩ := hat
    exact ⟨hp.owner.trans howner, hp.peaked.trans hpeaked, hp.head.symm⟩
  | pop => exact ⟨hp.owner.trans hat.1, hp.peaked.trans hat.2⟩
  | test => trivial
  | own => trivial
  | tps i tp => trivial
  | slots i tp j slot => trivial
  | stopped => trivial

/-- Only the owner is between its own and its disown. -/
theorem AtQueue.owner {h : Hist} {core : Word} {pc : Pc} (hat : AtQueue h core pc) :
    h.q.queueOwner = core ∨ ∀ h', AtQueue h' core pc := by
  cases pc with
  | look => exact .inl hat
  | disown => exact .inl hat
  | peek => exact .inl hat.1
  | create p => exact .inl hat.1
  | pop => exact .inl hat.1
  | test => exact .inr fun _ => trivial
  | own => exact .inr fun _ => trivial
  | tps i tp => exact .inr fun _ => trivial
  | slots i tp j slot => exact .inr fun _ => trivial
  | stopped => exact .inr fun _ => trivial

theorem Disciplined.start (q : TpClosuresQueue) (mem : Word → Memory) : Disciplined P (P.start q mem) where
  stored := .start P.space rfl q
  closures := fun _ h => absurd h List.not_mem_nil
  at' := fun _ _ => trivial

/-- A step of a consumer, as the system takes it. -/
theorem consumer_step {s s' : System} {core : Word} {newMetadata : TpMetadata} {o : Unit}
    (hst : P.step s (.consumer core newMetadata) = some (o, s')) :
    core ∈ P.consumers ∧ ∃ h' c', P.consumerStep core newMetadata s.finalSignal s.queue (s.consumer core) = some (h', c') ∧
      s' = { s with
        queue := h'
        consumer := Function.update s.consumer core c'
        created := s.created ++ (c'.created.drop (s.consumer core).created.length).map (core, ·) } := by
  rw [Program.step] at hst
  split at hst
  · obtain ⟨⟨h', c'⟩, hc, he⟩ := Option.map_eq_some_iff.mp hst
    cases he
    exact ⟨‹_›, h', c', hc, rfl⟩
  · cases hst

theorem push_step {s s' : System} {core : Word} {D : TpDefinition} {args : Args D.argTypes} {o : Unit}
    (H : Stored P.queue P.newSize.toNat s.queue) (hst : P.step s (.push core D args) = some (o, s')) :
    D ∈ P.tps ∧ Stored P.queue P.newSize.toNat s'.queue ∧ Pushed (closure D args) s.queue s'.queue ∧
      s' = { s with queue := s'.queue } := by
  rw [Program.step] at hst
  split at hst
  · obtain ⟨⟨o', h'⟩, hc, he⟩ := Option.map_eq_some_iff.mp hst
    cases he
    have hallowed : Allowed s.queue.q s.queue.peaked (.push core (closure D args)) := by
      have hsmall := D.small
      show 12 + (BitVec.ofNat 32 D.argTypes.sum).toNat < 2 ^ 32
      rw [BitVec.toNat_ofNat, Nat.mod_eq_of_lt (by omega)]
      exact hsmall
    obtain ⟨o₁, h₁, hst₁, H₁⟩ := H.step P.space hallowed (fun h => h)
    rw [hc] at hst₁
    cases hst₁
    exact ⟨‹_›, H₁, pushed_of_step P.space H hc, rfl⟩
  · cases hst

theorem Disciplined.step {s s' : System} {op : PseudoRuntime.Op} {o : Unit} (hD : Disciplined P s)
    (hdrain : ¬ P.Drains s op) (hst : P.step s op = some (o, s')) : Disciplined P s' := by
  cases op with
  | consumer core newMetadata =>
    obtain ⟨hcore, h', c', hc, rfl⟩ := consumer_step hst
    have hq := consumer_queue hD.stored (hD.at' core hcore) hdrain hc
    refine ⟨hq.stored, ?_, fun other hother => ?_⟩
    · show ∀ g ∈ h'.pushed, _
      rw [hq.pushed]
      exact hD.closures
    · show AtQueue h' other (Function.update s.consumer core c' other).pc
      by_cases he : other = core
      · subst he
        rw [Function.update_self]
        exact hq.at'
      · rw [Function.update_of_ne he]
        have hat := hD.at' other hother
        rcases hat.owner with howner | hall
        · rw [hq.others (by rw [howner]; exact P.consumers_ne_zero other hother) (by rw [howner]; exact he)]
          exact hat
        · exact hall h'
  | push core D args =>
    obtain ⟨hmem, hstored, hp, he⟩ := push_step hD.stored hst
    refine ⟨hstored, fun g hg => ?_, fun other hother => ?_⟩
    · rcases hp.pushed with hpushed | hpushed
      · exact hD.closures g (hpushed ▸ hg)
      · rw [hpushed] at hg
        rcases List.mem_append.mp hg with hg | hg
        · exact hD.closures g hg
        · exact ⟨D, hmem, args, List.mem_singleton.mp hg⟩
    · have hpc : (s'.consumer other).pc = (s.consumer other).pc := by rw [he]
      rw [hpc]
      exact (hD.at' other hother).push hD.stored hstored hp
  | finish =>
    cases hst
    exact ⟨hD.stored, hD.closures, hD.at'⟩

/-! ## What is made of the closures -/

/-- The consumer finds the threaded procedure of the oldest closure, and its arguments. -/
theorem Disciplined.oldest {s : System} (hD : Disciplined P s) {core p : Word} (hcore : core ∈ P.consumers)
    (hpc : (s.consumer core).pc = .create p) :
    ∃ D args, D ∈ P.tps ∧ s.queue.pushed[s.queue.popped]? = some (closure D args) ∧
      metadataCtor P.tps s.queue.q.mem p = some D ∧
      userInitCtorExec P.tps s.queue.q.mem p = some (D, args.fields) := by
  have hat := hD.at' core hcore
  rw [hpc] at hat
  obtain ⟨-, hpeaked, rfl⟩ := hat
  have hlays := hD.stored.lays
  cases hleft : s.queue.left with
  | nil => exact absurd hleft (hD.stored.peaked hpeaked)
  | cons g rest =>
    rw [hleft] at hlays
    have hg : s.queue.pushed[s.queue.popped]? = some g := by
      rw [← List.head?_drop, ← Hist.left, hleft]
      rfl
    obtain ⟨D, hmem, args, rfl⟩ := hD.closures g (List.mem_of_getElem? hg)
    have hblock := hlays.top.1
    exact ⟨D, args, hmem, hg, metadataCtor_closure P.metadataCtors hmem hblock,
      userInitCtorExec_closure P.closureExecs hmem hblock⟩

/-- A step that neither makes a threaded procedure nor visits a slot. -/
theorem consumer_moves {core : Word} {newMetadata : TpMetadata} {finalSignal : Bool} {h h' : Hist} {c c' : Consumer}
    (hst : P.consumerStep core newMetadata finalSignal h c = some (h', c')) (hcreate : ∀ p, c.pc ≠ .create p)
    (hslots : ∀ i tp j slot, c.pc ≠ .slots i tp j slot) :
    c' = { c with pc := c'.pc, stillExecuting := c'.stillExecuting, seen := c'.seen } ∧ c'.pc ≠ .pop := by
  cases hpc : c.pc with
  | test =>
    simp only [Program.consumerStep, hpc] at hst
    split at hst <;> cases hst <;> exact ⟨rfl, by simp⟩
  | own =>
    simp only [Program.consumerStep, hpc, Option.map_eq_some_iff] at hst
    obtain ⟨r, -, hst⟩ := hst
    cases hst
    refine ⟨rfl, ?_⟩
    simp only
    split <;> simp
  | look =>
    simp only [Program.consumerStep, hpc] at hst
    cases hst
    refine ⟨rfl, ?_⟩
    simp only
    split <;> simp
  | peek =>
    simp only [Program.consumerStep, hpc, Option.map_eq_some_iff] at hst
    obtain ⟨r, -, hst⟩ := hst
    split at hst <;> cases hst <;> exact ⟨rfl, by simp⟩
  | create p => exact absurd hpc (hcreate p)
  | pop =>
    simp only [Program.consumerStep, hpc, Option.map_eq_some_iff] at hst
    obtain ⟨r, -, hst⟩ := hst
    cases hst
    exact ⟨rfl, by simp⟩
  | disown =>
    simp only [Program.consumerStep, hpc, Option.map_eq_some_iff] at hst
    obtain ⟨r, -, hst⟩ := hst
    cases hst
    refine ⟨rfl, ?_⟩
    simp only
    split <;> simp
  | tps i currentTp =>
    simp only [Program.consumerStep, hpc] at hst
    cases hst
    refine ⟨rfl, ?_⟩
    simp only
    split <;> simp
  | slots i currentTp j currentSyncSlot => exact absurd hpc (hslots i currentTp j currentSyncSlot)
  | stopped =>
    simp only [Program.consumerStep, hpc] at hst
    cases hst

/-- Of the steps of a consumer the construction alone makes a threaded procedure. -/
theorem consumer_created {core : Word} {newMetadata : TpMetadata} {finalSignal : Bool} {h h' : Hist} {c c' : Consumer}
    (hst : P.consumerStep core newMetadata finalSignal h c = some (h', c')) (hcreate : ∀ p, c.pc ≠ .create p) :
    c'.created = c.created ∧ c'.pc ≠ .pop := by
  cases hpc : c.pc with
  | slots i currentTp j currentSyncSlot =>
    simp only [Program.consumerStep, hpc] at hst
    split at hst
    · obtain ⟨c₁, hc, hst⟩ := Option.map_eq_some_iff.mp hst
      cases hst
      rw [(visit_keeps hc).rest]
      exact ⟨rfl, by simp⟩
    · cases hst
      exact ⟨rfl, by simp⟩
  | _ =>
    obtain ⟨he, hpop⟩ := consumer_moves hst hcreate (by simp [hpc])
    exact ⟨by rw [he], hpop⟩

/-- The closure is one of this threaded procedure, with these arguments. -/
def ClosureOf (x : Invocation) (g : GenericTpClosure) : Prop :=
  ∃ args : Args x.1.argTypes, args.fields = x.2 ∧ g = closure x.1 args

variable (P) in
/-- The threaded procedures made are those of the oldest closures. -/
structure Made (s : System) : Prop where
  closures : ∀ (k : Nat) (y : Word × Invocation), s.created[k]? = some y → y.1 ∈ P.consumers ∧ y.2.1 ∈ P.tps ∧
    ∃ g, s.queue.pushed[k]? = some g ∧ ClosureOf y.2 g
  consumers : ∀ core ∈ P.consumers, (s.consumer core).created = (s.created.filter (·.1 = core)).map Prod.snd
  popping : ∀ core ∈ P.consumers, (s.consumer core).pc = .pop → s.created.length = s.queue.popped + 1
  popped : (∀ core ∈ P.consumers, (s.consumer core).pc ≠ .pop) → s.created.length = s.queue.popped

theorem Made.start (q : TpClosuresQueue) (mem : Word → Memory) : Made P (P.start q mem) where
  closures := fun _ _ h => by cases h
  consumers := fun _ _ => rfl
  popping := fun _ _ h => by cases h
  popped := fun _ => rfl

/-- While one consumer is between its own and its disown, no other one is at its pop. -/
theorem Disciplined.not_pop {s : System} (hD : Disciplined P s) {core other : Word} (hother : other ∈ P.consumers)
    (hne : other ≠ core) (howner : s.queue.q.queueOwner = core) : (s.consumer other).pc ≠ .pop := by
  intro hpop
  have hat := hD.at' other hother
  rw [hpop] at hat
  exact hne (hat.1.symm.trans howner)

theorem Made.create {s : System} (hD : Disciplined P s) (hM : Made P s) {core p : Word} (hcore : core ∈ P.consumers)
    (hpc : (s.consumer core).pc = .create p) {h' : Hist} {c' : Consumer} (hh' : h' = s.queue) (hpop : c'.pc = .pop)
    {x : Invocation} (hx : x.1 ∈ P.tps) {g : GenericTpClosure} (hg : s.queue.pushed[s.queue.popped]? = some g)
    (hof : ClosureOf x g) (hcreated : c'.created = (s.consumer core).created ++ [x]) :
    Made P { s with
      queue := h'
      consumer := Function.update s.consumer core c'
      created := s.created ++ (c'.created.drop (s.consumer core).created.length).map (core, ·) } := by
  subst hh'
  have hat := hD.at' core hcore
  rw [hpc] at hat
  have hlen : s.created.length = s.queue.popped := by
    refine hM.popped fun other hother => ?_
    by_cases he : other = core
    · rw [he, hpc]
      simp
    · exact hD.not_pop hother he hat.1
  have hnew : (c'.created.drop (s.consumer core).created.length).map (core, ·) = [(core, x)] := by
    rw [hcreated, List.drop_left]
    rfl
  rw [hnew]
  refine ⟨fun k y hy => ?_, fun other hother => ?_, fun _ _ _ => ?_, fun hnone => ?_⟩
  · rcases Nat.lt_trichotomy k s.created.length with hk | rfl | hk
    · rw [List.getElem?_append_left hk] at hy
      exact hM.closures k y hy
    · rw [List.getElem?_concat_length] at hy
      cases hy
      rw [hlen]
      exact ⟨hcore, hx, g, hg, hof⟩
    · rw [List.getElem?_eq_none (by rw [List.length_append, List.length_singleton]; omega)] at hy
      cases hy
  · have hold := hM.consumers other hother
    by_cases he : other = core
    · subst he
      simp [hcreated, hold]
    · simp [he, Ne.symm he, hold]
  · simp only [List.length_append, List.length_singleton, hlen]
  · have hthis := hnone core hcore
    simp only [Function.update_self] at hthis
    exact absurd hpop hthis

theorem Made.step {s s' : System} {op : PseudoRuntime.Op} {o : Unit} (hD : Disciplined P s) (hM : Made P s)
    (hdrain : ¬ P.Drains s op) (hst : P.step s op = some (o, s')) : Made P s' := by
  cases op with
  | consumer core newMetadata =>
    obtain ⟨hcore, h', c', hc, rfl⟩ := consumer_step hst
    have hat := hD.at' core hcore
    have hq := consumer_queue hD.stored hat hdrain hc
    by_cases hcreate : ∃ p, (s.consumer core).pc = .create p
    · obtain ⟨p, hpc⟩ := hcreate
      obtain ⟨D, args, hmem, hg, -, hexec⟩ := hD.oldest hcore hpc
      simp only [Program.consumerStep, hpc, Option.map_eq_some_iff] at hc
      obtain ⟨c₁, hc₁, he⟩ := hc
      cases he
      exact hM.create (x := (D, args.fields)) hD hcore hpc rfl rfl hmem hg ⟨args, rfl, rfl⟩ (createTp_created hexec hc₁).1
    · obtain ⟨hcreated, hpop'⟩ := consumer_created hc fun p hp => hcreate ⟨p, hp⟩
      have hnew : s.created ++ (c'.created.drop (s.consumer core).created.length).map (core, ·) = s.created := by
        rw [hcreated, List.drop_length, List.map_nil, List.append_nil]
      rw [hnew]
      have hconsumers : ∀ other, (Function.update s.consumer core c' other).created = (s.consumer other).created := by
        intro other
        by_cases he : other = core
        · rw [he, Function.update_self, hcreated]
        · rw [Function.update_of_ne he]
      have hpcs : ∀ other, (Function.update s.consumer core c' other).pc = .pop → other ≠ core ∧ (s.consumer other).pc = .pop := by
        intro other hother
        by_cases he : other = core
        · rw [he, Function.update_self] at hother
          exact absurd hother hpop'
        · rw [Function.update_of_ne he] at hother
          exact ⟨he, hother⟩
      refine ⟨fun k y hy => ?_, fun other hother => (hconsumers other).trans (hM.consumers other hother), ?_, ?_⟩
      · show y.1 ∈ P.consumers ∧ y.2.1 ∈ P.tps ∧ ∃ g, h'.pushed[k]? = some g ∧ ClosureOf y.2 g
        rw [hq.pushed]
        exact hM.closures k y hy
      · intro other hother hpc
        obtain ⟨hne, hpc⟩ := hpcs other hpc
        have hlen := hM.popping other hother hpc
        show s.created.length = h'.popped + 1
        rw [hq.popped, hlen, if_neg]
        intro hpop
        rw [hpop] at hat
        exact hD.not_pop hother hne hat.1 hpc
      · intro hnone
        show s.created.length = h'.popped
        rw [hq.popped]
        by_cases hpop : (s.consumer core).pc = .pop
        · rw [if_pos hpop]
          exact hM.popping core hcore hpop
        · rw [if_neg hpop]
          refine hM.popped fun other hother hpc => ?_
          by_cases he : other = core
          · exact hpop (he ▸ hpc)
          · exact hnone other hother (by simp only [Function.update_of_ne he, hpc])
  | push core D args =>
    obtain ⟨-, -, hp, he⟩ := push_step hD.stored hst
    rw [he]
    refine ⟨fun k y hy => ?_, hM.consumers, ?_, ?_⟩
    · obtain ⟨hcore, htp, g, hg, hof⟩ := hM.closures k y hy
      refine ⟨hcore, htp, g, ?_, hof⟩
      rcases hp.pushed with hpushed | hpushed
      · exact hpushed ▸ hg
      · rw [hpushed, List.getElem?_append_left (List.getElem?_eq_some_iff.mp hg).1]
        exact hg
    · intro other hother hpc
      show s.created.length = s'.queue.popped + 1
      rw [hp.popped]
      exact hM.popping other hother hpc
    · intro hnone
      show s.created.length = s'.queue.popped
      rw [hp.popped]
      exact hM.popped hnone
  | finish =>
    cases hst
    exact ⟨hM.closures, hM.consumers, hM.popping, hM.popped⟩

theorem Made.of_reachable {s : System} (h : P.Reachable s) : Disciplined P s ∧ Made P s := by
  refine Reach.inv (fun s => Disciplined P s ∧ Made P s) ?_ ?_ h
  · intro s hs
    obtain ⟨q, mem, rfl⟩ := hs
    exact ⟨.start q mem, .start q mem⟩
  · intro s s' hI hst
    obtain ⟨hD, hM⟩ := hI
    obtain ⟨op, o, hdrain, hst⟩ := hst
    exact ⟨hD.step hdrain hst, hM.step hD hdrain hst⟩

theorem Made.length {s : System} (hM : Made P s) :
    s.queue.popped ≤ s.created.length ∧ s.created.length ≤ s.queue.popped + 1 := by
  by_cases hpop : ∃ core ∈ P.consumers, (s.consumer core).pc = .pop
  · obtain ⟨core, hcore, hpc⟩ := hpop
    rw [hM.popping core hcore hpc]
    exact ⟨Nat.le_succ _, Nat.le_refl _⟩
  · rw [hM.popped fun core hcore hpc => hpop ⟨core, hcore, hpc⟩]
    exact ⟨Nat.le_refl _, Nat.le_succ _⟩

/-- No closure is lost and none is made twice: all along a run the threaded procedures made are
    those of the closures pushed first, in order, each on the heap of one consumer and with
    the arguments of its closure; and of these closures all are popped, but for the last one
    while its consumer is about to pop it. -/
theorem created_in_order {s : System} (h : P.Reachable s) :
    (s.queue.popped ≤ s.created.length ∧ s.created.length ≤ s.queue.popped + 1) ∧
      (∀ (k : Nat) (y : Word × Invocation), s.created[k]? = some y → y.1 ∈ P.consumers ∧ y.2.1 ∈ P.tps ∧
        ∃ g, s.queue.pushed[k]? = some g ∧ ClosureOf y.2 g) ∧
      ∀ core ∈ P.consumers, (s.consumer core).created = (s.created.filter (·.1 = core)).map Prod.snd := by
  obtain ⟨-, hM⟩ := Made.of_reachable h
  exact ⟨hM.length, hM.closures, hM.consumers⟩

/-! ## The test -/

def finishTp : TpDefinition := ⟨0x2000, 0x2004, [], by decide⟩
def simpleTp : TpDefinition := ⟨0x2010, 0x2014, [], by decide⟩
def complexTp : TpDefinition := ⟨0x2020, 0x2024, [4, 4], by decide⟩

def testInit (D : TpDefinition) : Initialization :=
  if D = complexTp then
    ⟨[⟨0x3010, 1, 1, 1⟩, ⟨0x3014, 1, 1, 1⟩, ⟨0x3018, 1, 1, 1⟩, ⟨0x301C, 2, 2, 1⟩], [1, 2], by decide⟩
  else if D = simpleTp then ⟨[⟨0x3004, 1, 1, 1⟩], [0], by decide⟩
  else ⟨[⟨0x3000, 1, 1, 1⟩], [0], by decide⟩

def testCode (D : TpDefinition) : Code where
  numSyncSlots := if D = complexTp then 4 else 1
  sizeDRAM := if D = complexTp then 8 else 0
  sizeLocal := if D = complexTp then 8 else 0
  sizeDist := 0
  initialization := fun _ => testInit D
  slots_length := by
    intro _
    unfold testInit
    split
    · rfl
    · split <;> rfl

/-- `add_dram_to_c`, `add_dram_to_d` and `mult_c_and_d_to_c` signal; the others do not. -/
def testCodelets (codeletFunction : Word) : List Nat :=
  if codeletFunction = 0x3014 ∨ codeletFunction = 0x3018 then [3] else if codeletFunction = 0x301C then [0] else []

theorem space_testTpQueue : Space 0x80806060 (100 : Word).toNat := ⟨rfl, by decide⟩

/-- The threaded procedures of `e_tp_definitions.h`, with four consumers. -/
def testProgram : Program where
  queue := 0x80806060
  newSize := 100
  space := space_testTpQueue
  base0_0Address := 0x80800000
  consumers := [0x808, 0x809, 0x80A, 0x80B]
  consumers_ne_zero := by simp
  tps := [finishTp, simpleTp, complexTp]
  metadataCtors := by decide
  closureExecs := by decide
  code := testCode
  codelets := testCodelets
  codelets_lt := by
    have h : ∀ D ∈ [finishTp, simpleTp, complexTp], ∀ A ∈ (testInit D).slots, ∀ n ∈ testCodelets A.codeletFunction,
        n < (testInit D).slots.length := by decide
    exact fun D hD _ => h D hD

def testStart : System := testProgram.start ⟨0, 0, 0, 0, 0, 0, fun _ => 0⟩ (fun _ _ => 0)

def complexArgs : Args complexTp.argTypes := ⟨[[5, 0, 0, 0], [6, 0, 0, 0]], rfl⟩

/-- A core pushes `complex_tp(5, 6)`, and one consumer makes its threaded procedure and fires
    all its codelets. -/
def testOps : List PseudoRuntime.Op :=
  .push 0x849 complexTp complexArgs :: List.replicate 29 (.consumer 0x808 ⟨0, 0, 0, 0, 0, 0, 0, 0, 0, 0⟩) ++
    .finish :: List.replicate 8 (.consumer 0x808 ⟨0, 0, 0, 0, 0, 0, 0, 0, 0, 0⟩)

theorem reachable_test : ∃ s, testProgram.Reachable s ∧ (s.consumer 0x808).created = [(complexTp, complexArgs.fields)] ∧ (s.consumer 0x808).pc = .stopped := by
  have hrun : (run testProgram.step testStart testOps).map (fun r => ((r.2.consumer 0x808).created, (r.2.consumer 0x808).pc)) =
      some ([(complexTp, complexArgs.fields)], .stopped) := by decide +kernel
  have hdrain : EachStep testProgram.step (fun s op => ¬ testProgram.Drains s op) testStart testOps := by decide +kernel
  obtain ⟨r, hr, he⟩ := Option.map_eq_some_iff.mp hrun
  obtain ⟨hcreated, hpc⟩ := Prod.mk.inj he
  exact ⟨r.2, Reach.of_eachStep _ (.init ⟨_, _, rfl⟩) hdrain hr, hcreated, hpc⟩

def simpleArgs : Args simpleTp.argTypes := ⟨[], rfl⟩
def otherArgs : Args complexTp.argTypes := ⟨[[7, 0, 0, 0], [8, 0, 0, 0]], rfl⟩

/-- One step of a consumer. -/
def turn (core : Word) : PseudoRuntime.Op := .consumer core ⟨0, 0, 0, 0, 0, 0, 0, 0, 0, 0⟩

/-- Two cores push; consumer 0x809 comes while 0x808 owns the queue, and makes a threaded procedure
    of the second closure when 0x808 has popped the first, while a third is pushed. -/
def twoConsumers : List PseudoRuntime.Op :=
  [.push 0x849 complexTp complexArgs, .push 0x84A simpleTp simpleArgs] ++ List.replicate 5 (turn 0x808) ++
    List.replicate 2 (turn 0x809) ++ List.replicate 3 (turn 0x808) ++ List.replicate 3 (turn 0x809) ++
    [.push 0x84A complexTp otherArgs, turn 0x809, turn 0x808]

theorem created_in_order_test : ∃ s, testProgram.Reachable s ∧
    s.created = [(0x808, complexTp, complexArgs.fields), (0x809, simpleTp, simpleArgs.fields)] ∧ s.queue.pushed.length = 3 ∧
    (s.queue.popped ≤ s.created.length ∧ s.created.length ≤ s.queue.popped + 1) ∧
      (∀ (k : Nat) (y : Word × Invocation), s.created[k]? = some y → y.1 ∈ testProgram.consumers ∧ y.2.1 ∈ testProgram.tps ∧
        ∃ g, s.queue.pushed[k]? = some g ∧ ClosureOf y.2 g) ∧
      ∀ core ∈ testProgram.consumers, (s.consumer core).created = (s.created.filter (·.1 = core)).map Prod.snd := by
  have hrun : (run testProgram.step testStart twoConsumers).map (fun r =>
      (decide (r.2.created = [(0x808, complexTp, complexArgs.fields), (0x809, simpleTp, simpleArgs.fields)]),
        r.2.queue.pushed.length)) = some (true, 3) := by decide +kernel
  have hdrain : EachStep testProgram.step (fun s op => ¬ testProgram.Drains s op) testStart twoConsumers := by decide +kernel
  obtain ⟨r, hr, he⟩ := Option.map_eq_some_iff.mp hrun
  obtain ⟨hcreated, hpushed⟩ := Prod.mk.inj he
  have h : testProgram.Reachable r.2 := Reach.of_eachStep _ (.init ⟨_, _, rfl⟩) hdrain hr
  exact ⟨r.2, h, of_decide_eq_true hcreated, hpushed, created_in_order h⟩

end EDarts.PseudoRuntime
