/-
  EDarts.Assets.TpClosuresQueueOwnership — who owns a closures queue while the cores' calls
  interleave (see `EDarts.Assets.TpClosuresQueueSteps`).

  The owner is written under the mutex, but tested and cleared without it: a core that passed
  the owner test of a pop or a disown goes on although nothing holds the owner in place but
  itself. `Fair` says what one step can do to the mutex, the owner and the head; `Owned` is
  the invariant.

  - `ownership_exclusive`: at most one core is owning, the owner word holds its id, and the
    head is moved by that core only.
-/

import EDarts.Assets.TpClosuresQueueCalls
import EDarts.Assets.TpClosuresQueueSteps

namespace EDarts.Assets.TpClosuresQueue.Steps

open Lib Multithreading

variable {queue core : Word}

/-! ## The mutex -/

/-- Inside the mutex. -/
def Pc.holds : Pc → Bool
  | .push _ .locking | .own .locking => false
  | .push _ _ | .own _ => true
  | .pop _ .testing | .pop _ .locking | .pop _ .clearing => false
  | .pop _ _ => true
  | _ => false

theorem lockRound_eq (hm : mutexPtr queue &&& 0x000FFFFF ≠ 0) (q : TpClosuresQueue) (waiting entered : Pc) :
    lockRound queue core q waiting entered =
      if q.lockMutex = 0 then (none, entered, { q with lockMutex := core }) else (none, waiting, q) := by
  rw [lockRound, lock, dartsMutexLock_eq hm]
  by_cases hf : q.lockMutex = 0
  · simp only [if_pos hf, Option.map_some]
  · simp only [if_neg hf, Option.map_none]

theorem unlock_eq (hm : mutexPtr queue &&& 0x000FFFFF ≠ 0) (q : TpClosuresQueue) :
    unlock queue q = { q with lockMutex := 0 } := by
  rw [unlock, dartsMutexUnlock, if_neg hm]

/-! ## What a step does to the header -/

/-- Past the owner test of a pop or a disown. -/
def Pc.passed : Pc → Bool
  | .disown .clearing => true
  | .pop _ .testing => false
  | .pop _ _ => true
  | _ => false

/-- A step of core `core` from `pc` and `q` to `pc'` and `q'`. -/
structure Fair (core : Word) (pc : Pc) (q : TpClosuresQueue) (pc' : Pc) (q' : TpClosuresQueue) : Prop where
  lock : (pc'.holds = pc.holds ∧ q'.lockMutex = q.lockMutex) ∨
    (pc.holds = false ∧ q.lockMutex = 0 ∧ q'.lockMutex = core) ∨ (pc.holds = true ∧ pc'.holds = false)
  owner : (q'.queueOwner = q.queueOwner ∧ ∀ b, pc.owns b = b) ∨
    (pc = .own .writing ∧ pc'.passed = false ∧ q'.queueOwner = core ∧ ∀ b, pc.owns b = true) ∨
    (pc.passed = true ∧ pc'.passed = false ∧ q'.queueOwner = 0 ∧ ∀ b, pc.owns b = false)
  passed : pc'.passed = true → pc.passed = true ∨ q.queueOwner = core
  writing : pc' = .own .writing → pc.holds = true ∧ q.queueOwner = 0 ∧ q'.queueOwner = 0
  head : q'.headAddress = q.headAddress ∨ pc.passed = true

/-- A step that only looks. -/
theorem Fair.look {pc pc' : Pc} (q : TpClosuresQueue) (holds : pc'.holds = pc.holds) (owns : ∀ b, pc.owns b = b)
    (passed : pc'.passed = true → pc.passed = true ∨ q.queueOwner = core) (writing : pc' ≠ .own .writing) :
    Fair core pc q pc' q :=
  ⟨.inl ⟨holds, rfl⟩, .inl ⟨rfl, owns⟩, passed, fun e => absurd e writing, .inl rfl⟩

theorem lockRound_fair (hm : mutexPtr queue &&& 0x000FFFFF ≠ 0) (q : TpClosuresQueue) {waiting entered : Pc}
    (hw : waiting.holds = false) (owns : ∀ b, waiting.owns b = b) (passed : entered.passed = waiting.passed)
    (ww : waiting ≠ .own .writing) (we : entered ≠ .own .writing) :
    Fair core waiting q (lockRound queue core q waiting entered).2.1 (lockRound queue core q waiting entered).2.2 := by
  rw [lockRound_eq hm]
  by_cases hf : q.lockMutex = 0
  · rw [if_pos hf]
    exact ⟨.inr (.inl ⟨hw, hf, rfl⟩), .inl ⟨rfl, owns⟩, fun h => .inl (passed ▸ h), fun e => absurd e we, .inl rfl⟩
  · rw [if_neg hf]
    exact .look q rfl owns .inl ww

theorem pushStep_fair (hm : mutexPtr queue &&& 0x000FFFFF ≠ 0) (c : GenericTpClosure) (q : TpClosuresQueue) (pc : PushPc) :
    Fair core (.push c pc) q (pushStep queue core c q pc).2.1 (pushStep queue core c q pc).2.2 := by
  cases pc with
  | locking => exact lockRound_fair hm q rfl (fun _ => rfl) rfl (by simp) (by simp)
  | testing =>
    rw [pushStep]
    split
    · exact .look q rfl (fun _ => rfl) (by simp [Pc.passed]) (by simp)
    · exact .look q rfl (fun _ => rfl) (by simp [Pc.passed]) (by simp)
  | placing =>
    rw [pushStep]
    split
    · exact .look q rfl (fun _ => rfl) (by simp [Pc.passed]) (by simp)
    · dsimp only
      split
      · exact .look q rfl (fun _ => rfl) (by simp [Pc.passed]) (by simp)
      · exact .look q rfl (fun _ => rfl) (by simp [Pc.passed]) (by simp)
  | padding w => exact ⟨.inl ⟨rfl, rfl⟩, .inl ⟨rfl, fun _ => rfl⟩, by simp [pushStep, Pc.passed], by simp [pushStep], .inl rfl⟩
  | copying wrapped dst i =>
    rw [pushStep]
    split
    · exact ⟨.inl ⟨rfl, rfl⟩, .inl ⟨rfl, fun _ => rfl⟩, by simp [Pc.passed], by simp, .inl rfl⟩
    · exact .look q rfl (fun _ => rfl) (by simp [Pc.passed]) (by simp)
  | publishing wrapped =>
    exact ⟨.inl ⟨rfl, rfl⟩, .inl ⟨rfl, fun _ => rfl⟩, by simp [pushStep, Pc.passed], by simp [pushStep], .inl rfl⟩
  | unlocking code =>
    exact ⟨.inr (.inr ⟨rfl, rfl⟩), .inl ⟨rfl, fun _ => rfl⟩, by simp [pushStep, Pc.passed], by simp [pushStep], .inl rfl⟩

theorem ownStep_fair (hm : mutexPtr queue &&& 0x000FFFFF ≠ 0) (q : TpClosuresQueue) (pc : OwnPc) :
    Fair core (.own pc) q (ownStep queue core q pc).2.1 (ownStep queue core q pc).2.2 := by
  cases pc with
  | locking => exact lockRound_fair hm q rfl (fun _ => rfl) rfl (by simp) (by simp)
  | testing =>
    rw [ownStep]
    split
    · exact .look q rfl (fun _ => rfl) (by simp [Pc.passed]) (by simp)
    · have hfree : q.queueOwner = 0 := Classical.not_not.mp ‹_›
      exact ⟨.inl ⟨rfl, rfl⟩, .inl ⟨rfl, fun _ => rfl⟩, by simp [Pc.passed], fun _ => ⟨rfl, hfree, hfree⟩, .inl rfl⟩
  | writing =>
    exact ⟨.inl ⟨rfl, rfl⟩, .inr (.inl ⟨rfl, rfl, rfl, fun _ => rfl⟩), by simp [ownStep, Pc.passed], by simp [ownStep],
      .inl rfl⟩
  | unlocking code =>
    exact ⟨.inr (.inr ⟨rfl, rfl⟩), .inl ⟨rfl, fun _ => rfl⟩, by simp [ownStep, Pc.passed], by simp [ownStep], .inl rfl⟩

theorem disownStep_fair (q : TpClosuresQueue) (pc : DisownPc) :
    Fair core (.disown pc) q (disownStep core q pc).2.1 (disownStep core q pc).2.2 := by
  cases pc with
  | testing =>
    rw [disownStep]
    split
    · exact .look q rfl (fun _ => rfl) (by simp [Pc.passed]) (by simp)
    · have hown : q.queueOwner = core := Classical.not_not.mp ‹_›
      exact .look q rfl (fun _ => rfl) (fun _ => .inr hown) (by simp)
  | clearing =>
    exact ⟨.inl ⟨rfl, rfl⟩, .inr (.inr ⟨rfl, rfl, rfl, fun _ => rfl⟩), fun _ => .inl rfl, by simp [disownStep],
      .inl rfl⟩

theorem peakStep_fair (q : TpClosuresQueue) (pc : PeakPc) :
    Fair core (.peak pc) q (peakStep core q pc).2.1 (peakStep core q pc).2.2 := by
  cases pc with
  | testing =>
    rw [peakStep]
    split
    · exact .look q rfl (fun _ => rfl) (by simp [Pc.passed]) (by simp)
    · exact .look q rfl (fun _ => rfl) (by simp [Pc.passed]) (by simp)
  | readingHead => exact .look q rfl (fun _ => rfl) (by simp [peakStep, Pc.passed]) (by simp [peakStep])
  | readingTail head =>
    rw [peakStep]
    split
    · exact .look q rfl (fun _ => rfl) (by simp [Pc.passed]) (by simp)
    · exact .look q rfl (fun _ => rfl) (by simp [Pc.passed]) (by simp)
  | returning => exact .look q rfl (fun _ => rfl) (by simp [peakStep, Pc.passed]) (by simp [peakStep])

/-- A pop's steps behind its owner test, but for the owner clear. -/
theorem Fair.popping {pc pc' : Pc} {q q' : TpClosuresQueue} (hlock : (pc'.holds = pc.holds ∧ q'.lockMutex = q.lockMutex) ∨
      (pc.holds = true ∧ pc'.holds = false)) (howner : q'.queueOwner = q.queueOwner) (owns : ∀ b, pc.owns b = b)
    (passed : pc.passed = true) (writing : pc' ≠ .own .writing) : Fair core pc q pc' q' :=
  ⟨hlock.imp id .inr, .inl ⟨howner, owns⟩, fun _ => .inl passed, fun e => absurd e writing, .inr passed⟩

theorem popStep_fair (hm : mutexPtr queue &&& 0x000FFFFF ≠ 0) (disown : Bool) (q : TpClosuresQueue) (pc : PopPc) :
    Fair core (.pop disown pc) q (popStep queue core disown q pc).2.1 (popStep queue core disown q pc).2.2 := by
  cases pc with
  | testing =>
    rw [popStep]
    split
    · exact .look q rfl (fun _ => rfl) (by simp [Pc.passed]) (by simp)
    · have hown : q.queueOwner = core := Classical.not_not.mp ‹_›
      exact .look q rfl (fun _ => rfl) (fun _ => .inr hown) (by simp)
  | locking => exact lockRound_fair hm q rfl (fun _ => rfl) rfl (by simp) (by simp)
  | checking =>
    rw [popStep]
    split
    · exact .popping (.inr ⟨rfl, rfl⟩) rfl (fun _ => rfl) rfl (by simp)
    · exact .look q rfl (fun _ => rfl) (fun _ => .inl rfl) (by simp)
  | advancing => exact .popping (.inl ⟨rfl, rfl⟩) rfl (fun _ => rfl) rfl (by simp [popStep])
  | reachedEnd =>
    rw [popStep]
    split
    · exact .look q rfl (fun _ => rfl) (fun _ => .inl rfl) (by simp)
    · exact .look q rfl (fun _ => rfl) (fun _ => .inl rfl) (by simp)
  | wrappingHead => exact .popping (.inl ⟨rfl, rfl⟩) rfl (fun _ => rfl) rfl (by simp [popStep])
  | wrappingPadding => exact .popping (.inl ⟨rfl, rfl⟩) rfl (fun _ => rfl) rfl (by simp [popStep])
  | reachedTail =>
    rw [popStep]
    split
    · exact .look q rfl (fun _ => rfl) (fun _ => .inl rfl) (by simp)
    · exact .look q rfl (fun _ => rfl) (fun _ => .inl rfl) (by simp)
  | restartingTail => exact .popping (.inl ⟨rfl, rfl⟩) rfl (fun _ => rfl) rfl (by simp [popStep])
  | restartingHead => exact .popping (.inl ⟨rfl, rfl⟩) rfl (fun _ => rfl) rfl (by simp [popStep])
  | restartingPadding => exact .popping (.inl ⟨rfl, rfl⟩) rfl (fun _ => rfl) rfl (by simp [popStep])
  | unlocking =>
    cases disown with
    | false => exact .popping (.inr ⟨rfl, rfl⟩) rfl (fun _ => rfl) rfl (by simp [popStep])
    | true => exact .popping (.inr ⟨rfl, rfl⟩) rfl (fun _ => rfl) rfl (by simp [popStep])
  | clearing =>
    exact ⟨.inl ⟨rfl, rfl⟩, .inr (.inr ⟨rfl, rfl, rfl, fun _ => rfl⟩), fun _ => .inl rfl, by simp [popStep], .inr rfl⟩

theorem next_fair (hm : mutexPtr queue &&& 0x000FFFFF ≠ 0) {pc : Pc} {q : TpClosuresQueue} {r : Move}
    (h : next queue core q pc = some r) : Fair core pc q r.2.1 r.2.2 := by
  cases pc with
  | idle => cases h
  | push c pc => cases h; exact pushStep_fair hm c q pc
  | own pc => cases h; exact ownStep_fair hm q pc
  | disown pc => cases h; exact disownStep_fair q pc
  | peak pc => cases h; exact peakStep_fair q pc
  | pop disown pc => cases h; exact popStep_fair hm disown q pc

/-! ## Steps of the cores -/

/-- What one action can do. -/
inductive Acts (queue : Word) (s : State) : Action → Option (Word × Out) → State → Prop
  | refused (op : Op) : s.pc op.core = .idle → Acts queue s (.call op) (some (op.core, (.invalidQueueAddress, none))) s
  | enter (op : Op) : s.pc op.core = .idle →
      Acts queue s (.call op) none { s with pc := Function.update s.pc op.core op.start }
  | move (core : Word) (r : Move) : next queue core s.q (s.pc core) = some r →
      Acts queue s (.go core) (r.1.map fun out => (core, out))
        { q := r.2.2
          pc := Function.update s.pc core r.2.1
          owning := Function.update s.owning core ((s.pc core).owns (s.owning core))
          pushed := s.pushed ++ (s.pc core).adds }

theorem step_acts {s s' : State} {a : Action} {o : Option (Word × Out)} (h : step queue s a = some (o, s')) :
    Acts queue s a o s' := by
  cases a with
  | call op =>
    rw [step] at h
    split at h
    · split at h
      · cases h; exact .refused op ‹_›
      · cases h; exact .enter op ‹_›
    · cases h
  | go core =>
    simp only [step, Option.map_eq_some_iff] at h
    obtain ⟨r, hr, he⟩ := h
    cases he
    exact .move core r hr

@[simp] theorem start_holds (op : Op) : op.start.holds = false := by cases op <;> rfl
@[simp] theorem start_passed (op : Op) : op.start.passed = false := by cases op <;> rfl
@[simp] theorem start_writing (op : Op) : op.start ≠ .own .writing := by cases op <;> simp [Op.start]

/-- What is said of every core's place, once core `core` went to `pc`. -/
theorem forall_pc {s : State} {core : Word} {pc : Pc} (p : Word → Pc → Prop) (here : p core pc)
    (there : ∀ b, b ≠ core → p b (s.pc b)) : ∀ b, p b (Function.update s.pc core pc b) :=
  (Function.forall_update_iff s.pc p).mpr ⟨here, there⟩

/-- At most one core is inside the mutex, and then the word is taken. -/
structure Excluded (s : State) : Prop where
  one : ∀ a b, (s.pc a).holds = true → (s.pc b).holds = true → a = b
  taken : ∀ a, (s.pc a).holds = true → s.q.lockMutex ≠ 0

theorem excluded_quiet (q : TpClosuresQueue) : Excluded (quiet q) := by
  constructor
  · intro a b ha
    cases ha
  · intro a ha
    cases ha

/-- Nobody enters or leaves the mutex. -/
theorem Excluded.congr {s s' : State} (H : Excluded s) (hholds : ∀ b, (s'.pc b).holds = (s.pc b).holds)
    (hword : s'.q.lockMutex = s.q.lockMutex) : Excluded s' := by
  constructor
  · intro b c hb hc
    rw [hholds] at hb hc
    exact H.one b c hb hc
  · intro b hb
    rw [hholds] at hb
    rw [hword]
    exact H.taken b hb

theorem Excluded.keep (hm : mutexPtr queue &&& 0x000FFFFF ≠ 0) {s s' : State} {a : Action} {o : Option (Word × Out)}
    (H : Excluded s) (ha : a.core ≠ 0) (h : step queue s a = some (o, s')) : Excluded s' := by
  cases step_acts h with
  | refused op _ => exact H
  | enter op hidle =>
    have hstart : op.start.holds = (s.pc op.core).holds := by
      rw [start_holds, hidle]
      rfl
    exact H.congr (forall_pc (fun b pc => pc.holds = (s.pc b).holds) hstart fun _ _ => rfl) rfl
  | move core r hr =>
    have F := next_fair hm hr
    rcases F.lock with ⟨hsame, hword⟩ | ⟨-, hfree, hword⟩ | ⟨hheld, hleft⟩
    · exact H.congr (forall_pc (fun b pc => pc.holds = (s.pc b).holds) hsame fun _ _ => rfl) hword
    · -- the word was free, so nobody was inside
      have honly : ∀ b, (Function.update s.pc core r.2.1 b).holds = true → b = core := by
        intro b hb
        by_contra e
        rw [Function.update_of_ne e] at hb
        exact H.taken b hb hfree
      constructor
      · intro b c hb hc
        exact (honly b hb).trans (honly c hc).symm
      · intro b _
        simp only [hword]
        exact ha
    · have hnone : ∀ b, (Function.update s.pc core r.2.1 b).holds ≠ true := by
        intro b hb
        by_cases e : b = core
        · rw [e, Function.update_self, hleft] at hb; cases hb
        · rw [Function.update_of_ne e] at hb
          exact e (H.one b core hb hheld)
      exact ⟨fun b c hb _ => absurd hb (hnone b), fun b hb => absurd hb (hnone b)⟩

/-! ## Ownership -/

/-- The owner word says who is owning; who passed an owner test is, and while a core is at
    the owner write nobody is. -/
structure Owned (s : State) : Prop extends Excluded s where
  owner : ∀ a, s.owning a = true → s.q.queueOwner = a ∧ a ≠ 0
  owned : s.q.queueOwner ≠ 0 → s.owning s.q.queueOwner = true
  passed : ∀ a, (s.pc a).passed = true → s.owning a = true
  writing : ∀ a, s.pc a = .own .writing → s.q.queueOwner = 0

theorem owned_quiet {q : TpClosuresQueue} (h : q.queueOwner = 0) : Owned (quiet q) := by
  refine ⟨excluded_quiet q, ?_, fun hne => absurd h hne, ?_, fun a ha => by cases ha⟩
  · intro a ha
    cases ha
  · intro a ha
    cases ha

/-- Core `core` took the step to `r`. -/
def moved (s : State) (core : Word) (r : Move) : State where
  q := r.2.2
  pc := Function.update s.pc core r.2.1
  owning := Function.update s.owning core ((s.pc core).owns (s.owning core))
  pushed := s.pushed ++ (s.pc core).adds

section Moves

variable {s : State} {core : Word} {r : Move} (H : Owned s) (F : Fair core (s.pc core) s.q r.2.1 r.2.2)
  (hexcl : Excluded (moved s core r))
include H F hexcl

/-- Neither the owner write nor the owner clear. -/
theorem Owned.stays (hcore : core ≠ 0) (hword : r.2.2.queueOwner = s.q.queueOwner)
    (howns : ∀ b, (s.pc core).owns b = b) : Owned (moved s core r) := by
  have howning : (moved s core r).owning = s.owning := by
    simp only [moved, howns, Function.update_eq_self]
  refine ⟨hexcl, ?_, ?_, ?_, ?_⟩
  · rw [howning, moved, hword]
    exact H.owner
  · rw [howning, moved, hword]
    exact H.owned
  · rw [howning]
    refine forall_pc (fun b pc => pc.passed = true → s.owning b = true) (fun hp => ?_) fun b _ => H.passed b
    rcases F.passed hp with hp | rfl
    · exact H.passed core hp
    · exact H.owned hcore
  · rw [moved, hword]
    exact forall_pc (fun _ pc => pc = .own .writing → s.q.queueOwner = 0) (fun hw => (F.writing hw).2.1)
      fun b _ => H.writing b

/-- The owner write: the word was 0, so nobody was owning. -/
theorem Owned.writes (hcore : core ≠ 0) (hpc : s.pc core = .own .writing) (hout : r.2.1.passed = false)
    (hword : r.2.2.queueOwner = core) (howns : ∀ b, (s.pc core).owns b = true) : Owned (moved s core r) := by
  have hnone : ∀ b, s.owning b ≠ true := by
    intro b hb
    obtain ⟨hown, hne⟩ := H.owner b hb
    rw [H.writing core hpc] at hown
    exact hne hown.symm
  have hself : ∀ b, (moved s core r).owning b = true ↔ b = core := by
    intro b
    simp only [moved, howns]
    by_cases e : b = core
    · simp only [e, Function.update_self]
    · simp only [Function.update_of_ne e, hnone, e, Bool.false_eq_true]
  refine ⟨hexcl, fun b hb => ?_, fun _ => (hself _).mpr hword, fun b => ?_, ?_⟩
  · obtain rfl := (hself b).mp hb
    exact ⟨hword, hcore⟩
  · rw [hself]
    exact forall_pc (fun b pc => pc.passed = true → b = core) (by simp [hout])
      (fun b _ hp => absurd (H.passed b hp) (hnone b)) b
  · refine forall_pc (fun _ pc => pc = .own .writing → r.2.2.queueOwner = 0) (fun hw => (F.writing hw).2.2) ?_
    intro b e hw
    -- two cores at the owner write would both be inside the mutex
    exact absurd (H.one b core (by rw [hw]; rfl) (by rw [hpc]; rfl)) e

omit F in
/-- The owner clear, by the core that is owning. -/
theorem Owned.clears (hpassed : (s.pc core).passed = true) (hout : r.2.1.passed = false)
    (hword : r.2.2.queueOwner = 0) (howns : ∀ b, (s.pc core).owns b = false) : Owned (moved s core r) := by
  have honly : ∀ b, s.owning b = true → b = core := by
    intro b hb
    exact (H.owner b hb).1.symm.trans (H.owner core (H.passed core hpassed)).1
  have hnone : ∀ b, (moved s core r).owning b ≠ true := by
    intro b
    simp only [moved, howns]
    by_cases e : b = core
    · simp only [e, Function.update_self, ne_eq, Bool.false_eq_true, not_false_eq_true]
    · rw [Function.update_of_ne e]
      exact fun hb => e (honly b hb)
  refine ⟨hexcl, fun b hb => absurd hb (hnone b), fun hne => absurd hword hne, ?_, fun _ _ => hword⟩
  intro b hp
  refine absurd hp (forall_pc (fun _ pc => ¬ pc.passed = true) (by simp [hout]) ?_ b)
  exact fun b e hp => e (honly b (H.passed b hp))

end Moves

theorem Owned.keep (hm : mutexPtr queue &&& 0x000FFFFF ≠ 0) {s s' : State} {a : Action} {o : Option (Word × Out)}
    (H : Owned s) (ha : a.core ≠ 0) (h : step queue s a = some (o, s')) : Owned s' := by
  have hexcl := H.toExcluded.keep hm ha h
  cases step_acts h with
  | refused op _ => exact H
  | enter op _ =>
    refine ⟨hexcl, H.owner, H.owned, ?_, ?_⟩
    · exact forall_pc (fun b pc => pc.passed = true → s.owning b = true) (by simp) fun b _ => H.passed b
    · exact forall_pc (fun _ pc => pc = .own .writing → s.q.queueOwner = 0) (by simp) fun b _ => H.writing b
  | move core r hr =>
    have F := next_fair hm hr
    rcases F.owner with ⟨hword, howns⟩ | ⟨hpc, hout, hword, howns⟩ | ⟨hpassed, hout, hword, howns⟩
    · exact H.stays F hexcl ha hword howns
    · exact H.writes F hexcl ha hpc hout hword howns
    · exact H.clears hexcl hpassed hout hword howns

/-- The head moves in a step of a core that is owning. -/
theorem Owned.head (hm : mutexPtr queue &&& 0x000FFFFF ≠ 0) {s s' : State} {a : Action} {o : Option (Word × Out)}
    (H : Owned s) (h : step queue s a = some (o, s')) (hne : s'.q.headAddress ≠ s.q.headAddress) :
    s.owning a.core = true := by
  cases step_acts h with
  | refused op _ => exact absurd rfl hne
  | enter op _ => exact absurd rfl hne
  | move core r hr =>
    rcases (next_fair hm hr).head with hsame | hpassed
    · exact absurd hsame hne
    · exact H.passed core hpassed

/-- No owner, and nobody in a call. -/
def Unowned (s : State) : Prop := ∃ q : TpClosuresQueue, q.queueOwner = 0 ∧ s = quiet q

/-- In every state that the steps of any cores can reach: at most one core is between its
    owner write and its owner clear, the owner word is its id, and only its steps move the
    head. -/
theorem ownership_exclusive (hm : mutexPtr queue &&& 0x000FFFFF ≠ 0) {s : State} (h : Reach Unowned (Step queue) s) :
    (∀ a b, s.owning a = true → s.owning b = true → a = b) ∧
    (∀ a, s.owning a = true → s.q.queueOwner = a) ∧
    ∀ a o s', a.core ≠ 0 → step queue s a = some (o, s') → s'.q.headAddress ≠ s.q.headAddress →
      s.owning a.core = true := by
  have H : Owned s := Reach.inv Owned
    (by
      intro s hs
      obtain ⟨q, hq, rfl⟩ := hs
      exact owned_quiet hq)
    (by
      intro s s' H hst
      obtain ⟨a, o, ha, hst⟩ := hst
      exact H.keep hm ha hst) h
  refine ⟨fun a b ha hb => ?_, fun a ha => (H.owner a ha).1, fun a o s' _ hst hne => H.head hm hst hne⟩
  exact (H.owner a ha).1.symm.trans (H.owner b hb).1

/-- Core 0x808 has become the owner and core 0x809 tries. -/
theorem ownership_exclusive_808 :
    mutexPtr 0x80803004 &&& 0x000FFFFF ≠ 0 ∧
    ∃ s : State, s.owning 0x808 = true ∧ s.pc 0x809 = .own .testing ∧ s.q.queueOwner = 0x808 := by
  have hrun : (run (step 0x80803004) (quiet emptyQueue)
      [.call (.own 0x808), .go 0x808, .go 0x808, .go 0x808, .go 0x808, .call (.own 0x809), .go 0x809]).map
        (fun r => (r.2.owning 0x808, r.2.pc 0x809)) = some (true, .own .testing) := by
    rfl
  obtain ⟨⟨os, s⟩, hrun, hs⟩ := Option.map_eq_some_iff.mp hrun
  simp only [Prod.mk.injEq] at hs
  have hreach : Reach Unowned (Step 0x80803004) s := Reach.of_run_of _ (by decide) (.init ⟨emptyQueue, rfl, rfl⟩) hrun
  exact ⟨by decide, s, hs.1, hs.2, (ownership_exclusive (by decide) hreach).2.1 0x808 hs.1⟩

end EDarts.Assets.TpClosuresQueue.Steps
