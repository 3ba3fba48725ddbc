/-
  EDarts.Assets.TpClosuresQueueSteps — the calls on a closures queue taken step by step
  (`tpClosuresQueue.c`), any number of cores at once.

  A core is in at most one call. Its steps are the rounds of the lock, the tests, each
  store to the header, each byte of `memcpy`, and the unlock. What a test reads under the
  mutex is one step with it, since nobody else writes those fields then; the owner tests and
  the reads of `peakTopElement`, made without the mutex, are steps of their own. The pops
  return without an unlock when they find the queue empty.

  `owning` and `pushed` are for the record only: who is between the owner write of its own
  and the owner clear of its own disown, and the closures that a tail write added.

  - `alone`: a call that nobody interferes with does what `TpClosuresQueue.step` says.
-/

import EDarts.Lib.Runs
import EDarts.Assets.TpClosuresQueue
import Mathlib.Logic.Function.Basic

namespace EDarts.Assets.TpClosuresQueue

open Lib Multithreading

namespace Steps

inductive PushPc where
  | locking
  | testing
  | placing
  | padding (spaceAfterTail : Word)
  /-- In the copy to `dst`, `i` bytes of it done. -/
  | copying (wrapped : Bool) (dst : Word) (i : Nat)
  /-- At the tail write. -/
  | publishing (wrapped : Bool)
  | unlocking (code : Code)
  deriving DecidableEq

inductive OwnPc where
  | locking
  | testing
  | writing
  | unlocking (code : Code)
  deriving DecidableEq

inductive DisownPc where
  | testing
  | clearing
  deriving DecidableEq

inductive PeakPc where
  | testing
  | readingHead
  | readingTail (head : Word)
  | returning
  deriving DecidableEq

inductive PopPc where
  | testing
  | locking
  | checking
  | advancing
  | reachedEnd
  | wrappingHead
  | wrappingPadding
  | reachedTail
  | restartingTail
  | restartingHead
  | restartingPadding
  | unlocking
  /-- `popTopElementAndDisownQueue`'s owner clear, behind the unlock. -/
  | clearing
  deriving DecidableEq

/-- Where a core is. -/
inductive Pc where
  | idle
  | push (newTpClosure : GenericTpClosure) (pc : PushPc)
  | own (pc : OwnPc)
  | disown (pc : DisownPc)
  | peak (pc : PeakPc)
  | pop (disown : Bool) (pc : PopPc)

/-- What one step does: what the call returns, if it returns, where the core is then, and
    the queue. -/
abbrev Move := Option Out × Pc × TpClosuresQueue

/-- One round of the lock's loop. -/
def lockRound (queue core : Word) (q : TpClosuresQueue) (waiting entered : Pc) : Move :=
  match lock queue core q with
  | none => (none, waiting, q)
  | some q => (none, entered, q)

def pushStep (queue core : Word) (newTpClosure : GenericTpClosure) (q : TpClosuresQueue) : PushPc → Move
  | .locking => lockRound queue core q (.push newTpClosure .locking) (.push newTpClosure .testing)
  | .testing =>
    if calculateMaxFreeSpaceQueue queue q ≤ tpSize newTpClosure.sizeOfArgs then
      (none, .push newTpClosure (.unlocking .notEnoughSpace), q)
    else (none, .push newTpClosure .placing, q)
  | .placing =>
    if q.tailAddress ≤ q.headAddress then (none, .push newTpClosure (.copying false q.tailAddress 0), q)
    else
      let spaceAfterTail := initAddress queue + q.size - q.tailAddress
      if tpSize newTpClosure.sizeOfArgs ≤ spaceAfterTail then
        (none, .push newTpClosure (.copying false q.tailAddress 0), q)
      else (none, .push newTpClosure (.padding spaceAfterTail), q)
  | .padding spaceAfterTail =>
    (none, .push newTpClosure (.copying true (initAddress queue) 0), { q with padding := spaceAfterTail })
  | .copying wrapped dst i =>
    match (newTpClosure.bytes.take (tpSize newTpClosure.sizeOfArgs).toNat)[i]? with
    | some b =>
      (none, .push newTpClosure (.copying wrapped dst (i + 1)), { q with mem := store q.mem (dst + BitVec.ofNat 32 i) b })
    | none => (none, .push newTpClosure (.publishing wrapped), q)
  | .publishing wrapped =>
    let insertedAt := if wrapped then initAddress queue else q.tailAddress
    (none, .push newTpClosure (.unlocking .successOp),
      { q with tailAddress := insertedAt + tpSize newTpClosure.sizeOfArgs })
  | .unlocking code => (some (code, none), .idle, unlock queue q)

def ownStep (queue core : Word) (q : TpClosuresQueue) : OwnPc → Move
  | .locking => lockRound queue core q (.own .locking) (.own .testing)
  | .testing => if q.queueOwner ≠ 0 then (none, .own (.unlocking .notOwner), q) else (none, .own .writing, q)
  | .writing => (none, .own (.unlocking .successOp), { q with queueOwner := core })
  | .unlocking code => (some (code, none), .idle, unlock queue q)

def disownStep (core : Word) (q : TpClosuresQueue) : DisownPc → Move
  | .testing => if q.queueOwner ≠ core then (some (.notOwner, none), .idle, q) else (none, .disown .clearing, q)
  | .clearing => (some (.successOp, none), .idle, { q with queueOwner := 0 })

def peakStep (core : Word) (q : TpClosuresQueue) : PeakPc → Move
  | .testing => if q.queueOwner ≠ core then (some (.notOwner, some 0), .idle, q) else (none, .peak .readingHead, q)
  | .readingHead => (none, .peak (.readingTail q.headAddress), q)
  | .readingTail head =>
    if head = q.tailAddress then (some (.emptyQueue, some 0), .idle, q) else (none, .peak .returning, q)
  | .returning => (some (.successOp, some q.headAddress), .idle, q)

def popStep (queue core : Word) (disown : Bool) (q : TpClosuresQueue) : PopPc → Move
  | .testing => if q.queueOwner ≠ core then (some (.notOwner, none), .idle, q) else (none, .pop disown .locking, q)
  | .locking => lockRound queue core q (.pop disown .locking) (.pop disown .checking)
  | .checking =>
    -- no unlock on this path
    if isTpClosureQueueEmpty q then (some (.emptyQueue, none), .idle, q) else (none, .pop disown .advancing, q)
  | .advancing =>
    let topElementSize := tpSize (sizeOfArgsAt q.mem q.headAddress)
    (none, .pop disown .reachedEnd, { q with headAddress := q.headAddress + topElementSize })
  | .reachedEnd =>
    if q.headAddress + q.padding = initAddress queue + q.size then (none, .pop disown .wrappingHead, q)
    else (none, .pop disown .reachedTail, q)
  | .wrappingHead => (none, .pop disown .wrappingPadding, { q with headAddress := initAddress queue })
  | .wrappingPadding => (none, .pop disown .reachedTail, { q with padding := 0 })
  | .reachedTail =>
    if q.headAddress = q.tailAddress then (none, .pop disown .restartingTail, q) else (none, .pop disown .unlocking, q)
  | .restartingTail => (none, .pop disown .restartingHead, { q with tailAddress := initAddress queue })
  | .restartingHead => (none, .pop disown .restartingPadding, { q with headAddress := initAddress queue })
  | .restartingPadding => (none, .pop disown .unlocking, { q with padding := 0 })
  | .unlocking =>
    if disown then (none, .pop disown .clearing, unlock queue q) else (some (.successOp, none), .idle, unlock queue q)
  | .clearing => (some (.successOp, none), .idle, { q with queueOwner := 0 })

/-- The next step of a core that is in a call. -/
def next (queue core : Word) (q : TpClosuresQueue) : Pc → Option Move
  | .idle => none
  | .push c pc => some (pushStep queue core c q pc)
  | .own pc => some (ownStep queue core q pc)
  | .disown pc => some (disownStep core q pc)
  | .peak pc => some (peakStep core q pc)
  | .pop disown pc => some (popStep queue core disown q pc)

end Steps

namespace Op

def core : Op → Word
  | .push core _ | .own core | .disown core | .peak core | .pop core | .popAndDisown core => core

/-- The first step behind the address check. -/
def start : Op → Steps.Pc
  | .push _ c => .push c .locking
  | .own _ => .own .locking
  | .disown _ => .disown .testing
  | .peak _ => .peak .testing
  | .pop _ => .pop false .testing
  | .popAndDisown _ => .pop true .testing

end Op

namespace Steps

structure State where
  q : TpClosuresQueue
  pc : Word → Pc
  owning : Word → Bool
  pushed : List GenericTpClosure

/-- Whether a core is owning behind its step at `pc`. -/
def Pc.owns (owning : Bool) : Pc → Bool
  | .own .writing => true
  | .disown .clearing | .pop _ .clearing => false
  | _ => owning

/-- The closure that the step at `pc` adds. -/
def Pc.adds : Pc → List GenericTpClosure
  | .push c (.publishing _) => [c]
  | _ => []

inductive Action where
  /-- Core `op.core` enters a call. -/
  | call (op : Op)
  | go (core : Word)

def Action.core : Action → Word
  | .call op => op.core
  | .go core => core

/-- The core that returns, and what its call returns. -/
def step (queue : Word) (s : State) : Action → Option (Option (Word × Out) × State)
  | .call op =>
    match s.pc op.core with
    | .idle =>
      if checkIfValidAddress queue ≠ .successOp then some (some (op.core, (.invalidQueueAddress, none)), s)
      else some (none, { s with pc := Function.update s.pc op.core op.start })
    | _ => none
  | .go core =>
    (next queue core s.q (s.pc core)).map fun r =>
      (r.1.map fun out => (core, out),
        { q := r.2.2
          pc := Function.update s.pc core r.2.1
          owning := Function.update s.owning core ((s.pc core).owns (s.owning core))
          pushed := s.pushed ++ (s.pc core).adds })

/-- The ids of the cores are not 0. -/
def Step (queue : Word) (s s' : State) : Prop := ∃ a o, a.core ≠ 0 ∧ step queue s a = some (o, s')

/-- The queue `q`, and nobody in a call. -/
def quiet (q : TpClosuresQueue) : State := ⟨q, fun _ => .idle, fun _ => false, []⟩

/-! ## A call alone -/

/-- The core goes on from `pc` with the queue at `q`, nobody else moving, until its call
    returns `out`. -/
inductive Returns (queue core : Word) : Pc → TpClosuresQueue → Out → TpClosuresQueue → Prop
  | last {pc : Pc} {q q' : TpClosuresQueue} {out : Out} : next queue core q pc = some (some out, .idle, q') →
      Returns queue core pc q out q'
  | more {pc pc₁ : Pc} {q q₁ q' : TpClosuresQueue} {out : Out} : next queue core q pc = some (none, pc₁, q₁) →
      Returns queue core pc₁ q₁ out q' → Returns queue core pc q out q'

variable {queue core : Word}

theorem lockRound_some {q q₁ : TpClosuresQueue} (h : lock queue core q = some q₁) (waiting entered : Pc) :
    lockRound queue core q waiting entered = (none, entered, q₁) := by
  rw [lockRound, h]

theorem copying_returns (c : GenericTpClosure) (wrapped : Bool) (dst : Word) (q : TpClosuresQueue) {out : Out}
    {q' : TpClosuresQueue}
    (h : Returns queue core (.push c (.publishing wrapped))
      { q with mem := storeBytes q.mem dst (c.bytes.take (tpSize c.sizeOfArgs).toNat) } out q') :
    ∀ k i, i + k = (c.bytes.take (tpSize c.sizeOfArgs).toNat).length →
      Returns queue core (.push c (.copying wrapped dst i))
        { q with mem := storeBytes q.mem dst ((c.bytes.take (tpSize c.sizeOfArgs).toNat).take i) } out q' := by
  intro k
  induction k with
  | zero =>
    intro i hi
    have hnone : (c.bytes.take (tpSize c.sizeOfArgs).toNat)[i]? = none := List.getElem?_eq_none (by omega)
    refine .more (by simp only [next, pushStep, hnone]; rfl) ?_
    rw [List.take_of_length_le (by omega)]
    exact h
  | succ k ih =>
    intro i hi
    have hsize := (tpSize c.sizeOfArgs).isLt
    have hlen := List.length_take_le (tpSize c.sizeOfArgs).toNat c.bytes
    have hsome := List.getElem?_eq_getElem (l := c.bytes.take (tpSize c.sizeOfArgs).toNat) (i := i) (by omega)
    refine .more (by simp only [next, pushStep, hsome]; rfl) ?_
    rw [store_storeBytes_take q.mem dst (by omega) hsome]
    exact ih (i + 1) (by omega)

theorem placing_returns (c : GenericTpClosure) (q : TpClosuresQueue) :
    Returns queue core (.push c .placing) q (.successOp, none) (unlock queue (insert queue c q)) := by
  have hcopy : ∀ (wrapped : Bool) (dst : Word) (q q' : TpClosuresQueue),
      q' = { q with
        mem := storeBytes q.mem dst (c.bytes.take (tpSize c.sizeOfArgs).toNat)
        tailAddress := (if wrapped then initAddress queue else q.tailAddress) + tpSize c.sizeOfArgs } →
      Returns queue core (.push c (.copying wrapped dst 0)) q (.successOp, none) (unlock queue q') := by
    intro wrapped dst q q' h
    subst h
    have hend : Returns queue core (.push c (.publishing wrapped))
        { q with mem := storeBytes q.mem dst (c.bytes.take (tpSize c.sizeOfArgs).toNat) } (.successOp, none)
        (unlock queue { q with
          mem := storeBytes q.mem dst (c.bytes.take (tpSize c.sizeOfArgs).toNat)
          tailAddress := (if wrapped then initAddress queue else q.tailAddress) + tpSize c.sizeOfArgs }) :=
      .more rfl (.last rfl)
    exact copying_returns c wrapped dst q hend _ 0 (Nat.zero_add _)
  by_cases htail : q.tailAddress ≤ q.headAddress
  · refine .more (by simp only [next, pushStep, htail, if_true]; rfl) (hcopy false _ _ _ ?_)
    simp [insert, htail]
  · by_cases hfits : tpSize c.sizeOfArgs ≤ initAddress queue + q.size - q.tailAddress
    · refine .more (by simp only [next, pushStep, htail, hfits, if_true, if_false]; rfl) (hcopy false _ _ _ ?_)
      simp [insert, htail, hfits]
    · refine .more (by simp only [next, pushStep, htail, hfits, if_false]; rfl) (.more rfl (hcopy true _ _ _ ?_))
      simp [insert, htail, hfits]

/-- How each pop lets go of the queue. -/
def release (disown : Bool) (q : TpClosuresQueue) : TpClosuresQueue := if disown then { q with queueOwner := 0 } else q

theorem advancing_returns (disown : Bool) (q : TpClosuresQueue) :
    Returns queue core (.pop disown .advancing) q (.successOp, none) (release disown (unlock queue (removeTop queue q))) := by
  have hunlock : ∀ q, Returns queue core (.pop disown .unlocking) q (.successOp, none)
      (release disown (unlock queue q)) := by
    intro q
    cases disown with
    | false => exact .last rfl
    | true => exact .more rfl (.last rfl)
  have hrestart : ∀ q, Returns queue core (.pop disown .reachedTail) q (.successOp, none)
      (release disown (unlock queue (restart queue q))) := by
    intro q
    by_cases htail : q.headAddress = q.tailAddress
    · refine .more (by simp only [next, popStep, htail, if_true]; rfl) ?_
      rw [restart, if_pos htail]
      exact .more rfl (.more rfl (.more rfl (hunlock _)))
    · refine .more (by simp only [next, popStep, htail, if_false]; rfl) ?_
      rw [restart, if_neg htail]
      exact hunlock q
  refine .more rfl ?_
  rw [removeTop, passTop]
  by_cases hend : q.headAddress + tpSize (sizeOfArgsAt q.mem q.headAddress) + q.padding = initAddress queue + q.size
  · refine .more (by simp only [next, popStep, hend, if_true]; rfl) ?_
    simp only [hend, if_true]
    exact .more rfl (.more rfl (hrestart _))
  · refine .more (by simp only [next, popStep, hend, if_false]; rfl) ?_
    simp only [hend, if_false]
    exact hrestart _

theorem popWith_returns (disown : Bool) {q q' : TpClosuresQueue} {code : Code}
    (hv : checkIfValidAddress queue = .successOp) (h : popWith (release disown) queue core q = some (code, q')) :
    Returns queue core (.pop disown .testing) q (code, none) q' := by
  simp only [popWith, hv, ne_eq, not_true_eq_false, if_false] at h
  by_cases ho : q.queueOwner = core
  · simp only [ho, not_true_eq_false, if_false, Option.map_eq_some_iff] at h
    obtain ⟨q₁, hl, h⟩ := h
    refine .more (by simp only [next, popStep, ho, ne_eq, not_true_eq_false, if_false]; rfl)
      (.more (by simp only [next, popStep, lockRound_some hl]; rfl) ?_)
    cases he : isTpClosureQueueEmpty q₁ with
    | true =>
      simp only [he, if_true, Prod.mk.injEq] at h
      obtain ⟨rfl, rfl⟩ := h
      exact .last (by simp only [next, popStep, he, if_true])
    | false =>
      simp only [he, Bool.false_eq_true, if_false, Prod.mk.injEq] at h
      obtain ⟨rfl, rfl⟩ := h
      exact .more (by simp only [next, popStep, he, Bool.false_eq_true, if_false]) (advancing_returns disown q₁)
  · simp only [ho, not_false_eq_true, if_true, Option.some.injEq, Prod.mk.injEq] at h
    obtain ⟨rfl, rfl⟩ := h
    exact .last (by simp only [next, popStep, ho, ne_eq, not_false_eq_true, if_true])

theorem push_alone (core : Word) (c : GenericTpClosure) {q q' : TpClosuresQueue} {code : Code}
    (hv : checkIfValidAddress queue = .successOp) (h : pushTpClosureQueue queue core c q = some (code, q')) :
    Returns queue core (.push c .locking) q (code, none) q' := by
  simp only [pushTpClosureQueue, hv, ne_eq, not_true_eq_false, if_false, Option.map_eq_some_iff] at h
  obtain ⟨q₁, hl, h⟩ := h
  refine .more (by simp only [next, pushStep, lockRound_some hl]; rfl) ?_
  by_cases hfull : calculateMaxFreeSpaceQueue queue q₁ ≤ tpSize c.sizeOfArgs
  · simp only [hfull, if_true, Prod.mk.injEq] at h
    obtain ⟨rfl, rfl⟩ := h
    exact .more (by simp only [next, pushStep, hfull, if_true]; rfl) (.last rfl)
  · simp only [hfull, if_false, Prod.mk.injEq] at h
    obtain ⟨rfl, rfl⟩ := h
    exact .more (by simp only [next, pushStep, hfull, if_false]) (placing_returns c q₁)

theorem own_alone (core : Word) {q q' : TpClosuresQueue} {code : Code} (hv : checkIfValidAddress queue = .successOp)
    (h : ownTpClosureQueue queue core q = some (code, q')) : Returns queue core (.own .locking) q (code, none) q' := by
  simp only [ownTpClosureQueue, hv, ne_eq, not_true_eq_false, if_false, Option.map_eq_some_iff] at h
  obtain ⟨q₁, hl, h⟩ := h
  refine .more (by simp only [next, ownStep, lockRound_some hl]; rfl) ?_
  by_cases ho : q₁.queueOwner = 0
  · simp only [ho, not_true_eq_false, if_false, Prod.mk.injEq] at h
    obtain ⟨rfl, rfl⟩ := h
    exact .more (by simp only [next, ownStep, ho, ne_eq, not_true_eq_false, if_false]; rfl) (.more rfl (.last rfl))
  · simp only [ho, not_false_eq_true, if_true, Prod.mk.injEq] at h
    obtain ⟨rfl, rfl⟩ := h
    exact .more (by simp only [next, ownStep, ho, ne_eq, not_false_eq_true, if_true]; rfl) (.last rfl)

theorem disown_alone (core : Word) (q : TpClosuresQueue) (hv : checkIfValidAddress queue = .successOp) :
    Returns queue core (.disown .testing) q ((disownTpClosureQueue queue core q).1, none)
      (disownTpClosureQueue queue core q).2 := by
  simp only [disownTpClosureQueue, hv, ne_eq, not_true_eq_false, if_false]
  by_cases ho : q.queueOwner = core
  · simp only [ho, not_true_eq_false, if_false]
    exact .more (by simp only [next, disownStep, ho, ne_eq, not_true_eq_false, if_false]; rfl) (.last rfl)
  · simp only [ho, not_false_eq_true, if_true]
    exact .last (by simp only [next, disownStep, ho, ne_eq, not_false_eq_true, if_true])

theorem peak_alone (core : Word) (q : TpClosuresQueue) (hv : checkIfValidAddress queue = .successOp) :
    Returns queue core (.peak .testing) q (peakTopElement queue core q) q := by
  simp only [peakTopElement, hv, ne_eq, not_true_eq_false, if_false, isTpClosureQueueEmpty, beq_iff_eq]
  by_cases ho : q.queueOwner = core
  · simp only [ho, not_true_eq_false, if_false]
    refine .more (by simp only [next, peakStep, ho, ne_eq, not_true_eq_false, if_false]; rfl) (.more rfl ?_)
    by_cases he : q.headAddress = q.tailAddress
    · simp only [he, if_true]
      exact .last (by simp only [next, peakStep, if_true])
    · simp only [he, if_false]
      exact .more (by simp only [next, peakStep, he, if_false]; rfl) (.last rfl)
  · simp only [ho, not_false_eq_true, if_true]
    exact .last (by simp only [next, peakStep, ho, ne_eq, not_false_eq_true, if_true])

/-- What a whole call does, its steps do when nobody else moves. -/
theorem alone {op : Op} {q q' : TpClosuresQueue} {out : Out} (hv : checkIfValidAddress queue = .successOp)
    (h : TpClosuresQueue.step queue q op = some (out, q')) : Returns queue op.core op.start q out q' := by
  have hcode : ∀ call : Option (Code × TpClosuresQueue), call.map (fun r => ((r.1, none), r.2)) = some (out, q') →
      ∃ code, call = some (code, q') ∧ out = (code, none) := by
    intro call hcall
    obtain ⟨⟨code, q₁⟩, hsome, he⟩ := Option.map_eq_some_iff.mp hcall
    cases he
    exact ⟨code, hsome, rfl⟩
  cases op with
  | push core c =>
    obtain ⟨code, hp, rfl⟩ := hcode _ h
    exact push_alone core c hv hp
  | own core =>
    obtain ⟨code, hp, rfl⟩ := hcode _ h
    exact own_alone core hv hp
  | disown core =>
    cases h
    exact disown_alone core q hv
  | peak core =>
    cases h
    exact peak_alone core q hv
  | pop core =>
    obtain ⟨code, hp, rfl⟩ := hcode _ h
    exact popWith_returns false hv hp
  | popAndDisown core =>
    obtain ⟨code, hp, rfl⟩ := hcode _ h
    exact popWith_returns true hv hp

end Steps

end EDarts.Assets.TpClosuresQueue
