/-
  EDarts.Assets.TpClosuresQueueRuns — the closures queue over whole runs (see
  `EDarts.Assets.TpClosuresQueueProofs`).

  A run is any sequence of complete calls by any cores in which only the owner pops, and
  only after a peak that succeeded. `InOrder` is what a first-in first-out queue shows:
  it looks empty exactly when every closure pushed was popped, and the owner's peak
  points to a copy, in one piece, of the oldest one left.

  - `inOrder_iff_no_drain`: the queue is in order all along a run if and only if no pop
    of the run drains a queue whose tail stands at the end of the space.
  - `a_drained_queue_shows_closures`: with the 100 bytes of the test, three closures that
    end there and three pops leave a queue that is not empty.
-/

import EDarts.Lib.Runs
import EDarts.Assets.TpClosuresQueueProofs

namespace EDarts.Assets.TpClosuresQueue

open Lib Multithreading

variable {queue : Word} {N : Nat}

/-! ## One call -/

/-- The stored closures after a call that answered `code`. -/
def after (L : List GenericTpClosure) : Op → Code → List GenericTpClosure
  | .push _ c, .successOp => L ++ [c]
  | .pop _, .successOp | .popAndDisown _, .successOp => L.tail
  | _, _ => L

/-- A pop that drains the queue at the end of the space. -/
def Drains (queue : Word) (q : TpClosuresQueue) : Op → Prop
  | .pop _ | .popAndDisown _ => DrainsAtEnd queue q
  | _ => False

instance (queue : Word) (q : TpClosuresQueue) : ∀ op, Decidable (Drains queue q op)
  | .pop _ | .popAndDisown _ => inferInstanceAs (Decidable (DrainsAtEnd queue q))
  | .push _ _ | .own _ | .disown _ | .peak _ => inferInstanceAs (Decidable False)

/-- What the callers see to: a closure's size fits a word, and only the owner pops, when
    it has seen a closure. -/
def Allowed (q : TpClosuresQueue) (peaked : Bool) : Op → Prop
  | .push _ c => 12 + c.sizeOfArgs.toNat < 2 ^ 32
  | .pop core | .popAndDisown core => q.queueOwner = core ∧ peaked = true
  | _ => True

instance (q : TpClosuresQueue) (peaked : Bool) : ∀ op, Decidable (Allowed q peaked op)
  | .push _ c => inferInstanceAs (Decidable (12 + c.sizeOfArgs.toNat < 2 ^ 32))
  | .pop core | .popAndDisown core => inferInstanceAs (Decidable (q.queueOwner = core ∧ peaked = true))
  | .own _ | .disown _ | .peak _ => inferInstanceAs (Decidable True)

theorem Lays.owner {q : TpClosuresQueue} {L : List GenericTpClosure} (H : Lays queue N q L) (owner : Word) :
    Lays queue N { q with queueOwner := owner } L := ⟨H.size, H.free, H.layout⟩

theorem popWith_lays (S : Space queue N) {q : TpClosuresQueue} {L : List GenericTpClosure} (H : Lays queue N q L)
    (hne : L ≠ []) (release : TpClosuresQueue → TpClosuresQueue)
    (hrel : ∀ q L, Lays queue N q L → Lays queue N (release q) L) (hd : ¬ DrainsAtEnd queue q) :
    ∃ q', popWith release queue q.queueOwner q = some (.successOp, q') ∧ Lays queue N q' L.tail := by
  have hemp : isTpClosureQueueEmpty q = false := by
    rw [← Bool.not_eq_true, isTpClosureQueueEmpty_iff H]; exact hne
  cases L with
  | nil => exact absurd rfl hne
  | cons c L => exact ⟨_, popWith_free release S.valid H.free rfl hemp, hrel _ _ (H.pop S hd)⟩

theorem peak_lays (S : Space queue N) {q : TpClosuresQueue} {L : List GenericTpClosure} (H : Lays queue N q L)
    (core : Word) : (peakTopElement queue core q).1 = .successOp → L ≠ [] := by
  rintro h rfl
  have hemp := (isTpClosureQueueEmpty_iff H).mpr rfl
  by_cases ho : q.queueOwner = core
  · simp [peakTopElement, S.valid, ho, hemp] at h
  · simp [peakTopElement, S.valid, ho] at h

/-- A call that does not drain the queue at the end returns, and moves the stored
    closures as its code says. -/
theorem step_lays (S : Space queue N) {q : TpClosuresQueue} {L : List GenericTpClosure} (H : Lays queue N q L)
    {peaked : Bool} (hpk : peaked = true → L ≠ []) {op : Op} (hA : Allowed q peaked op) (hd : ¬ Drains queue q op) :
    ∃ out q', step queue q op = some (out, q') ∧ Lays queue N q' (after L op out.1) := by
  cases op with
  | push core c =>
    rw [step, push_free core c S.valid H.free]
    by_cases hfull : calculateMaxFreeSpaceQueue queue q ≤ tpSize c.sizeOfArgs
    · rw [if_pos hfull]
      exact ⟨_, _, rfl, H⟩
    · rw [if_neg hfull]
      exact ⟨_, _, rfl, H.push S hA hfull⟩
  | own core =>
    rw [step, own_free core S.valid H.free]
    by_cases ho : q.queueOwner ≠ 0
    · rw [if_pos ho]
      exact ⟨_, _, rfl, H⟩
    · rw [if_neg ho]
      exact ⟨_, _, rfl, H.owner core⟩
  | disown core =>
    rw [step, disownTpClosureQueue]
    by_cases ho : q.queueOwner = core
    · simp only [S.valid, ho, ne_eq, not_true_eq_false, if_false]
      exact ⟨_, _, rfl, H.owner 0⟩
    · simp only [S.valid, ho, ne_eq, not_true_eq_false, if_false, not_false_eq_true, if_true]
      exact ⟨_, _, rfl, H⟩
  | peak core => exact ⟨_, _, rfl, by cases (peakTopElement queue core q).1 <;> exact H⟩
  | pop core =>
    obtain ⟨rfl, hp⟩ := hA
    obtain ⟨q', hpop, H'⟩ := popWith_lays S H (hpk hp) (fun q => q) (fun _ _ h => h) hd
    rw [step, popTopElementQueue, hpop]
    exact ⟨_, q', rfl, H'⟩
  | popAndDisown core =>
    obtain ⟨rfl, hp⟩ := hA
    obtain ⟨q', hpop, H'⟩ := popWith_lays S H (hpk hp) _ (fun _ _ h => h.owner 0) hd
    rw [step, popTopElementAndDisownQueue, hpop]
    exact ⟨_, q', rfl, H'⟩

/-! ## Runs -/

/-- The queue, the closures pushed and the number popped with success so far, and
    whether a peak succeeded since the last pop. -/
structure Hist where
  q : TpClosuresQueue
  pushed : List GenericTpClosure
  popped : Nat
  peaked : Bool

def Hist.left (s : Hist) : List GenericTpClosure := s.pushed.drop s.popped

/-- What a call that answered `code` and left the queue `q` adds. -/
def Hist.note (s : Hist) (q : TpClosuresQueue) : Op → Code → Hist
  | .push _ c, .successOp => { s with q := q, pushed := s.pushed ++ [c] }
  | .pop _, .successOp | .popAndDisown _, .successOp => { s with q := q, popped := s.popped + 1, peaked := false }
  | .peak _, .successOp => { s with q := q, peaked := true }
  | _, _ => { s with q := q }

def histStep (queue : Word) (s : Hist) (op : Op) : Option (Out × Hist) :=
  (step queue s.q op).map fun r => (r.1, s.note r.2 op r.1.1)

def started (queue newSize : Word) (q : TpClosuresQueue) : Hist := ⟨(initTpClosuresQueue queue newSize q).2, [], 0, false⟩

/-- The owner's peak finds nothing, or the oldest of the closures in one piece inside the
    space. -/
def PeaksOldest (queue : Word) (N : Nat) (q : TpClosuresQueue) : List GenericTpClosure → Prop
  | [] => peakTopElement queue q.queueOwner q = (.emptyQueue, some 0)
  | c :: _ => ∃ p, peakTopElement queue q.queueOwner q = (.successOp, some p) ∧
      block q.mem p.toNat c.size = c.bytes ∧ base queue ≤ p.toNat ∧ p.toNat + c.size ≤ base queue + N

/-- What a first-in first-out queue shows. -/
structure InOrder (queue : Word) (N : Nat) (s : Hist) : Prop where
  count : s.popped ≤ s.pushed.length
  empty : isTpClosureQueueEmpty s.q = true ↔ s.popped = s.pushed.length
  oldest : PeaksOldest queue N s.q s.left

structure Stored (queue : Word) (N : Nat) (s : Hist) : Prop where
  lays : Lays queue N s.q s.left
  count : s.popped ≤ s.pushed.length
  peaked : s.peaked = true → s.left ≠ []

theorem Hist.left_eq_nil {s : Hist} (h : s.popped ≤ s.pushed.length) : s.left = [] ↔ s.popped = s.pushed.length := by
  rw [Hist.left, List.drop_eq_nil_iff]; omega

theorem Stored.inOrder (S : Space queue N) {s : Hist} (H : Stored queue N s) : InOrder queue N s := by
  have hemp := isTpClosureQueueEmpty_iff H.lays
  refine ⟨H.count, by rw [hemp, Hist.left_eq_nil H.count], ?_⟩
  have hlay := H.lays
  cases hl : s.left with
  | nil => simp [PeaksOldest, peakTopElement, S.valid, hemp.mpr hl]
  | cons c L =>
    have hne : ¬ isTpClosureQueueEmpty s.q = true := by rw [hemp, hl]; exact List.cons_ne_nil c L
    rw [hl] at hlay
    exact ⟨s.q.headAddress, by simp [peakTopElement, S.valid, hne], hlay.top⟩

theorem Stored.start (S : Space queue N) {newSize : Word} (hN : newSize.toNat = N) (q : TpClosuresQueue) :
    Stored queue N (started queue newSize q) :=
  ⟨lays_init S hN q, Nat.le_refl 0, fun h => absurd h (by simp [started])⟩

/-- The closures that show a call was allowed: a pop comes after a peak, and a peak
    succeeds on a queue that is not empty. -/
def Shown (L : List GenericTpClosure) : Op → Code → Prop
  | .pop _, _ | .popAndDisown _, _ | .peak _, .successOp => L ≠ []
  | _, _ => True

/-- The history stays in step with the stored closures. -/
theorem Stored.note {s : Hist} (H : Stored queue N s) {q : TpClosuresQueue} {op : Op} {code : Code}
    (hshow : Shown s.left op code) (hlays : Lays queue N q (after s.left op code)) :
    Stored queue N (s.note q op code) := by
  have hcount := H.count
  have hpop : s.left ≠ [] → Lays queue N q s.left.tail →
      Stored queue N { s with q := q, popped := s.popped + 1, peaked := false } := fun h hl => by
    have hlt : ¬ s.popped = s.pushed.length := fun e => h ((Hist.left_eq_nil hcount).mpr e)
    rw [Hist.left, List.tail_drop] at hl
    exact ⟨hl, by simp only; omega, fun e => by cases e⟩
  cases op with
  | push core c =>
    cases code with
    | successOp =>
      have hpush : (s.pushed ++ [c]).drop s.popped = s.left ++ [c] := List.drop_append_of_le_length hcount
      exact ⟨by rw [Hist.left, Hist.note, hpush]; exact hlays, by simp only [Hist.note, List.length_append]; omega,
        fun _ => by rw [Hist.left, Hist.note, hpush]; simp⟩
    | _ => exact ⟨hlays, hcount, H.peaked⟩
  | own core => exact ⟨hlays, hcount, H.peaked⟩
  | disown core => exact ⟨hlays, hcount, H.peaked⟩
  | peak core =>
    cases code with
    | successOp => exact ⟨hlays, hcount, fun _ => hshow⟩
    | _ => exact ⟨hlays, hcount, H.peaked⟩
  | pop core =>
    cases code with
    | successOp => exact hpop hshow hlays
    | _ => exact ⟨hlays, hcount, H.peaked⟩
  | popAndDisown core =>
    cases code with
    | successOp => exact hpop hshow hlays
    | _ => exact ⟨hlays, hcount, H.peaked⟩

theorem Stored.shown (S : Space queue N) {s : Hist} (H : Stored queue N s) {op : Op} (hA : Allowed s.q s.peaked op)
    {out : Out} {q' : TpClosuresQueue} (hst : TpClosuresQueue.step queue s.q op = some (out, q')) :
    Shown s.left op out.1 := by
  cases op with
  | pop core => exact H.peaked hA.2
  | popAndDisown core => exact H.peaked hA.2
  | peak core =>
    obtain ⟨rfl, -⟩ : peakTopElement queue core s.q = out ∧ s.q = q' := by simpa [TpClosuresQueue.step] using hst
    cases hc : (peakTopElement queue core s.q).1 with
    | successOp => exact peak_lays S H.lays core hc
    | _ => trivial
  | _ => trivial

theorem Stored.step (S : Space queue N) {s : Hist} (H : Stored queue N s) {op : Op} (hA : Allowed s.q s.peaked op)
    (hd : ¬ Drains queue s.q op) : ∃ o s', histStep queue s op = some (o, s') ∧ Stored queue N s' := by
  obtain ⟨out, q', hst, hlays⟩ := step_lays S H.lays H.peaked hA hd
  exact ⟨out, _, by rw [histStep, hst]; rfl, H.note (H.shown S hA hst) hlays⟩

/-- A drain at the end leaves a queue that is not in order: every closure is popped, and
    it does not look empty. -/
theorem Stored.drained (S : Space queue N) {s : Hist} (H : Stored queue N s) {op : Op} (hA : Allowed s.q s.peaked op)
    (hd : Drains queue s.q op) : ∃ o s', histStep queue s op = some (o, s') ∧ ¬ InOrder queue N s' := by
  -- both pops: the removal shows closures where none is left, and no count agrees with that
  have hpop : ∀ (release : TpClosuresQueue → TpClosuresQueue),
      (∀ q, isTpClosureQueueEmpty (release q) = isTpClosureQueueEmpty q) → DrainsAtEnd queue s.q → s.left ≠ [] →
      ∃ q', popWith release queue s.q.queueOwner s.q = some (.successOp, q') ∧
        ¬ InOrder queue N ⟨q', s.pushed, s.popped + 1, false⟩ := by
    intro release hrel hd hne
    have hlay := H.lays
    have hcount := H.count
    cases hl : s.left with
    | nil => exact absurd hl hne
    | cons c L =>
      rw [hl] at hlay
      obtain ⟨rfl, hshow⟩ := drain_at_end S hlay hd
      have hemp : isTpClosureQueueEmpty s.q = false := by
        rw [← Bool.not_eq_true, isTpClosureQueueEmpty_iff hlay]; exact List.cons_ne_nil c []
      refine ⟨_, popWith_free release S.valid hlay.free rfl hemp, fun hO => ?_⟩
      have hlen := congrArg List.length hl
      rw [Hist.left, List.length_drop, List.length_singleton] at hlen
      have := hO.empty.mpr (by simp only; omega)
      rw [hrel, hshow] at this
      cases this
  cases op with
  | pop core =>
    obtain ⟨rfl, hp⟩ := hA
    obtain ⟨q', hpop, hn⟩ := hpop (fun q => q) (fun _ => rfl) hd (H.peaked hp)
    exact ⟨_, _, by rw [histStep, TpClosuresQueue.step, popTopElementQueue, hpop]; rfl, hn⟩
  | popAndDisown core =>
    obtain ⟨rfl, hp⟩ := hA
    obtain ⟨q', hpop, hn⟩ := hpop (fun q => { q with queueOwner := 0 }) (fun _ => rfl) hd (H.peaked hp)
    exact ⟨_, _, by rw [histStep, TpClosuresQueue.step, popTopElementAndDisownQueue, hpop]; rfl, hn⟩
  | push core c => exact hd.elim
  | own core => exact hd.elim
  | disown core => exact hd.elim
  | peak core => exact hd.elim

/-- The queue is in order all along a run exactly when no pop drains a queue whose tail
    stands at the end of the space. -/
theorem inOrder_iff_no_drain (queue newSize : Word) (q : TpClosuresQueue) (S : Space queue newSize.toNat)
    (ops : List Op)
    (hA : EachStep (histStep queue) (fun s op => Allowed s.q s.peaked op) (started queue newSize q) ops) :
    Throughout (histStep queue) (InOrder queue newSize.toNat) (started queue newSize q) ops ↔
      EachStep (histStep queue) (fun s op => ¬ Drains queue s.q op) (started queue newSize q) ops :=
  throughout_iff (fun _ H => H.inOrder S) (fun _ _ H hA hd => H.step S hA hd)
    (fun _ _ H hA hd => H.drained S hA (Classical.not_not.mp hd)) ops _ (Stored.start S rfl q) hA

/-! ## The test's queue -/

/-- A closure with `n` zero bytes of arguments. -/
def zeros (n : Nat) (h : n < 2 ^ 32) : GenericTpClosure :=
  ⟨0, 0, BitVec.ofNat 32 n, List.replicate n 0, by
    rw [List.length_replicate, BitVec.toNat_ofNat, Nat.mod_eq_of_lt h]⟩

/-- The test's queue, before `initTpClosuresQueue`. -/
def testQueue : TpClosuresQueue := ⟨0, 0, 0, 0, 0, 0, fun _ => 0⟩

theorem space_test : Space 0x80803004 (100 : Word).toNat := ⟨rfl, by decide⟩

def ownerPops : List Op := [.peak 0x808, .pop 0x808]

/-- Of 50, 20 and 40 bytes the last go to the start of the space, when the 50 were popped. -/
theorem inOrder_iff_no_drain_100 :
    Throughout (histStep 0x80803004) (InOrder 0x80803004 100) (started 0x80803004 100 testQueue)
      ([.own 0x808, .push 0x809 (filled 1 38 (by decide)), .push 0x80A (filled 2 8 (by decide))] ++ ownerPops ++
        .push 0x809 (filled 3 28 (by decide)) :: (ownerPops ++ ownerPops)) :=
  (inOrder_iff_no_drain 0x80803004 100 testQueue space_test _ (by decide +kernel)).mpr (by decide +kernel)

/-- 50, 20 and, after a pop, 30 bytes fill the 100 of the test up to the end; when the
    owner has popped all three, the queue is not empty. -/
theorem a_drained_queue_shows_closures :
    ¬ ∀ (queue newSize : Word) (q : TpClosuresQueue), Space queue newSize.toNat → q.queueOwner = 0 →
      ∀ ops, EachStep (histStep queue) (fun s op => Allowed s.q s.peaked op) (started queue newSize q) ops →
        Throughout (histStep queue) (InOrder queue newSize.toNat) (started queue newSize q) ops := by
  intro hall
  let ops : List Op := [.own 0x808, .push 0x809 (zeros 38 (by decide)), .push 0x809 (zeros 8 (by decide))] ++
    ownerPops ++ [.push 0x809 (zeros 18 (by decide))] ++ ownerPops ++ ownerPops
  have hrun : (run (histStep 0x80803004) (started 0x80803004 100 testQueue) ops).map
      (fun r => (isTpClosureQueueEmpty r.2.q, r.2.pushed.length, r.2.popped)) = some (false, 3, 3) := by
    decide +kernel
  obtain ⟨⟨os, s⟩, hrun, hs⟩ := Option.map_eq_some_iff.mp hrun
  simp only [Prod.mk.injEq] at hs
  obtain ⟨he, hpush, hpop⟩ := hs
  have hO := (hall 0x80803004 100 testQueue space_test rfl ops (by decide +kernel)).last hrun
  have := hO.empty.mpr (by omega)
  rw [he] at this
  cases this

end EDarts.Assets.TpClosuresQueue
