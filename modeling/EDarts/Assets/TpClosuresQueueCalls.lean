/-
  EDarts.Assets.TpClosuresQueueCalls — one call on a closures queue whose mutex is free
  (see `EDarts.Assets.TpClosuresQueueProofs`).

  - `push_appends`: a push succeeds exactly when one of the free gaps is larger than the
    closure. Then the closure is the last one stored, in one piece before the tail; the
    bytes of the others, what is outside the space and the rest of the header are as
    before.
  - `failure_traceless_iff`: a call that fails leaves the queue as it was, unless it is a
    pop by the owner of an empty queue, which keeps the mutex: `a_failed_pop_keeps_the_mutex`.
-/

import EDarts.Assets.TpClosuresQueueProofs

namespace EDarts.Assets.TpClosuresQueue

open Lib Multithreading

variable {queue : Word} {N : Nat}

/-! ## Where a push puts the closure -/

/-- A free gap is larger than `n` bytes: behind the tail or before the head, straight;
    between tail and head, wrapped. -/
def HasGap (queue : Word) (q : TpClosuresQueue) (n : Nat) : Prop :=
  if q.headAddress.toNat ≤ q.tailAddress.toNat then
    n < base queue + q.size.toNat - q.tailAddress.toNat ∨ n < q.headAddress.toNat - base queue
  else n < q.headAddress.toNat - q.tailAddress.toNat

/-- The addresses of the stored closures' bytes. -/
def Live (queue : Word) (q : TpClosuresQueue) (k : Nat) : Prop :=
  if q.headAddress.toNat ≤ q.tailAddress.toNat then q.headAddress.toNat ≤ k ∧ k < q.tailAddress.toNat
  else (q.headAddress.toNat ≤ k ∧ k + q.padding.toNat < base queue + q.size.toNat) ∨
    (base queue ≤ k ∧ k < q.tailAddress.toNat)

/-- The insertion goes to the tail; otherwise it leaves a padding and goes to the start. -/
def AtTail (queue : Word) (c : GenericTpClosure) (q : TpClosuresQueue) : Prop :=
  q.tailAddress ≤ q.headAddress ∨ tpSize c.sizeOfArgs ≤ initAddress queue + q.size - q.tailAddress

instance (queue : Word) (c : GenericTpClosure) (q : TpClosuresQueue) : Decidable (AtTail queue c q) :=
  inferInstanceAs (Decidable (_ ∨ _))

def dest (queue : Word) (c : GenericTpClosure) (q : TpClosuresQueue) : Word :=
  if AtTail queue c q then q.tailAddress else initAddress queue

theorem insert_eq (queue : Word) (c : GenericTpClosure) (q : TpClosuresQueue) :
    insert queue c q = { q with
      padding := if AtTail queue c q then q.padding else initAddress queue + q.size - q.tailAddress
      mem := storeBytes q.mem (dest queue c q) (c.bytes.take (tpSize c.sizeOfArgs).toNat)
      tailAddress := dest queue c q + tpSize c.sizeOfArgs } := by
  unfold insert dest
  by_cases h : q.tailAddress ≤ q.headAddress
  · have ht : AtTail queue c q := .inl h
    simp only [h, ht, if_true]
  · by_cases h' : tpSize c.sizeOfArgs ≤ initAddress queue + q.size - q.tailAddress
    · have ht : AtTail queue c q := .inr h'
      simp only [h, h', ht, if_true, if_false]
    · have ht : ¬ AtTail queue c q := fun e => e.elim h h'
      simp only [h, h', ht, if_false]

/-- The test for space, in numbers. -/
theorem hasGap_iff (S : Space queue N) {q : TpClosuresQueue} {L : List GenericTpClosure} (H : Lays queue N q L)
    {c : GenericTpClosure} (hc : 12 + c.sizeOfArgs.toNat < 2 ^ 32) :
    HasGap queue q c.size ↔ ¬ calculateMaxFreeSpaceQueue queue q ≤ tpSize c.sizeOfArgs := by
  have hsz := tpSize_toNat hc
  obtain ⟨hs, -, hlay⟩ := H
  rw [BitVec.le_def, hsz]
  unfold HasGap
  cases hlay with
  | straight hp hb ht he hn =>
    have hle := Tiles.le ht
    rw [calculateMaxFreeSpaceQueue_toNat S hs hb he, if_pos hle, if_pos hle]
    omega
  | wrapped hb htf hpe htb hlt =>
    have hle := Tiles.le htf
    have hle' := Tiles.le htb
    have hnot : ¬ q.headAddress.toNat ≤ q.tailAddress.toNat := by omega
    rw [calculateMaxFreeSpaceQueue_toNat S hs (by omega) (by omega), if_neg hnot, if_neg hnot]
    omega

/-- The stored bytes are inside the space. -/
theorem Lays.live_inside {q : TpClosuresQueue} {L : List GenericTpClosure} (H : Lays queue N q L) {k : Nat}
    (hk : Live queue q k) : base queue ≤ k ∧ k < base queue + N := by
  obtain ⟨hs, -, hlay⟩ := H
  unfold Live at hk
  cases hlay with
  | straight hp hb ht he hn =>
    rw [if_pos (Tiles.le ht)] at hk
    omega
  | wrapped hb htf hpe htb hlt =>
    have hle := Tiles.le htf
    have hle' := Tiles.le htb
    rw [if_neg (by omega)] at hk
    omega

/-- With room, the closure goes inside the space and beside the stored ones. -/
theorem Lays.place (S : Space queue N) {q : TpClosuresQueue} {L : List GenericTpClosure} (H : Lays queue N q L)
    {c : GenericTpClosure} (hc : 12 + c.sizeOfArgs.toNat < 2 ^ 32) (hgap : HasGap queue q c.size) :
    base queue ≤ (dest queue c q).toNat ∧ (dest queue c q).toNat + c.size ≤ base queue + N ∧
      ∀ k, Live queue q k → k < (dest queue c q).toNat ∨ (dest queue c q).toNat + c.size ≤ k := by
  have hsz := tpSize_toNat hc
  have hinit := initAddress_toNat S
  have hend := end_toNat S H.size
  obtain ⟨hs, -, hlay⟩ := H
  unfold HasGap at hgap
  unfold Live dest
  cases hlay with
  | straight hp hb ht he hn =>
    have hle := Tiles.le ht
    rw [if_pos hle] at hgap
    have hsp : (initAddress queue + q.size - q.tailAddress).toNat = base queue + N - q.tailAddress.toNat := by
      rw [BitVec.toNat_sub_of_le (by rw [BitVec.le_def]; omega), hend]
    have htail : AtTail queue c q ↔
        q.tailAddress.toNat ≤ q.headAddress.toNat ∨ c.size ≤ base queue + N - q.tailAddress.toNat := by
      rw [AtTail, BitVec.le_def, BitVec.le_def, hsz, hsp]
    by_cases hat : AtTail queue c q
    · rw [if_pos hat]
      have hfits : q.tailAddress.toNat + c.size ≤ base queue + N := by
        rcases htail.mp hat with hemp | hfits
        · -- an empty queue starts at the base
          have heq : q.headAddress.toNat = q.tailAddress.toNat := Nat.le_antisymm hle hemp
          have hstart := hn ((heq ▸ ht).eq_nil bytes_pos)
          omega
        · omega
      refine ⟨by omega, hfits, fun k hk => ?_⟩
      rw [if_pos hle] at hk
      omega
    · rw [if_neg hat, hinit]
      rw [htail] at hat
      refine ⟨Nat.le_refl _, by omega, fun k hk => ?_⟩
      rw [if_pos hle] at hk
      omega
  | wrapped hb htf hpe htb hlt =>
    have hle := Tiles.le htf
    have hle' := Tiles.le htb
    have hnot : ¬ q.headAddress.toNat ≤ q.tailAddress.toNat := by omega
    have hat : AtTail queue c q := .inl (BitVec.le_def.mpr (Nat.le_of_lt hlt))
    rw [if_neg hnot] at hgap
    rw [if_pos hat]
    refine ⟨by omega, by omega, fun k hk => ?_⟩
    rw [if_neg hnot] at hk
    omega

/-! ## The push -/

/-- What a push that succeeds does to the queue `q`, which stored `L`. -/
structure Appends (queue : Word) (N : Nat) (q : TpClosuresQueue) (L : List GenericTpClosure) (c : GenericTpClosure)
    (q' : TpClosuresQueue) : Prop where
  lays : Lays queue N q' (L ++ [c])
  contiguous : block q'.mem (q'.tailAddress.toNat - c.size) c.size = c.bytes
  live : ∀ k, Live queue q k → q'.mem (BitVec.ofNat 32 k) = q.mem (BitVec.ofNat 32 k)
  outside : ∀ a : Word, a.toNat < base queue ∨ base queue + N ≤ a.toNat → q'.mem a = q.mem a
  head : q'.headAddress = q.headAddress
  size : q'.size = q.size
  owner : q'.queueOwner = q.queueOwner

theorem Lays.appends (S : Space queue N) {q : TpClosuresQueue} {L : List GenericTpClosure} (H : Lays queue N q L)
    {c : GenericTpClosure} (hc : 12 + c.sizeOfArgs.toNat < 2 ^ 32) (hgap : HasGap queue q c.size) :
    Appends queue N q L c (insert queue c q) := by
  have hfit := S.fits
  have hlen := c.bytes_length
  have hbase : base queue = queue.toNat + 24 := rfl
  obtain ⟨hlow, hhigh, hbeside⟩ := H.place S hc hgap
  have hout : ∀ k, k < 2 ^ 32 → k < (dest queue c q).toNat ∨ (dest queue c q).toNat + c.size ≤ k →
      storeBytes q.mem (dest queue c q) c.bytes (BitVec.ofNat 32 k) = q.mem (BitVec.ofNat 32 k) := fun k hk h =>
    storeBytes_out q.mem hk (by omega) (by rw [hlen]; exact h)
  have hlays := H.push S hc ((hasGap_iff S H hc).mp hgap)
  rw [insert_eq, content_eq hc] at hlays ⊢
  refine ⟨hlays, ?_, fun k hk => hout k (by have := H.live_inside hk; omega) (hbeside k hk), fun a ha => ?_,
    rfl, rfl, rfl⟩
  · rw [toNat_add_tpSize hc (by omega), Nat.add_sub_cancel, ← hlen]
    exact block_storeBytes q.mem (by omega)
  · have ha' := hout a.toNat a.isLt (by omega)
    rwa [BitVec.ofNat_toNat, BitVec.setWidth_eq] at ha'

/-- A push on a queue that stores `L` succeeds exactly when a free gap is larger than the
    closure, and then appends it and touches nothing else. -/
theorem push_appends (S : Space queue N) {q : TpClosuresQueue} {L : List GenericTpClosure} (H : Lays queue N q L)
    (c : GenericTpClosure) (hc : 12 + c.sizeOfArgs.toNat < 2 ^ 32) (core : Word) :
    ∃ code q', pushTpClosureQueue queue core c q = some (code, q') ∧ (code = .successOp ↔ HasGap queue q c.size) ∧
      (code = .successOp → Appends queue N q L c q') := by
  rw [push_free core c S.valid H.free]
  have hgap := hasGap_iff S H hc
  by_cases hfull : calculateMaxFreeSpaceQueue queue q ≤ tpSize c.sizeOfArgs
  · rw [if_pos hfull]
    exact ⟨_, _, rfl, by rw [hgap]; simp [hfull], fun e => by cases e⟩
  · rw [if_neg hfull]
    exact ⟨_, _, rfl, by rw [hgap]; simp [hfull], fun _ => H.appends S hc (hgap.mpr hfull)⟩

theorem space_100 : Space 0x80803004 100 := ⟨rfl, by decide⟩

/-- The test's queue of 100 bytes, initialized. -/
def emptyQueue : TpClosuresQueue := (initTpClosuresQueue 0x80803004 100 ⟨0, 0, 0, 0, 0, 0, fun _ => 0⟩).2

theorem lays_emptyQueue : Lays 0x80803004 100 emptyQueue [] := lays_init space_100 rfl _

theorem length_noArgs : ([] : List Byte).length = (0 : Word).toNat := rfl

def withoutArgs : GenericTpClosure := ⟨0, 0, 0, [], length_noArgs⟩

/-- The test's queue when 60 and 20 bytes were pushed, the 60 popped, and 24 pushed, which go to
    the start of the space. -/
def wrappedQueue : TpClosuresQueue :=
  insert 0x80803004 (filled 3 12 (by decide)) (removeTop 0x80803004
    (insert 0x80803004 (filled 2 8 (by decide)) (insert 0x80803004 (filled 1 48 (by decide)) emptyQueue)))

theorem lays_wrappedQueue : Lays 0x80803004 100 wrappedQueue [filled 2 8 (by decide), filled 3 12 (by decide)] := by
  have h60 := lays_emptyQueue.push space_100 (c := filled 1 48 (by decide)) (by decide) (by decide)
  have h20 := h60.push space_100 (c := filled 2 8 (by decide)) (by decide) (by decide +kernel)
  exact (h20.pop space_100 (by decide +kernel)).push space_100 (c := filled 3 12 (by decide)) (by decide) (by decide +kernel)

/-- 16 bytes fit between its tail and its head. -/
theorem push_appends_100 : wrappedQueue.tailAddress < wrappedQueue.headAddress ∧ wrappedQueue.padding = 20 ∧
    ∃ q', pushTpClosureQueue 0x80803004 0x809 (filled 4 4 (by decide)) wrappedQueue = some (.successOp, q') ∧
      Appends 0x80803004 100 wrappedQueue [filled 2 8 (by decide), filled 3 12 (by decide)] (filled 4 4 (by decide)) q' := by
  have hgap : HasGap 0x80803004 wrappedQueue (filled 4 4 (by decide)).size :=
    (hasGap_iff space_100 lays_wrappedQueue (by decide)).mpr (by decide +kernel)
  obtain ⟨code, q', hpush, hcode, happends⟩ := push_appends space_100 lays_wrappedQueue (filled 4 4 (by decide)) (by decide) 0x809
  rw [hcode.mpr hgap] at hpush happends
  exact ⟨by decide +kernel, by decide +kernel, q', hpush, happends rfl⟩

/-! ## Calls that fail -/

/-- If the call `r` on the queue `q` fails, the queue is as it was. -/
def Unchanged (q : TpClosuresQueue) (r : Option (Code × TpClosuresQueue)) : Prop :=
  ∀ code q', r = some (code, q') → code ≠ .successOp → q' = q

/-- A call that fails leaves the queue as it was; with the mutex free it is free again. -/
def Traceless (queue : Word) (q : TpClosuresQueue) (op : Op) : Prop :=
  ∀ out q', step queue q op = some (out, q') → out.1 ≠ .successOp → q' = q

/-- A pop that returns with the mutex: the owner finds the queue empty. (At an address
    whose lower 20 bits are 0 there is no mutex to keep, and a core 0 takes none.) -/
def KeepsMutex (queue : Word) (q : TpClosuresQueue) : Op → Prop
  | .pop core | .popAndDisown core =>
    checkIfValidAddress queue = .successOp ∧ q.queueOwner = core ∧ isTpClosureQueueEmpty q = true ∧
      mutexPtr queue &&& 0x000FFFFF ≠ 0 ∧ core ≠ 0
  | _ => False

/-- The owner's pop of an empty queue returns with what the lock stored. -/
theorem popWith_empty {queue : Word} (release : TpClosuresQueue → TpClosuresQueue) {q : TpClosuresQueue}
    (hv : checkIfValidAddress queue = .successOp) (hf : q.lockMutex = 0) (he : isTpClosureQueueEmpty q = true) :
    ∃ w, popWith release queue q.queueOwner q = some (.emptyQueue, { q with lockMutex := w }) ∧
      (w = 0 ↔ mutexPtr queue &&& 0x000FFFFF = 0 ∨ q.queueOwner = 0) := by
  have he' : ∀ w, isTpClosureQueueEmpty { q with lockMutex := w } = true := fun _ => he
  by_cases hl : mutexPtr queue &&& 0x000FFFFF = 0
  · refine ⟨0, ?_, iff_of_true rfl (.inl hl)⟩
    simp only [popWith, lock, dartsMutexLock, hv, hf, hl, he', ne_eq, not_true_eq_false, if_false, if_true,
      Option.map_some]
  · refine ⟨q.queueOwner, ?_, by simp only [hl, false_or]⟩
    simp only [popWith, lock, dartsMutexLock_eq hl, hv, hf, he', ne_eq, not_true_eq_false, if_false, if_true,
      Option.map_some]

theorem popWith_refused {queue core : Word} (release : TpClosuresQueue → TpClosuresQueue) {q : TpClosuresQueue}
    (h : ¬ (checkIfValidAddress queue = .successOp ∧ q.queueOwner = core)) :
    ∃ code, popWith release queue core q = some (code, q) := by
  by_cases hv : checkIfValidAddress queue = .successOp
  · have ho : q.queueOwner ≠ core := fun e => h ⟨hv, e⟩
    exact ⟨.notOwner, by simp only [popWith, hv, ho, ne_eq, not_true_eq_false, not_false_eq_true, if_true, if_false]⟩
  · exact ⟨.invalidQueueAddress, by simp only [popWith, hv, ne_eq, not_false_eq_true, if_true]⟩

/-- Either pop leaves no trace of a failure, but for the mutex that it keeps. -/
theorem popWith_traceless_iff {queue : Word} (release : TpClosuresQueue → TpClosuresQueue) {q : TpClosuresQueue}
    (hf : q.lockMutex = 0) (core : Word) :
    Unchanged q (popWith release queue core q) ↔ ¬ KeepsMutex queue q (.pop core) := by
  unfold Unchanged
  by_cases hok : checkIfValidAddress queue = .successOp ∧ q.queueOwner = core
  · obtain ⟨hv, rfl⟩ := hok
    cases he : isTpClosureQueueEmpty q with
    | true =>
      obtain ⟨w, hp, hw⟩ := popWith_empty release hv hf he
      have hself : ({ q with lockMutex := w } : TpClosuresQueue) = q ↔ w = 0 := by
        constructor
        · intro h
          rw [← hf, ← h]
        · intro h
          rw [h, ← hf]
      rw [hp]
      constructor
      · intro h hk
        have hz := hw.mp (hself.mp (h _ _ rfl (by simp)))
        exact hz.elim hk.2.2.2.1 hk.2.2.2.2
      · intro hk code q' h _
        simp only [Option.some.injEq, Prod.mk.injEq] at h
        rw [← h.2, hself, hw]
        by_contra hno
        rw [not_or] at hno
        exact hk ⟨hv, rfl, he, hno.1, hno.2⟩
    | false =>
      rw [popWith_free release hv hf rfl he]
      simp [KeepsMutex, he]
  · obtain ⟨code, hp⟩ := popWith_refused release hok
    rw [hp]
    refine iff_of_true (fun code' q' h _ => ?_) (fun h => hok ⟨h.1, h.2.1⟩)
    simp only [Option.some.injEq, Prod.mk.injEq] at h
    exact h.2.symm

theorem unchanged_fail (q : TpClosuresQueue) (code : Code) : Unchanged q (some (code, q)) := by
  intro code' q' h _
  rw [Option.some.injEq, Prod.mk.injEq] at h
  exact h.2.symm

theorem unchanged_success (q q' : TpClosuresQueue) : Unchanged q (some (.successOp, q')) := by
  intro code q'' h hne
  rw [Option.some.injEq, Prod.mk.injEq] at h
  exact absurd h.1.symm hne

theorem push_unchanged (queue core : Word) (c : GenericTpClosure) {q : TpClosuresQueue} (hf : q.lockMutex = 0) :
    Unchanged q (pushTpClosureQueue queue core c q) := by
  by_cases hv : checkIfValidAddress queue = .successOp
  · rw [push_free core c hv hf]
    by_cases hfull : calculateMaxFreeSpaceQueue queue q ≤ tpSize c.sizeOfArgs
    · rw [if_pos hfull]
      exact unchanged_fail q _
    · rw [if_neg hfull]
      exact unchanged_success q _
  · rw [pushTpClosureQueue, if_pos hv]
    exact unchanged_fail q _

theorem own_unchanged (queue core : Word) {q : TpClosuresQueue} (hf : q.lockMutex = 0) :
    Unchanged q (ownTpClosureQueue queue core q) := by
  by_cases hv : checkIfValidAddress queue = .successOp
  · rw [own_free core hv hf]
    by_cases ho : q.queueOwner ≠ 0
    · rw [if_pos ho]
      exact unchanged_fail q _
    · rw [if_neg ho]
      exact unchanged_success q _
  · rw [ownTpClosureQueue, if_pos hv]
    exact unchanged_fail q _

theorem disown_unchanged (queue core : Word) (q : TpClosuresQueue) :
    Unchanged q (some (disownTpClosureQueue queue core q)) := by
  unfold disownTpClosureQueue
  by_cases hv : checkIfValidAddress queue ≠ .successOp
  · rw [if_pos hv]
    exact unchanged_fail q _
  · rw [if_neg hv]
    by_cases ho : q.queueOwner ≠ core
    · rw [if_pos ho]
      exact unchanged_fail q _
    · rw [if_neg ho]
      exact unchanged_success q _

/-- A call that returns no pointer. -/
theorem traceless_iff {queue : Word} {q : TpClosuresQueue} {op : Op} {r : Option (Code × TpClosuresQueue)}
    (h : step queue q op = r.map fun r => ((r.1, none), r.2)) : Traceless queue q op ↔ Unchanged q r := by
  unfold Traceless Unchanged
  rw [h]
  constructor
  · intro hall code q' hr hne
    exact hall (code, none) q' (by rw [hr]; rfl) hne
  · intro hall out q' hr hne
    obtain ⟨⟨code, q''⟩, hr', he⟩ := Option.map_eq_some_iff.mp hr
    simp only [Prod.mk.injEq] at he
    obtain ⟨rfl, rfl⟩ := he
    exact hall code q'' hr' hne

/-- Every call on a queue with a free mutex: when it fails, the queue is as it was and the
    mutex free, exactly unless it is a pop by the owner of an empty queue. -/
theorem failure_traceless_iff (queue : Word) (q : TpClosuresQueue) (hf : q.lockMutex = 0) (op : Op) :
    Traceless queue q op ↔ ¬ KeepsMutex queue q op := by
  cases op with
  | push core c =>
    rw [traceless_iff (r := pushTpClosureQueue queue core c q) rfl]
    exact iff_of_true (push_unchanged queue core c hf) id
  | own core =>
    rw [traceless_iff (r := ownTpClosureQueue queue core q) rfl]
    exact iff_of_true (own_unchanged queue core hf) id
  | disown core =>
    rw [traceless_iff (r := some (disownTpClosureQueue queue core q)) rfl]
    exact iff_of_true (disown_unchanged queue core q) id
  | peak core =>
    refine iff_of_true (fun out q' h _ => ?_) id
    rw [step, Option.some.injEq, Prod.mk.injEq] at h
    exact h.2.symm
  | pop core =>
    rw [traceless_iff (r := popTopElementQueue queue core q) rfl]
    exact popWith_traceless_iff (fun q => q) hf core
  | popAndDisown core =>
    rw [traceless_iff (r := popTopElementAndDisownQueue queue core q) rfl]
    exact popWith_traceless_iff (fun q => { q with queueOwner := 0 }) hf core

/-- A second owner is turned away without a trace. -/
theorem failure_traceless_iff_own : Traceless 0x80803004 { emptyQueue with queueOwner := 0x808 } (.own 0x809) :=
  (failure_traceless_iff 0x80803004 { emptyQueue with queueOwner := 0x808 } rfl (.own 0x809)).mpr id

/-- The owner pops the empty queue: the call fails, and the mutex stays taken. -/
theorem a_failed_pop_keeps_the_mutex :
    ¬ ∀ (queue : Word) (q : TpClosuresQueue) (op : Op), q.lockMutex = 0 → Traceless queue q op := by
  intro hall
  have hrun : (step 0x80803004 { emptyQueue with queueOwner := 0x808 } (.pop 0x808)).map
      (fun r => (r.1.1, r.2.lockMutex)) = some (.emptyQueue, 0x808) := by decide +kernel
  obtain ⟨⟨out, q⟩, hst, hq⟩ := Option.map_eq_some_iff.mp hrun
  simp only [Prod.mk.injEq] at hq
  obtain ⟨hcode, hlock⟩ := hq
  have hsame := hall 0x80803004 { emptyQueue with queueOwner := 0x808 } (.pop 0x808) rfl out q hst (by rw [hcode]; simp)
  rw [hsame] at hlock
  exact absurd hlock (by decide)

end EDarts.Assets.TpClosuresQueue
