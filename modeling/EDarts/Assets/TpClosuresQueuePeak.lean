/-
  EDarts.Assets.TpClosuresQueuePeak — the owner's peak, made without the mutex while other
  cores push (see `EDarts.Assets.TpClosuresQueueSteps`).

  Core `c` owns the queue and neither pops nor disowns; everything else goes on, any number
  of cores at once. `q₀` is the queue as it was when the core inside the mutex began to
  write: a push writes its padding and copies its bytes beside the closures of `q₀`
  (`Lays.place`), and the tail write is what shows the new one. So whatever `c` reads in
  between is the head and the tail of a queue that stores all that was pushed so far
  (`Shows`). `Midway` says how far the core inside the mutex is, `Kept` is the invariant.

  - `peak_stable`: a peak by `c` that succeeds points to the whole oldest closure; every
    later peak gives the same pointer, and the closure's bytes stay.
-/

import EDarts.Assets.TpClosuresQueueCalls
import EDarts.Assets.TpClosuresQueueOwnership

namespace EDarts.Assets.TpClosuresQueue

open Lib Multithreading

variable {queue : Word} {N : Nat}

/-! ## A push that is under way -/

/-- The queue `q` once the padding and `i` bytes of the closure are written. -/
def partly (queue : Word) (c : GenericTpClosure) (q : TpClosuresQueue) (i : Nat) : TpClosuresQueue :=
  { q with
    padding := if AtTail queue c q then q.padding else initAddress queue + q.size - q.tailAddress
    mem := storeBytes q.mem (dest queue c q) ((c.bytes.take (tpSize c.sizeOfArgs).toNat).take i) }

/-- What one sees of a queue that stores `L` while a push may be under way. -/
structure Shows (queue : Word) (N : Nat) (q : TpClosuresQueue) (L : List GenericTpClosure) : Prop where
  sees : ∃ q₀, Lays queue N q₀ L ∧ q.headAddress = q₀.headAddress ∧ q.tailAddress = q₀.tailAddress ∧
    ∀ k, Live queue q₀ k → q.mem (BitVec.ofNat 32 k) = q₀.mem (BitVec.ofNat 32 k)

/-- The oldest closure's bytes are stored ones. -/
theorem Lays.live_top {q : TpClosuresQueue} {c : GenericTpClosure} {L : List GenericTpClosure}
    (H : Lays queue N q (c :: L)) {k : Nat} (hl : q.headAddress.toNat ≤ k) (hr : k < q.headAddress.toNat + c.size) :
    Live queue q k := by
  have hlen := c.bytes_length
  obtain ⟨hs, -, hlay⟩ := H
  unfold Live
  cases hlay with
  | straight hp hb ht he hn =>
    have hle := Tiles.le ht.2
    rw [if_pos (by omega)]
    omega
  | wrapped hb htf hpe htb hlt =>
    have hle := Tiles.le htf.2
    rw [if_neg (by omega)]
    omega

theorem Shows.top {q : TpClosuresQueue} {c : GenericTpClosure} {L : List GenericTpClosure}
    (H : Shows queue N q (c :: L)) : block q.mem q.headAddress.toNat c.size = c.bytes := by
  obtain ⟨q₀, H₀, hh, -, hlive⟩ := H.sees
  have htop := H₀.top.1
  rw [hh, ← htop]
  exact block_congr fun k hl hr => hlive k (H₀.live_top hl hr)

theorem Shows.nonempty {q : TpClosuresQueue} {L : List GenericTpClosure} (H : Shows queue N q L)
    (h : q.headAddress ≠ q.tailAddress) : L ≠ [] := by
  obtain ⟨q₀, H₀, hh, ht, -⟩ := H.sees
  intro e
  apply h
  have hempty := (isTpClosureQueueEmpty_iff H₀).mpr e
  rw [isTpClosureQueueEmpty, beq_iff_eq] at hempty
  rw [hh, ht, hempty]

theorem Shows.apart {q : TpClosuresQueue} {L : List GenericTpClosure} (H : Shows queue N q L) (h : L ≠ []) :
    q.headAddress ≠ q.tailAddress := by
  obtain ⟨q₀, H₀, hh, ht, -⟩ := H.sees
  intro e
  apply h
  rw [← isTpClosureQueueEmpty_iff H₀, isTpClosureQueueEmpty, beq_iff_eq, ← hh, ← ht, e]

theorem Lays.shows {q : TpClosuresQueue} {L : List GenericTpClosure} (H : Lays queue N q L) : Shows queue N q L :=
  ⟨q, H, rfl, rfl, fun _ _ => rfl⟩

/-- What is written so far is beside the stored closures. -/
theorem Lays.shows_partly (S : Space queue N) {q : TpClosuresQueue} {L : List GenericTpClosure} (H : Lays queue N q L)
    {c : GenericTpClosure} (hc : 12 + c.sizeOfArgs.toNat < 2 ^ 32) (hgap : HasGap queue q c.size) (i : Nat) :
    Shows queue N (partly queue c q i) L := by
  have hfit := S.fits
  obtain ⟨hlow, hhigh, hbeside⟩ := H.place S hc hgap
  refine ⟨q, H, rfl, rfl, fun k hk => ?_⟩
  have hinside := H.live_inside hk
  have hlen : (c.bytes.take i).length ≤ c.size := by rw [← c.bytes_length]; exact List.length_take_le' i c.bytes
  have hbase : base queue = queue.toNat + 24 := rfl
  simp only [partly, content_eq hc]
  apply storeBytes_out q.mem (by omega) (by omega)
  rcases hbeside k hk with h | h
  · exact .inl h
  · exact .inr (by omega)

/-- All bytes copied, the tail write completes the insertion. -/
theorem partly_insert (c : GenericTpClosure) (q : TpClosuresQueue) {i : Nat}
    (hi : (c.bytes.take (tpSize c.sizeOfArgs).toNat).length ≤ i) :
    { partly queue c q i with tailAddress := dest queue c q + tpSize c.sizeOfArgs } = insert queue c q := by
  rw [insert_eq, partly, List.take_of_length_le hi]

namespace Steps

/-! ## The core inside the mutex -/

/-- The queue as it is with its mutex free. -/
def freed (q : TpClosuresQueue) : TpClosuresQueue := { q with lockMutex := 0 }

/-- The queue when the core inside the mutex is at `pc`, and when nobody is inside; `L` are
    the closures whose tail write is done. -/
def Midway (queue : Word) (N : Nat) (L : List GenericTpClosure) : Pc → TpClosuresQueue → Prop
  | .push c .placing, q => Lays queue N (freed q) L ∧ HasGap queue q c.size
  | .push c (.padding spaceAfterTail), q =>
    (Lays queue N (freed q) L ∧ HasGap queue q c.size) ∧ ¬ AtTail queue c q ∧
      spaceAfterTail = initAddress queue + q.size - q.tailAddress
  | .push c (.copying wrapped dst i), q =>
    ∃ q₀, (Lays queue N q₀ L ∧ HasGap queue q₀ c.size) ∧ (wrapped = true ↔ ¬ AtTail queue c q₀) ∧
      dst = dest queue c q₀ ∧ freed q = partly queue c q₀ i
  | .push c (.publishing wrapped), q =>
    ∃ q₀ i, (Lays queue N q₀ L ∧ HasGap queue q₀ c.size) ∧ (wrapped = true ↔ ¬ AtTail queue c q₀) ∧
      (c.bytes.take (tpSize c.sizeOfArgs).toNat).length ≤ i ∧ freed q = partly queue c q₀ i
  | _, q => Lays queue N (freed q) L

/-- Where core `b` can be while core `c` owns the queue and keeps it. -/
def Pc.tame (c b : Word) : Pc → Prop
  | .push d _ => 12 + d.sizeOfArgs.toNat < 2 ^ 32
  | .own .writing => False
  | .disown .testing => b ≠ c
  | .disown .clearing => False
  | .pop _ .testing => b ≠ c
  | .pop _ _ => False
  | _ => True

theorem midway_outside {pc : Pc} (h : pc.holds = false) (q : TpClosuresQueue) (L : List GenericTpClosure) :
    Midway queue N L pc q ↔ Lays queue N (freed q) L := by
  cases pc with
  | push c pc => cases pc <;> first | exact Iff.rfl | cases h
  | _ => exact Iff.rfl

@[simp] theorem freed_free {q : TpClosuresQueue} (h : q.lockMutex = 0) : freed q = q := by
  rw [freed, ← h]

/-- Each byte copied is one more of the closure's. -/
theorem copying_midway {core : Word} {c : GenericTpClosure} {wrapped : Bool} {dst : Word} {i : Nat} {q : TpClosuresQueue}
    {L : List GenericTpClosure} (H : Midway queue N L (.push c (.copying wrapped dst i)) q) :
    Midway queue N L (pushStep queue core c q (.copying wrapped dst i)).2.1
      (pushStep queue core c q (.copying wrapped dst i)).2.2 := by
  obtain ⟨q₀, hq₀, hw, rfl, he⟩ := H
  rw [pushStep]
  cases hb : (c.bytes.take (tpSize c.sizeOfArgs).toNat)[i]? with
  | none => exact ⟨q₀, i, hq₀, hw, List.getElem?_eq_none_iff.mp hb, he⟩
  | some b =>
    have hlt := (List.getElem?_eq_some_iff.mp hb).1
    have hlen := List.length_take_le (tpSize c.sizeOfArgs).toNat c.bytes
    have hsize := (tpSize c.sizeOfArgs).isLt
    have hmem : q.mem = storeBytes q₀.mem (dest queue c q₀) ((c.bytes.take (tpSize c.sizeOfArgs).toNat).take i) :=
      congrArg TpClosuresQueue.mem he
    refine ⟨q₀, hq₀, hw, rfl, ?_⟩
    simp only [hmem, store_storeBytes_take q₀.mem (dest queue c q₀) (by omega) hb]
    have he' := congrArg (fun r : TpClosuresQueue =>
      { r with mem := storeBytes q₀.mem (dest queue c q₀) ((c.bytes.take (tpSize c.sizeOfArgs).toNat).take (i + 1)) }) he
    exact he'

/-- The tail write adds the closure. -/
theorem publishing_midway (S : Space queue N) {core : Word} {c : GenericTpClosure} {wrapped : Bool} {q : TpClosuresQueue}
    {L : List GenericTpClosure} (hc : 12 + c.sizeOfArgs.toNat < 2 ^ 32)
    (H : Midway queue N L (.push c (.publishing wrapped)) q) :
    Lays queue N (freed (pushStep queue core c q (.publishing wrapped)).2.2) (L ++ [c]) := by
  obtain ⟨q₀, i, ⟨H, hgap⟩, hw, hi, he⟩ := H
  have htail : (if wrapped then initAddress queue else q.tailAddress) = dest queue c q₀ := by
    have ht : (freed q).tailAddress = (partly queue c q₀ i).tailAddress := by rw [he]
    change q.tailAddress = q₀.tailAddress at ht
    by_cases hat : AtTail queue c q₀
    · have hw' : ¬ wrapped = true := fun e => hw.mp e hat
      rw [dest, if_pos hat, if_neg hw', ht]
    · rw [dest, if_neg hat, if_pos (hw.mpr hat)]
  have he' := congrArg (fun r : TpClosuresQueue =>
    { r with tailAddress := dest queue c q₀ + tpSize c.sizeOfArgs }) he
  simp only [partly_insert c q₀ hi] at he'
  rw [pushStep, htail]
  show Lays queue N { freed q with tailAddress := dest queue c q₀ + tpSize c.sizeOfArgs } (L ++ [c])
  rw [he']
  exact H.push S hc ((hasGap_iff S H hc).mp hgap)

/-- A push goes on inside the mutex. -/
theorem pushStep_midway (S : Space queue N) (hm : mutexPtr queue &&& 0x000FFFFF ≠ 0) {core : Word} {c : GenericTpClosure}
    {pc : PushPc} {q : TpClosuresQueue} {L : List GenericTpClosure} (hc : 12 + c.sizeOfArgs.toNat < 2 ^ 32)
    (hin : (Pc.push c pc).holds = true) (H : Midway queue N L (.push c pc) q) :
    Midway queue N (L ++ (Pc.push c pc).adds) (pushStep queue core c q pc).2.1 (pushStep queue core c q pc).2.2 := by
  cases pc with
  | locking => cases hin
  | testing =>
    simp only [pushStep, Pc.adds, List.append_nil]
    split
    · exact H
    · exact ⟨H, (hasGap_iff S H hc).mpr ‹_›⟩
  | placing =>
    obtain ⟨H, hgap⟩ := H
    have hcopy : AtTail queue c q → Midway queue N L (.push c (.copying false q.tailAddress 0)) q := by
      intro hat
      have hat' : AtTail queue c (freed q) := hat
      refine ⟨freed q, ⟨H, hgap⟩, by simp [hat'], ?_, ?_⟩
      · rw [dest, if_pos hat']; rfl
      · simp [partly, hat']
    simp only [pushStep, Pc.adds, List.append_nil]
    split
    · exact hcopy (.inl ‹_›)
    · split
      · exact hcopy (.inr ‹_›)
      · exact ⟨⟨H, hgap⟩, fun e => e.elim ‹_› ‹_›, rfl⟩
  | padding w =>
    obtain ⟨⟨H, hgap⟩, hat, rfl⟩ := H
    have hat' : ¬ AtTail queue c (freed q) := hat
    simp only [pushStep, Pc.adds, List.append_nil]
    refine ⟨freed q, ⟨H, hgap⟩, by simp [hat'], ?_, ?_⟩
    · rw [dest, if_neg hat']
    · simp only [partly, if_neg hat', List.take_zero, storeBytes_nil]
      rfl
  | copying wrapped dst i =>
    rw [Pc.adds, List.append_nil]
    · exact copying_midway H
    · simp
  | publishing wrapped => exact publishing_midway S hc H
  | unlocking code =>
    simp only [pushStep, Pc.adds, List.append_nil, unlock_eq hm]
    exact H

theorem midway_shows (S : Space queue N) {c b : Word} {pc : Pc} {q : TpClosuresQueue} {L : List GenericTpClosure}
    (ht : pc.tame c b) (H : Midway queue N L pc q) : Shows queue N q L := by
  have hfreed : Shows queue N (freed q) L → Shows queue N q L := fun h => ⟨h.sees⟩
  by_cases hin : pc.holds = true
  · cases pc with
    | push d pc =>
      cases pc with
      | placing => exact hfreed H.1.shows
      | padding w => exact hfreed H.1.1.shows
      | copying wrapped dst i =>
        obtain ⟨q₀, ⟨H, hgap⟩, -, -, he⟩ := H
        exact hfreed (he ▸ H.shows_partly S ht hgap i)
      | publishing wrapped =>
        obtain ⟨q₀, i, ⟨H, hgap⟩, -, -, he⟩ := H
        exact hfreed (he ▸ H.shows_partly S ht hgap i)
      | locking => cases hin
      | testing => exact hfreed (Lays.shows H)
      | unlocking code => exact hfreed (Lays.shows H)
    | _ => exact hfreed (Lays.shows H)
  · have hout := (midway_outside (Bool.eq_false_iff.mpr hin) q L).mp H
    exact hfreed hout.shows

/-! ## Steps while the owner keeps the queue -/

theorem tame_passed {c b : Word} {pc : Pc} (h : pc.tame c b) : pc.passed = false := by
  cases pc with
  | disown pc =>
    cases pc with
    | testing => rfl
    | clearing => cases h
  | pop disown pc => cases pc <;> first | rfl | cases h
  | _ => rfl

theorem tame_writing {c b : Word} {pc : Pc} (h : pc.tame c b) : pc ≠ .own .writing := by
  intro e
  subst e
  exact h

theorem lockRound_tame {c core : Word} {q : TpClosuresQueue} {waiting entered : Pc} (hw : waiting.tame c core)
    (he : entered.tame c core) : (lockRound queue core q waiting entered).2.1.tame c core := by
  rw [lockRound]
  split
  · exact hw
  · exact he

theorem next_tame {c core : Word} {pc : Pc} {q : TpClosuresQueue} {r : Move} (hc : c ≠ 0) (ho : q.queueOwner = c)
    (ht : pc.tame c core) (h : next queue core q pc = some r) : r.2.1.tame c core := by
  cases pc with
  | idle => cases h
  | push d pc =>
    cases h
    cases pc with
    | locking => exact lockRound_tame ht ht
    | unlocking code => trivial
    | padding w => exact ht
    | publishing wrapped => exact ht
    | testing => simp only [pushStep]; split <;> exact ht
    | placing => simp only [pushStep]; split <;> [exact ht; split <;> exact ht]
    | copying wrapped dst i => simp only [pushStep]; split <;> exact ht
  | own pc =>
    cases h
    cases pc with
    | locking => exact lockRound_tame trivial trivial
    | testing =>
      have hne : q.queueOwner ≠ 0 := ho ▸ hc
      simp only [ownStep, if_pos hne]
      trivial
    | writing => cases ht
    | unlocking code => trivial
  | disown pc =>
    cases h
    cases pc with
    | testing =>
      have hne : q.queueOwner ≠ core := fun e => ht (e.symm.trans ho)
      simp only [disownStep, if_pos hne]
      trivial
    | clearing => cases ht
  | peak pc =>
    cases h
    cases pc with
    | testing => simp only [peakStep]; split <;> trivial
    | readingHead => trivial
    | readingTail p => simp only [peakStep]; split <;> trivial
    | returning => trivial
  | pop disown pc =>
    cases h
    cases pc with
    | testing =>
      have hne : q.queueOwner ≠ core := fun e => ht (e.symm.trans ho)
      simp only [popStep, if_pos hne]
      trivial
    | _ => cases ht

/-- A core that is not inside looks, or gets the mutex. -/
theorem next_outside (hm : mutexPtr queue &&& 0x000FFFFF ≠ 0) {c core : Word} {pc : Pc} {q : TpClosuresQueue} {r : Move}
    (ht : pc.tame c core) (hout : pc.holds = false) (h : next queue core q pc = some r) :
    pc.adds = [] ∧ ((r.2.2 = q ∧ r.2.1.holds = false) ∨ (q.lockMutex = 0 ∧ freed r.2.2 = freed q ∧
      ∀ L, Midway queue N L r.2.1 r.2.2 ↔ Lays queue N (freed r.2.2) L)) := by
  have hround : ∀ waiting entered : Pc, waiting.holds = false →
      (∀ q L, Midway queue N L entered q ↔ Lays queue N (freed q) L) →
      ((lockRound queue core q waiting entered).2.2 = q ∧ (lockRound queue core q waiting entered).2.1.holds = false) ∨
      (q.lockMutex = 0 ∧ freed (lockRound queue core q waiting entered).2.2 = freed q ∧
        ∀ L, Midway queue N L (lockRound queue core q waiting entered).2.1 (lockRound queue core q waiting entered).2.2 ↔
          Lays queue N (freed (lockRound queue core q waiting entered).2.2) L) := by
    intro waiting entered hw hent
    rw [lockRound_eq hm]
    by_cases hf : q.lockMutex = 0
    · rw [if_pos hf]
      exact .inr ⟨hf, rfl, hent _⟩
    · rw [if_neg hf]
      exact .inl ⟨rfl, hw⟩
  cases pc with
  | idle => cases h
  | push d pc =>
    cases h
    cases pc with
    | locking => exact ⟨rfl, hround _ _ rfl fun _ _ => Iff.rfl⟩
    | _ => cases hout
  | own pc =>
    cases h
    cases pc with
    | locking => exact ⟨rfl, hround _ _ rfl fun _ _ => Iff.rfl⟩
    | _ => cases hout
  | disown pc =>
    cases h
    cases pc with
    | testing => refine ⟨rfl, .inl ?_⟩; simp only [disownStep]; split <;> exact ⟨rfl, rfl⟩
    | clearing => cases ht
  | peak pc =>
    cases h
    refine ⟨rfl, .inl ?_⟩
    cases pc with
    | testing => simp only [peakStep]; split <;> exact ⟨rfl, rfl⟩
    | readingHead => exact ⟨rfl, rfl⟩
    | readingTail p => simp only [peakStep]; split <;> exact ⟨rfl, rfl⟩
    | returning => exact ⟨rfl, rfl⟩
  | pop disown pc =>
    cases h
    cases pc with
    | testing => refine ⟨rfl, .inl ?_⟩; simp only [popStep]; split <;> exact ⟨rfl, rfl⟩
    | _ => cases ht

/-- The core inside goes on. -/
theorem next_inside (S : Space queue N) (hm : mutexPtr queue &&& 0x000FFFFF ≠ 0) {c core : Word} {pc : Pc}
    {q : TpClosuresQueue} {L : List GenericTpClosure} {r : Move} (hc : c ≠ 0) (ho : q.queueOwner = c)
    (ht : pc.tame c core) (hin : pc.holds = true) (H : Midway queue N L pc q) (h : next queue core q pc = some r) :
    Midway queue N (L ++ pc.adds) r.2.1 r.2.2 := by
  cases pc with
  | push d pc =>
    cases h
    exact pushStep_midway S hm ht hin H
  | own pc =>
    cases h
    simp only [Pc.adds, List.append_nil]
    cases pc with
    | locking => cases hin
    | testing =>
      have hne : q.queueOwner ≠ 0 := ho ▸ hc
      simp only [ownStep, if_pos hne]
      exact H
    | writing => cases ht
    | unlocking code =>
      simp only [ownStep, unlock_eq hm]
      exact H
  | pop disown pc => cases pc <;> first | cases ht | cases hin
  | _ => cases hin

/-! ## The owner's peak -/

/-- Where a step of the owner's peak leads. -/
theorem peakStep_owner (pc : PeakPc) {q : TpClosuresQueue} {c : Word} (ho : q.queueOwner = c) :
    (pc = .testing ∧ peakStep c q pc = (none, .peak .readingHead, q)) ∨
    (pc = .readingHead ∧ peakStep c q pc = (none, .peak (.readingTail q.headAddress), q)) ∨
    (∃ p, pc = .readingTail p ∧ p = q.tailAddress ∧ peakStep c q pc = (some (.emptyQueue, some 0), .idle, q)) ∨
    (∃ p, pc = .readingTail p ∧ p ≠ q.tailAddress ∧ peakStep c q pc = (none, .peak .returning, q)) ∨
    (pc = .returning ∧ peakStep c q pc = (some (.successOp, some q.headAddress), .idle, q)) := by
  cases pc with
  | testing => exact .inl ⟨rfl, by rw [peakStep, if_neg (fun h => h ho)]⟩
  | readingHead => exact .inr (.inl ⟨rfl, rfl⟩)
  | readingTail p =>
    by_cases h : p = q.tailAddress
    · exact .inr (.inr (.inl ⟨p, rfl, h, by rw [peakStep, if_pos h]⟩))
    · exact .inr (.inr (.inr (.inl ⟨p, rfl, h, by rw [peakStep, if_neg h]⟩)))
  | returning => exact .inr (.inr (.inr (.inr ⟨rfl, rfl⟩)))

/-- A call other than a peak gives no pointer and does not turn into a peak. -/
theorem next_noPeak {core : Word} {pc : Pc} {q : TpClosuresQueue} {r : Move} (h : next queue core q pc = some r)
    (hp : ∀ p, pc ≠ .peak p) : (∀ p, r.2.1 ≠ .peak p) ∧ ∀ out, r.1 = some out → out.2 = none := by
  have hround : ∀ waiting entered : Pc, (∀ p, waiting ≠ .peak p) → (∀ p, entered ≠ .peak p) →
      (∀ p, (lockRound queue core q waiting entered).2.1 ≠ .peak p) ∧
      ∀ out, (lockRound queue core q waiting entered).1 = some out → out.2 = none := by
    intro waiting entered hw he
    rw [lockRound]
    split
    · exact ⟨hw, by simp⟩
    · exact ⟨he, by simp⟩
  cases pc with
  | idle => cases h
  | push d pc =>
    cases h
    cases pc with
    | locking => exact hround _ _ (by simp) (by simp)
    | testing => simp only [pushStep]; split <;> simp
    | placing => simp only [pushStep]; split <;> [simp; split <;> simp]
    | copying wrapped dst i => simp only [pushStep]; split <;> simp
    | _ => simp [pushStep]
  | own pc =>
    cases h
    cases pc with
    | locking => exact hround _ _ (by simp) (by simp)
    | testing => simp only [ownStep]; split <;> simp
    | _ => simp [ownStep]
  | disown pc =>
    cases h
    cases pc with
    | testing => simp only [disownStep]; split <;> simp
    | clearing => simp [disownStep]
  | peak pc => exact absurd rfl (hp pc)
  | pop disown pc =>
    cases h
    cases pc with
    | locking => exact hround _ _ (by simp) (by simp)
    | testing | checking | reachedEnd | reachedTail | unlocking => simp only [popStep]; split <;> simp
    | _ => simp [popStep]

/-- What the owner's peak found so far: the head at `h`, and then a queue that is not empty. -/
def Pc.peeks (h : Word) (L : List GenericTpClosure) : Pc → Prop
  | .peak (.readingTail p) => p = h
  | .peak .returning => L ≠ []
  | _ => True

/-- Core `c` owns the queue and its head is at `h`; `L` and what was pushed are stored. -/
structure Kept (queue : Word) (N : Nat) (c h : Word) (L : List GenericTpClosure) (s : State) : Prop extends
    Excluded s where
  owner : s.q.queueOwner = c
  head : s.q.headAddress = h
  tame : ∀ b, (s.pc b).tame c b
  /-- `b` is the core inside the mutex, or nobody is inside. -/
  stands : ∀ b, (∀ a, (s.pc a).holds = true → a = b) → Midway queue N (L ++ s.pushed) (s.pc b) s.q
  peeks : (s.pc c).peeks h (L ++ s.pushed)

theorem kept_quiet {q : TpClosuresQueue} {L : List GenericTpClosure} (H : Lays queue N q L) :
    Kept queue N q.queueOwner q.headAddress L (quiet q) := by
  refine ⟨excluded_quiet q, rfl, rfl, fun _ => trivial, fun b _ => ?_, trivial⟩
  show Lays queue N (freed q) (L ++ [])
  rw [List.append_nil, freed_free H.free]
  exact H

variable {c h : Word} {L : List GenericTpClosure}

theorem Kept.shows (S : Space queue N) {s : State} (K : Kept queue N c h L s) : Shows queue N s.q (L ++ s.pushed) := by
  by_cases hin : ∃ b, (s.pc b).holds = true
  · obtain ⟨b, hb⟩ := hin
    exact midway_shows S (K.tame b) (K.stands b fun a ha => K.one a b ha hb)
  · exact midway_shows S (K.tame c) (K.stands c fun a ha => absurd ⟨a, ha⟩ hin)

/-- What the cores may do while `c` keeps the queue: `c` itself neither pops nor disowns,
    and the size of a closure does not overflow. -/
def Keeps (c : Word) (a : Action) : Prop :=
  a.core ≠ 0 ∧
    match a with
    | .call (.push _ d) => 12 + d.sizeOfArgs.toNat < 2 ^ 32
    | .call (.disown core) | .call (.pop core) | .call (.popAndDisown core) => core ≠ c
    | _ => True

theorem Keeps.tame {op : Op} (h : Keeps c (.call op)) : op.start.tame c op.core := by
  cases op with
  | push core d => exact h.2
  | own core => trivial
  | disown core => exact h.2
  | peak core => trivial
  | pop core => exact h.2
  | popAndDisown core => exact h.2

theorem start_peeks (op : Op) : op.start.peeks h L := by cases op <;> trivial

theorem peeks_of_noPeak {pc : Pc} (hp : ∀ p, pc ≠ .peak p) : pc.peeks h L := by
  cases pc with
  | peak p => exact absurd rfl (hp p)
  | _ => trivial

theorem peeks_append {pc : Pc} (hp : pc.peeks h L) (M : List GenericTpClosure) : pc.peeks h (L ++ M) := by
  cases pc with
  | peak p =>
    cases p with
    | returning => exact List.append_ne_nil_of_left_ne_nil hp M
    | _ => exact hp
  | _ => trivial

/-- A step of the owner's own peak. -/
theorem Kept.peeks_next (S : Space queue N) {s : State} (K : Kept queue N c h L s) {r : Move}
    (hr : next queue c s.q (s.pc c) = some r) : r.2.1.peeks h (L ++ s.pushed) := by
  cases hpc : s.pc c with
  | peak p =>
    rw [hpc] at hr
    cases hr
    rcases peakStep_owner p K.owner with ⟨-, he⟩ | ⟨-, he⟩ | ⟨-, -, -, he⟩ | ⟨p', rfl, hne, he⟩ | ⟨-, he⟩
    · rw [he]; trivial
    · rw [he]; exact K.head
    · rw [he]; trivial
    · rw [he]
      have hp := K.peeks
      rw [hpc] at hp
      have hp' : p' = s.q.headAddress := hp.trans K.head.symm
      exact (K.shows S).nonempty (hp' ▸ hne)
    · rw [he]; trivial
  | _ => exact peeks_of_noPeak (next_noPeak hr (by simp [hpc])).1

theorem Kept.stands_next (S : Space queue N) (hm : mutexPtr queue &&& 0x000FFFFF ≠ 0) (hc : c ≠ 0) {s : State}
    (K : Kept queue N c h L s) {core : Word} {r : Move} (hr : next queue core s.q (s.pc core) = some r) (b : Word)
    (hb : ∀ a, (Function.update s.pc core r.2.1 a).holds = true → a = b) :
    Midway queue N (L ++ s.pushed ++ (s.pc core).adds) (Function.update s.pc core r.2.1 b) r.2.2 := by
  cases hin : (s.pc core).holds with
  | true =>
    have hmid := K.stands core fun a ha => K.one a core ha hin
    have hnext := next_inside S hm hc K.owner (K.tame core) hin hmid hr
    by_cases e : b = core
    · rw [e, Function.update_self]
      exact hnext
    · -- the core left the mutex
      have hleft : r.2.1.holds = false := by
        rw [Bool.eq_false_iff]
        intro hh
        exact e (hb core (by rw [Function.update_self, hh])).symm
      have hout : (s.pc b).holds = false := by
        rw [Bool.eq_false_iff]
        intro hh
        exact e (K.one b core hh hin)
      rw [Function.update_of_ne e, midway_outside hout, ← midway_outside hleft]
      exact hnext
  | false =>
    obtain ⟨hadds, hlook | hgot⟩ := next_outside (N := N) hm (K.tame core) hin hr
    · obtain ⟨hq, hout⟩ := hlook
      have hmid := K.stands b fun a ha => by
        have hne : a ≠ core := by
          intro e
          subst e
          rw [hin] at ha
          cases ha
        exact hb a (by rw [Function.update_of_ne hne]; exact ha)
      rw [hadds, List.append_nil, hq]
      by_cases e : b = core
      · rw [e, midway_outside hin] at hmid
        rw [e, Function.update_self, midway_outside hout]
        exact hmid
      · rw [Function.update_of_ne e]
        exact hmid
    · -- the word was free, so nobody was inside
      obtain ⟨hfree, hfreed, hmidway⟩ := hgot
      have hnone : ∀ a, (s.pc a).holds = false := fun a => Bool.eq_false_iff.mpr fun ha => K.taken a ha hfree
      have hmid := (midway_outside hin s.q _).mp (K.stands core fun a ha => by rw [hnone a] at ha; cases ha)
      rw [hadds, List.append_nil]
      by_cases e : b = core
      · rw [e, Function.update_self, hmidway, hfreed]
        exact hmid
      · rw [Function.update_of_ne e, midway_outside (hnone b), hfreed]
        exact hmid

/-- A core that enters a call is not inside the mutex. -/
theorem Kept.enter {s : State} {op : Op} (K : Kept queue N c h L s) (ha : Keeps c (.call op)) (hidle : s.pc op.core = .idle)
    (hexcl : Excluded { s with pc := Function.update s.pc op.core op.start }) :
    Kept queue N c h L { s with pc := Function.update s.pc op.core op.start } := by
  refine ⟨hexcl, K.owner, K.head, forall_pc (fun b pc => pc.tame c b) ha.tame fun b _ => K.tame b, ?_, ?_⟩
  · intro b hb
    have hb' : ∀ a, (s.pc a).holds = true → a = b := by
      intro a hin
      have hne : a ≠ op.core := by
        intro e
        rw [e, hidle] at hin
        cases hin
      apply hb a
      simp only [Function.update_of_ne hne]
      exact hin
    have hmid := K.stands b hb'
    by_cases e : b = op.core
    · simp only [e, Function.update_self]
      rw [e, hidle] at hmid
      exact (midway_outside (start_holds op) s.q _).mpr hmid
    · simp only [Function.update_of_ne e]
      exact hmid
  · by_cases e : c = op.core
    · simp only [e, Function.update_self]
      exact start_peeks op
    · simp only [Function.update_of_ne e]
      exact K.peeks

theorem Kept.move (S : Space queue N) (hm : mutexPtr queue &&& 0x000FFFFF ≠ 0) (hc : c ≠ 0) {s : State} {core : Word}
    {r : Move} (K : Kept queue N c h L s) (hr : next queue core s.q (s.pc core) = some r)
    (hexcl : Excluded (moved s core r)) : Kept queue N c h L (moved s core r) := by
  have F := next_fair hm hr
  have hnot := tame_passed (K.tame core)
  have howner : r.2.2.queueOwner = c := by
    rcases F.owner with ⟨hsame, -⟩ | ⟨hw, -⟩ | ⟨hp, -⟩
    · exact hsame.trans K.owner
    · exact absurd hw (tame_writing (K.tame core))
    · rw [hnot] at hp; cases hp
  have hhead : r.2.2.headAddress = h := by
    rcases F.head with hsame | hp
    · exact hsame.trans K.head
    · rw [hnot] at hp; cases hp
  refine ⟨hexcl, howner, hhead, ?_, ?_, ?_⟩
  · exact forall_pc (fun b pc => pc.tame c b) (next_tame hc K.owner (K.tame core) hr) fun b _ => K.tame b
  · intro b hb
    simp only [moved, ← List.append_assoc]
    exact K.stands_next S hm hc hr b hb
  · simp only [moved, ← List.append_assoc]
    apply peeks_append
    by_cases e : c = core
    · subst e
      simp only [Function.update_self]
      exact K.peeks_next S hr
    · simp only [Function.update_of_ne e]
      exact K.peeks

theorem Kept.keep (S : Space queue N) (hm : mutexPtr queue &&& 0x000FFFFF ≠ 0) (hc : c ≠ 0) {s s' : State} {a : Action}
    {o : Option (Word × Out)} (K : Kept queue N c h L s) (ha : Keeps c a) (hst : step queue s a = some (o, s')) :
    Kept queue N c h L s' := by
  have hexcl := K.toExcluded.keep hm ha.1 hst
  cases step_acts hst with
  | refused op _ => exact K
  | enter op hidle => exact K.enter ha hidle hexcl
  | move core r hr => exact K.move S hm hc hr hexcl

/-- What a peak by the owner gives: the head, unless the queue is empty. -/
theorem Kept.answer (S : Space queue N) {s s' : State} {a : Action} {out : Out} (K : Kept queue N c h L s)
    (hst : step queue s a = some (some (c, out), s')) (hout : out.2 ≠ none) :
    (out = (.successOp, some h) ∧ L ++ s.pushed ≠ []) ∨ (out = (.emptyQueue, some 0) ∧ L ++ s.pushed = []) := by
  generalize ho : some (c, out) = o at hst
  cases step_acts hst with
  | refused op _ => cases ho; exact absurd rfl hout
  | enter op _ => cases ho
  | move core r hr =>
    obtain ⟨out', hr₁, he⟩ := Option.map_eq_some_iff.mp ho.symm
    cases he
    cases hpc : s.pc c with
    | peak p =>
      have hpeeks := K.peeks
      rw [hpc] at hr hpeeks
      cases hr
      rcases peakStep_owner p K.owner with ⟨-, he⟩ | ⟨-, he⟩ | ⟨p', rfl, heq, he⟩ | ⟨-, -, -, he⟩ | ⟨rfl, he⟩
      · rw [he] at hr₁; cases hr₁
      · rw [he] at hr₁; cases hr₁
      · rw [he] at hr₁
        cases hr₁
        have hp' : p' = s.q.headAddress := Eq.trans hpeeks K.head.symm
        refine .inr ⟨rfl, ?_⟩
        by_contra hne
        exact (K.shows S).apart hne (hp' ▸ heq)
      · rw [he] at hr₁; cases hr₁
      · rw [he] at hr₁
        cases hr₁
        exact .inl ⟨by rw [K.head], hpeeks⟩
    | _ => exact absurd ((next_noPeak hr (by simp [hpc])).2 out hr₁) hout

theorem pushed_of_step {s s' : State} {a : Action} {o : Option (Word × Out)} (hst : step queue s a = some (o, s')) :
    s.pushed <+: s'.pushed := by
  cases step_acts hst with
  | refused op _ => exact List.prefix_rfl
  | enter op _ => exact List.prefix_rfl
  | move core r _ => exact List.prefix_append _ _

/-- From a queue that stores `L`, owned by core `c`, with nobody in a call: if a peak by `c`
    succeeds in a run in which `c` neither pops nor disowns, its pointer is where the oldest
    of the closures stored by then lies, completely; in every state from then on its bytes
    are the same, and every peak by `c` gives that pointer. -/
theorem peak_stable (S : Space queue N) (hm : mutexPtr queue &&& 0x000FFFFF ≠ 0) {q : TpClosuresQueue}
    {L : List GenericTpClosure} (H : Lays queue N q L) (hc : q.queueOwner ≠ 0) {as₁ as₂ : List Action} {a : Action}
    {os₁ os₂ : List (Option (Word × Out))} {s₁ s₂ s₃ : State} {p : Word}
    (h₁ : run (step queue) (quiet q) as₁ = some (os₁, s₁))
    (ha : step queue s₁ a = some (some (q.queueOwner, .successOp, some p), s₂))
    (h₂ : run (step queue) s₂ as₂ = some (os₂, s₃)) (hk : ∀ b ∈ as₁ ++ a :: as₂, Keeps q.queueOwner b) :
    ∃ x, (L ++ s₂.pushed).head? = some x ∧ block s₂.q.mem p.toNat x.size = x.bytes ∧
      block s₃.q.mem p.toNat x.size = x.bytes ∧
      ∀ out, some (q.queueOwner, out) ∈ os₂ → out.2 ≠ none → out = (.successOp, some p) := by
  have K₁ : Kept queue N q.queueOwner q.headAddress L s₁ :=
    run_inv_of (fun s i o s' K hi hst => K.keep S hm hc hi hst) as₁ (fun b hb => hk b (List.mem_append_left _ hb))
      (kept_quiet H) h₁
  have K₂ := K₁.keep S hm hc (hk a (by simp)) ha
  obtain ⟨rfl, hne⟩ : p = q.headAddress ∧ L ++ s₁.pushed ≠ [] := by
    rcases K₁.answer S ha (by simp) with ⟨he, hne⟩ | ⟨he, -⟩
    · simp only [Prod.mk.injEq, Option.some.injEq, true_and] at he
      exact ⟨he, hne⟩
    · simp at he
  have hstored : ∀ s : State, s₂.pushed <+: s.pushed → L ++ s.pushed ≠ [] := by
    intro s hs
    obtain ⟨M, hM⟩ := (pushed_of_step ha).trans hs
    rw [← hM, ← List.append_assoc]
    exact List.append_ne_nil_of_left_ne_nil hne M
  -- the second part of the run: the invariant, and what was pushed stays
  have hkeep : ∀ s i o s', (Kept queue N q.queueOwner q.headAddress L s ∧ s₂.pushed <+: s.pushed) →
      Keeps q.queueOwner i → step queue s i = some (o, s') →
      (Kept queue N q.queueOwner q.headAddress L s' ∧ s₂.pushed <+: s'.pushed) ∧
      ∀ out, o = some (q.queueOwner, out) → out.2 ≠ none → out = (.successOp, some q.headAddress) := by
    intro s i o s' ⟨K, hs⟩ hi hst
    refine ⟨⟨K.keep S hm hc hi hst, hs.trans (pushed_of_step hst)⟩, ?_⟩
    rintro out rfl hout
    rcases K.answer S hst hout with ⟨he, -⟩ | ⟨-, hnil⟩
    · exact he
    · exact absurd hnil (hstored s hs)
  have hk₂ : ∀ b ∈ as₂, Keeps q.queueOwner b := fun b hb => hk b (by simp [hb])
  obtain ⟨K₃, hs₃⟩ := run_inv_of (fun s i o s' K hi hst => (hkeep s i o s' K hi hst).1) as₂ hk₂ ⟨K₂, List.prefix_rfl⟩ h₂
  have houts := run_outputs hkeep as₂ hk₂ ⟨K₂, List.prefix_rfl⟩ h₂
  obtain ⟨x, rest, hx⟩ := List.exists_cons_of_ne_nil (hstored s₂ List.prefix_rfl)
  have top₂ := K₂.shows S
  rw [hx] at top₂
  obtain ⟨M, hM⟩ := hs₃
  have top₃ := K₃.shows S
  rw [← hM, ← List.append_assoc, hx, List.cons_append] at top₃
  refine ⟨x, by rw [hx]; rfl, ?_, ?_, fun out ho hout => houts _ ho out rfl hout⟩
  · rw [← K₂.head]; exact top₂.top
  · rw [← K₃.head]; exact top₃.top

/-- The test's queue with one closure in it, owned by core 0x808. -/
def ownedQueue : TpClosuresQueue := { insert 0x80803004 withoutArgs emptyQueue with queueOwner := 0x808 }

theorem lays_ownedQueue : Lays 0x80803004 100 ownedQueue [withoutArgs] := by
  have hpush := Lays.push space_100 lays_emptyQueue (c := withoutArgs) (by decide) (by decide)
  exact ⟨hpush.size, hpush.free, hpush.layout⟩

/-- Core 0x808 peaks; then core 0x809 is in its copy of another closure. -/
theorem peak_stable_100 :
    ∃ os₁ s₁ s₂ os₂ s₃,
      run (step 0x80803004) (quiet ownedQueue) [.call (.peak 0x808), .go 0x808, .go 0x808, .go 0x808] = some (os₁, s₁) ∧
      step 0x80803004 s₁ (.go 0x808) = some (some (0x808, .successOp, some 0x8080301C), s₂) ∧
      run (step 0x80803004) s₂ [.call (.push 0x809 withoutArgs), .go 0x809, .go 0x809, .go 0x809, .go 0x809] =
        some (os₂, s₃) ∧
      block s₃.q.mem 0x8080301C 12 = withoutArgs.bytes := by
  obtain ⟨os₁, s₁, s₂, os₂, s₃, h₁, ha, h₂⟩ : ∃ os₁ s₁ s₂ os₂ s₃,
      run (step 0x80803004) (quiet ownedQueue) [.call (.peak 0x808), .go 0x808, .go 0x808, .go 0x808] = some (os₁, s₁) ∧
      step 0x80803004 s₁ (.go 0x808) = some (some (0x808, .successOp, some 0x8080301C), s₂) ∧
      run (step 0x80803004) s₂ [.call (.push 0x809 withoutArgs), .go 0x809, .go 0x809, .go 0x809, .go 0x809] =
        some (os₂, s₃) := ⟨_, _, _, _, _, rfl, rfl, rfl⟩
  have hk : ∀ b ∈ [Action.call (.peak 0x808), .go 0x808, .go 0x808, .go 0x808] ++ .go 0x808 ::
      [.call (.push 0x809 withoutArgs), .go 0x809, .go 0x809, .go 0x809, .go 0x809], Keeps 0x808 b := by
    simp [Keeps, Action.core, Op.core, withoutArgs]
  obtain ⟨x, hx, -, hblock, -⟩ := peak_stable space_100 (by decide) lays_ownedQueue (by decide) h₁ ha h₂ hk
  obtain rfl : withoutArgs = x := by simpa using hx
  exact ⟨os₁, s₁, s₂, os₂, s₃, h₁, ha, h₂, hblock⟩

end Steps

end EDarts.Assets.TpClosuresQueue
