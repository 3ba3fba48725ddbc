/-
  EDarts.Multithreading.BarrierProofs — what holds of the barrier in every reachable
  state (see `EDarts.Multithreading.Barrier`).

  `Inv e W R`: `e` episodes got all their participants so far; `W` are the participants
  registered for the next one, in the order of their slots; `R` are those of episode `e`
  that the last one has not signalled yet. A participant is in its call `e + 1`, or has
  returned from its call `e`, or is still in it, and then it was signalled once or is in
  `R` (`Role`). What the counter and the slots hold depends on where the owner of the
  mutex is (`Stage`).
-/

import EDarts.Multithreading.Barrier
import Mathlib.Data.Fintype.Card

namespace EDarts.Multithreading.Barrier

open Lib

variable {n : Nat}

/-! ## Steps -/

@[simp] theorem set_same (s : State n) (p : Fin n) (me : Participant) : (s.set p me).parts p = me := by simp [State.set]
@[simp] theorem set_ne (s : State n) {p q : Fin n} (me : Participant) (h : q ≠ p) :
    (s.set p me).parts q = s.parts q := by simp [State.set, h]
@[simp] theorem set_barrier (s : State n) (p : Fin n) (me : Participant) : (s.set p me).barrier = s.barrier := rfl
@[simp] theorem set_holder (s : State n) (p : Fin n) (me : Participant) : (s.set p me).holder = s.holder := rfl
@[simp] theorem set_mem (s : State n) (p : Fin n) (me : Participant) : (s.set p me).mem = s.mem := rfl
@[simp] theorem set_flight (s : State n) (p : Fin n) (me : Participant) : (s.set p me).flight = s.flight := rfl
@[simp] theorem set_sent (s : State n) (p : Fin n) (me : Participant) : (s.set p me).sent = s.sent := rfl

/-- What one step of a participant can do. -/
inductive Moves (p : Fin n) (s : State n) : State n → Prop
  | refuse : (s.parts p).pc = .checking → s.mem (s.parts p).mailbox ≠ 0 ∨ (s.parts p).mailbox &&& 0x000FFFFF = 0 →
      Moves p s (s.set p (s.parts p).leave)
  | check : (s.parts p).pc = .checking → Moves p s (s.set p { s.parts p with pc := .acquiring })
  | acquire : (s.parts p).pc = .acquiring → s.holder = none →
      Moves p s ({ s with holder := some p }.set p { s.parts p with pc := .deciding })
  | first : (s.parts p).pc = .deciding → s.barrier.counter = 0 → Moves p s (s.set p { s.parts p with pc := .clearing 0 })
  | last : (s.parts p).pc = .deciding → s.barrier.counter ≠ 0 → s.barrier.counter = s.barrier.numThreads - 1 →
      Moves p s (s.set p { s.parts p with pc := .signalling 0 })
  | between : (s.parts p).pc = .deciding → s.barrier.counter ≠ 0 → s.barrier.counter ≠ s.barrier.numThreads - 1 →
      Moves p s (s.set p { s.parts p with pc := .registering })
  | clear (i : Nat) : (s.parts p).pc = .clearing i → i < s.barrier.numThreads →
      Moves p s ({ s with barrier :=
        { s.barrier with mailboxes := fun j => if j = i then 0 else s.barrier.mailboxes j } }.set p
          { s.parts p with pc := .clearing (i + 1) })
  | cleared (i : Nat) : (s.parts p).pc = .clearing i → s.barrier.numThreads ≤ i →
      Moves p s (s.set p { s.parts p with pc := .registering })
  | register : (s.parts p).pc = .registering →
      Moves p s ({ s with barrier := { s.barrier with
        mailboxes := fun j => if j = s.barrier.counter then (s.parts p).mailbox else s.barrier.mailboxes j } }.set p
          { s.parts p with pc := .counting })
  | count : (s.parts p).pc = .counting →
      Moves p s ({ s with barrier := { s.barrier with counter := s.barrier.counter + 1 } }.set p
        { s.parts p with pc := .unlocking })
  | unlock : (s.parts p).pc = .unlocking →
      Moves p s ({ s with holder := none }.set p { s.parts p with pc := .spinning })
  | wake : (s.parts p).pc = .spinning → s.mem (s.parts p).mailbox ≠ 0 → Moves p s (s.set p (s.parts p).leave)
  | signal (i : Nat) : (s.parts p).pc = .signalling i → i < s.barrier.numThreads →
      Moves p s ((s.signal (s.barrier.mailboxes i) (s.parts p).entered).set p { s.parts p with pc := .signalling (i + 1) })
  | signalled (i : Nat) : (s.parts p).pc = .signalling i → s.barrier.numThreads ≤ i →
      Moves p s (s.set p { s.parts p with pc := .resetting })
  | reset : (s.parts p).pc = .resetting →
      Moves p s ({ s with barrier := { s.barrier with counter := 0 } }.set p { s.parts p with pc := .unlockingLast })
  | unlockLast : (s.parts p).pc = .unlockingLast → Moves p s ({ s with holder := none }.set p (s.parts p).leave)

theorem move_moves {barrier : Word} {p : Fin n} {s s' : State n} {o : Option Word}
    (h : move barrier p s = some (o, s')) : Moves p s s' := by
  unfold move at h
  cases hpc : (s.parts p).pc with
  | idle => simp only [hpc] at h; cases h
  | checking =>
    simp only [hpc] at h
    split at h
    · cases h; exact .refuse hpc ‹_›
    · cases h; exact .check hpc
  | acquiring =>
    simp only [hpc] at h
    split at h
    · cases h; exact .acquire hpc ‹_›
    · cases h
  | deciding =>
    simp only [hpc] at h
    split at h
    · cases h; exact .first hpc ‹_›
    · split at h
      · cases h; exact .last hpc ‹_› ‹_›
      · cases h; exact .between hpc ‹_› ‹_›
  | clearing i =>
    simp only [hpc] at h
    split at h
    · cases h; exact .clear i hpc ‹_›
    · cases h; exact .cleared i hpc (Nat.le_of_not_lt ‹_›)
  | registering => simp only [hpc] at h; cases h; exact .register hpc
  | counting => simp only [hpc] at h; cases h; exact .count hpc
  | unlocking => simp only [hpc] at h; cases h; exact .unlock hpc
  | spinning =>
    simp only [hpc] at h
    split at h
    · cases h
    · cases h; exact .wake hpc ‹_›
  | signalling i =>
    simp only [hpc] at h
    split at h
    · cases h; exact .signal i hpc ‹_›
    · cases h; exact .signalled i hpc (Nat.le_of_not_lt ‹_›)
  | resetting => simp only [hpc] at h; cases h; exact .reset hpc
  | unlockingLast => simp only [hpc] at h; cases h; exact .unlockLast hpc

/-! ## The invariant -/

/-- In the critical section. -/
def Pc.inside : Pc → Bool
  | .idle | .checking | .acquiring | .spinning => false
  | _ => true

/-- Between the call and the registration. -/
def Pc.arriving : Pc → Bool
  | .checking | .acquiring | .deciding | .clearing _ | .registering => true
  | _ => false

/-- Nothing was sent to the mailbox in call `k`. -/
structure Quiet (s : State n) (q : Fin n) (k : Nat) : Prop where
  mem : s.mem (s.parts q).mailbox = 0
  flight : s.flight (s.parts q).mailbox = []
  sent : s.sent q k = 0

/-- One signal of call `k` was sent to the mailbox: it is on its way, or there. -/
structure Signalled (s : State n) (q : Fin n) (k : Nat) : Prop where
  sent : s.sent q k = 1
  mail : s.mem (s.parts q).mailbox = 0 ∧ s.flight (s.parts q).mailbox = [k] ∨
    s.mem (s.parts q).mailbox ≠ 0 ∧ s.flight (s.parts q).mailbox = [] ∧ s.stamp (s.parts q).mailbox = k

/-- What a participant at `q` may have done, by where it is. -/
def Role (e : Nat) (W R : List (Fin n)) (s : State n) (q : Fin n) : Prop :=
  match (s.parts q).pc with
  | .idle => (s.parts q).entered = e ∧ (s.parts q).returned = e ∧ q ∉ W
  | .checking | .acquiring | .deciding | .clearing _ | .registering =>
    (s.parts q).entered = e + 1 ∧ (s.parts q).returned = e ∧ q ∉ W ∧ Quiet s q (e + 1)
  | .counting | .unlocking => (s.parts q).entered = e + 1 ∧ (s.parts q).returned = e ∧ q ∈ W ∧ Quiet s q (e + 1)
  | .spinning =>
    ((s.parts q).entered = e + 1 ∧ (s.parts q).returned = e ∧ q ∈ W ∧ Quiet s q (e + 1)) ∨
    ((s.parts q).entered = e ∧ (s.parts q).returned + 1 = e ∧ q ∉ W ∧
      (q ∈ R ∧ Quiet s q e ∨ q ∉ R ∧ Signalled s q e))
  | .signalling _ | .resetting | .unlockingLast => (s.parts q).entered = e ∧ (s.parts q).returned + 1 = e ∧ q ∉ W

/-- From slot `i` on, the mailboxes of the listed participants are registered. -/
def Slots (s : State n) (i : Nat) (L : List (Fin n)) : Prop :=
  ∀ j (h : j < L.length), s.barrier.mailboxes (i + j) = (s.parts L[j]).mailbox

/-- From slot `i` on, nothing is registered. -/
def Blank (s : State n) (i : Nat) : Prop := ∀ j, i ≤ j → j < n → s.barrier.mailboxes j = 0

/-- Between arrivals. -/
structure Ready (W R : List (Fin n)) (s : State n) : Prop where
  counter : s.barrier.counter = W.length
  room : W.length < n
  slots : Slots s 0 W
  blank : W ≠ [] → Blank s W.length
  none : R = []

/-- What the owner of the mutex has made of the barrier. -/
def Doing (W R : List (Fin n)) (s : State n) : Pc → Prop
  | .deciding => Ready W R s
  | .clearing i => s.barrier.counter = 0 ∧ W = [] ∧ (∀ j < i, s.barrier.mailboxes j = 0) ∧ R = []
  | .registering => s.barrier.counter = W.length ∧ W.length + 1 < n ∧ Slots s 0 W ∧ Blank s W.length ∧ R = []
  | .counting => s.barrier.counter + 1 = W.length ∧ W.length < n ∧ Slots s 0 W ∧ Blank s W.length ∧ R = []
  | .unlocking => s.barrier.counter = W.length ∧ W.length < n ∧ Slots s 0 W ∧ Blank s W.length ∧ R = []
  | .signalling i => W = [] ∧ i ≤ n ∧ R.length = n - 1 - i ∧ Slots s i R ∧ s.barrier.mailboxes (n - 1) = 0
  | .resetting => W = [] ∧ R = []
  | .unlockingLast => s.barrier.counter = 0 ∧ W = [] ∧ R = []
  | .idle | .checking | .acquiring | .spinning => False

def Stage (W R : List (Fin n)) (s : State n) : Prop :=
  match s.holder with
  | none => Ready W R s
  | some p => Doing W R s (s.parts p).pc

structure Inv (e : Nat) (W R : List (Fin n)) (s : State n) : Prop where
  threads : s.barrier.numThreads = n
  role : ∀ q, Role e W R s q
  holds : ∀ q, s.holder = some q ↔ (s.parts q).pc.inside = true
  stage : Stage W R s
  distinct : ∀ q q', (s.parts q).pc ≠ .idle → (s.parts q').pc ≠ .idle →
    (s.parts q).mailbox = (s.parts q').mailbox → q = q'
  low : ∀ q, (s.parts q).pc ≠ .idle → (s.parts q).mailbox &&& 0x000FFFFF ≠ 0
  apart : ∀ q, (s.parts q).pc ≠ .idle → (s.parts q).mailbox ≠ s.barrier.lockFullAddressPtr
  flights : ∀ a, s.flight a ≠ [] → a &&& 0x000FFFFF = 0 ∨ ∃ q, (s.parts q).pc = .spinning ∧ (s.parts q).mailbox = a
  nodupW : W.Nodup
  nodupR : R.Nodup
  pending : ∀ q ∈ R, (s.parts q).pc = .spinning ∧ (s.parts q).entered = e
  later : ∀ q k, e < k → s.sent q k = 0
  once : ∀ q k, s.sent q k ≤ 1
  each : ∀ k, 1 ≤ k → k ≤ e →
    ∃ p, (k = e → p ∉ R) ∧ ∀ q, s.sent q k = if q = p ∨ (k = e ∧ q ∈ R) then 0 else 1

/-- Calls that go on keep their mailboxes, and with them what is known of the addresses. -/
theorem Inv.boxes {e : Nat} {W R : List (Fin n)} {s s' : State n} (H : Inv e W R s)
    (hkeep : ∀ q, (s'.parts q).pc ≠ .idle → (s.parts q).pc ≠ .idle ∧ (s'.parts q).mailbox = (s.parts q).mailbox)
    (hlock : s'.barrier.lockFullAddressPtr = s.barrier.lockFullAddressPtr) :
    (∀ q q', (s'.parts q).pc ≠ .idle → (s'.parts q').pc ≠ .idle →
      (s'.parts q).mailbox = (s'.parts q').mailbox → q = q') ∧
    (∀ q, (s'.parts q).pc ≠ .idle → (s'.parts q).mailbox &&& 0x000FFFFF ≠ 0) ∧
    ∀ q, (s'.parts q).pc ≠ .idle → (s'.parts q).mailbox ≠ s'.barrier.lockFullAddressPtr := by
  refine ⟨fun q q' hq hq' h => ?_, fun q hq => ?_, fun q hq => ?_⟩
  · obtain ⟨hbusy, hbox⟩ := hkeep q hq
    obtain ⟨hbusy', hbox'⟩ := hkeep q' hq'
    rw [hbox, hbox'] at h
    exact H.distinct q q' hbusy hbusy' h
  · obtain ⟨hbusy, hbox⟩ := hkeep q hq
    rw [hbox]
    exact H.low q hbusy
  · obtain ⟨hbusy, hbox⟩ := hkeep q hq
    rw [hbox, hlock]
    exact H.apart q hbusy

theorem Quiet.congr {s s' : State n} {q : Fin n} {k : Nat} (h : Quiet s q k)
    (hbox : (s'.parts q).mailbox = (s.parts q).mailbox) (hmem : s'.mem (s.parts q).mailbox = s.mem (s.parts q).mailbox)
    (hfl : s'.flight (s.parts q).mailbox = s.flight (s.parts q).mailbox) (hsent : s'.sent q = s.sent q) :
    Quiet s' q k := ⟨by rw [hbox, hmem]; exact h.mem, by rw [hbox, hfl]; exact h.flight, by rw [hsent]; exact h.sent⟩

theorem Signalled.congr {s s' : State n} {q : Fin n} {k : Nat} (h : Signalled s q k)
    (hbox : (s'.parts q).mailbox = (s.parts q).mailbox) (hmem : s'.mem (s.parts q).mailbox = s.mem (s.parts q).mailbox)
    (hfl : s'.flight (s.parts q).mailbox = s.flight (s.parts q).mailbox)
    (hst : s'.stamp (s.parts q).mailbox = s.stamp (s.parts q).mailbox) (hsent : s'.sent q = s.sent q) :
    Signalled s' q k := ⟨by rw [hsent]; exact h.sent, by rw [hbox, hmem, hfl, hst]; exact h.mail⟩

/-- The step leaves participant `q` and, if it is in a call, its mailbox alone. -/
structure Same (s s' : State n) (q : Fin n) : Prop where
  part : s'.parts q = s.parts q
  mem : (s.parts q).pc ≠ .idle → s'.mem (s.parts q).mailbox = s.mem (s.parts q).mailbox
  flight : (s.parts q).pc ≠ .idle → s'.flight (s.parts q).mailbox = s.flight (s.parts q).mailbox
  stamp : (s.parts q).pc ≠ .idle → s'.stamp (s.parts q).mailbox = s.stamp (s.parts q).mailbox
  sent : (s.parts q).pc ≠ .idle → s'.sent q = s.sent q

theorem Role.same {e : Nat} {W W' R R' : List (Fin n)} {s s' : State n} {q : Fin n} (H : Role e W R s q) (h : Same s s' q)
    (hW : q ∈ W' ↔ q ∈ W) (hR : q ∈ R' ↔ q ∈ R) : Role e W' R' s' q := by
  have hbox : (s'.parts q).mailbox = (s.parts q).mailbox := by rw [h.part]
  have hquiet : ∀ k, (s.parts q).pc ≠ .idle → Quiet s q k → Quiet s' q k := fun k hpc hq =>
    hq.congr hbox (h.mem hpc) (h.flight hpc) (h.sent hpc)
  have hsig : ∀ k, (s.parts q).pc ≠ .idle → Signalled s q k → Signalled s' q k := fun k hpc hq =>
    hq.congr hbox (h.mem hpc) (h.flight hpc) (h.stamp hpc) (h.sent hpc)
  unfold Role at H ⊢
  simp only [h.part, hW, hR]
  cases hpc : (s.parts q).pc with
  | idle => rw [hpc] at H; exact H
  | spinning =>
    rw [hpc] at H hquiet hsig
    have hne : Pc.spinning ≠ .idle := by decide
    rcases H with ⟨h1, h2, h3, h4⟩ | ⟨h1, h2, h3, ⟨h4, h5⟩ | ⟨h4, h5⟩⟩
    · exact Or.inl ⟨h1, h2, h3, hquiet _ hne h4⟩
    · exact Or.inr ⟨h1, h2, h3, Or.inl ⟨h4, hquiet _ hne h5⟩⟩
    · exact Or.inr ⟨h1, h2, h3, Or.inr ⟨h4, hsig _ hne h5⟩⟩
  | signalling i => rw [hpc] at H; exact H
  | resetting => rw [hpc] at H; exact H
  | unlockingLast => rw [hpc] at H; exact H
  | _ =>
    rw [hpc] at H hquiet
    exact ⟨H.1, H.2.1, H.2.2.1, hquiet _ (by simp) H.2.2.2⟩

/-! ## Steps inside a call -/

/-- Participant `p`, in a call and not spinning, goes on to `pc`: the barrier and the
    mutex may change, the mailboxes do not. -/
def advance (s : State n) (p : Fin n) (pc : Pc) (b : DartsBarrier) (holder : Option (Fin n)) : State n :=
  { s with barrier := b, holder := holder }.set p { s.parts p with pc := pc }

theorem advance_mailbox (s : State n) (p : Fin n) (pc : Pc) (b : DartsBarrier) (holder : Option (Fin n)) (q : Fin n) :
    ((advance s p pc b holder).parts q).mailbox = (s.parts q).mailbox := by
  by_cases h : q = p
  · subst h; simp [advance]
  · simp [advance, h]

theorem Inv.advanced {e : Nat} {W R : List (Fin n)} {s : State n} (H : Inv e W R s) {p : Fin n}
    {pc : Pc} (b : DartsBarrier) (holder : Option (Fin n)) {W' : List (Fin n)} (hbusy : (s.parts p).pc ≠ .idle)
    (hns : (s.parts p).pc ≠ .spinning) (hthreads : b.numThreads = s.barrier.numThreads)
    (hlock : b.lockFullAddressPtr = s.barrier.lockFullAddressPtr)
    (hW : ∀ q, q ≠ p → (q ∈ W' ↔ q ∈ W)) (hnodup : W'.Nodup) (hrole : Role e W' R (advance s p pc b holder) p)
    (hp : holder = some p ↔ pc.inside = true) (hothers : ∀ q, q ≠ p → (holder = some q ↔ s.holder = some q))
    (hstage : Stage W' R (advance s p pc b holder)) : Inv e W' R (advance s p pc b holder) := by
  have hne : ∀ q, q ≠ p → (advance s p pc b holder).parts q = s.parts q := fun q h => by simp [advance, h]
  have hbox := advance_mailbox s p pc b holder
  have hidle : ∀ q, ((advance s p pc b holder).parts q).pc ≠ .idle → (s.parts q).pc ≠ .idle := fun q h => by
    by_cases e : q = p
    · subst e; exact hbusy
    · rw [hne q e] at h; exact h
  have hspin : ∀ q, (s.parts q).pc = .spinning → q ≠ p := by
    intro q h hqp
    rw [hqp] at h
    exact hns h
  obtain ⟨hdistinct, hlow, hapart⟩ := H.boxes (fun q hq => ⟨hidle q hq, hbox q⟩) hlock
  refine ⟨hthreads.trans H.threads, fun q => ?_, fun q => ?_, hstage, hdistinct, hlow, hapart, fun a ha => ?_, hnodup,
    H.nodupR, fun q hq => ?_, H.later, H.once, H.each⟩
  · by_cases e : q = p
    · rw [e]; exact hrole
    · exact (H.role q).same ⟨hne q e, fun _ => rfl, fun _ => rfl, fun _ => rfl, fun _ => rfl⟩ (hW q e) Iff.rfl
  · by_cases e : q = p
    · rw [e]; simpa [advance] using hp
    · rw [hne q e, ← H.holds q]; exact hothers q e
  · rcases H.flights a ha with h | ⟨q, hq, hbx⟩
    · exact Or.inl h
    · exact Or.inr ⟨q, by rw [hne q (hspin q hq)]; exact hq, by rw [hbox]; exact hbx⟩
  · obtain ⟨hpc, hent⟩ := H.pending q hq
    rw [hne q (hspin q hpc)]
    exact ⟨hpc, hent⟩

theorem Slots.advance {s : State n} {i : Nat} {L : List (Fin n)} (h : Slots s i L) (p : Fin n) (pc : Pc)
    (holder : Option (Fin n)) {b : DartsBarrier} (hb : ∀ j, i ≤ j → j < i + L.length → b.mailboxes j = s.barrier.mailboxes j) :
    Slots (advance s p pc b holder) i L := fun j hj => by
  rw [advance_mailbox, ← h j hj]
  exact hb _ (by omega) (by omega)

theorem Slots.congr {s s' : State n} {i : Nat} {L : List (Fin n)} (h : Slots s i L) (hb : s'.barrier = s.barrier)
    (hbox : ∀ q ∈ L, (s'.parts q).mailbox = (s.parts q).mailbox) : Slots s' i L := fun j hj => by
  rw [hb, hbox _ (List.getElem_mem hj)]
  exact h j hj

theorem Ready.congr {W R : List (Fin n)} {s s' : State n} (h : Ready W R s) (hb : s'.barrier = s.barrier)
    (hbox : ∀ q, q ∈ W ∨ q ∈ R → (s'.parts q).mailbox = (s.parts q).mailbox) : Ready W R s' :=
  ⟨by rw [hb]; exact h.counter, h.room, h.slots.congr hb fun q hq => hbox q (Or.inl hq),
    fun hW j => by rw [hb]; exact h.blank hW j, h.none⟩

theorem Doing.congr {W R : List (Fin n)} {s s' : State n} {pc : Pc} (h : Doing W R s pc) (hb : s'.barrier = s.barrier)
    (hbox : ∀ q, q ∈ W ∨ q ∈ R → (s'.parts q).mailbox = (s.parts q).mailbox) : Doing W R s' pc := by
  have hW : ∀ i, Slots s i W → Slots s' i W := fun i hs => hs.congr hb fun q hq => hbox q (Or.inl hq)
  have hR : ∀ i, Slots s i R → Slots s' i R := fun i hs => hs.congr hb fun q hq => hbox q (Or.inr hq)
  have hblank : ∀ i, Blank s i → Blank s' i := fun i hs j => by rw [hb]; exact hs j
  cases pc with
  | deciding => exact Ready.congr h hb hbox
  | clearing i => exact ⟨by rw [hb]; exact h.1, h.2.1, by rw [hb]; exact h.2.2.1, h.2.2.2⟩
  | registering => exact ⟨by rw [hb]; exact h.1, h.2.1, hW _ h.2.2.1, hblank _ h.2.2.2.1, h.2.2.2.2⟩
  | counting => exact ⟨by rw [hb]; exact h.1, h.2.1, hW _ h.2.2.1, hblank _ h.2.2.2.1, h.2.2.2.2⟩
  | unlocking => exact ⟨by rw [hb]; exact h.1, h.2.1, hW _ h.2.2.1, hblank _ h.2.2.2.1, h.2.2.2.2⟩
  | signalling i => exact ⟨h.1, h.2.1, h.2.2.1, hR _ h.2.2.2.1, by rw [hb]; exact h.2.2.2.2⟩
  | resetting => exact h
  | unlockingLast => exact ⟨by rw [hb]; exact h.1, h.2⟩
  | _ => exact h

/-- A step that leaves the barrier, the mutex and its owner alone leaves the stage. -/
theorem Stage.congr {W R : List (Fin n)} {s s' : State n} (h : Stage W R s) (hb : s'.barrier = s.barrier)
    (hh : s'.holder = s.holder) (hbox : ∀ q, q ∈ W ∨ q ∈ R → (s'.parts q).mailbox = (s.parts q).mailbox)
    (hpc : ∀ r, s.holder = some r → (s'.parts r).pc = (s.parts r).pc) : Stage W R s' := by
  unfold Stage at h ⊢
  rw [hh]
  cases hr : s.holder with
  | none => rw [hr] at h; exact Ready.congr h hb hbox
  | some r =>
    rw [hr] at h
    simp only [hpc r hr]
    exact Doing.congr h hb hbox

theorem Stage.doing {W R : List (Fin n)} {s : State n} (h : Stage W R s) {p : Fin n} {pc : Pc}
    (hh : s.holder = some p) (hpc : (s.parts p).pc = pc) : Doing W R s pc := by
  simp only [Stage, hh, hpc] at h
  exact h

theorem Doing.stageOf {W R : List (Fin n)} {s : State n} {p : Fin n} {me : Participant}
    (h : Doing W R (s.set p me) me.pc) (hh : s.holder = some p) : Stage W R (s.set p me) := by
  simpa [Stage, hh] using h

theorem Doing.stage {W R : List (Fin n)} {s : State n} {p : Fin n} {pc : Pc} {b : DartsBarrier}
    (h : Doing W R (advance s p pc b (some p)) pc) : Stage W R (advance s p pc b (some p)) := by
  simpa [Stage, advance] using h

theorem Inv.holder {e : Nat} {W R : List (Fin n)} {s : State n} (H : Inv e W R s) {p : Fin n}
    (h : (s.parts p).pc.inside = true) : s.holder = some p := (H.holds p).mpr h

/-- The owner of the mutex goes on, and keeps it. -/
theorem Inv.advanced_inside {e : Nat} {W R : List (Fin n)} {s : State n} (H : Inv e W R s) {p : Fin n} {pc : Pc}
    {b : DartsBarrier} {W' : List (Fin n)} (hin : (s.parts p).pc.inside = true) (hin' : pc.inside = true)
    (hthreads : b.numThreads = s.barrier.numThreads) (hlock : b.lockFullAddressPtr = s.barrier.lockFullAddressPtr)
    (hW : ∀ q, q ≠ p → (q ∈ W' ↔ q ∈ W)) (hnodup : W'.Nodup) (hrole : Role e W' R (advance s p pc b (some p)) p)
    (hdoing : Doing W' R (advance s p pc b (some p)) pc) : Inv e W' R (advance s p pc b (some p)) :=
  H.advanced b (some p) (by rintro h; rw [h] at hin; cases hin) (by rintro h; rw [h] at hin; cases hin) hthreads hlock hW hnodup hrole
    (by simp [hin']) (fun q _ => by rw [H.holder hin]) hdoing.stage

/-- Nothing but the place of `p` changes. -/
theorem Quiet.advance {s : State n} {p : Fin n} {k : Nat} (h : Quiet s p k) (pc : Pc) (b : DartsBarrier)
    (holder : Option (Fin n)) : Quiet (advance s p pc b holder) p k :=
  h.congr (advance_mailbox s p pc b holder p) rfl rfl rfl

@[simp] theorem advance_same (s : State n) (p : Fin n) (pc : Pc) (b : DartsBarrier) (holder : Option (Fin n)) :
    (advance s p pc b holder).parts p = { s.parts p with pc := pc } := by simp [advance]

section Inner

variable {e : Nat} {W R : List (Fin n)} {s : State n} {p : Fin n}

theorem role_arriving (h : (s.parts p).pc.arriving = true) :
    Role e W R s p ↔
      (s.parts p).entered = e + 1 ∧ (s.parts p).returned = e ∧ p ∉ W ∧ Quiet s p (e + 1) := by
  unfold Role
  cases hpc : (s.parts p).pc <;> rw [hpc] at h <;> first | exact Iff.rfl | cases h

/-- A step on the way to the registration. -/
theorem Role.advance (hr : Role e W R s p) (h : (s.parts p).pc.arriving = true) {pc : Pc} (h' : pc.arriving = true)
    (b : DartsBarrier) (holder : Option (Fin n)) : Role e W R (advance s p pc b holder) p := by
  obtain ⟨hentered, hreturned, hW, hquiet⟩ := (role_arriving h).mp hr
  rw [role_arriving (by rw [advance_same]; exact h'), advance_same]
  exact ⟨hentered, hreturned, hW, hquiet.advance _ _ _⟩

theorem Inv.check (H : Inv e W R s) (hpc : (s.parts p).pc = .checking) :
    Inv e W R (s.set p { s.parts p with pc := .acquiring }) := by
  refine H.advanced s.barrier s.holder (by simp [hpc]) (by simp [hpc]) rfl rfl (fun _ _ => Iff.rfl) H.nodupW
    ?_ ?_ (fun _ _ => Iff.rfl) ?_
  · exact (H.role p).advance (by rw [hpc]; rfl) rfl _ _
  · rw [H.holds p, hpc]; rfl
  · refine H.stage.congr rfl rfl (fun q _ => advance_mailbox s p _ _ _ q) fun r hown => ?_
    have hrp : r ≠ p := by
      intro e
      subst e
      rw [H.holds r, hpc] at hown
      cases hown
    simp [advance, hrp]

theorem Inv.acquire (H : Inv e W R s) (hpc : (s.parts p).pc = .acquiring) (hh : s.holder = none) :
    Inv e W R ({ s with holder := some p }.set p { s.parts p with pc := .deciding }) := by
  have hst := H.stage
  simp only [Stage, hh] at hst
  refine H.advanced s.barrier (some p) (by simp [hpc]) (by simp [hpc]) rfl rfl (fun _ _ => Iff.rfl) H.nodupW
    ?_ (by simp [Pc.inside]) (fun q hq => by simp [hh, Ne.symm hq]) (Doing.stage ?_)
  · exact (H.role p).advance (by rw [hpc]; rfl) rfl _ _
  · exact ⟨hst.counter, hst.room, hst.slots.advance _ _ _ (fun _ _ _ => rfl), hst.blank, hst.none⟩

/-- The owner of the mutex at `pc`. -/
theorem Inv.owner (H : Inv e W R s) {pc : Pc} (hpc : (s.parts p).pc = pc) (hin : pc.inside = true) :
    s.holder = some p ∧ Doing W R s pc := by
  have hh := H.holder (p := p) (by rw [hpc]; exact hin)
  exact ⟨hh, H.stage.doing hh hpc⟩

theorem set_eq_advance (hh : s.holder = some p) (pc : Pc) (b : DartsBarrier) :
    { s with barrier := b }.set p { s.parts p with pc := pc } = advance s p pc b (some p) := by
  rw [advance, ← hh]

theorem Inv.first (H : Inv e W R s) (hpc : (s.parts p).pc = .deciding) (hc : s.barrier.counter = 0) :
    Inv e W R (s.set p { s.parts p with pc := .clearing 0 }) := by
  obtain ⟨hh, hst⟩ := H.owner hpc rfl
  rw [show s.set p { s.parts p with pc := .clearing 0 } = _ from set_eq_advance hh (.clearing 0) s.barrier]
  refine H.advanced_inside (by rw [hpc]; rfl) rfl rfl rfl (fun _ _ => Iff.rfl) H.nodupW ?_ ?_
  · exact (H.role p).advance (by rw [hpc]; rfl) rfl _ _
  · have hW := hst.counter
    rw [hc] at hW
    exact ⟨hc, List.length_eq_zero_iff.mp hW.symm, fun j hj => by omega, hst.none⟩

theorem Inv.between (H : Inv e W R s) (hpc : (s.parts p).pc = .deciding) (hc : s.barrier.counter ≠ 0)
    (hl : s.barrier.counter ≠ s.barrier.numThreads - 1) : Inv e W R (s.set p { s.parts p with pc := .registering }) := by
  obtain ⟨hh, hst⟩ := H.owner hpc rfl
  rw [show s.set p { s.parts p with pc := .registering } = _ from set_eq_advance hh .registering s.barrier]
  refine H.advanced_inside (by rw [hpc]; rfl) rfl rfl rfl (fun _ _ => Iff.rfl) H.nodupW ?_ ?_
  · exact (H.role p).advance (by rw [hpc]; rfl) rfl _ _
  · have hcount := hst.counter
    have hroom := hst.room
    have hW : W ≠ [] := by rintro rfl; exact hc hcount
    rw [H.threads] at hl
    exact ⟨hcount, by omega, hst.slots.advance _ _ _ (fun _ _ _ => rfl), hst.blank hW, hst.none⟩

theorem Inv.clear (H : Inv e W R s) {i : Nat} (hpc : (s.parts p).pc = .clearing i) :
    Inv e W R ({ s with barrier :=
        { s.barrier with mailboxes := fun j => if j = i then 0 else s.barrier.mailboxes j } }.set p
          { s.parts p with pc := .clearing (i + 1) }) := by
  obtain ⟨hh, hc, hW, hblank, hR⟩ := H.owner hpc rfl
  rw [set_eq_advance hh]
  refine H.advanced_inside (by rw [hpc]; rfl) rfl rfl rfl (fun _ _ => Iff.rfl) H.nodupW ?_ ?_
  · exact (H.role p).advance (by rw [hpc]; rfl) rfl _ _
  · refine ⟨hc, hW, fun j hj => ?_, hR⟩
    by_cases e : j = i
    · simp [advance, e]
    · simpa [advance, e] using hblank j (by omega)

theorem Inv.cleared (hn : 2 ≤ n) (H : Inv e W R s) {i : Nat} (hpc : (s.parts p).pc = .clearing i)
    (hi : s.barrier.numThreads ≤ i) : Inv e W R (s.set p { s.parts p with pc := .registering }) := by
  obtain ⟨hh, hc, rfl, hblank, hR⟩ := H.owner hpc rfl
  rw [show s.set p { s.parts p with pc := .registering } = _ from set_eq_advance hh .registering s.barrier]
  refine H.advanced_inside (by rw [hpc]; rfl) rfl rfl rfl (fun _ _ => Iff.rfl) H.nodupW ?_ ?_
  · exact (H.role p).advance (by rw [hpc]; rfl) rfl _ _
  · rw [H.threads] at hi
    exact ⟨hc, by simp only [List.length_nil]; omega, fun j hj => absurd hj (by simp), fun j _ hj => hblank j (by omega), hR⟩

theorem Inv.register (H : Inv e W R s) (hpc : (s.parts p).pc = .registering) :
    Inv e (W ++ [p]) R ({ s with barrier := { s.barrier with
        mailboxes := fun j => if j = s.barrier.counter then (s.parts p).mailbox else s.barrier.mailboxes j } }.set p
          { s.parts p with pc := .counting }) := by
  have hr := H.role p
  obtain ⟨hh, hc, hroom, hslots, hblank, hR⟩ := H.owner hpc rfl
  simp only [Role, hpc] at hr
  rw [set_eq_advance hh]
  refine H.advanced_inside (by rw [hpc]; rfl) rfl rfl rfl (fun q hq => by simp [hq]) ?_ ?_ ?_
  · rw [List.nodup_append]
    exact ⟨H.nodupW, by simp, fun a ha b hb => by rintro rfl; simp at hb; subst hb; exact hr.2.2.1 ha⟩
  · simp only [Role, advance_same]
    exact ⟨hr.1, hr.2.1, by simp, hr.2.2.2.advance _ _ _⟩
  · refine ⟨by simp [advance, hc], by simpa using hroom, fun j hj => ?_, fun j hj hjn => ?_, hR⟩
    · rw [advance_mailbox]
      rw [List.length_append, List.length_singleton] at hj
      by_cases e : j = W.length
      · subst e; simp [advance, hc]
      · have hlt : j < W.length := by omega
        have := hslots j hlt
        simp only [Nat.zero_add] at this
        simpa [advance, hc, e, List.getElem_append_left hlt] using this
    · rw [List.length_append, List.length_singleton] at hj
      have hne : j ≠ W.length := by omega
      simpa [advance, hc, hne] using hblank j (by omega) hjn

theorem Inv.count (H : Inv e W R s) (hpc : (s.parts p).pc = .counting) :
    Inv e W R ({ s with barrier := { s.barrier with counter := s.barrier.counter + 1 } }.set p
        { s.parts p with pc := .unlocking }) := by
  have hr := H.role p
  obtain ⟨hh, hc, hroom, hslots, hblank, hR⟩ := H.owner hpc rfl
  simp only [Role, hpc] at hr
  rw [set_eq_advance hh]
  refine H.advanced_inside (by rw [hpc]; rfl) rfl rfl rfl (fun _ _ => Iff.rfl) H.nodupW ?_ ?_
  · simp only [Role, advance_same]
    exact ⟨hr.1, hr.2.1, hr.2.2.1, hr.2.2.2.advance _ _ _⟩
  · exact ⟨hc, hroom, hslots.advance _ _ _ (fun _ _ _ => rfl), hblank, hR⟩

theorem Inv.unlock (H : Inv e W R s) (hpc : (s.parts p).pc = .unlocking) :
    Inv e W R ({ s with holder := none }.set p { s.parts p with pc := .spinning }) := by
  have hr := H.role p
  obtain ⟨hh, hc, hroom, hslots, hblank, hR⟩ := H.owner hpc rfl
  simp only [Role, hpc] at hr
  refine H.advanced s.barrier none (by simp [hpc]) (by simp [hpc]) rfl rfl (fun _ _ => Iff.rfl) H.nodupW
    ?_ (by simp [Pc.inside]) (fun q hq => by simp [hh, Ne.symm hq]) ?_
  · simp only [Role, advance_same]
    exact Or.inl ⟨hr.1, hr.2.1, hr.2.2.1, hr.2.2.2.advance _ _ _⟩
  · exact ⟨hc, hroom, hslots.advance _ _ _ (fun _ _ _ => rfl), fun _ => hblank, hR⟩

theorem Inv.signalled (H : Inv e W R s) {i : Nat} (hpc : (s.parts p).pc = .signalling i)
    (hi : s.barrier.numThreads ≤ i) : Inv e W R (s.set p { s.parts p with pc := .resetting }) := by
  have hr := H.role p
  obtain ⟨hh, hW, -, hlen, -, -⟩ := H.owner hpc rfl
  simp only [Role, hpc] at hr
  rw [show s.set p { s.parts p with pc := .resetting } = _ from set_eq_advance hh .resetting s.barrier]
  refine H.advanced_inside (by rw [hpc]; rfl) rfl rfl rfl (fun _ _ => Iff.rfl) H.nodupW ?_ ?_
  · simp only [Role, advance_same]
    exact hr
  · rw [H.threads] at hi
    exact ⟨hW, List.length_eq_zero_iff.mp (by omega)⟩

theorem Inv.reset (H : Inv e W R s) (hpc : (s.parts p).pc = .resetting) :
    Inv e W R ({ s with barrier := { s.barrier with counter := 0 } }.set p { s.parts p with pc := .unlockingLast }) := by
  have hr := H.role p
  obtain ⟨hh, hW, hR⟩ := H.owner hpc rfl
  simp only [Role, hpc] at hr
  rw [set_eq_advance hh]
  refine H.advanced_inside (by rw [hpc]; rfl) rfl rfl rfl (fun _ _ => Iff.rfl) H.nodupW ?_ ⟨rfl, hW, hR⟩
  simp only [Role, advance_same]
  exact hr

end Inner

/-! ## The last arrival -/

/-- All but one of the participants are all the others. -/
theorem mem_of_all_but_one {W : List (Fin n)} (hW : W.Nodup) {p : Fin n} (hp : p ∉ W) (hlen : W.length = n - 1)
    {q : Fin n} (hq : q ≠ p) : q ∈ W := by
  by_contra h
  have hnodup : (q :: p :: W).Nodup := by simp [hW, hp, hq, h]
  have := hnodup.length_le_card
  simp only [List.length_cons, Fintype.card_fin] at this
  omega

section Outer

variable {e : Nat} {W R : List (Fin n)} {s : State n} {p : Fin n}

/-- Who is registered and not in the critical section waits. -/
theorem Inv.waiting (H : Inv e W R s) {q : Fin n} (hq : q ∈ W) (hout : (s.parts q).pc.inside = false) :
    (s.parts q).pc = .spinning ∧ (s.parts q).entered = e + 1 ∧ (s.parts q).returned = e ∧ Quiet s q (e + 1) := by
  have hr := H.role q
  cases hpc : (s.parts q).pc with
  | spinning =>
    simp only [Role, hpc] at hr
    rcases hr with ⟨h1, h2, -, h4⟩ | ⟨-, -, h3, -⟩
    · exact ⟨rfl, h1, h2, h4⟩
    · exact absurd hq h3
  | _ => simp_all [Role, Pc.inside]

theorem Inv.last (H : Inv e W R s) (hpc : (s.parts p).pc = .deciding) (hc : s.barrier.counter ≠ 0)
    (hl : s.barrier.counter = s.barrier.numThreads - 1) :
    Inv (e + 1) [] W (s.set p { s.parts p with pc := .signalling 0 }) := by
  have hr := H.role p
  obtain ⟨hh, hcount, hroom, hslots, hblank, hR⟩ := H.owner hpc rfl
  simp only [Role, hpc] at hr
  obtain ⟨hent, hret, hp, -⟩ := hr
  rw [H.threads, hcount] at hl
  have hWne : W ≠ [] := by rintro rfl; exact hc hcount
  have hothers : ∀ q, q ≠ p → q ∈ W := fun q hq => mem_of_all_but_one H.nodupW hp hl hq
  have hwait : ∀ q, q ≠ p → (s.parts q).pc = .spinning ∧ (s.parts q).entered = e + 1 ∧ (s.parts q).returned = e ∧
      Quiet s q (e + 1) := fun q hq => H.waiting (hothers q hq) (by
    by_contra hin
    have := H.holder (p := q) (by simpa using hin)
    rw [hh] at this
    exact hq (Option.some.inj this).symm)
  rw [show s.set p { s.parts p with pc := .signalling 0 } = _ from set_eq_advance hh (.signalling 0) s.barrier]
  have hne : ∀ q, q ≠ p → (advance s p (.signalling 0) s.barrier (some p)).parts q = s.parts q := fun q h => by
    simp [advance, h]
  have hbox := advance_mailbox s p (.signalling 0) s.barrier (some p)
  have hidle : ∀ q, (s.parts q).pc ≠ .idle := fun q => by
    by_cases e : q = p
    · subst e; rw [hpc]; decide
    · rw [(hwait q e).1]; decide
  obtain ⟨hdistinct, hlow, hapart⟩ := H.boxes (fun q _ => ⟨hidle q, hbox q⟩) rfl
  refine ⟨H.threads, fun q => ?_, fun q => ?_, Doing.stage ?_, hdistinct, hlow, hapart, fun a ha => ?_, List.nodup_nil,
    H.nodupW, fun q hq => ?_, fun q k hk => H.later q k (by omega), H.once, fun k hk hke => ?_⟩
  · by_cases hqp : q = p
    · subst hqp
      simp only [Role, advance_same]
      exact ⟨hent, by omega, by simp⟩
    · obtain ⟨h1, h2, h3, h4⟩ := hwait q hqp
      simp only [Role, hne q hqp, h1]
      exact Or.inr ⟨h2, by omega, by simp, Or.inl ⟨hothers q hqp, h4.congr (hbox q) rfl rfl rfl⟩⟩
  · by_cases hqp : q = p
    · subst hqp; simp [advance, Pc.inside]
    · rw [hne q hqp, (hwait q hqp).1]
      simp [advance, Pc.inside, Ne.symm hqp]
  · exact ⟨rfl, Nat.zero_le n, hl, hslots.advance _ _ _ (fun _ _ _ => rfl), hblank hWne (n - 1) (by omega) (by omega)⟩
  · rcases H.flights a ha with h | ⟨q, hq, hbx⟩
    · exact Or.inl h
    · have hqp : q ≠ p := by rintro rfl; rw [hpc] at hq; cases hq
      exact Or.inr ⟨q, by rw [hne q hqp]; exact hq, by rw [hbox]; exact hbx⟩
  · have hqp : q ≠ p := by rintro rfl; exact hp hq
    rw [hne q hqp]
    exact ⟨(hwait q hqp).1, (hwait q hqp).2.1⟩
  · by_cases hlast : k = e + 1
    · subst hlast
      refine ⟨p, fun _ => hp, fun q => ?_⟩
      rw [if_pos]
      · exact H.later q (e + 1) (by omega)
      · by_cases hqp : q = p
        · exact Or.inl hqp
        · exact Or.inr ⟨rfl, hothers q hqp⟩
    · obtain ⟨r, -, hr⟩ := H.each k hk (by omega)
      refine ⟨r, fun h => absurd h hlast, fun q => ?_⟩
      have := hr q
      simp only [hR, List.not_mem_nil, and_false, or_false] at this
      simpa [hlast, advance] using this

/-! ## Signals -/

/-- The last one, in turn `i` of its loop, signals to `a`. -/
def sendOn (s : State n) (p : Fin n) (i : Nat) (a : Word) : State n :=
  (s.signal a (s.parts p).entered).set p { s.parts p with pc := .signalling (i + 1) }

theorem sendOn_ne {q : Fin n} (i : Nat) (a : Word) (h : q ≠ p) : (sendOn s p i a).parts q = s.parts q := by
  simp [sendOn, State.signal, h]

theorem sendOn_mailbox (i : Nat) (a : Word) (q : Fin n) :
    ((sendOn s p i a).parts q).mailbox = (s.parts q).mailbox := by
  by_cases h : q = p
  · subst h; simp [sendOn]
  · rw [sendOn_ne i a h]

theorem sendOn_flight (i : Nat) {a x : Word} (h : x ≠ a) : (sendOn s p i a).flight x = s.flight x := by
  simp [sendOn, State.signal, h]

theorem sendOn_busy {i j : Nat} {a : Word} (hpc : (s.parts p).pc = .signalling j) {q : Fin n}
    (h : ((sendOn s p i a).parts q).pc ≠ .idle) : (s.parts q).pc ≠ .idle := by
  by_cases hqp : q = p
  · subst hqp; rw [hpc]; simp
  · rw [sendOn_ne i a hqp] at h; exact h

/-- A signal does not concern the participants whose mailbox is another. -/
theorem Same.sent_on {a : Word} {q : Fin n} (i : Nat) (hqp : q ≠ p) (h : (s.parts q).pc ≠ .idle → (s.parts q).mailbox ≠ a) :
    Same s (sendOn s p i a) q := by
  refine ⟨sendOn_ne i a hqp, fun _ => rfl, fun hpc => sendOn_flight i (h hpc), fun _ => rfl, fun hpc => ?_⟩
  funext k
  simp [sendOn, State.signal, State.set, h hpc]

/-- What every signal of the last one keeps: who is where, and the mailboxes. -/
theorem Inv.sent_on (H : Inv e W R s) {i : Nat} (hpc : (s.parts p).pc = .signalling i) (a : Word) {R' : List (Fin n)}
    (hR : ∀ q ∈ R', q ∈ R) (hnodup : R'.Nodup) (hrole : ∀ q, q ≠ p → Role e W R' (sendOn s p i a) q)
    (hdoing : Doing W R' (sendOn s p i a) (.signalling (i + 1)))
    (ha : a &&& 0x000FFFFF = 0 ∨ ∃ q, (s.parts q).pc = .spinning ∧ (s.parts q).mailbox = a)
    (hlater : ∀ q k, e < k → (sendOn s p i a).sent q k = 0) (honce : ∀ q k, (sendOn s p i a).sent q k ≤ 1)
    (heach : ∀ k, 1 ≤ k → k ≤ e → ∃ w, (k = e → w ∉ R') ∧
      ∀ q, (sendOn s p i a).sent q k = if q = w ∨ (k = e ∧ q ∈ R') then 0 else 1) :
    Inv e W R' (sendOn s p i a) := by
  obtain ⟨hh, -⟩ := H.owner hpc rfl
  have hbox := sendOn_mailbox (s := s) (p := p) i a
  have hne : ∀ q, (s.parts q).pc = .spinning → (sendOn s p i a).parts q = s.parts q := fun q hq =>
    sendOn_ne i a (by rintro rfl; rw [hpc] at hq; cases hq)
  obtain ⟨hdistinct, hlow, hapart⟩ := H.boxes (fun q hq => ⟨sendOn_busy hpc hq, hbox q⟩) rfl
  refine ⟨H.threads, fun q => ?_, fun q => ?_, hdoing.stageOf hh, hdistinct, hlow, hapart, fun x hx => ?_, H.nodupW, hnodup,
    fun q hq => ?_, hlater, honce, heach⟩
  · by_cases hqp : q = p
    · have hr := H.role p
      simp only [Role, hpc] at hr
      subst hqp
      simpa [Role, sendOn] using hr
    · exact hrole q hqp
  · by_cases hqp : q = p
    · subst hqp
      simp [sendOn, State.signal, hh, Pc.inside]
    · rw [sendOn_ne i a hqp]
      exact H.holds q
  · have hold : x &&& 0x000FFFFF = 0 ∨ ∃ q, (s.parts q).pc = .spinning ∧ (s.parts q).mailbox = x := by
      by_cases hxa : x = a
      · rw [hxa]; exact ha
      · rw [sendOn_flight i hxa] at hx
        exact H.flights x hx
    rcases hold with h | ⟨q, hq, hbx⟩
    · exact Or.inl h
    · exact Or.inr ⟨q, by rw [hne q hq]; exact ⟨hq, hbx⟩⟩
  · obtain ⟨h1, h2⟩ := H.pending q (hR q hq)
    rw [hne q h1]
    exact ⟨h1, h2⟩

/-- The last one sends to the participant in slot `i`. -/
theorem Inv.signalNext {r : Fin n} {R' : List (Fin n)} (H : Inv e W (r :: R') s) {i : Nat}
    (hpc : (s.parts p).pc = .signalling i) : Inv e W R' (sendOn s p i (s.barrier.mailboxes i)) := by
  obtain ⟨hh, hW, hi, hlen, hslots, hzero⟩ := H.owner hpc rfl
  obtain ⟨hrpc, hrent⟩ := H.pending r (by simp)
  have hnodup := List.nodup_cons.mp H.nodupR
  have hent : (s.parts p).entered = e := by
    have hr := H.role p
    simp only [Role, hpc] at hr
    exact hr.1
  have hquiet : (s.parts r).returned + 1 = e ∧ Quiet s r e := by
    have hr := H.role r
    simp only [Role, hrpc] at hr
    rcases hr with ⟨h, -, -, -⟩ | ⟨-, h2, -, h⟩
    · omega
    · exact ⟨h2, by simpa using h⟩
  have hother : ∀ q, q ≠ r → (s.parts q).pc ≠ .idle → (s.parts q).mailbox ≠ (s.parts r).mailbox := fun q hq hpc h =>
    hq (H.distinct q r hpc (by rw [hrpc]; decide) h)
  rw [show s.barrier.mailboxes i = (s.parts r).mailbox from hslots 0 (by simp)]
  -- only `r` is sent a signal, in its call `e`
  have hsent : ∀ q k, (sendOn s p i (s.parts r).mailbox).sent q k = if q = r ∧ k = e then 1 else s.sent q k := by
    intro q k
    by_cases hq : q = r
    · subst hq
      by_cases hk : k = e
      · subst hk; simp [sendOn, State.signal, State.set, hrpc, hrent, hquiet.2.sent]
      · simp [sendOn, State.signal, State.set, hrpc, hrent, hk, Ne.symm hk]
    · by_cases hpc' : (s.parts q).pc = .idle
      · simp [sendOn, State.signal, State.set, hpc', hq]
      · simp [sendOn, State.signal, State.set, hother q hq hpc', hq]
  refine H.sent_on hpc _ (fun q hq => List.mem_cons_of_mem r hq) hnodup.2 (fun q hqp => ?_) ?_
    (Or.inr ⟨r, hrpc, rfl⟩) (fun q k hk => ?_) (fun q k => ?_) fun k hk hke => ?_
  · by_cases hqr : q = r
    · subst hqr
      have hmail : (sendOn s p i (s.parts q).mailbox).flight (s.parts q).mailbox = [e] := by
        simp [sendOn, State.signal, hquiet.2.flight, hent]
      simp only [Role, sendOn_ne i _ hqp, hrpc]
      refine Or.inr ⟨hrent, hquiet.1, by simp [hW], Or.inr ⟨hnodup.1, by rw [hsent]; simp, Or.inl ?_⟩⟩
      rw [sendOn_mailbox]
      exact ⟨hquiet.2.mem, hmail⟩
    · exact (H.role q).same (Same.sent_on i hqp (hother q hqr)) Iff.rfl (by simp [hqr])
  · have hlen' : R'.length + 1 = n - 1 - i := by simpa using hlen
    refine ⟨hW, by omega, by omega, fun j hj => ?_, hzero⟩
    have := hslots (j + 1) (by simpa using hj)
    rw [sendOn_mailbox]
    simpa [sendOn, State.signal, Nat.add_assoc, Nat.add_comm 1] using this
  · rw [hsent, if_neg (by omega)]
    exact H.later q k hk
  · rw [hsent]
    split
    · exact Nat.le_refl 1
    · exact H.once q k
  · obtain ⟨w, hw, hw'⟩ := H.each k hk hke
    refine ⟨w, fun h hmem => hw h (List.mem_cons_of_mem r hmem), fun q => ?_⟩
    rw [hsent, hw' q]
    by_cases hqr : q = r
    · subst hqr
      by_cases hk' : k = e
      · have : q ≠ w := by rintro rfl; exact hw hk' (by simp)
        simp [hk', this, hnodup.1]
      · simp [hk']
    · simp [hqr]

/-- What the last turn of the loop finds in its slot. -/
theorem Inv.lastSlot (H : Inv e W R s) {i : Nat} (hpc : (s.parts p).pc = .signalling i) (hi : i = n - 1) :
    s.barrier.mailboxes i = 0 ∧ R = [] := by
  obtain ⟨-, -, -, hlen, -, hzero⟩ := H.owner hpc rfl
  exact ⟨by rw [hi]; exact hzero, List.length_eq_zero_iff.mp (by omega)⟩

/-- The last turn of the loop signals to the null address, where no mailbox is. -/
theorem Inv.signalNull (H : Inv e W R s) {i : Nat} (hpc : (s.parts p).pc = .signalling i) (hi : i + 1 = n) :
    Inv e W R (sendOn s p i (s.barrier.mailboxes i)) := by
  obtain ⟨hnull, hR⟩ := H.lastSlot hpc (by omega)
  obtain ⟨-, hW, -, -, -, hzero⟩ := H.owner hpc rfl
  have hlow : s.barrier.mailboxes i &&& 0x000FFFFF = 0 := by rw [hnull]; rfl
  have hother : ∀ q, (s.parts q).pc ≠ .idle → (s.parts q).mailbox ≠ s.barrier.mailboxes i := fun q hq h =>
    H.low q hq (by rw [h]; exact hlow)
  have hsent : (sendOn s p i (s.barrier.mailboxes i)).sent = s.sent := by
    funext q k
    by_cases hq : (s.parts q).pc = .idle
    · simp [sendOn, State.signal, State.set, hq]
    · simp [sendOn, State.signal, State.set, hother q hq]
  refine H.sent_on hpc _ (fun q hq => hq) H.nodupR (fun q hqp => ?_) ?_ (Or.inl hlow) ?_ ?_ ?_
  · exact (H.role q).same (Same.sent_on i hqp (hother q)) Iff.rfl Iff.rfl
  · exact ⟨hW, by omega, by rw [hR, List.length_nil]; omega, fun j hj => absurd hj (by simp [hR]), hzero⟩
  · rw [hsent]; exact H.later
  · rw [hsent]; exact H.once
  · rw [hsent]; exact H.each

/-! ## Leaving, entering, delivery -/

theorem Inv.leave (H : Inv e W R s) (holder : Option (Fin n)) (hbusy : (s.parts p).pc ≠ .idle)
    (hent : (s.parts p).entered = e) (hret : (s.parts p).returned + 1 = e) (hW : p ∉ W) (hR : p ∉ R)
    (hfl : s.flight (s.parts p).mailbox = []) (hp : holder ≠ some p)
    (hothers : ∀ q, q ≠ p → (holder = some q ↔ s.holder = some q))
    (hstage : Stage W R ({ s with holder := holder }.set p (s.parts p).leave)) :
    Inv e W R ({ s with holder := holder }.set p (s.parts p).leave) := by
  have hne : ∀ q, q ≠ p → ({ s with holder := holder }.set p (s.parts p).leave).parts q = s.parts q := fun q h => by
    simp [h]
  have hidle : ∀ q, (({ s with holder := holder }.set p (s.parts p).leave).parts q).pc ≠ .idle → q ≠ p := by
    rintro q h rfl
    simp [Participant.leave] at h
  have hkeep : ∀ q, (({ s with holder := holder }.set p (s.parts p).leave).parts q).pc ≠ .idle → (s.parts q).pc ≠ .idle ∧
      (({ s with holder := holder }.set p (s.parts p).leave).parts q).mailbox = (s.parts q).mailbox := by
    intro q hq
    have hqp := hidle q hq
    rw [hne q hqp] at hq ⊢
    exact ⟨hq, rfl⟩
  obtain ⟨hdistinct, hlow, hapart⟩ := H.boxes hkeep rfl
  refine ⟨H.threads, fun q => ?_, fun q => ?_, hstage, hdistinct, hlow, hapart, fun a ha => ?_, H.nodupW, H.nodupR,
    fun q hq => ?_, H.later, H.once, H.each⟩
  · by_cases hqp : q = p
    · subst hqp
      simp only [Role, set_same, Participant.leave]
      exact ⟨hent, hret, hW⟩
    · exact (H.role q).same ⟨hne q hqp, fun _ => rfl, fun _ => rfl, fun _ => rfl, fun _ => rfl⟩ Iff.rfl Iff.rfl
  · by_cases hqp : q = p
    · subst hqp; simp [hp, Participant.leave, Pc.inside]
    · rw [hne q hqp, ← H.holds q]; exact hothers q hqp
  · rcases H.flights a ha with h | ⟨q, hq, hbx⟩
    · exact Or.inl h
    · have hqp : q ≠ p := by
        intro e
        subst e
        rw [← hbx] at ha
        exact ha hfl
      exact Or.inr ⟨q, by rw [hne q hqp]; exact ⟨hq, hbx⟩⟩
  · have hqp : q ≠ p := by rintro rfl; exact hR hq
    rw [hne q hqp]
    exact H.pending q hq

/-- Who wakes was signalled, once and in this call, and nothing more is on its way. -/
theorem Inv.awake (H : Inv e W R s) (hpc : (s.parts p).pc = .spinning) (hm : s.mem (s.parts p).mailbox ≠ 0) :
    (s.parts p).entered = e ∧ (s.parts p).returned + 1 = e ∧ p ∉ W ∧ p ∉ R ∧ s.sent p e = 1 ∧
      s.flight (s.parts p).mailbox = [] ∧ s.stamp (s.parts p).mailbox = e := by
  have hr := H.role p
  simp only [Role, hpc] at hr
  rcases hr with ⟨-, -, -, hq⟩ | ⟨h1, h2, h3, ⟨-, hq⟩ | ⟨h4, hs⟩⟩
  · exact absurd hq.mem hm
  · exact absurd hq.mem hm
  · rcases hs.mail with ⟨hz, -⟩ | ⟨-, hf, hst⟩
    · exact absurd hz hm
    · exact ⟨h1, h2, h3, h4, hs.sent, hf, hst⟩

theorem Inv.wake (H : Inv e W R s) (hpc : (s.parts p).pc = .spinning) (hm : s.mem (s.parts p).mailbox ≠ 0) :
    Inv e W R (s.set p (s.parts p).leave) := by
  obtain ⟨h1, h2, h3, h4, -, hf, -⟩ := H.awake hpc hm
  have hp : s.holder ≠ some p := fun h => by
    rw [H.holds p, hpc] at h
    cases h
  refine H.leave s.holder (by rw [hpc]; decide) h1 h2 h3 h4 hf hp (fun _ _ => Iff.rfl) ?_
  refine H.stage.congr rfl rfl (fun q hq => ?_) fun q hq => ?_
  · have hqp : q ≠ p := by rintro rfl; exact hq.elim h3 h4
    simp [hqp]
  · have hqp : q ≠ p := by rintro rfl; exact hp hq
    simp [hqp]

theorem Inv.unlockLast (hn : 2 ≤ n) (H : Inv e W R s) (hpc : (s.parts p).pc = .unlockingLast) :
    Inv e W R ({ s with holder := none }.set p (s.parts p).leave) := by
  obtain ⟨hh, hc, rfl, rfl⟩ := H.owner hpc rfl
  have hrole := H.role p
  simp only [Role, hpc] at hrole
  have hbusy : (s.parts p).pc ≠ .idle := by rw [hpc]; decide
  have hfl : s.flight (s.parts p).mailbox = [] := by
    by_contra h
    rcases H.flights _ h with h | ⟨q, hq, hbx⟩
    · exact H.low p hbusy h
    · have hqp := H.distinct q p (by rw [hq]; decide) hbusy hbx
      rw [hqp, hpc] at hq
      cases hq
  refine H.leave none hbusy hrole.1 hrole.2.1 hrole.2.2 (by simp) hfl (by simp) (fun q hq => by simp [hh, Ne.symm hq]) ?_
  exact ⟨hc, by simp only [List.length_nil]; omega, fun j hj => absurd hj (by simp), fun h => absurd rfl h, rfl⟩

/-- A fresh mailbox variable has no signal on its way to it. -/
theorem Inv.fresh (H : Inv e W R s) {barrier a : Word} (hf : Fresh barrier s a) : s.flight a = [] := by
  by_contra h
  rcases H.flights a h with h | ⟨q, hq, hbx⟩
  · exact hf.1 h
  · exact hf.2.1 q (by rw [hq]; decide) hbx

theorem Inv.enter (H : Inv e W R s) {barrier a : Word} (hpc : (s.parts p).pc = .idle) (hf : Fresh barrier s a) :
    Inv e W R ({ s with mem := fun x => if x = a then 0 else s.mem x }.set p
        { s.parts p with pc := .checking, mailbox := a, entered := (s.parts p).entered + 1 }) := by
  have hr := H.role p
  simp only [Role, hpc] at hr
  have hpR : p ∉ R := fun h => by
    have := (H.pending p h).1
    rw [hpc] at this
    cases this
  have hp : s.holder ≠ some p := fun h => by
    rw [H.holds p, hpc] at h
    cases h
  have hne : ∀ q, q ≠ p → ({ s with mem := fun x => if x = a then 0 else s.mem x }.set p
      { s.parts p with pc := .checking, mailbox := a, entered := (s.parts p).entered + 1 }).parts q = s.parts q :=
    fun q h => by simp [h]
  refine ⟨H.threads, fun q => ?_, fun q => ?_, H.stage.congr rfl rfl (fun q hq => ?_) (fun q hq => ?_), fun q q' hq hq' h => ?_,
    fun q hq => ?_, fun q hq => ?_, fun x hx => ?_, H.nodupW, H.nodupR, fun q hq => ?_, H.later, H.once, H.each⟩
  · by_cases hqp : q = p
    · subst hqp
      simp only [Role, set_same]
      exact ⟨by rw [hr.1], hr.2.1, hr.2.2, ⟨by simp, by simpa using H.fresh hf, H.later q (e + 1) (by omega)⟩⟩
    · refine (H.role q).same ⟨hne q hqp, fun hq => ?_, fun _ => rfl, fun _ => rfl, fun _ => rfl⟩ Iff.rfl Iff.rfl
      simp [hf.2.1 q hq]
  · by_cases hqp : q = p
    · subst hqp; simp [hp, Pc.inside]
    · rw [hne q hqp]; exact H.holds q
  · rw [hne q (by rintro rfl; exact hq.elim hr.2.2 hpR)]
  · rw [hne q (by rintro rfl; exact hp hq)]
  · by_cases hqp : q = p
    · by_cases hqp' : q' = p
      · rw [hqp, hqp']
      · rw [hne q' hqp'] at hq' h
        subst hqp
        exact absurd (by simpa using h.symm) (hf.2.1 q' hq')
    · rw [hne q hqp] at hq h
      by_cases hqp' : q' = p
      · subst hqp'
        exact absurd (by simpa using h) (hf.2.1 q hq)
      · rw [hne q' hqp'] at hq' h
        exact H.distinct q q' hq hq' h
  · by_cases hqp : q = p
    · subst hqp; simpa using hf.1
    · rw [hne q hqp] at hq ⊢
      exact H.low q hq
  · by_cases hqp : q = p
    · subst hqp; simpa using hf.2.2.1
    · rw [hne q hqp] at hq ⊢
      exact H.apart q hq
  · rcases H.flights x hx with h | ⟨q, hq, hbx⟩
    · exact Or.inl h
    · have hqp : q ≠ p := by rintro rfl; rw [hpc] at hq; cases hq
      exact Or.inr ⟨q, by rw [hne q hqp]; exact ⟨hq, hbx⟩⟩
  · rw [hne q (by rintro rfl; exact hpR hq)]
    exact H.pending q hq

/-- A signal that arrives was sent to a participant in its call `e`, or to no mailbox. -/
theorem Inv.deliver (H : Inv e W R s) {a : Word} {k : Nat} (hk : k ∈ s.flight a) :
    Inv e W R { s with
      flight := fun x => if x = a then (s.flight a).erase k else s.flight x
      mem := fun x => if x = a then 1 else s.mem x
      stamp := fun x => if x = a then k else s.stamp x } := by
  have hne : s.flight a ≠ [] := List.ne_nil_of_mem hk
  -- a participant with this mailbox spins, and this signal is the one it was sent
  have hhit : ∀ q, (s.parts q).pc ≠ .idle → (s.parts q).mailbox = a → (s.parts q).pc = .spinning ∧
      (s.parts q).entered = e ∧ (s.parts q).returned + 1 = e ∧ q ∉ W ∧ q ∉ R ∧ s.sent q e = 1 ∧ s.flight a = [e] := by
    intro q hq hbx
    rcases H.flights a hne with h | ⟨r, hr, hrb⟩
    · exact absurd (hbx ▸ h) (H.low q hq)
    · obtain rfl := H.distinct r q (by rw [hr]; decide) hq (hrb.trans hbx.symm)
      have hrole := H.role r
      simp only [Role, hr] at hrole
      rcases hrole with ⟨-, -, -, hquiet⟩ | ⟨h1, h2, h3, ⟨-, hquiet⟩ | ⟨h4, hs⟩⟩
      · exact absurd (hbx ▸ hquiet.flight) hne
      · exact absurd (hbx ▸ hquiet.flight) hne
      · rcases hs.mail with ⟨-, hf⟩ | ⟨-, hf, -⟩
        · exact ⟨hr, h1, h2, h3, h4, hs.sent, hbx ▸ hf⟩
        · exact absurd (hbx ▸ hf) hne
  refine ⟨H.threads, fun q => ?_, H.holds, H.stage.congr rfl rfl (fun _ _ => rfl) (fun _ _ => rfl), H.distinct, H.low, H.apart,
    fun x hx => ?_, H.nodupW, H.nodupR, H.pending, H.later, H.once, H.each⟩
  · by_cases hmiss : (s.parts q).pc ≠ .idle → (s.parts q).mailbox ≠ a
    · exact (H.role q).same ⟨rfl, fun h => by simp [hmiss h], fun h => by simp [hmiss h], fun h => by simp [hmiss h],
        fun _ => rfl⟩ Iff.rfl Iff.rfl
    · obtain ⟨hbusy, hbx⟩ : (s.parts q).pc ≠ .idle ∧ (s.parts q).mailbox = a := by
        by_cases hi : (s.parts q).pc = .idle
        · exact absurd (fun h => absurd hi h) hmiss
        · by_cases hb : (s.parts q).mailbox = a
          · exact ⟨hi, hb⟩
          · exact absurd (fun _ => hb) hmiss
      obtain ⟨h1, h2, h3, h4, h5, h6, hf⟩ := hhit q hbusy hbx
      have hke : k = e := by rw [hf] at hk; simpa using hk
      simp only [Role, h1]
      exact Or.inr ⟨h2, h3, h4, Or.inr ⟨h5, ⟨h6, Or.inr ⟨by simp [hbx], by simp [hbx, hf, hke], by simp [hbx, hke]⟩⟩⟩⟩
  · by_cases hxa : x = a
    · rw [hxa]; exact H.flights a hne
    · exact H.flights x (by simpa [hxa] using hx)

end Outer

/-! ## Reachable states -/

section Reachable

variable {coreID barrier : Word} {s s' : State n}

theorem Start.inv (h : Start coreID barrier s) : Inv 0 [] [] s := by
  obtain ⟨b, hb⟩ := h.init
  have hidle : ∀ q, (s.parts q).pc = .idle := fun q => (h.parts q).1
  refine ⟨by rw [hb]; rfl, fun q => ?_, fun q => ?_, ?_, fun q _ hq => absurd (hidle q) hq, fun q hq => absurd (hidle q) hq,
    fun q hq => absurd (hidle q) hq, fun a ha => absurd (h.flight a) ha, List.nodup_nil, List.nodup_nil,
    fun q hq => absurd hq (by simp), fun q k _ => h.sent q k, fun q k => by rw [h.sent]; omega, fun k hk hk' => by omega⟩
  · simp only [Role, hidle q]
    exact ⟨(h.parts q).2.1, (h.parts q).2.2, by simp⟩
  · simp [h.holder, hidle q, Pc.inside]
  · simp only [Stage, h.holder]
    exact ⟨by rw [hb]; rfl, h.size.1, fun j hj => absurd hj (by simp), fun hne => absurd rfl hne, rfl⟩

theorem Inv.moves (hn : 2 ≤ n) {e : Nat} {W R : List (Fin n)} (H : Inv e W R s) {p : Fin n} (h : Moves p s s') :
    ∃ e' W' R', Inv e' W' R' s' := by
  cases h with
  | refuse hpc hbad =>
    -- the check never fails: the mailbox is quiet and has a proper address
    have hr := H.role p
    simp only [Role, hpc] at hr
    rcases hbad with h | h
    · exact absurd hr.2.2.2.mem h
    · exact absurd h (H.low p (by rw [hpc]; decide))
  | check hpc => exact ⟨e, W, R, H.check hpc⟩
  | acquire hpc hh => exact ⟨e, W, R, H.acquire hpc hh⟩
  | first hpc hc => exact ⟨e, W, R, H.first hpc hc⟩
  | last hpc hc hl => exact ⟨e + 1, [], W, H.last hpc hc hl⟩
  | between hpc hc hl => exact ⟨e, W, R, H.between hpc hc hl⟩
  | clear i hpc hi => exact ⟨e, W, R, H.clear hpc⟩
  | cleared i hpc hi => exact ⟨e, W, R, H.cleared hn hpc hi⟩
  | register hpc => exact ⟨e, W ++ [p], R, H.register hpc⟩
  | count hpc => exact ⟨e, W, R, H.count hpc⟩
  | unlock hpc => exact ⟨e, W, R, H.unlock hpc⟩
  | wake hpc hm => exact ⟨e, W, R, H.wake hpc hm⟩
  | signal i hpc hi =>
    obtain ⟨-, -, -, hlen, -, -⟩ := H.owner hpc rfl
    rw [H.threads] at hi
    cases R with
    | nil => exact ⟨e, W, [], H.signalNull hpc (by simp only [List.length_nil] at hlen; omega)⟩
    | cons r R' => exact ⟨e, W, R', H.signalNext hpc⟩
  | signalled i hpc hi => exact ⟨e, W, R, H.signalled hpc hi⟩
  | reset hpc => exact ⟨e, W, R, H.reset hpc⟩
  | unlockLast hpc => exact ⟨e, W, R, H.unlockLast hn hpc⟩

theorem Inv.next (hn : 2 ≤ n) {e : Nat} {W R : List (Fin n)} (H : Inv e W R s) (h : Next barrier s s') :
    ∃ e' W' R', Inv e' W' R' s' := by
  obtain ⟨a, o, h⟩ := h
  cases a with
  | enter p a =>
    simp only [step] at h
    split at h
    · obtain ⟨hpc, hf⟩ := ‹(s.parts p).pc = .idle ∧ Fresh barrier s a›
      cases h
      exact ⟨e, W, R, H.enter hpc hf⟩
    · cases h
  | move p => exact H.moves hn (move_moves h)
  | deliver a k =>
    simp only [step] at h
    split at h
    · cases h
      exact ⟨e, W, R, H.deliver ‹_›⟩
    · cases h

/-- With two participants or more, the invariant holds in every reachable state. -/
theorem Reachable.inv (hn : 2 ≤ n) (h : Reachable coreID barrier s) : ∃ e W R, Inv e W R s :=
  Reach.inv (fun s => ∃ e W R, Inv e W R s) (fun _ hs => ⟨0, [], [], hs.inv⟩)
    (fun _ _ ⟨_, _, _, H⟩ hst => H.next hn hst) h

end Reachable

end EDarts.Multithreading.Barrier
