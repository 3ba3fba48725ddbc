/-
  EDarts.Runtime.ProducerConsumerProofs — what the consumer has fired when it stops, and that
  it does stop (see `EDarts.Runtime.ProducerConsumer`).

  `Early` is before the start signal, `Late` after it: the codelets fired, the one in the consumer's
  hand and those stored are a part of those pushed, in order, and the others were lost when a push filled
  the ring, as many as fit the space each time.

  - `fired_and_lost`: when the consumer has stopped, the sum is the number of codelets fired,
    which is the number of all codelets but for those lost.
  - `both_return`: in every schedule the consumer stops, after a number of rounds that only the
    number of codelets bounds.
-/

import EDarts.Lib.Progress
import EDarts.Runtime.ProducerConsumer

namespace EDarts.ProducerConsumer

open Lib Assets CodeletsQueue

variable {P : Program} {s s' : System}

/-! ## The invariant -/

/-- The codelet popped and not fired yet. -/
def Consumer.inHand : Consumer → List Codelet
  | .fire codelet => [codelet]
  | _ => []

structure Early (P : Program) (s : System) : Prop where
  startSig : s.startSig = 0
  doneSig : s.doneSig = 0
  producer : s.producer = .start
  pushed : s.pushed = []
  fired : s.fired = []
  fills : s.fills = 0
  consumer : s.consumer = .clear ∨ s.sumResult = 0 ∧ (s.consumer = .init ∨ s.consumer = .ready ∧
    Stores P.codeletQueue P.newSize.toNat s.queue ⟨0, []⟩)

/-- What the producer's place says. -/
def ProducerAt (P : Program) (s : System) : Prop :=
  match s.producer with
  | .start => s.pushed = [] ∧ s.doneSig = 0
  | .push i => s.pushed.length = i ∧ i ≤ P.numCodelets ∧ s.doneSig = 0
  | .stopped => s.pushed.length = P.numCodelets ∧ s.doneSig ≠ 0

def ConsumerAt (s : System) (r : Ring) : Prop :=
  match s.consumer with
  | .clear | .init | .ready => False
  | .empty => s.producer = .stopped
  | .finish => s.producer = .stopped ∧ r.stored = []
  | .stopped => s.producer = .stopped ∧ r.stored = [] ∧ s.doneSig = 2
  | _ => True

structure Late (P : Program) (s : System) (r : Ring) : Prop where
  startSig : s.startSig = 1
  stores : Stores P.codeletQueue P.newSize.toNat s.queue r
  order : (s.fired ++ s.consumer.inHand ++ r.stored).Sublist s.pushed
  count : s.pushed.length =
    s.fired.length + s.consumer.inHand.length + r.stored.length + P.newSize.toNat / 12 * s.fills
  sumResult : s.sumResult = BitVec.ofNat 32 s.fired.length
  fire : ∀ c ∈ s.pushed, c.fire = P.sumPtr
  producer : ProducerAt P s
  consumer : ConsumerAt s r

def Inv (P : Program) (s : System) : Prop := Early P s ∨ ∃ r, Late P s r

/-! ## The rank -/

/-- The codelets in the queue: those pushed and neither popped nor lost. -/
def held (P : Program) (s : System) : Nat :=
  s.pushed.length - s.fired.length - s.consumer.inHand.length - P.newSize.toNat / 12 * s.fills

def producerRank (P : Program) (s : System) : Nat :=
  match s.producer with
  | .start => 10 * (P.numCodelets + 2)
  | .push i => 10 * (P.numCodelets + 1 - i)
  | .stopped => 0

/-- With nothing in the queue and more to come, the consumer goes round between `test` and `pop`. -/
def consumerRank (doneSig : Word) (held : Nat) : Consumer → Nat
  | .clear => 9
  | .init => 8
  | .ready => 7
  | .fire _ => 4
  | .test => 3
  | .empty => 2
  | .pop => if held ≠ 0 then 1 else if doneSig = 0 then 3 else 4
  | .finish => 1
  | .stopped => 0

def rank (P : Program) (s : System) : Nat := producerRank P s + 5 * held P s + consumerRank s.doneSig (held P s) s.consumer

/-- The producer, unless it waits for the start signal or for room in the queue, or has stopped. -/
def helpful (P : Program) (s : System) : Party :=
  match s.producer with
  | .start => if s.startSig = 0 then .consumer else .producer
  | .push i => if i < P.numCodelets ∧ availableSpace s.queue < 12 then .consumer else .producer
  | .stopped => .consumer

theorem Late.held_eq (L : Late P s r) : held P s = r.stored.length := by
  have hcount := L.count
  unfold held
  omega

theorem Late.rank_eq (L : Late P s r) :
    rank P s = producerRank P s + 5 * r.stored.length + consumerRank s.doneSig r.stored.length s.consumer := by
  rw [rank, L.held_eq]

/-! ## Steps -/

/-- A step goes on, or its party waits for the other one. -/
structure Outcome (P : Program) (s : System) (p : Party) (s' : System) : Prop where
  inv : Inv P s'
  lowers : s.consumer ≠ .stopped → rank P s' < rank P s ∨ (rank P s' = rank P s ∧ helpful P s' = helpful P s ∧ p ≠ helpful P s)
  stopped : s.consumer = .stopped → s'.consumer = .stopped

theorem Outcome.same (I : Inv P s) {p : Party} (h : s.consumer ≠ .stopped → p ≠ helpful P s) : Outcome P s p s :=
  ⟨I, fun hc => .inr ⟨rfl, rfl, h hc⟩, id⟩

theorem Early.producer_step (E : Early P s) (codeletID syncSlot : Word) :
    ∃ s', P.step s (.producer codeletID syncSlot) = some ((), s') ∧ Outcome P s .producer s' := by
  refine ⟨s, ?_, .same (.inl E) fun _ => ?_⟩
  · rw [Program.step, E.producer]
    simp only [E.startSig, if_true]
  · simp [helpful, E.producer, E.startSig]

theorem Early.consumer_step (E : Early P s) : ∃ s', P.step s .consumer = some ((), s') ∧ Outcome P s .consumer s' := by
  rcases E.consumer with hc | ⟨hsum, hc | ⟨hc, hstores⟩⟩
  · refine ⟨{ s with sumResult := 0, consumer := .init }, by rw [Program.step, hc],
      .inl ⟨E.startSig, E.doneSig, E.producer, E.pushed, E.fired, E.fills, .inr ⟨rfl, .inl rfl⟩⟩, fun _ => .inl ?_, fun h => ?_⟩
    · simp [rank, producerRank, consumerRank, held, hc, E.producer, E.pushed]
    · rw [hc] at h
      cases h
  · refine ⟨{ s with queue := (initCodeletsQueue P.codeletQueue P.newSize s.queue).2, consumer := .ready },
      by rw [Program.step, hc], .inl ⟨E.startSig, E.doneSig, E.producer, E.pushed, E.fired, E.fills,
        .inr ⟨hsum, .inr ⟨rfl, stores_init P.space rfl s.queue⟩⟩⟩, fun _ => .inl ?_, fun h => ?_⟩
    · simp [rank, producerRank, consumerRank, held, hc, E.producer, E.pushed]
    · rw [hc] at h
      cases h
  · refine ⟨{ s with startSig := 1, consumer := .test }, by rw [Program.step, hc],
      .inr ⟨⟨0, []⟩, rfl, hstores, ?_, ?_, ?_, ?_, ?_, trivial⟩, fun _ => .inl ?_, fun h => ?_⟩
    · simp [E.fired, E.pushed, Consumer.inHand]
    · simp [E.fired, E.pushed, E.fills, Consumer.inHand]
    · simp [E.fired, hsum]
    · simp [E.pushed]
    · simp [ProducerAt, E.producer, E.pushed, E.doneSig]
    · simp [rank, producerRank, consumerRank, held, hc, E.producer, E.pushed]
    · rw [hc] at h
      cases h

theorem ConsumerAt.running {r : Ring} (h : ConsumerAt s r) (hp : s.producer ≠ .stopped) :
    s.consumer = .test ∨ s.consumer = .pop ∨ ∃ c, s.consumer = .fire c := by
  unfold ConsumerAt at h
  split at h
  · exact h.elim
  · exact h.elim
  · exact h.elim
  · exact absurd h hp
  · exact absurd h.1 hp
  · exact absurd h.1 hp
  · cases hc : s.consumer with
    | test => exact .inl rfl
    | pop => exact .inr (.inl rfl)
    | fire c => exact .inr (.inr ⟨c, rfl⟩)
    | _ => simp_all

/-- In the loop the consumer's place says nothing about the queue. -/
theorem consumerAt_of_running {r : Ring} (h : s.consumer = .test ∨ s.consumer = .pop ∨ ∃ c, s.consumer = .fire c) :
    ConsumerAt s r := by
  unfold ConsumerAt
  rcases h with h | h | ⟨c, h⟩ <;> rw [h] <;> trivial

/-- What the producer does moves the consumer's rank by little. -/
theorem consumerRank_le (done done' : Word) (n n' : Nat) (c : Consumer) : consumerRank done' n' c ≤ consumerRank done n c + 3 := by
  unfold consumerRank
  cases c with
  | pop =>
    dsimp only
    repeat' split
    all_goals omega
  | _ => exact Nat.le_add_right _ _

theorem Late.producing {r : Ring} (L : Late P s r) (hp : s.producer ≠ .stopped) : s.doneSig = 0 := by
  have hat := L.producer
  unfold ProducerAt at hat
  split at hat
  · exact hat.2
  · exact hat.2.2
  · exact absurd ‹_› hp

/-- A push that succeeds stores its codelet last, or loses it with all others. -/
theorem Late.pushed {r r' : Ring} (L : Late P s r) {i : Nat} (hp : s.producer = .push i) (hi : i < P.numCodelets)
    {c : Codelet} (hc : c.fire = P.sumPtr) {queue : CodeletsQueue} {fills : Nat}
    (hstores : Stores P.codeletQueue P.newSize.toNat queue r') (hstored : r'.stored = [] ∨ r'.stored = r.stored ++ [c])
    (hcount : r'.stored.length + P.newSize.toNat / 12 * fills = r.stored.length + 1 + P.newSize.toNat / 12 * s.fills) :
    Outcome P s .producer
      { s with queue := queue, producer := .push (i + 1), pushed := s.pushed ++ [c], fills := fills } := by
  have hat := L.producer
  simp only [ProducerAt, hp] at hat
  obtain ⟨hlen, -, hdone⟩ := hat
  have L' : Late P
      { s with queue := queue, producer := .push (i + 1), pushed := s.pushed ++ [c], fills := fills } r' := by
    refine ⟨L.startSig, hstores, ?_, ?_, L.sumResult, ?_, ⟨by simp [hlen], hi, hdone⟩,
      consumerAt_of_running (L.consumer.running (by rw [hp]; exact nofun))⟩
    · show (s.fired ++ s.consumer.inHand ++ r'.stored).Sublist (s.pushed ++ [c])
      rcases hstored with h | h
      · rw [h, List.append_nil]
        exact (List.sublist_append_left _ r.stored).trans (L.order.trans (List.sublist_append_left _ _))
      · rw [h, ← List.append_assoc]
        exact L.order.append (List.Sublist.refl _)
    · have hall := L.count
      simp only [List.length_append, List.length_singleton]
      omega
    · intro d hd
      rcases List.mem_append.mp hd with hd | hd
      · exact L.fire d hd
      · rw [List.mem_singleton.mp hd]
        exact hc
  have hstored' : r'.stored.length ≤ r.stored.length + 1 := by
    rcases hstored with h | h <;> simp [h]
  refine ⟨.inr ⟨r', L'⟩, fun _ => .inl ?_, id⟩
  have hconsumer := consumerRank_le s.doneSig s.doneSig r.stored.length r'.stored.length s.consumer
  simp only [L'.rank_eq, L.rank_eq, producerRank, hp]
  omega

theorem Late.producer_step {r : Ring} (L : Late P s r) (codeletID syncSlot : Word) :
    ∃ s', P.step s (.producer codeletID syncSlot) = some ((), s') ∧ Outcome P s .producer s' := by
  have hat := L.producer
  cases hp : s.producer with
  | start =>
    have hrunning := L.consumer.running (by rw [hp]; exact nofun)
    simp only [ProducerAt, hp] at hat
    have L' : Late P { s with producer := .push 0 } r := ⟨L.startSig, L.stores, L.order, L.count, L.sumResult, L.fire,
      ⟨by simp [hat.1], Nat.zero_le _, hat.2⟩, consumerAt_of_running hrunning⟩
    refine ⟨_, ?_, .inr ⟨r, L'⟩, fun _ => .inl ?_, id⟩
    · simp only [Program.step, hp, L.startSig]
      rfl
    · simp only [L'.rank_eq, L.rank_eq, producerRank, hp]
      omega
  | push i =>
    by_cases hi : i < P.numCodelets
    · simp only [Program.step, hp, if_pos hi, Program.produce]
      rcases L.stores.push P.space P.producerCore ⟨codeletID, syncSlot, P.sumPtr⟩ with
        ⟨hring, hfills, -, hpush, hstores⟩ | ⟨hring, -, ⟨-, hspace, hpush⟩ | ⟨-, -, hpush, hstores⟩⟩
      · have hcap : r.stored.length + 1 = P.newSize.toNat / 12 := by
          have := hfills.2
          omega
        simp only [hpush, Option.map_some, if_true, if_pos hring]
        refine ⟨_, rfl, L.pushed hp hi rfl hstores (.inl rfl) ?_⟩
        rw [List.length_nil, Nat.mul_add, Nat.mul_one]
        omega
      · simp only [hpush, Option.map_some]
        refine ⟨_, rfl, ?_⟩
        have hs : { s with queue := s.queue, producer := .push i } = s := by rw [← hp]
        rw [if_neg (by decide), hs]
        refine .same (.inr ⟨r, L⟩) fun _ => ?_
        simp only [helpful, hp]
        rw [if_pos ⟨hi, hspace⟩]
        exact nofun
      · simp only [hpush, Option.map_some, if_true, if_neg hring]
        exact ⟨_, rfl, L.pushed hp hi rfl hstores (.inr rfl) (by rw [List.length_append, List.length_singleton])⟩
    · simp only [ProducerAt, hp] at hat
      have hone : (1 : Word) ≠ 0 := by decide
      have L' : Late P { s with doneSig := 1, producer := .stopped } r := ⟨L.startSig, L.stores, L.order, L.count,
        L.sumResult, L.fire, ⟨hat.1.trans (by omega), hone⟩, consumerAt_of_running (L.consumer.running (by rw [hp]; exact nofun))⟩
      refine ⟨_, by simp only [Program.step, hp, if_neg hi], .inr ⟨r, L'⟩, fun _ => .inl ?_, id⟩
      have hconsumer := consumerRank_le s.doneSig 1 r.stored.length r.stored.length s.consumer
      simp only [L'.rank_eq, L.rank_eq, producerRank, hp]
      omega
  | stopped =>
    refine ⟨s, by rw [Program.step, hp], .same (.inr ⟨r, L⟩) fun _ => ?_⟩
    simp [helpful, hp]

/-- With nothing stored, the consumer waits for a producer that has not stopped. -/
theorem Late.helpful_producer {r : Ring} (L : Late P s r) (hempty : r.stored = []) (hdone : s.doneSig = 0) :
    helpful P s = .producer := by
  have hat := L.producer
  unfold helpful
  cases hp : s.producer with
  | start => simp [L.startSig]
  | push i =>
    dsimp only
    rw [if_neg fun h => L.stores.room P.space hempty h.2]
  | stopped =>
    simp only [ProducerAt, hp] at hat
    exact absurd hdone hat.2

theorem Late.stopped_of_done {r : Ring} (L : Late P s r) (hdone : s.doneSig ≠ 0) : s.producer = .stopped := by
  by_contra hp
  exact hdone (L.producing hp)

theorem Outcome.moves {p : Party} (I : Inv P s') (hc : s.consumer ≠ .stopped) (hlt : rank P s' < rank P s) : Outcome P s p s' :=
  ⟨I, fun _ => .inl hlt, fun h => absurd h hc⟩

theorem Late.consumer_step {r : Ring} (L : Late P s r) :
    ∃ s', P.step s .consumer = some ((), s') ∧ Outcome P s .consumer s' := by
  have hat := L.consumer
  have horder := L.order
  have hcount := L.count
  cases hc : s.consumer with
  | clear | init | ready => simp only [ConsumerAt, hc] at hat
  | test =>
    rw [hc] at horder hcount
    have hstep : P.step s .consumer = some ((), { s with consumer := if s.doneSig = 0 then .pop else .empty }) := by
      rw [Program.step, hc]
    by_cases hdone : s.doneSig = 0
    · rw [if_pos hdone] at hstep
      have L' : Late P { s with consumer := .pop } r := ⟨L.startSig, L.stores, horder, hcount, L.sumResult, L.fire,
        L.producer, trivial⟩
      refine ⟨_, hstep, ?_⟩
      by_cases hempty : r.stored = []
      · have hrank : rank P { s with consumer := .pop } = rank P s := by
          simp only [L'.rank_eq, L.rank_eq, hc]
          simp [producerRank, consumerRank, hempty, hdone]
        refine ⟨.inr ⟨r, L'⟩, fun _ => .inr ⟨hrank, rfl, ?_⟩, fun h => ?_⟩
        · rw [L.helpful_producer hempty hdone]
          exact nofun
        · rw [hc] at h
          cases h
      · refine .moves (.inr ⟨r, L'⟩) (by rw [hc]; exact nofun) ?_
        simp only [L'.rank_eq, L.rank_eq, hc]
        simp [producerRank, consumerRank, hempty]
    · rw [if_neg hdone] at hstep
      have L' : Late P { s with consumer := .empty } r := ⟨L.startSig, L.stores, horder, hcount, L.sumResult, L.fire,
        L.producer, L.stopped_of_done hdone⟩
      refine ⟨_, hstep, .moves (.inr ⟨r, L'⟩) (by rw [hc]; exact nofun) ?_⟩
      simp only [L'.rank_eq, L.rank_eq, hc]
      simp [producerRank, consumerRank]
  | empty =>
    rw [hc] at horder hcount
    simp only [ConsumerAt, hc] at hat
    have hstep : P.step s .consumer = some ((), { s with consumer := if queueEmpty s.queue then .finish else .pop }) := by
      rw [Program.step, hc]
    by_cases hempty : r.stored = []
    · rw [if_pos ((L.stores.queueEmpty_iff P.space).mpr hempty)] at hstep
      have L' : Late P { s with consumer := .finish } r := ⟨L.startSig, L.stores, horder, hcount, L.sumResult, L.fire,
        L.producer, hat, hempty⟩
      refine ⟨_, hstep, .moves (.inr ⟨r, L'⟩) (by rw [hc]; exact nofun) ?_⟩
      simp only [L'.rank_eq, L.rank_eq, hc]
      simp [producerRank, consumerRank]
    · rw [if_neg fun h => hempty ((L.stores.queueEmpty_iff P.space).mp h)] at hstep
      have L' : Late P { s with consumer := .pop } r := ⟨L.startSig, L.stores, horder, hcount, L.sumResult, L.fire,
        L.producer, trivial⟩
      refine ⟨_, hstep, .moves (.inr ⟨r, L'⟩) (by rw [hc]; exact nofun) ?_⟩
      simp only [L'.rank_eq, L.rank_eq, hc]
      simp [producerRank, consumerRank, hempty]
  | pop =>
    rw [hc] at horder hcount
    rcases L.stores.pop P.space P.consumerCore with ⟨hempty, hpop⟩ | ⟨c, L₁, queue, hstored, hpop, hstores⟩
    · have hstep : P.step s .consumer = some ((), { s with consumer := .test }) := by
        simp only [Program.step, hc, hpop, Option.map_some]
      have L' : Late P { s with consumer := .test } r := ⟨L.startSig, L.stores, horder, hcount, L.sumResult, L.fire,
        L.producer, trivial⟩
      refine ⟨_, hstep, ?_⟩
      by_cases hdone : s.doneSig = 0
      · have hrank : rank P { s with consumer := .test } = rank P s := by
          simp only [L'.rank_eq, L.rank_eq, hc]
          simp [producerRank, consumerRank, hempty, hdone]
        refine ⟨.inr ⟨r, L'⟩, fun _ => .inr ⟨hrank, rfl, ?_⟩, fun h => ?_⟩
        · rw [L.helpful_producer hempty hdone]
          exact nofun
        · rw [hc] at h
          cases h
      · have hlast : consumerRank s.doneSig r.stored.length .pop = 4 := by
          rw [consumerRank, hempty, List.length_nil, if_neg (fun h => h rfl), if_neg hdone]
        refine .moves (.inr ⟨r, L'⟩) (by rw [hc]; exact nofun) ?_
        rw [L'.rank_eq, L.rank_eq, hc, hlast]
        exact Nat.lt_succ_self _
    · have hstep : P.step s .consumer = some ((), { s with queue := queue, consumer := .fire c }) := by
        simp only [Program.step, hc, hpop, Option.map_some]
      rw [hstored] at horder hcount
      have L' : Late P { s with queue := queue, consumer := .fire c } ⟨(r.position + 12) % P.newSize.toNat, L₁⟩ := by
        refine ⟨L.startSig, hstores, ?_, ?_, L.sumResult, L.fire, L.producer, trivial⟩
        · simpa [Consumer.inHand] using horder
        · simp only [Consumer.inHand, List.length_cons, List.length_nil] at hcount ⊢
          omega
      refine ⟨_, hstep, .moves (.inr ⟨_, L'⟩) (by rw [hc]; exact nofun) ?_⟩
      simp only [L'.rank_eq, L.rank_eq, hc, hstored]
      simp [producerRank, consumerRank]
      omega
  | fire c =>
    rw [hc] at horder hcount
    have hmem : c ∈ s.pushed := horder.subset (by simp [Consumer.inHand])
    have hstep : P.step s .consumer =
        some ((), { s with sumResult := s.sumResult + 1, consumer := .test, fired := s.fired ++ [c] }) := by
      simp only [Program.step, hc, if_pos (L.fire c hmem)]
    have L' : Late P { s with sumResult := s.sumResult + 1, consumer := .test, fired := s.fired ++ [c] } r := by
      refine ⟨L.startSig, L.stores, ?_, ?_, ?_, L.fire, L.producer, trivial⟩
      · simpa [Consumer.inHand] using horder
      · simp only [Consumer.inHand, List.length_append, List.length_singleton, List.length_nil] at hcount ⊢
        omega
      · show s.sumResult + 1 = BitVec.ofNat 32 (s.fired ++ [c]).length
        rw [L.sumResult, List.length_append, List.length_singleton, BitVec.ofNat_add]
        rfl
    refine ⟨_, hstep, .moves (.inr ⟨r, L'⟩) (by rw [hc]; exact nofun) ?_⟩
    simp only [L'.rank_eq, L.rank_eq, hc]
    simp [producerRank, consumerRank]
  | finish =>
    rw [hc] at horder hcount
    simp only [ConsumerAt, hc] at hat
    have htwo : (2 : Word) ≠ 0 := by decide
    have hproducer : ProducerAt P { s with doneSig := 2, consumer := .stopped } := by
      have h := L.producer
      simp only [ProducerAt, hat.1] at h ⊢
      exact ⟨h.1, htwo⟩
    have L' : Late P { s with doneSig := 2, consumer := .stopped } r := ⟨L.startSig, L.stores, horder, hcount, L.sumResult,
      L.fire, hproducer, hat.1, hat.2, rfl⟩
    refine ⟨_, by rw [Program.step, hc], .moves (.inr ⟨r, L'⟩) (by rw [hc]; exact nofun) ?_⟩
    simp only [L'.rank_eq, L.rank_eq, hc]
    simp [producerRank, consumerRank]
  | stopped => exact ⟨s, by rw [Program.step, hc], .same (.inr ⟨r, L⟩) fun h => absurd hc h⟩

/-! ## Runs -/

theorem Inv.step (I : Inv P s) (op : Op) : ∃ s', P.step s op = some ((), s') ∧ Outcome P s op.party s' := by
  cases op with
  | producer codeletID syncSlot =>
    rcases I with E | ⟨r, L⟩
    · exact E.producer_step codeletID syncSlot
    · exact L.producer_step codeletID syncSlot
  | consumer =>
    rcases I with E | ⟨r, L⟩
    · exact E.consumer_step
    · exact L.consumer_step

theorem Inv.outcome (I : Inv P s) {op : Op} {o : Unit} (hst : P.step s op = some (o, s')) : Outcome P s op.party s' := by
  obtain ⟨s₁, hst₁, h⟩ := I.step op
  rw [hst₁] at hst
  cases hst
  exact h

theorem Early.start (sumResult : Word) (queue : CodeletsQueue) : Early P (Program.start sumResult queue) :=
  ⟨rfl, rfl, rfl, rfl, rfl, rfl, .inl rfl⟩

theorem Inv.of_reachable (h : P.Reachable s) : Inv P s := by
  refine Reach.inv (Inv P) ?_ ?_ h
  · intro s hs
    obtain ⟨sumResult, queue, rfl⟩ := hs
    exact .inl (.start sumResult queue)
  · intro s s' I hst
    obtain ⟨op, o, hst⟩ := hst
    exact (I.outcome hst).inv

theorem Inv.late_of_stopped (I : Inv P s) (hstopped : s.consumer = .stopped) : ∃ r, Late P s r := by
  refine I.resolve_left fun E => ?_
  have hc := E.consumer
  rw [hstopped] at hc
  rcases hc with hc | ⟨-, hc | ⟨hc, -⟩⟩ <;> cases hc

theorem progress (P : Program) : Progress P.step Op.party (Inv P) (fun s => s.consumer = .stopped) (rank P) (helpful P) where
  returns s op I := by
    obtain ⟨s', hst, -⟩ := I.step op
    exact ⟨(), s', hst⟩
  inv _ _ _ _ I hst := (I.outcome hst).inv
  done _ _ _ _ I hdone hst := (I.outcome hst).stopped hdone
  lowers _ _ _ _ I hdone hst := (I.outcome hst).lowers hdone

/-- When the consumer has stopped, all codelets were pushed, and those fired are among them in the
    order of the pushes; the others were lost, as many as fit the space each time that a push filled
    the ring. The sum tells how many were fired: it is right exactly if no push filled the ring. -/
theorem fired_and_lost {s : System} (h : P.Reachable s) (hstopped : s.consumer = .stopped) :
    s.doneSig = 2 ∧ s.pushed.length = P.numCodelets ∧ s.fired.Sublist s.pushed ∧
      s.fired.length + P.newSize.toNat / 12 * s.fills = P.numCodelets ∧ s.sumResult = BitVec.ofNat 32 s.fired.length ∧
      (P.numCodelets < 2 ^ 32 → (s.sumResult = BitVec.ofNat 32 P.numCodelets ↔ s.fills = 0)) := by
  obtain ⟨r, L⟩ := (Inv.of_reachable h).late_of_stopped hstopped
  have hat := L.consumer
  have hproducer := L.producer
  have hcount := L.count
  have horder := L.order
  simp only [ConsumerAt, hstopped] at hat
  obtain ⟨hp, hempty, hdone⟩ := hat
  simp only [ProducerAt, hp] at hproducer
  simp only [hstopped, Consumer.inHand, hempty, List.append_nil, List.length_nil, Nat.add_zero] at hcount horder
  refine ⟨hdone, hproducer.1, horder, hcount.symm.trans hproducer.1, L.sumResult, fun hsmall => ?_⟩
  have hcap : 0 < P.newSize.toNat / 12 := Nat.div_pos P.space.twelve (by decide)
  rw [L.sumResult, ← BitVec.toNat_inj, BitVec.toNat_ofNat, BitVec.toNat_ofNat, Nat.mod_eq_of_lt hsmall,
    Nat.mod_eq_of_lt (by omega)]
  constructor
  · intro hall
    have hlost : P.newSize.toNat / 12 * s.fills = 0 := by omega
    exact (Nat.mul_eq_zero.mp hlost).resolve_left (Nat.ne_of_gt hcap)
  · intro hfills
    rw [hfills, Nat.mul_zero, Nat.add_zero] at hcount
    omega

/-- The test's queue, with `numCodelets` codelets. -/
def testProgram (numCodelets : Nat) : Program where
  codeletQueue := 0x80903004
  newSize := 300
  space := ⟨rfl, by decide, by decide⟩
  producerCore := 0x808
  consumerCore := 0x809
  sumPtr := 0x80800100
  numCodelets := numCodelets

/-- Pushes faster than pops: 25 codelets fill the ring, and the consumer finds it empty. -/
theorem fired_and_lost_25 : ∃ s, (testProgram 25).Reachable s ∧ (s.consumer = .stopped ∧ s.sumResult = 0) ∧
    s.doneSig = 2 ∧ s.pushed.length = 25 ∧ s.fired.Sublist s.pushed ∧ s.fired.length + 300 / 12 * s.fills = 25 ∧
      s.sumResult = BitVec.ofNat 32 s.fired.length ∧ (25 < 2 ^ 32 → (s.sumResult = BitVec.ofNat 32 25 ↔ s.fills = 0)) := by
  let ops := List.replicate 3 Op.consumer ++ List.replicate 27 (.producer 0 0) ++ List.replicate 3 .consumer
  have hrun : (run (testProgram 25).step (Program.start 0 testQueue) ops).map (fun r => (r.2.consumer, r.2.sumResult)) =
      some (.stopped, 0) := by decide +kernel
  obtain ⟨r, hr, he⟩ := Option.map_eq_some_iff.mp hrun
  obtain ⟨hstopped, hsum⟩ := Prod.mk.inj he
  have hreach : (testProgram 25).Reachable r.2 := Reach.of_run _ (.init ⟨_, _, rfl⟩) hr
  exact ⟨r.2, hreach, ⟨hstopped, hsum⟩, fired_and_lost hreach hstopped⟩

/-- Of whatever size the queue is and in whatever order the cores take their steps, after
    enough rounds in which each takes one both have returned, and the host sees it. -/
theorem both_return (sumResult : Word) (queue : CodeletsQueue) (rounds : List (List Op))
    (hrounds : ∀ r ∈ rounds, Round Op.party r) (hlong : 10 * P.numCodelets + 29 < rounds.length) :
    ∃ os s', run P.step (Program.start sumResult queue) rounds.flatten = some (os, s') ∧
      s'.producer = .stopped ∧ s'.consumer = .stopped ∧ s'.doneSig = 2 := by
  have hrank : rank P (Program.start sumResult queue) = 10 * P.numCodelets + 29 := by
    simp only [rank, producerRank, consumerRank, Program.start, held, List.length_nil, Nat.zero_sub]
    omega
  obtain ⟨os, s', hrun, I, hstopped⟩ := (progress P).finishes rounds (.inl (.start sumResult queue)) hrounds (hrank ▸ hlong)
  obtain ⟨r, L⟩ := I.late_of_stopped hstopped
  have hat := L.consumer
  simp only [ConsumerAt, hstopped] at hat
  exact ⟨os, s', hrun, hat.1, hstopped, hat.2.2⟩

/-- The test itself, the two cores taking turns. -/
theorem both_return_test : ∃ os s',
    run (testProgram 100000).step (Program.start 0 testQueue) (List.replicate 1000030 [.producer 0 0, .consumer]).flatten =
        some (os, s') ∧
      s'.producer = .stopped ∧ s'.consumer = .stopped ∧ s'.doneSig = 2 := by
  refine both_return 0 testQueue _ (fun r hr p => ?_) ?_
  · rw [List.eq_of_mem_replicate hr]
    cases p with
    | producer => exact ⟨.producer 0 0, by simp, rfl⟩
    | consumer => exact ⟨.consumer, by simp, rfl⟩
  · rw [List.length_replicate]
    decide

end EDarts.ProducerConsumer
