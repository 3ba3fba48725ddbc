/-
  EDarts.Multithreading.MutexSafety — which mutexes exclude.

  Cores call `darts_mutex_lock` and `darts_mutex_unlock` with one and the same value `m`,
  one round of the lock's loop at a time. An address whose upper 12 bits are 0 stands for
  a place in the calling core's own memory, so such an `m` is another word on every core.
  A core is inside from a lock that did not return -1 to its unlock, and unlocks only
  when it is inside.

  The lock refuses the addresses whose lower 20 bits are 0, where its documentation
  refuses those that have no core id, the upper 12 bits.

  - `excludes_iff`: `m` keeps the cores apart in every run exactly when it has a core id
    or is refused.
  - `a_local_mutex_admits_two`: with the address 0x100 two cores are inside.
-/

import EDarts.Lib.Runs
import EDarts.Multithreading.Mutex
import Mathlib.Logic.Function.Basic

namespace EDarts.Multithreading.MutexSafety

open Lib

/-- A word of the chip: a core and an offset in its memory. -/
abbrev Location := Word × Word

/-- Where `address` is for core `core`. -/
def location (core address : Word) : Location :=
  (if address >>> 20 = 0 then core else address >>> 20, address &&& 0x000FFFFF)

structure State where
  mem : Location → Word
  /-- In a lock call that has not returned. -/
  waiting : Word → Bool
  inside : Word → Bool

inductive Action where
  /-- Core `core` begins a lock call, or takes one more round of the one it is in. -/
  | lock (core : Word)
  | unlock (core : Word)
  deriving DecidableEq, Repr

def Action.core : Action → Word
  | .lock core => core
  | .unlock core => core

/-- What the call returns, `none` while it spins. -/
def step (m : Word) (s : State) : Action → Option (Option Int × State)
  | .lock core =>
    match dartsMutexLock m core (s.mem (location core m)) with
    | none => some (none, { s with waiting := Function.update s.waiting core true })
    | some (r, w) =>
      some (some r, { s with
        mem := Function.update s.mem (location core m) w
        waiting := Function.update s.waiting core false
        inside := if r = -1 then s.inside else Function.update s.inside core true })
  | .unlock core =>
    if s.inside core = true ∧ s.waiting core = false then
      let r := dartsMutexUnlock m (s.mem (location core m))
      some (some r.1, { s with
        mem := Function.update s.mem (location core m) r.2
        inside := Function.update s.inside core false })
    else none

/-- No core has called yet. -/
def Fresh (s : State) : Prop := ∀ core, s.inside core = false ∧ s.waiting core = false

/-- A step of a core; the ids of the cores are not 0. -/
def Step (m : Word) (s s' : State) : Prop := ∃ a o, a.core ≠ 0 ∧ step m s a = some (o, s')

def Excludes (s : State) : Prop := ∀ a b, s.inside a = true → s.inside b = true → a = b

/-! ## The lock's rounds -/

/-- Core `core` got the mutex. -/
def enter (m core : Word) (s : State) : State where
  mem := Function.update s.mem (location core m) core
  waiting := Function.update s.waiting core false
  inside := Function.update s.inside core true

theorem lock_free {m : Word} (hl : m &&& 0x000FFFFF ≠ 0) {s : State} {core : Word}
    (hw : s.mem (location core m) = 0) : step m s (.lock core) = some (some 0, enter m core s) := by
  rw [step, dartsMutexLock_eq hl, if_pos hw]
  rfl

theorem lock_taken {m : Word} (hl : m &&& 0x000FFFFF ≠ 0) {s : State} {core : Word}
    (hw : s.mem (location core m) ≠ 0) :
    step m s (.lock core) = some (none, { s with waiting := Function.update s.waiting core true }) := by
  rw [step, dartsMutexLock_eq hl, if_neg hw]

/-! ## A mutex with a core id -/

/-- The word is taken while a core is inside, and only one is. -/
structure Held (l : Location) (s : State) : Prop where
  taken : ∀ a, s.inside a = true → s.mem l ≠ 0
  one : Excludes s

theorem location_full {m : Word} (h : m >>> 20 ≠ 0) (core : Word) : location core m = (m >>> 20, m &&& 0x000FFFFF) := by
  unfold location
  rw [if_neg h]

theorem Fresh.held {s : State} (h : Fresh s) (l : Location) : Held l s := by
  have hout : ∀ a, s.inside a ≠ true := by
    intro a ha
    rw [(h a).1] at ha
    cases ha
  exact ⟨fun a ha => absurd ha (hout a), fun a b ha _ => absurd ha (hout a)⟩

theorem Held.step {m : Word} (hm : m >>> 20 ≠ 0) (hl : m &&& 0x000FFFFF ≠ 0) {s s' : State}
    (H : Held (m >>> 20, m &&& 0x000FFFFF) s) (h : Step m s s') : Held (m >>> 20, m &&& 0x000FFFFF) s' := by
  obtain ⟨a, o, hcore, hst⟩ := h
  cases a with
  | lock core =>
    have hloc := location_full hm core
    by_cases hw : s.mem (location core m) = 0
    · rw [lock_free hl hw, Option.some.injEq, Prod.mk.injEq] at hst
      obtain ⟨-, rfl⟩ := hst
      -- the word was free, so nobody was inside
      have hinside : ∀ b, (enter m core s).inside b = true → b = core := by
        intro b hb
        by_cases e : b = core
        · exact e
        · simp only [enter, Function.update_of_ne e] at hb
          exact absurd (hloc ▸ hw) (H.taken b hb)
      refine ⟨fun b _ => ?_, fun b c hb hc => (hinside b hb).trans (hinside c hc).symm⟩
      simp only [enter, hloc, Function.update_self]
      exact hcore
    · rw [lock_taken hl hw, Option.some.injEq, Prod.mk.injEq] at hst
      obtain ⟨-, rfl⟩ := hst
      exact ⟨H.taken, H.one⟩
  | unlock core =>
    rw [MutexSafety.step] at hst
    by_cases hin : s.inside core = true ∧ s.waiting core = false
    · rw [if_pos hin, Option.some.injEq, Prod.mk.injEq] at hst
      obtain ⟨-, rfl⟩ := hst
      have hout : ∀ b, Function.update s.inside core false b ≠ true := by
        intro b hb
        by_cases e : b = core
        · rw [e, Function.update_self] at hb; cases hb
        · rw [Function.update_of_ne e] at hb
          exact e (H.one b core hb hin.1)
      exact ⟨fun b hb => absurd hb (hout b), fun b c hb _ => absurd hb (hout b)⟩
    · rw [if_neg hin] at hst
      cases hst

/-! ## A mutex that is refused -/

theorem refused_step {m : Word} (hl : m &&& 0x000FFFFF = 0) {s s' : State} (H : ∀ a, s.inside a = false)
    (h : Step m s s') : ∀ a, s'.inside a = false := by
  obtain ⟨a, o, -, hst⟩ := h
  cases a with
  | lock core =>
    simp only [step, dartsMutexLock, hl, if_true, Option.some.injEq, Prod.mk.injEq] at hst
    obtain ⟨-, rfl⟩ := hst
    exact H
  | unlock core =>
    simp only [step, H, Bool.false_eq_true, false_and, if_false] at hst
    cases hst

/-! ## Which ones exclude -/

/-- The chip with all words 0. -/
def zeroed : State := ⟨fun _ => 0, fun _ => false, fun _ => false⟩

/-- Two cores, each with a word of its own, are both let in. -/
theorem local_admits_two {m : Word} (hm : m >>> 20 = 0) (hl : m &&& 0x000FFFFF ≠ 0) {a b : Word} (ha : a ≠ 0)
    (hb : b ≠ 0) (hab : a ≠ b) : ∃ s, Reach Fresh (Step m) s ∧ s.inside a = true ∧ s.inside b = true := by
  have hloc : ∀ core, location core m = (core, m &&& 0x000FFFFF) := by
    intro core
    unfold location
    rw [if_pos hm]
  have hfree : (enter m a zeroed).mem (location b m) = 0 := by
    have hne : (b, m &&& 0x000FFFFF) ≠ (a, m &&& 0x000FFFFF) := fun e => hab (congrArg Prod.fst e).symm
    simp only [enter, hloc, Function.update_of_ne hne, zeroed]
  have h0 : Reach Fresh (Step m) zeroed := .init fun _ => ⟨rfl, rfl⟩
  have h1 : Step m zeroed (enter m a zeroed) := ⟨.lock a, _, ha, lock_free hl rfl⟩
  have h2 : Step m (enter m a zeroed) (enter m b (enter m a zeroed)) := ⟨.lock b, _, hb, lock_free hl hfree⟩
  exact ⟨_, .step (.step h0 h1) h2, by simp [enter, hab], by simp [enter]⟩

/-- For every value `m`: the cores that lock and unlock `m` keep each other out, in every
    run, exactly when `m` has a core id or the lock refuses it. -/
theorem excludes_iff (m : Word) :
    (∀ s, Reach Fresh (Step m) s → Excludes s) ↔ m >>> 20 ≠ 0 ∨ m &&& 0x000FFFFF = 0 := by
  constructor
  · intro h
    by_contra hno
    rw [not_or, Classical.not_not] at hno
    obtain ⟨s, hs, ha, hb⟩ := local_admits_two hno.1 hno.2 (a := 0x808) (b := 0x809) (by decide) (by decide) (by decide)
    exact absurd (h s hs 0x808 0x809 ha hb) (by decide)
  · intro h s hs
    by_cases hl : m &&& 0x000FFFFF = 0
    · have hnone := Reach.inv (fun s => ∀ a, s.inside a = false) (fun s hf a => (hf a).1)
        (fun s s' H hst => refused_step hl H hst) hs
      intro a b ha
      rw [hnone] at ha
      cases ha
    · have hm := h.resolve_right hl
      have H := Reach.inv (Held (m >>> 20, m &&& 0x000FFFFF)) (fun s hf => hf.held _)
        (fun s s' H hst => H.step hm hl hst) hs
      exact H.one

/-- The address 0x100 has no core id, and is not refused. -/
theorem a_local_mutex_admits_two :
    ¬ ∀ m s, Reach Fresh (Step m) s → Excludes s := by
  intro hall
  obtain ⟨s, hs, ha, hb⟩ := local_admits_two (m := 0x100) (a := 0x808) (b := 0x809) (by decide) (by decide) (by decide)
    (by decide) (by decide)
  exact absurd (hall 0x100 s hs 0x808 0x809 ha hb) (by decide)

end EDarts.Multithreading.MutexSafety
