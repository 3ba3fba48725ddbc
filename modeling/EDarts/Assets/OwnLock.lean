/-
  EDarts.Assets.OwnLock — which slots and barriers lock their own mutex.

  The slot at address `a` of core `c` is ten words of the chip, from `location c a` on.
  After `initSyncSlot` on core `c`, cores call `syncSlotDecDep` and `syncSlotResetDep` on
  it, under whichever address leads each of them there, and the rest of the program
  stores elsewhere. A call is taken step by step: each round of the lock's loop, the store
  to `currentDep`, the unlock, and the read behind it. Lock and unlock go through the full
  address in the slot, read anew each time, wherever it leads. A barrier's arrivals are
  those of `EDarts.Multithreading.Barrier`.

  The full address is made of the initialising core's id, also for a structure that is on
  another core.

  - `own_lock_iff`: the address that is stored guards the structure's own lock, and every
    later lock and unlock in every run takes and frees it and nothing else, exactly when
    the structure is addressed locally or as the initialising core's (and a barrier not
    at offset 0, where the mutex refuses).
  - `a_slot_elsewhere_locks_another_word`: a slot on core 0x809 set up by core 0x808.
  - `call_on_chip`: with its own lock, a call on the chip that nobody disturbs is
    `SyncSlot.decrement` or `SyncSlot.syncSlotResetDep`.
-/

import EDarts.Assets.SyncSlot
import EDarts.Multithreading.BarrierSafety
import EDarts.Multithreading.FullAddress

namespace EDarts.Assets.OwnLock

open Lib Multithreading MutexSafety

/-- The `n` bytes from `a` on are in one window of 1 MB. -/
def InWindow (a : Word) (n : Nat) : Prop := (a &&& 0x000FFFFF).toNat + n ≤ 2 ^ 20

instance (a : Word) (n : Nat) : Decidable (InWindow a n) := inferInstanceAs (Decidable (_ ≤ _))

/-- The word `k` bytes behind `home`. -/
def field (home : Location) (k : Word) : Location := (home.1, home.2 + k)

/-- The slot that core `core` finds at `a`. -/
def slotAt (chip : Chip) (core a : Word) : SyncSlot where
  slotID := chip (location core a)
  resetDep := chip (location core (a + 4))
  currentDep := chip (location core (a + 8))
  tpFrame := chip (location core (a + 12))
  codeletTemplate := ⟨chip (location core (a + 16)), chip (location core (a + 20)), chip (location core (a + 24))⟩
  numCodelets := chip (location core (a + 28))
  lockMutex := chip (location core (a + 32))
  lockMutexFullAddressPtr := chip (location core (a + 36))

/-! ## Calls on a slot -/

inductive Call where
  | decDep
  | resetDep
  deriving DecidableEq, Repr

/-- Where a core is in its call, on the slot at the address it passed. -/
inductive Pc where
  | idle
  | locking (call : Call) (syncSlot : Word)
  | storing (call : Call) (syncSlot : Word)
  | unlocking (call : Call) (syncSlot : Word)
  /-- `syncSlotDecDep` reads its result. -/
  | reading (syncSlot : Word)
  deriving DecidableEq, Repr

structure State where
  chip : Chip
  pc : Word → Pc

inductive Action where
  | call (core : Word) (call : Call) (syncSlot : Word)
  | go (core : Word)
  /-- A store of the rest of the program. -/
  | other (l : Location) (v : Word)

inductive Event where
  | begins
  | spins
  | locks (r : Int)
  | stores
  | unlocks (r : Int)
  | returns (v : Word)
  deriving DecidableEq, Repr

/-- The next step of core `core`; `none`: it is in no call. -/
def go (core : Word) (s : State) : Option (Event × State) :=
  match s.pc core with
  | .idle => none
  | .locking call syncSlot =>
    match lockOn core (s.chip (location core (syncSlot + 36))) s.chip with
    | none => some (.spins, s)
    | some (r, chip) => some (.locks r, ⟨chip, Function.update s.pc core (.storing call syncSlot)⟩)
  | .storing call syncSlot =>
    let v := match call with
      | .decDep => s.chip (location core (syncSlot + 8)) - 1
      | .resetDep => s.chip (location core (syncSlot + 4))
    some (.stores,
      ⟨Function.update s.chip (location core (syncSlot + 8)) v, Function.update s.pc core (.unlocking call syncSlot)⟩)
  | .unlocking call syncSlot =>
    let r := unlockOn core (s.chip (location core (syncSlot + 36))) s.chip
    let pc := match call with
      | .decDep => .reading syncSlot
      | .resetDep => .idle
    some (.unlocks r.1, ⟨r.2, Function.update s.pc core pc⟩)
  | .reading syncSlot =>
    some (.returns (s.chip (location core (syncSlot + 8))), { s with pc := Function.update s.pc core .idle })

/-- `l` is none of the slot's ten words. -/
def Outside (home l : Location) : Prop := ∀ i < 10, l ≠ field home (BitVec.ofNat 32 (4 * i))

instance (home l : Location) : Decidable (Outside home l) := inferInstanceAs (Decidable (∀ i < 10, _))

/-- One step around the slot whose first word is at `home`. -/
def step (home : Location) (s : State) : Action → Option (Event × State)
  | .call core call syncSlot =>
    if s.pc core = .idle ∧ location core syncSlot = home then
      some (.begins, { s with pc := Function.update s.pc core (.locking call syncSlot) })
    else none
  | .go core => go core s
  | .other l v =>
    if Outside home l then
      some (.stores, { s with chip := Function.update s.chip l v })
    else none

/-- The slot as `initSyncSlot` leaves it on core `c`, and nobody in a call. -/
structure Initialised (c a : Word) (s : State) : Prop where
  slot : ∃ newSlotID resetDep initDep fireCodeletTemplate numCodeletsToFire s₀, slotAt s.chip c a =
    SyncSlot.initSyncSlot c a newSlotID resetDep initDep fireCodeletTemplate numCodeletsToFire s₀
  idle : ∀ core, s.pc core = .idle

/-- The cores are real ones. -/
def Action.Real : Action → Prop
  | .call core _ _ => CoreId core
  | .go core => CoreId core
  | .other _ _ => True

def Next (home : Location) (s s' : State) : Prop := ∃ a o, a.Real ∧ step home s a = some (o, s')

/-- A lock takes the word at `own` or finds it taken, an unlock frees it, and neither
    changes another. -/
def OwnOnly (own : Location) (core : Word) (s : State) (o : Event) (s' : State) : Prop :=
  match o with
  | .spins => s.chip own ≠ 0 ∧ s'.chip = s.chip
  | .locks r => r = 0 ∧ s.chip own = 0 ∧ s'.chip = Function.update s.chip own core
  | .unlocks r => r = 0 ∧ s'.chip = Function.update s.chip own 0
  | _ => True

/-- A slot that `initSyncSlot` set up on core `c` under address `a` locks its own mutex. -/
structure SlotOwnsLock (c a : Word) : Prop where
  pointer : ∀ newSlotID resetDep initDep fireCodeletTemplate numCodeletsToFire s, Guards
    (SyncSlot.initSyncSlot c a newSlotID resetDep initDep fireCodeletTemplate numCodeletsToFire
      s).lockMutexFullAddressPtr
    (location c (a + 32))
  calls : ∀ s, Reach (Initialised c a) (Next (location c a)) s → ∀ core o s', CoreId core →
    step (location c a) s (.go core) = some (o, s') → OwnOnly (location c (a + 32)) core s o s'

/-- And so does a barrier that `darts_barrier_init` set up. -/
structure BarrierOwnsLock (c a : Word) : Prop where
  pointer : ∀ numThreads b, Guards (Barrier.darts_barrier_init c a numThreads b).lockFullAddressPtr (location c a)
  arrivals : ∀ n (s : Barrier.State n), Barrier.Reachable c a s → ∀ p l s',
    Barrier.move a p s = some (some l, s') → (s.parts p).pc.atMutex = true → Guards l (location c a)

/-! ## The slot's words -/

variable {c a : Word}

theorem toNat_add_inWindow {n : Nat} (hw : InWindow a n) {k : Word} (hk : k.toNat < n) :
    (a + k).toNat = a.toNat + k.toNat := by
  have ha := a.isLt
  rw [InWindow, toNat_lower] at hw
  rw [BitVec.toNat_add, Nat.mod_eq_of_lt (by omega)]

theorem upper_add {n : Nat} (hw : InWindow a n) {k : Word} (hk : k.toNat < n) : (a + k) >>> 20 = a >>> 20 := by
  have hadd := toNat_add_inWindow hw hk
  rw [InWindow, toNat_lower] at hw
  rw [← BitVec.toNat_inj, toNat_upper, toNat_upper, hadd]
  omega

theorem lower_add {n : Nat} (hw : InWindow a n) {k : Word} (hk : k.toNat < n) :
    (a + k) &&& 0x000FFFFF = (a &&& 0x000FFFFF) + k := by
  have hadd := toNat_add_inWindow hw hk
  have hlow := toNat_lower a
  rw [InWindow, toNat_lower] at hw
  rw [← BitVec.toNat_inj, toNat_lower, hadd, BitVec.toNat_add, hlow]
  omega

/-- The words of a structure follow one another. -/
theorem location_add {n : Nat} (hw : InWindow a n) {k : Word} (hk : k.toNat < n) (core : Word) :
    location core (a + k) = field (location core a) k := by
  rw [location, upper_add hw hk, lower_add hw hk, field, location]

theorem field_inj {home : Location} {j k : Word} : field home j = field home k ↔ j = k := by
  rw [field, field, Prod.mk.injEq]
  simp

/-- Two addresses that lead to the slot lead to the same words of it. -/
theorem same_word {n : Nat} (hw : InWindow a n) {core p : Word} (hp : location core p = location c a) {k : Word}
    (hk : k.toNat < n) : location core (p + k) = location c (a + k) := by
  have hlow : p &&& 0x000FFFFF = a &&& 0x000FFFFF := congrArg Prod.snd hp
  have hwp : InWindow p n := by rw [InWindow, hlow]; exact hw
  rw [location_add hwp hk, location_add hw hk, hp]

theorem word_ne {n : Nat} (hw : InWindow a n) {j k : Word} (hj : j.toNat < n) (hk : k.toNat < n) (h : j ≠ k) :
    location c (a + j) ≠ location c (a + k) := by
  rw [location_add hw hj, location_add hw hk]
  exact fun e => h (field_inj.mp e)

/-! ## Every later call -/

/-- The slot that a call is on. -/
def Pc.slot : Pc → Option Word
  | .idle => none
  | .locking _ syncSlot => some syncSlot
  | .storing _ syncSlot => some syncSlot
  | .unlocking _ syncSlot => some syncSlot
  | .reading syncSlot => some syncSlot

/-- The stored address is still there, and the calls are on this slot. -/
structure Inv (c a : Word) (s : State) : Prop where
  pointer : s.chip (location c (a + 36)) = fullAddress c (a + 32)
  there : ∀ core p, (s.pc core).slot = some p → location core p = location c a

theorem Initialised.inv {s : State} (h : Initialised c a s) : Inv c a s := by
  obtain ⟨id, reset, dep, template, count, s₀, hs⟩ := h.slot
  refine ⟨congrArg SyncSlot.lockMutexFullAddressPtr hs, fun core p hp => ?_⟩
  rw [h.idle core] at hp
  cases hp

/-- A core that goes on in its call, or begins one on this slot. -/
theorem Inv.move {s : State} (H : Inv c a s) {core : Word} {pc : Pc}
    (hpc : ∀ p, pc.slot = some p → location core p = location c a) {chip : Chip}
    (hchip : chip (location c (a + 36)) = s.chip (location c (a + 36))) :
    Inv c a ⟨chip, Function.update s.pc core pc⟩ := by
  refine ⟨hchip.trans H.pointer, fun other p hp => ?_⟩
  by_cases e : other = core
  · subst e
    simp only [Function.update_self] at hp
    exact hpc p hp
  · simp only [Function.update_of_ne e] at hp
    exact H.there other p hp

variable {core : Word} {s s' : State} {o : Event}

/-- The address that a call locks and unlocks through. -/
theorem Inv.mutex (H : Inv c a s) (hw : InWindow a 40) {p : Word} (hp : (s.pc core).slot = some p) :
    s.chip (location core (p + 36)) = fullAddress c (a + 32) := by
  rw [same_word hw (H.there core p hp) (by decide), H.pointer]

/-- What a call stores to `currentDep`. -/
def Call.value : Call → SyncSlot → Word
  | .decDep, s => s.currentDep - 1
  | .resetDep, s => s.resetDep

/-- Where a call goes on behind the unlock. -/
def Call.unlocked (call : Call) (syncSlot : Word) : Pc :=
  match call with
  | .decDep => .reading syncSlot
  | .resetDep => .idle

/-- A round of the lock takes the slot's own word, or finds it taken. -/
theorem go_locking (H : Inv c a s) (hw : InWindow a 40) (G : Guards (fullAddress c (a + 32)) (location c (a + 32)))
    (hcore : CoreId core) {call : Call} {p : Word} (hpc : s.pc core = .locking call p) :
    go core s = if s.chip (location c (a + 32)) = 0 then
        some (.locks 0,
          ⟨Function.update s.chip (location c (a + 32)) core, Function.update s.pc core (.storing call p)⟩)
      else some (.spins, s) := by
  have hslot : (s.pc core).slot = some p := by rw [hpc]; rfl
  simp only [go, hpc, H.mutex hw hslot, G.locks core _ hcore]
  by_cases hfree : s.chip (location c (a + 32)) = 0
  · simp only [hfree, if_true]
  · simp only [hfree, if_false]

theorem go_storing (H : Inv c a s) (hw : InWindow a 40) {call : Call} {p : Word} (hpc : s.pc core = .storing call p) :
    go core s = some (.stores, ⟨Function.update s.chip (location c (a + 8)) (call.value (slotAt s.chip c a)),
      Function.update s.pc core (.unlocking call p)⟩) := by
  have hthere : location core p = location c a := H.there core p (by rw [hpc]; rfl)
  have hreset : location core (p + 4) = location c (a + 4) := same_word hw hthere (by decide)
  have hdep : location core (p + 8) = location c (a + 8) := same_word hw hthere (by decide)
  simp only [go, hpc, hreset, hdep]
  cases call <;> rfl

theorem go_unlocking (H : Inv c a s) (hw : InWindow a 40) (G : Guards (fullAddress c (a + 32)) (location c (a + 32)))
    (hcore : CoreId core) {call : Call} {p : Word} (hpc : s.pc core = .unlocking call p) :
    go core s = some (.unlocks 0, ⟨Function.update s.chip (location c (a + 32)) 0,
      Function.update s.pc core (call.unlocked p)⟩) := by
  have hslot : (s.pc core).slot = some p := by rw [hpc]; rfl
  simp only [go, hpc, H.mutex hw hslot, G.unlocks core _ hcore]
  cases call <;> rfl

/-- One step of a core in a call: its lock and its unlock do what they should, and the
    stored address stays. -/
theorem Inv.go (H : Inv c a s) (hw : InWindow a 40) (G : Guards (fullAddress c (a + 32)) (location c (a + 32)))
    (hcore : CoreId core) (h : go core s = some (o, s')) :
    OwnOnly (location c (a + 32)) core s o s' ∧ Inv c a s' := by
  have hlock : location c (a + 36) ≠ location c (a + 32) := word_ne hw (by decide) (by decide) (by decide)
  have hdep : location c (a + 36) ≠ location c (a + 8) := word_ne hw (by decide) (by decide) (by decide)
  have hthere : ∀ q, (s.pc core).slot = some q → location core q = location c a := H.there core
  cases hpc : s.pc core with
  | idle => simp only [OwnLock.go, hpc, reduceCtorEq] at h
  | locking call p =>
    rw [hpc] at hthere
    rw [go_locking H hw G hcore hpc] at h
    by_cases hfree : s.chip (location c (a + 32)) = 0
    · simp only [if_pos hfree, Option.some.injEq, Prod.mk.injEq] at h
      obtain ⟨rfl, rfl⟩ := h
      refine ⟨⟨rfl, hfree, rfl⟩, H.move (fun q hq => ?_) (Function.update_of_ne hlock _ _)⟩
      exact hthere q hq
    · simp only [if_neg hfree, Option.some.injEq, Prod.mk.injEq] at h
      obtain ⟨rfl, rfl⟩ := h
      exact ⟨⟨hfree, rfl⟩, H⟩
  | storing call p =>
    rw [hpc] at hthere
    rw [go_storing H hw hpc, Option.some.injEq, Prod.mk.injEq] at h
    obtain ⟨rfl, rfl⟩ := h
    refine ⟨trivial, H.move (fun q hq => ?_) (Function.update_of_ne hdep _ _)⟩
    exact hthere q hq
  | unlocking call p =>
    rw [hpc] at hthere
    rw [go_unlocking H hw G hcore hpc, Option.some.injEq, Prod.mk.injEq] at h
    obtain ⟨rfl, rfl⟩ := h
    refine ⟨⟨rfl, rfl⟩, H.move (fun q hq => ?_) (Function.update_of_ne hlock _ _)⟩
    cases call with
    | decDep => exact hthere q hq
    | resetDep => cases hq
  | reading p =>
    simp only [OwnLock.go, hpc, Option.some.injEq, Prod.mk.injEq] at h
    obtain ⟨rfl, rfl⟩ := h
    exact ⟨trivial, H.move (fun q hq => by cases hq) rfl⟩

theorem Inv.next (H : Inv c a s) (hw : InWindow a 40) (G : Guards (fullAddress c (a + 32)) (location c (a + 32)))
    (h : Next (location c a) s s') : Inv c a s' := by
  obtain ⟨act, o, hreal, hst⟩ := h
  cases act with
  | call core call p =>
    simp only [step] at hst
    by_cases hp : s.pc core = .idle ∧ location core p = location c a
    · simp only [if_pos hp, Option.some.injEq, Prod.mk.injEq] at hst
      obtain ⟨-, rfl⟩ := hst
      refine H.move (fun q hq => ?_) rfl
      obtain rfl := Option.some.inj hq
      exact hp.2
    · simp only [if_neg hp, reduceCtorEq] at hst
  | go core => exact (H.go hw G hreal hst).2
  | other l v =>
    simp only [step] at hst
    by_cases hl : Outside (location c a) l
    · simp only [if_pos hl, Option.some.injEq, Prod.mk.injEq] at hst
      obtain ⟨-, rfl⟩ := hst
      have hne : location c (a + 36) ≠ l := by
        rw [location_add hw (by decide)]
        exact (hl 9 (by decide)).symm
      exact ⟨(Function.update_of_ne hne _ _).trans H.pointer, H.there⟩
    · simp only [if_neg hl, reduceCtorEq] at hst

theorem slotOwnsLock_iff (hc : CoreId c) (hw : InWindow a 40) : SlotOwnsLock c a ↔ a >>> 20 = 0 ∨ a >>> 20 = c := by
  have hiff := guards_fullAddress_iff hc (a + 32)
  -- the lock is not the slot's first word, so it is not at offset 0
  have hlow : (a + 32) &&& 0x000FFFFF ≠ 0 := by
    intro e
    have h := congrArg BitVec.toNat e
    have hadd : (a + 32).toNat = a.toNat + 32 := toNat_add_inWindow hw (by decide)
    rw [InWindow, toNat_lower] at hw
    rw [toNat_lower, hadd, show (0 : Word).toNat = 0 from rfl] at h
    omega
  rw [upper_add hw (by decide)] at hiff
  constructor
  · intro h
    exact (hiff.mp (h.pointer 0 0 0 ⟨0, 0, 0⟩ 0 ⟨0, 0, 0, 0, ⟨0, 0, 0⟩, 0, 0, 0⟩)).1
  · intro ha
    have G := hiff.mpr ⟨ha, hlow⟩
    refine ⟨fun _ _ _ _ _ _ => G, fun s hs core o s' hcore hst => ?_⟩
    have H := Reach.inv (Inv c a) (fun _ h => h.inv) (fun _ _ H h => H.next hw G h) hs
    exact (H.go hw G hcore hst).1

/-! ## A call on the chip -/

/-- What the calls make of a slot. -/
def Call.onSlot : Call → Word → SyncSlot → Option SyncSlot
  | .decDep => SyncSlot.decrement
  | .resetDep => SyncSlot.syncSlotResetDep

theorem onSlot_free (call : Call) (core : Word) {s : SyncSlot} (hf : s.lockMutex = 0) :
    call.onSlot core s = some { s with currentDep := call.value s } := by
  cases call with
  | decDep => exact SyncSlot.decrement_free core hf
  | resetDep => exact SyncSlot.syncSlotResetDep_free core hf

/-- A store to one word of the slot leaves the others. -/
theorem other_word {n : Nat} (hw : InWindow a n) (chip : Chip) (w : Word) {j k : Word} (hj : j.toNat < n)
    (hk : k.toNat < n) (h : k ≠ j) :
    Function.update chip (location c (a + j)) w (location c (a + k)) = chip (location c (a + k)) :=
  Function.update_of_ne (word_ne hw hk hj h) _ _

theorem first_word {n : Nat} (hw : InWindow a n) (chip : Chip) (w : Word) {j : Word} (hj : j.toNat < n) (h : 0 ≠ j) :
    Function.update chip (location c (a + j)) w (location c a) = chip (location c a) := by
  have h0 : a + 0 = a := BitVec.add_zero a
  have hk := other_word (c := c) hw chip w (k := 0) hj (Nat.zero_lt_of_lt hj) h
  rwa [h0] at hk

theorem slotAt_lock (hw : InWindow a 40) (chip : Chip) (w : Word) :
    slotAt (Function.update chip (location c (a + 32)) w) c a = { slotAt chip c a with lockMutex := w } := by
  simp (disch := decide) only [slotAt, Function.update_self, first_word hw, other_word hw]

theorem slotAt_currentDep (hw : InWindow a 40) (chip : Chip) (v : Word) :
    slotAt (Function.update chip (location c (a + 8)) v) c a = { slotAt chip c a with currentDep := v } := by
  simp (disch := decide) only [slotAt, Function.update_self, first_word hw, other_word hw]

/-- With its own lock, a call that nobody disturbs is the call on the slot alone. -/
theorem call_on_chip (H : Inv c a s) (hw : InWindow a 40) (G : Guards (fullAddress c (a + 32)) (location c (a + 32)))
    (hcore : CoreId core) (call : Call) {p : Word} (hidle : s.pc core = .idle) (hp : location core p = location c a)
    (hfree : s.chip (location c (a + 32)) = 0) :
    ∃ s', run (step (location c a)) s (.call core call p :: List.replicate 3 (.go core)) =
        some ([.begins, .locks 0, .stores, .unlocks 0], s') ∧
      call.onSlot core (slotAt s.chip c a) = some (slotAt s'.chip c a) := by
  let s₁ : State := { s with pc := Function.update s.pc core (.locking call p) }
  have hcall : step (location c a) s (.call core call p) = some (.begins, s₁) := by
    simp only [step, hidle, hp, and_self, if_true]
    rfl
  have H₁ : Inv c a s₁ := H.move (fun q hq => by obtain rfl := Option.some.inj hq; exact hp) rfl
  let s₂ : State := ⟨Function.update s.chip (location c (a + 32)) core, Function.update s₁.pc core (.storing call p)⟩
  have hlock : go core s₁ = some (.locks 0, s₂) :=
    (go_locking H₁ hw G hcore (Function.update_self _ _ _)).trans (if_pos hfree)
  have H₂ : Inv c a s₂ := (H₁.go hw G hcore hlock).2
  let s₃ : State := ⟨Function.update s₂.chip (location c (a + 8)) (call.value (slotAt s₂.chip c a)),
    Function.update s₂.pc core (.unlocking call p)⟩
  have hstore : go core s₂ = some (.stores, s₃) := go_storing H₂ hw (Function.update_self _ _ _)
  have H₃ : Inv c a s₃ := (H₂.go hw G hcore hstore).2
  let s₄ : State := ⟨Function.update s₃.chip (location c (a + 32)) 0, Function.update s₃.pc core (call.unlocked p)⟩
  have hunlock : go core s₃ = some (.unlocks 0, s₄) := go_unlocking H₃ hw G hcore (Function.update_self _ _ _)
  refine ⟨s₄, ?_, ?_⟩
  · simp only [List.replicate, run, hcall]
    simp only [step, hlock, hstore, hunlock, Option.map_some]
  · have hself : (slotAt s.chip c a).lockMutex = 0 := hfree
    have hslot : slotAt s₄.chip c a = { slotAt s.chip c a with
        currentDep := call.value { slotAt s.chip c a with lockMutex := core }
        lockMutex := 0 } := by
      simp only [s₄, s₃, s₂, slotAt_lock hw, slotAt_currentDep hw]
    rw [onSlot_free call core hself, hslot, ← hself]
    cases call <;> rfl

/-- The slot `s` at `home`, and nothing else. -/
def chipOf (home : Location) (s : SyncSlot) : Chip := fun l =>
  [s.slotID, s.resetDep, s.currentDep, s.tpFrame, s.codeletTemplate.codeletID, s.codeletTemplate.syncSlot,
    s.codeletTemplate.fire, s.numCodelets, s.lockMutex, s.lockMutexFullAddressPtr].getD ((l.2 - home.2).toNat / 4) 0

theorem slotAt_chipOf (hw : InWindow a 40) (s : SyncSlot) : slotAt (chipOf (location c a) s) c a = s := by
  have hword : ∀ k : Word, k.toNat < 40 → (location c (a + k)).2 - (location c a).2 = k := by
    intro k hk
    rw [location_add hw hk, field, BitVec.add_comm, BitVec.add_sub_cancel]
  simp (disch := decide) only [slotAt, chipOf, hword, BitVec.sub_self]
  rfl

/-- The slot of the test, with two dependencies, set up by core `c` at `a`. -/
def testSlot (c a : Word) : SyncSlot :=
  SyncSlot.initSyncSlot c a 0 2 2 ⟨0, 0, 0⟩ 1 ⟨0, 0, 0, 0, ⟨0, 0, 0⟩, 0, 0, 0⟩

def testState (c a : Word) : State := ⟨chipOf (location c a) (testSlot c a), fun _ => .idle⟩

/-- There is a slot to start from, wherever it is. -/
theorem initialised_testState (hw : InWindow a 40) : Initialised c a (testState c a) :=
  ⟨⟨_, _, _, _, _, _, slotAt_chipOf hw (testSlot c a)⟩, fun _ => rfl⟩

/-- Core 0x809 calls while core 0x808 has the lock. -/
example : (run (step (0x808, 0x2008)) (testState 0x808 0x80802008)
      [.call 0x808 .decDep 0x2008, .go 0x808, .call 0x809 .decDep 0x80802008, .go 0x809, .go 0x808, .go 0x808,
        .go 0x809, .go 0x808]).map (·.1) =
    some [.begins, .locks 0, .begins, .spins, .stores, .unlocks 0, .locks 0, .returns 1] := by decide +kernel

/-! ## Barriers -/

/-- What a barrier's lock and unlock store to is the address in it. -/
theorem atMutex_store {n : Nat} {s s' : Barrier.State n} {p : Fin n} {l : Word}
    (h : Barrier.move a p s = some (some l, s')) (hpc : (s.parts p).pc.atMutex = true) : l = s.barrier.lockFullAddressPtr := by
  cases hp : (s.parts p).pc with
  | acquiring =>
    simp only [Barrier.move, hp] at h
    split at h <;> cases h
    rfl
  | unlocking =>
    simp only [Barrier.move, hp] at h
    cases h
    rfl
  | unlockingLast =>
    simp only [Barrier.move, hp] at h
    cases h
    rfl
  | _ =>
    rw [hp] at hpc
    cases hpc

theorem barrierOwnsLock_iff (hc : CoreId c) :
    BarrierOwnsLock c a ↔ (a >>> 20 = 0 ∨ a >>> 20 = c) ∧ a &&& 0x000FFFFF ≠ 0 := by
  have hiff := guards_fullAddress_iff hc a
  constructor
  · intro h
    exact hiff.mp (h.pointer 0 ⟨0, 0, 0, fun _ => 0⟩)
  · intro ha
    have G := hiff.mpr ha
    refine ⟨fun _ _ => G, fun n s hs p l s' hmove hpc => ?_⟩
    have hl : l = fullAddress c a := (atMutex_store hmove hpc).trans hs.lock.1
    rw [hl]
    exact G

/-! ## Which own their lock -/

/-- For every core `c` and address `a`: what core `c` sets up at `a` locks its own mutex,
    from the start and in every run, exactly when `a` is local or has core `c`'s id; a
    barrier must not be at offset 0, too. -/
theorem own_lock_iff (c a : Word) (hc : CoreId c) :
    (InWindow a 40 → (SlotOwnsLock c a ↔ a >>> 20 = 0 ∨ a >>> 20 = c)) ∧
    (InWindow a 80 → (BarrierOwnsLock c a ↔ (a >>> 20 = 0 ∨ a >>> 20 = c) ∧ a &&& 0x000FFFFF ≠ 0)) :=
  ⟨fun hw => slotOwnsLock_iff hc hw, fun _ => barrierOwnsLock_iff hc⟩

/-- The test's slot, local to core 0x808, with a state that its runs start from, and its barrier,
    by its full address. -/
theorem own_lock_iff_test : SlotOwnsLock 0x808 0x2008 ∧ Initialised 0x808 0x2008 (testState 0x808 0x2008) ∧
    BarrierOwnsLock 0x808 0x80802030 :=
  ⟨((own_lock_iff 0x808 0x2008 (by decide)).1 (by decide)).mpr (by decide), initialised_testState (by decide),
    ((own_lock_iff 0x808 0x80802030 (by decide)).2 (by decide)).mpr (by decide)⟩

/-- Set up by core 0x808 in the memory of core 0x809, a slot's lock is a word of core 0x808. -/
theorem a_slot_elsewhere_locks_another_word :
    ¬ ∀ c a, CoreId c → InWindow a 80 → SlotOwnsLock c a ∧ BarrierOwnsLock c a := by
  intro hall
  have hreach := ((hall 0x808 0x80902008 (by decide) (by decide)).1.pointer 0 2 2 ⟨0, 0, 0⟩ 1
    ⟨0, 0, 0, 0, ⟨0, 0, 0⟩, 0, 0, 0⟩).reaches 0x809 (by decide)
  exact absurd hreach (by decide)

end EDarts.Assets.OwnLock
