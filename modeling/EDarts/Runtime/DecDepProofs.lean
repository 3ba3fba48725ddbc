/-
  EDarts.Runtime.DecDepProofs — who fires a slot's codelets when `n` calls of
  `decDepAndPush` meet on it (see `EDarts.Runtime.DecDep`).

  Until the last decrement the counter is the number of calls that have not decremented
  yet, so every result read is not 0 (`Before`). From the last decrement on every result
  read is 0. If the call that makes it is then the only one between its decrement and
  its read, it is the only one that sees 0 and it pushes the codelets in order (`Sole`);
  if there is another one, both see 0 (`Twice`).

  - `firesOnce_iff`: exactly one call gets 0, and the codelets are pushed once each, if
    and only if the decrement to 0 is made while no other call stands there.
  - `two_calls_get_zero`: two decrements, then two reads.
-/

import EDarts.Lib.Runs
import EDarts.Runtime.DecDep

namespace EDarts.Runtime.DecDep

open Lib Assets CodeletsQueue

/-- The slot's codelets with their ids. -/
def copies (slot : SyncSlot) : List Codelet :=
  (List.range slot.numCodelets.toNat).map fun i => { slot.codeletTemplate with codeletID := BitVec.ofNat 32 i }

def GotZero (s : State) (t : Nat) : Prop := ∃ c, s.calls[t]? = some c ∧ c.ret = some 0

/-- One call got 0; the codelets pushed so far are the slot's in order, and all of them
    when the calls are over. -/
structure FiresOnce (slot : SyncSlot) (s : State) : Prop where
  one : ∃ t, GotZero s t ∧ ∀ j, GotZero s j → j = t
  pushed : s.pushed <+: copies slot
  all : (∀ c ∈ s.calls, c.pc = .done) → s.pushed = copies slot

/-- The decrement to 0, while another call is between its decrement and its read. -/
def CatchesAnother (s : State) : Action → Prop
  | .call t => (∃ c, s.calls[t]? = some c ∧ c.pc = .start) ∧ s.slot.currentDep = 1 ∧ ∃ c ∈ s.calls, c.pc = .decremented
  | .other _ => False

/-! ## One step of a call -/

/-- What one step can do. -/
inductive Moves (c : Call) (s : State) : Call → State → Prop
  | decrement (w : Word) : c.pc = .start →
      Moves c s { c with pc := .decremented }
        { s with slot := { s.slot with currentDep := s.slot.currentDep - 1, lockMutex := w } }
  | read : c.pc = .decremented →
      Moves c s { c with pc := if s.slot.result = 0 then .loop 0 else .done, ret := some s.slot.result } s
  | name (i : Word) : c.pc = .loop i → i.toNat < s.slot.numCodelets.toNat →
      Moves c s { c with pc := .pushing i }
        { s with slot := { s.slot with codeletTemplate := { s.slot.codeletTemplate with codeletID := i } } }
  | leave (i : Word) : c.pc = .loop i → s.slot.numCodelets.toNat ≤ i.toNat → Moves c s { c with pc := .done } s
  | retry (i : Word) (queues : Word → CodeletsQueue) : c.pc = .pushing i → Moves c s c { s with queues := queues }
  | push (i : Word) (queues : Word → CodeletsQueue) : c.pc = .pushing i →
      Moves c s { c with pc := .loop (i + 1) } { s with queues := queues, pushed := s.pushed ++ [s.slot.codeletTemplate] }

theorem callStep_moves {c c' : Call} {s s' : State} (h : callStep c s = some (c', s')) : Moves c s c' s' := by
  unfold callStep at h
  cases hpc : c.pc with
  | start =>
    simp only [hpc, Option.map_eq_some_iff, Prod.mk.injEq] at h
    obtain ⟨slot, hdec, rfl, rfl⟩ := h
    obtain ⟨w, rfl⟩ := SyncSlot.decrement_eq hdec
    exact .decrement w hpc
  | decremented =>
    simp only [hpc, Option.some.injEq, Prod.mk.injEq] at h
    obtain ⟨rfl, rfl⟩ := h
    exact .read hpc
  | loop i =>
    by_cases hi : i < s.slot.numCodelets
    · simp only [hpc, hi, if_true, Option.some.injEq, Prod.mk.injEq] at h
      obtain ⟨rfl, rfl⟩ := h
      exact .name i hpc (BitVec.lt_def.mp hi)
    · simp only [hpc, hi, if_false, Option.some.injEq, Prod.mk.injEq] at h
      obtain ⟨rfl, rfl⟩ := h
      exact .leave i hpc (Nat.le_of_not_lt fun e => hi (BitVec.lt_def.mpr e))
  | pushing i =>
    simp only [hpc, Option.map_eq_some_iff] at h
    obtain ⟨r, -, h⟩ := h
    by_cases hr : r.1 ≠ .successOp
    · simp only [if_pos hr, Prod.mk.injEq] at h
      obtain ⟨rfl, rfl⟩ := h
      exact .retry i _ hpc
    · simp only [if_neg hr, Prod.mk.injEq] at h
      obtain ⟨rfl, rfl⟩ := h
      exact .push i _ hpc
  | done => simp only [hpc] at h; cases h

/-- A step is a move of one call, or other code at work on the queues. -/
theorem step_cases {s s' : State} {a : Action} {o : Unit} (h : step s a = some (o, s')) :
    (∃ queues, a = .other queues ∧ s' = { s with queues := queues }) ∨
    ∃ t c c' s₁, a = .call t ∧ s.calls[t]? = some c ∧ Moves c s c' s₁ ∧ s' = { s₁ with calls := s.calls.set t c' } := by
  cases a with
  | other queues =>
    simp only [step, Option.some.injEq, Prod.mk.injEq] at h
    exact Or.inl ⟨queues, rfl, h.2.symm⟩
  | call t =>
    rw [step] at h
    cases hc : s.calls[t]? with
    | none => rw [hc] at h; cases h
    | some c =>
      simp only [hc, Option.map_eq_some_iff, Prod.mk.injEq] at h
      obtain ⟨⟨c', s₁⟩, hst, -, rfl⟩ := h
      exact Or.inr ⟨t, c, c', s₁, rfl, hc, callStep_moves hst, rfl⟩

/-- The call that moved, and the others. -/
theorem getElem?_set_cases {calls : List Call} {t j : Nat} {c c' d : Call} (hc : calls[t]? = some c)
    (h : (calls.set t c')[j]? = some d) : (j = t ∧ d = c') ∨ (j ≠ t ∧ calls[j]? = some d) := by
  have hlt : t < calls.length := (List.getElem?_eq_some_iff.mp hc).1
  by_cases e : j = t
  · subst e
    rw [List.getElem?_set_self hlt] at h
    exact Or.inl ⟨rfl, (Option.some.inj h).symm⟩
  · rw [List.getElem?_set_ne (Ne.symm e)] at h
    exact Or.inr ⟨e, h⟩

theorem getElem?_set_moved {calls : List Call} {t : Nat} {c : Call} (c' : Call) (hc : calls[t]? = some c) :
    (calls.set t c')[t]? = some c' :=
  List.getElem?_set_self (List.getElem?_eq_some_iff.mp hc).1

/-! ## Until the last decrement -/

/-- The slot is as at the start, but for the counter, the mutex and the template's id. -/
structure Kept (slot : SyncSlot) (s : State) : Prop where
  numCodelets : s.slot.numCodelets = slot.numCodelets
  syncSlot : s.slot.codeletTemplate.syncSlot = slot.codeletTemplate.syncSlot
  fire : s.slot.codeletTemplate.fire = slot.codeletTemplate.fire

theorem Kept.moves {slot : SyncSlot} {c c' : Call} {s s' : State} (K : Kept slot s) (h : Moves c s c' s') :
    Kept slot s' := by
  cases h <;> exact ⟨K.numCodelets, K.syncSlot, K.fire⟩

def undecremented (s : State) : Nat := s.calls.countP (·.pc == .start)

structure Before (slot : SyncSlot) (s : State) : Prop where
  kept : Kept slot s
  count : s.slot.currentDep.toNat = undecremented s
  left : 0 < undecremented s
  pushed : s.pushed = []
  early : ∀ c ∈ s.calls, (c.pc = .start ∨ c.pc = .decremented) ∧ c.ret = none ∨ c.pc = .done ∧ c.ret ≠ some 0

/-! ## From the last decrement on -/

/-- How far the call is that fires the codelets. -/
def Firing (slot : SyncSlot) (s : State) (c : Call) : Prop :=
  match c.pc with
  | .start => False
  | .decremented => c.ret = none ∧ s.pushed = []
  | .loop i => c.ret = some 0 ∧ i.toNat ≤ slot.numCodelets.toNat ∧ s.pushed = (copies slot).take i.toNat
  | .pushing i => c.ret = some 0 ∧ i.toNat < slot.numCodelets.toNat ∧ s.slot.codeletTemplate.codeletID = i ∧
      s.pushed = (copies slot).take i.toNat
  | .done => c.ret = some 0 ∧ s.pushed = copies slot

/-- Call `t` is the only one that is not over, or that got 0. -/
structure Sole (slot : SyncSlot) (t : Nat) (s : State) : Prop where
  kept : Kept slot s
  zero : s.slot.currentDep.toNat = 0
  others : ∀ j c, s.calls[j]? = some c → j ≠ t → c.pc = .done ∧ c.ret ≠ some 0
  firing : ∃ c, s.calls[t]? = some c ∧ Firing slot s c

/-- Call `t` got 0, or is about to read it. -/
def Zeroing (s : State) (t : Nat) : Prop :=
  ∃ c, s.calls[t]? = some c ∧ (c.pc = .decremented ∧ c.ret = none ∨ c.ret = some 0)

structure Twice (s : State) : Prop where
  zero : s.slot.currentDep.toNat = 0
  noStart : ∀ c ∈ s.calls, c.pc ≠ .start
  two : ∃ t j, t ≠ j ∧ Zeroing s t ∧ Zeroing s j

@[simp] theorem copies_length (slot : SyncSlot) : (copies slot).length = slot.numCodelets.toNat := by simp [copies]

theorem copies_take_succ {slot : SyncSlot} {i : Word} (h : i.toNat < slot.numCodelets.toNat) :
    (copies slot).take (i.toNat + 1) = (copies slot).take i.toNat ++ [{ slot.codeletTemplate with codeletID := i }] := by
  rw [List.take_succ_eq_append_getElem (by simpa using h)]
  simp [copies]

theorem Firing.moves {slot : SyncSlot} {c c' : Call} {s s' : State} (K : Kept slot s) (hz : s.slot.currentDep.toNat = 0)
    (F : Firing slot s c) (h : Moves c s c' s') : s'.slot.currentDep.toNat = 0 ∧ Firing slot s' c' := by
  cases h with
  | decrement w hpc => rw [Firing, hpc] at F; exact F.elim
  | read hpc =>
    have hr := (SyncSlot.result_eq_zero s.slot).mpr hz
    rw [Firing, hpc] at F
    refine ⟨hz, ?_⟩
    simp only [Firing, hr, if_true]
    exact ⟨trivial, Nat.zero_le _, F.2⟩
  | name i hpc hi =>
    rw [Firing, hpc] at F
    exact ⟨hz, F.1, K.numCodelets ▸ hi, rfl, F.2.2⟩
  | leave i hpc hi =>
    rw [Firing, hpc] at F
    rw [K.numCodelets] at hi
    refine ⟨hz, F.1, ?_⟩
    rw [F.2.2, List.take_of_length_le (by simpa using hi)]
  | retry i queues hpc =>
    rw [Firing, hpc] at F
    exact ⟨hz, by rw [Firing, hpc]; exact F⟩
  | push i queues hpc =>
    rw [Firing, hpc] at F
    obtain ⟨hret, hi, hid, hp⟩ := F
    have hnext : (i + 1).toNat = i.toNat + 1 := by bv_omega
    have htemplate : s.slot.codeletTemplate = { slot.codeletTemplate with codeletID := i } := by
      simp only [← hid, ← K.syncSlot, ← K.fire]
    refine ⟨hz, hret, by rw [hnext]; exact hi, ?_⟩
    simp only [hnext, copies_take_succ hi, hp, htemplate]

theorem Sole.step {slot : SyncSlot} {t : Nat} {s s' : State} {a : Action} {o : Unit} (H : Sole slot t s)
    (h : step s a = some (o, s')) : Sole slot t s' := by
  obtain ⟨K, hz, hothers, c, hc, F⟩ := H
  rcases step_cases h with ⟨queues, -, rfl⟩ | ⟨j, d, d', s₁, -, hd, hm, rfl⟩
  · exact ⟨⟨K.numCodelets, K.syncSlot, K.fire⟩, hz, hothers, c, hc, F⟩
  · by_cases e : j = t
    · subst e
      obtain rfl : d = c := Option.some.inj (hd.symm.trans hc)
      obtain ⟨hz', F'⟩ := F.moves K hz hm
      have K' := K.moves hm
      refine ⟨⟨K'.numCodelets, K'.syncSlot, K'.fire⟩, hz', fun k e he hne => ?_, d', getElem?_set_moved d' hd, F'⟩
      rcases getElem?_set_cases hd he with ⟨rfl, -⟩ | ⟨-, he⟩
      · exact absurd rfl hne
      · exact hothers k e he hne
    · -- a call that is over does not move
      obtain ⟨hpc, -⟩ := hothers j d hd e
      cases hm <;> simp_all

theorem Twice.step {s s' : State} {a : Action} {o : Unit} (H : Twice s) (h : step s a = some (o, s')) : Twice s' := by
  obtain ⟨hz, hno, t, j, hne, ht, hj⟩ := H
  rcases step_cases h with ⟨queues, -, rfl⟩ | ⟨k, d, d', s₁, -, hd, hm, rfl⟩
  · exact ⟨hz, hno, t, j, hne, ht, hj⟩
  · have hstart := hno d (List.mem_of_getElem? hd)
    obtain ⟨hz', hpc', hzero⟩ : s₁.slot.currentDep.toNat = 0 ∧ d'.pc ≠ .start ∧
        (d.pc = .decremented ∧ d.ret = none ∨ d.ret = some 0 → d'.pc = .decremented ∧ d'.ret = none ∨ d'.ret = some 0) := by
      cases hm with
      | decrement w hpc => exact absurd hpc hstart
      | read hpc =>
        have hr := (SyncSlot.result_eq_zero s.slot).mpr hz
        simp [hr, hz]
      | _ => simp_all
    have hkeep : ∀ i, Zeroing s i → Zeroing { s₁ with calls := s.calls.set k d' } i := by
      rintro i ⟨c, hc, hzc⟩
      by_cases e : k = i
      · subst e
        obtain rfl : d = c := Option.some.inj (hd.symm.trans hc)
        exact ⟨d', getElem?_set_moved d' hd, hzero hzc⟩
      · exact ⟨c, by rw [List.getElem?_set_ne e]; exact hc, hzc⟩
    refine ⟨hz', fun c hc => ?_, t, j, hne, hkeep t ht, hkeep j hj⟩
    rcases List.mem_or_eq_of_mem_set hc with hc | rfl
    · exact hno c hc
    · exact hpc'

theorem Sole.firesOnce {slot : SyncSlot} {t : Nat} {s : State} (H : Sole slot t s) (hret : ∀ c ∈ s.calls, c.ret ≠ none) :
    FiresOnce slot s := by
  obtain ⟨-, -, hothers, c, hc, F⟩ := H
  have hr := hret c (List.mem_of_getElem? hc)
  have hone : c.ret = some 0 → ∃ t, GotZero s t ∧ ∀ j, GotZero s j → j = t := fun h0 => by
    refine ⟨t, ⟨c, hc, h0⟩, fun j hj => ?_⟩
    obtain ⟨d, hd, hd0⟩ := hj
    by_cases e : j = t
    · exact e
    · exact absurd hd0 (hothers j d hd e).2
  have hpc : (∀ c ∈ s.calls, c.pc = .done) → c.pc = .done := fun h => h c (List.mem_of_getElem? hc)
  unfold Firing at F
  split at F
  · exact F.elim
  · exact absurd F.1 hr
  · exact ⟨hone F.1, by rw [F.2.2]; exact List.take_prefix _ _, fun h => by simp_all⟩
  · exact ⟨hone F.1, by rw [F.2.2.2]; exact List.take_prefix _ _, fun h => by simp_all⟩
  · exact ⟨hone F.1, F.2 ▸ List.prefix_refl _, fun _ => F.2⟩

theorem Twice.not_firesOnce {slot : SyncSlot} {s : State} (H : Twice s) (hret : ∀ c ∈ s.calls, c.ret ≠ none) :
    ¬ FiresOnce slot s := by
  intro h
  obtain ⟨⟨i, -, hi⟩, -, -⟩ := h
  have hgot : ∀ t, Zeroing s t → GotZero s t := by
    rintro t ⟨c, hc, ⟨-, h⟩ | h⟩
    · exact absurd h (hret c (List.mem_of_getElem? hc))
    · exact ⟨c, hc, h⟩
  obtain ⟨-, -, t, j, hne, ht, hj⟩ := H
  exact hne ((hi t (hgot t ht)).trans (hi j (hgot j hj)).symm)

/-! ## The last decrement -/

theorem undecremented_set {s : State} {t : Nat} {c : Call} (hc : s.calls[t]? = some c) (c' : Call) (s₁ : State) :
    undecremented { s₁ with calls := s.calls.set t c' } + (if c.pc = .start then 1 else 0) =
      undecremented s + (if c'.pc = .start then 1 else 0) := by
  obtain ⟨hlt, rfl⟩ := List.getElem?_eq_some_iff.mp hc
  have hmem := List.getElem_mem hlt
  simp only [undecremented, List.countP_set hlt, beq_iff_eq]
  by_cases hs : s.calls[t].pc = .start
  · have : 0 < s.calls.countP (·.pc == .start) := List.countP_pos_iff.mpr ⟨_, hmem, by simp [hs]⟩
    simp only [hs, if_true]
    omega
  · simp [hs]

theorem no_start {s : State} (h : undecremented s = 0) : ∀ c ∈ s.calls, c.pc ≠ .start := fun c hc => by
  simpa using List.countP_eq_zero.mp h c hc

/-- The last decrement leaves one call to read 0, unless it catches another one. -/
theorem Before.last {slot : SyncSlot} {s : State} (H : Before slot s) {t : Nat} {c : Call} (hc : s.calls[t]? = some c)
    (hpc : c.pc = .start) (h1 : undecremented s = 1) (w : Word) {s' : State}
    (hs' : s' = { s with
      slot := { s.slot with currentDep := s.slot.currentDep - 1, lockMutex := w }
      calls := s.calls.set t { c with pc := .decremented } }) :
    Sole slot t s' ∧ ¬ CatchesAnother s (.call t) ∨ Twice s' ∧ CatchesAnother s (.call t) := by
  have hdep := H.count
  have hone : s.slot.currentDep = 1 := by rw [← BitVec.toNat_inj, hdep, h1]; rfl
  have hcount := undecremented_set hc { c with pc := .decremented } s'
  have hset : { s' with calls := s.calls.set t { c with pc := .decremented } } = s' := by rw [hs']
  simp only [hset, hpc, if_true, h1, reduceCtorEq, if_false] at hcount
  have hno := no_start (s := s') (by omega)
  have hz : s'.slot.currentDep.toNat = 0 := by rw [hs']; simp [hone]
  have hret : c.ret = none := by
    rcases H.early c (List.mem_of_getElem? hc) with ⟨-, h⟩ | ⟨h, -⟩
    · exact h
    · rw [hpc] at h; cases h
  have hmoved : s'.calls[t]? = some { c with pc := .decremented } := by rw [hs']; exact getElem?_set_moved _ hc
  have hothers : ∀ j, j ≠ t → s'.calls[j]? = s.calls[j]? := fun j hj => by
    rw [hs']; exact List.getElem?_set_ne (Ne.symm hj)
  by_cases hb : ∃ c ∈ s.calls, c.pc = .decremented
  · refine Or.inr ⟨⟨hz, hno, ?_⟩, ⟨c, hc, hpc⟩, hone, hb⟩
    obtain ⟨d, hd, hdpc⟩ := hb
    obtain ⟨j, hj⟩ := List.mem_iff_getElem?.mp hd
    have hjt : j ≠ t := by
      intro e
      subst e
      rw [hc] at hj
      obtain rfl := Option.some.inj hj
      rw [hpc] at hdpc; cases hdpc
    have hdret : d.ret = none := by
      rcases H.early d hd with ⟨-, h⟩ | ⟨h, -⟩
      · exact h
      · rw [hdpc] at h; cases h
    exact ⟨t, j, hjt.symm, ⟨_, hmoved, Or.inl ⟨rfl, hret⟩⟩, d, by rw [hothers j hjt]; exact hj, Or.inl ⟨hdpc, hdret⟩⟩
  · refine Or.inl ⟨⟨?_, hz, fun j d hd hjt => ?_, _, hmoved, hret, ?_⟩, fun hcatch => hb hcatch.2.2⟩
    · rw [hs']; exact ⟨H.kept.numCodelets, H.kept.syncSlot, H.kept.fire⟩
    · have hd' := hno d (List.mem_of_getElem? hd)
      rw [hothers j hjt] at hd
      rcases H.early d (List.mem_of_getElem? hd) with ⟨h | h, -⟩ | h
      · exact absurd h hd'
      · exact absurd ⟨d, List.mem_of_getElem? hd, h⟩ hb
      · exact h
    · rw [hs']; exact H.pushed

/-- A step before the last decrement keeps it that way, or makes the last decrement. -/
theorem Before.step {slot : SyncSlot} {s s' : State} {a : Action} {o : Unit} (H : Before slot s)
    (h : step s a = some (o, s')) :
    Before slot s' ∧ ¬ CatchesAnother s a ∨ (∃ t, Sole slot t s') ∧ ¬ CatchesAnother s a ∨ Twice s' ∧ CatchesAnother s a := by
  have hdep := H.count
  rcases step_cases h with ⟨queues, rfl, rfl⟩ | ⟨t, c, c', s₁, rfl, hc, hm, rfl⟩
  · exact Or.inl ⟨⟨⟨H.kept.numCodelets, H.kept.syncSlot, H.kept.fire⟩, H.count, H.left, H.pushed, H.early⟩, id⟩
  · have hearly := H.early c (List.mem_of_getElem? hc)
    have K' := H.kept.moves hm
    have hcount := undecremented_set hc c' s₁
    cases hm with
    | decrement w hpc =>
      by_cases h1 : undecremented s = 1
      · rcases H.last hc hpc h1 w rfl with ⟨hS, hn⟩ | ⟨hT, hcatch⟩
        · exact Or.inr (Or.inl ⟨⟨t, hS⟩, hn⟩)
        · exact Or.inr (Or.inr ⟨hT, hcatch⟩)
      · have hne : s.slot.currentDep ≠ 1 := fun e => h1 (by rw [← hdep, e]; rfl)
        have hpos := H.left
        simp only [hpc, if_true, reduceCtorEq, if_false] at hcount
        refine Or.inl ⟨⟨⟨K'.numCodelets, K'.syncSlot, K'.fire⟩, ?_, ?_, H.pushed, fun d hd => ?_⟩,
          fun hcatch => hne hcatch.2.1⟩
        · simp only
          bv_omega
        · simp only
          omega
        · rcases List.mem_or_eq_of_mem_set hd with hd | rfl
          · exact H.early d hd
          · rcases hearly with ⟨-, hr⟩ | ⟨hd, -⟩
            · exact Or.inl ⟨Or.inr rfl, hr⟩
            · rw [hpc] at hd; cases hd
    | read hpc =>
      have hpos := H.left
      have hr : s.slot.result ≠ 0 := fun e => by
        have := (SyncSlot.result_eq_zero s.slot).mp e
        omega
      simp only [hpc, hr, if_false, reduceCtorEq, Nat.add_zero] at hcount
      refine Or.inl ⟨⟨⟨K'.numCodelets, K'.syncSlot, K'.fire⟩, ?_, ?_, H.pushed, fun d hd => ?_⟩, fun hcatch => ?_⟩
      · simp only [hr, if_false]; rw [hcount]; exact hdep
      · simp only [hr, if_false]; rw [hcount]; exact hpos
      · rcases List.mem_or_eq_of_mem_set hd with hd | rfl
        · exact H.early d hd
        · exact Or.inr ⟨by simp [hr], by simpa using hr⟩
      · obtain ⟨⟨d, hd, hdpc⟩, -⟩ := hcatch
        obtain rfl : d = c := Option.some.inj (hd.symm.trans hc)
        rw [hpc] at hdpc; cases hdpc
    | _ => simp_all

/-- Once nobody is left to decrement, nobody is caught. -/
theorem not_catches {s : State} (h : ∀ (t : Nat) (c : Call), s.calls[t]? = some c → c.pc ≠ .start) (a : Action) : ¬ CatchesAnother s a := by
  cases a with
  | call t =>
    intro h
    obtain ⟨⟨c, hc, hpc⟩, -⟩ := h
    exact h t c hc hpc
  | other queues => exact id

theorem Sole.not_catches {slot : SyncSlot} {t : Nat} {s : State} (H : Sole slot t s) (a : Action) : ¬ CatchesAnother s a := by
  refine DecDep.not_catches (fun j c hc hpc => ?_) a
  by_cases e : j = t
  · subst e
    obtain ⟨d, hd, F⟩ := H.firing
    obtain rfl : c = d := Option.some.inj (hc.symm.trans hd)
    rw [Firing, hpc] at F
    exact F
  · rw [(H.others j c hc e).1] at hpc
    cases hpc

theorem Before.init (slot : SyncSlot) (queues : Word → CodeletsQueue) (callers : List Caller)
    (hn : callers.length = slot.currentDep.toNat) (hpos : 0 < callers.length) : Before slot (start slot queues callers) := by
  have hcount : undecremented (start slot queues callers) = callers.length := by
    have hstart : ∀ p ∈ callers, ((fun c : Call => c.pc == .start) ∘ decDepAndPush) p = true := fun p _ => by
      cases p <;> rfl
    rw [undecremented, start, List.countP_map, List.countP_eq_length.mpr hstart]
  refine ⟨⟨rfl, rfl, rfl⟩, by rw [hcount, hn]; rfl, by rw [hcount]; exact hpos, rfl, fun c hc => ?_⟩
  obtain ⟨p, -, rfl⟩ := List.mem_map.mp hc
  cases p <;> exact Or.inl ⟨Or.inl rfl, rfl⟩

/-- Along a run until every call has its result. -/
theorem Before.along {slot : SyncSlot} : ∀ (sched : List Action) {s s' : State} {os : List Unit},
    Before slot s → run DecDep.step s sched = some (os, s') → (∀ c ∈ s'.calls, c.ret ≠ none) →
      (FiresOnce slot s' ↔ EachStep DecDep.step (fun s a => ¬ CatchesAnother s a) s sched) := by
  intro sched
  induction sched with
  | nil =>
    intro s s' os H hrun hret
    obtain ⟨-, rfl⟩ : [] = os ∧ s = s' := by simpa [run] using hrun
    -- a call that has not decremented has no result
    obtain ⟨c, hc, hpc⟩ := List.countP_pos_iff.mp H.left
    rcases H.early c hc with ⟨-, hr⟩ | ⟨hd, -⟩
    · exact absurd hr (hret c hc)
    · simp [hd] at hpc
  | cons a sched ih =>
    intro s s' os H hrun hret
    obtain ⟨o, s₁, os₁, hst, hrun, -⟩ := run_cons hrun
    rw [EachStep.cons_iff hst]
    rcases H.step hst with ⟨H', hn⟩ | ⟨⟨t, hS⟩, hn⟩ | ⟨hT, hcatch⟩
    · rw [ih H' hrun hret]
      exact ⟨fun h => ⟨hn, h⟩, fun h => h.2⟩
    · have hS' := run_inv (fun _ _ _ _ h hst => h.step hst) sched hS hrun
      exact ⟨fun _ => ⟨hn, EachStep.of_inv (fun _ _ _ _ h hst => h.step hst) (fun _ a h => h.not_catches a) sched _ hS⟩,
        fun _ => hS'.firesOnce hret⟩
    · have hT' := run_inv (fun _ _ _ _ h hst => h.step hst) sched hT hrun
      exact ⟨fun h => absurd h (hT'.not_firesOnce hret), fun h => absurd hcatch h.1⟩

/-- When every call has its result, exactly one got 0 and the slot's codelets are pushed
    once each, if and only if the decrement to 0 was made while no other call stood
    between its decrement and its read. -/
theorem firesOnce_iff (slot : SyncSlot) (queues : Word → CodeletsQueue) (callers : List Caller)
    (hn : callers.length = slot.currentDep.toNat) (hpos : 0 < callers.length) (sched : List Action) {os : List Unit}
    {s : State} (hrun : run step (start slot queues callers) sched = some (os, s)) (hret : ∀ c ∈ s.calls, c.ret ≠ none) :
    FiresOnce slot s ↔ EachStep step (fun s a => ¬ CatchesAnother s a) (start slot queues callers) sched :=
  (Before.init slot queues callers hn hpos).along sched hrun hret

/-! ## Two calls -/

/-- A slot that waits for two calls and fires one codelet, and a CU and an SU that call. -/
def twoSlot : SyncSlot := SyncSlot.initSyncSlot 0x808 0x5000 0 2 2 ⟨0, 0x80805000, 0x300⟩ 1 ⟨0, 0, 0, 0, ⟨0, 0, 0⟩, 0, 0, 0⟩

def twoCallers : List Caller := [.cu 0x809 0x4000, .su 0x80A 0x4000]

def freshQueues : Word → CodeletsQueue := fun queue => (initCodeletsQueue queue 200 ⟨0, 0, 0, 0, fun _ => 0⟩).2

instance (s : State) : ∀ a, Decidable (CatchesAnother s a)
  | .call t => decidable_of_iff ((s.calls[t]?.any (·.pc == .start)) = true ∧ s.slot.currentDep = 1 ∧
      ∃ c ∈ s.calls, c.pc = .decremented) (by simp [CatchesAnother, Option.any_eq_true])
  | .other _ => inferInstanceAs (Decidable False)

/-- One call after the other: the second one gets 0 and pushes the codelet. -/
theorem firesOnce_iff_two : ∃ os s, run step (start twoSlot freshQueues twoCallers)
    ([.call 0, .call 0] ++ List.replicate 5 (.call 1)) = some (os, s) ∧ FiresOnce twoSlot s := by
  have hrun : (run step (start twoSlot freshQueues twoCallers) ([.call 0, .call 0] ++ List.replicate 5 (.call 1))).map
      (fun r => r.2.calls.all (·.ret != none)) = some true := by decide +kernel
  obtain ⟨⟨os, s⟩, hrun, hret⟩ := Option.map_eq_some_iff.mp hrun
  refine ⟨os, s, hrun, (firesOnce_iff twoSlot freshQueues twoCallers (by decide) (by decide) _ hrun ?_).mpr (by decide +kernel)⟩
  simpa using hret

/-- Two decrements, then two reads: both calls get 0. -/
theorem two_calls_get_zero :
    ¬ ∀ (slot : SyncSlot) (queues : Word → CodeletsQueue) (callers : List Caller),
      callers.length = slot.currentDep.toNat → 0 < callers.length → ∀ (sched : List Action) (os : List Unit) (s : State),
        run step (start slot queues callers) sched = some (os, s) → (∀ c ∈ s.calls, c.ret ≠ none) → FiresOnce slot s := by
  intro hall
  have hrun : (run step (start twoSlot freshQueues twoCallers) [.call 0, .call 1, .call 0, .call 1]).map
      (fun r => r.2.calls.map (·.ret)) = some [some 0, some 0] := by decide +kernel
  obtain ⟨⟨os, s⟩, hrun, hrets⟩ := Option.map_eq_some_iff.mp hrun
  have hgot : ∀ t, t < 2 → GotZero s t := fun t ht => by
    have h := congrArg (·[t]?) hrets
    simp only [List.getElem?_map] at h
    obtain ⟨c, hc, hr⟩ := Option.map_eq_some_iff.mp (h.trans (show _ = some (some 0) by
      rcases t with _ | _ | t
      · rfl
      · rfl
      · omega))
    exact ⟨c, hc, hr⟩
  have hret : ∀ c ∈ s.calls, c.ret ≠ none := fun c hc => by
    have := List.mem_map_of_mem (f := (·.ret)) hc
    rw [hrets] at this
    simp at this
    simp [this]
  obtain ⟨t, -, ht⟩ := (hall twoSlot freshQueues twoCallers (by decide) (by decide) _ os s hrun hret).one
  have h0 := ht 0 (hgot 0 (by decide))
  have h1 := ht 1 (hgot 1 (by decide))
  omega

end EDarts.Runtime.DecDep
