/-
  EDarts.Lib.Ring — a ring of `N` memory cells from address `base` on.

  Position `k` of the ring is cell `base + k % N`. `ringStore` writes a list from a
  position on, cell by cell; `ringLoad` reads one. The ring holds a list from position
  `h` when it reads back there: storing behind the list appends to it
  (`RingHolds.append`), and reading off its front leaves the rest (`RingHolds.split`).
  A store that does not pass the end of the ring is a block copy
  (`ringStore_eq_storeBytes`), and a pointer that is reset to the base when it meets
  the end walks the positions in order (`ringAddr_succ`).
-/

import EDarts.Lib.Bytes

namespace EDarts.Lib

variable {w : Nat} {β : Type}

def ringAddr (w base N k : Nat) : BitVec w := BitVec.ofNat w (base + k % N)

def ringStore (base N : Nat) : Mem w β → Nat → List β → Mem w β
  | m, _, [] => m
  | m, t, b :: bs => ringStore base N (store m (ringAddr w base N t) b) (t + 1) bs

def ringLoad (base N : Nat) (m : Mem w β) (h n : Nat) : List β := (List.range n).map fun i => m (ringAddr w base N (h + i))

def RingHolds (base N : Nat) (m : Mem w β) (h : Nat) (bs : List β) : Prop := ringLoad base N m h bs.length = bs

@[simp] theorem ringLoad_length (base N : Nat) (m : Mem w β) (h n : Nat) : (ringLoad base N m h n).length = n := by
  simp [ringLoad]

theorem ringLoad_add (base N : Nat) (m : Mem w β) (h n k : Nat) :
    ringLoad base N m h (n + k) = ringLoad base N m h n ++ ringLoad base N m (h + n) k := by
  simp [ringLoad, List.range_add, Nat.add_assoc]

/-- Where less than one turn ahead of `h` lies. -/
theorem add_mod_of_lt {h u N : Nat} (hu : u < N) :
    (h + u) % N = if h % N + u < N then h % N + u else h % N + u - N := by
  have hlt := Nat.mod_lt h (Nat.zero_lt_of_lt hu)
  rw [← Nat.mod_add_mod]
  split
  · exact Nat.mod_eq_of_lt ‹_›
  · rw [Nat.mod_eq_sub_mod (by omega), Nat.mod_eq_of_lt (by omega)]

section Sized

variable {base N : Nat}

theorem toNat_ringAddr (hN : 0 < N) (hb : base + N ≤ 2 ^ w) (k : Nat) :
    (ringAddr w base N k).toNat = base + k % N := by
  have := Nat.mod_lt k hN
  rw [ringAddr, BitVec.toNat_ofNat, Nat.mod_eq_of_lt (by omega)]

/-- Two positions are one cell only when they agree modulo the size. -/
theorem ringAddr_inj (hN : 0 < N) (hb : base + N ≤ 2 ^ w) {j k : Nat} :
    ringAddr w base N j = ringAddr w base N k ↔ j % N = k % N := by
  constructor
  · intro h
    have := congrArg BitVec.toNat h
    rw [toNat_ringAddr hN hb, toNat_ringAddr hN hb] at this
    omega
  · intro h; simp [ringAddr, h]

/-- Positions less than one turn apart are different cells. -/
theorem mod_ne_of_lt {t j : Nat} (h : j < N) (h0 : 0 < j) : (t + j) % N ≠ t % N := by
  intro e
  have hd := Nat.sub_mod_eq_zero_of_mod_eq e
  rw [Nat.add_sub_cancel_left, Nat.mod_eq_of_lt h] at hd
  omega

theorem ringAddr_ne (hN : 0 < N) (hb : base + N ≤ 2 ^ w) {t i j : Nat} (hij : i < j) (h : j < i + N) :
    ringAddr w base N (t + j) ≠ ringAddr w base N (t + i) := by
  intro e
  have e := (ringAddr_inj hN hb).mp e
  obtain ⟨d, rfl⟩ := Nat.exists_eq_add_of_lt hij
  rw [show t + (i + d + 1) = t + i + (d + 1) by omega] at e
  exact mod_ne_of_lt (by omega) (by omega) e

/-- A cell at no stored position is as it was. -/
theorem ringStore_out (base N : Nat) : ∀ (bs : List β) (m : Mem w β) (t : Nat) (x : BitVec w),
    (∀ i < bs.length, x ≠ ringAddr w base N (t + i)) → ringStore base N m t bs x = m x := by
  intro bs
  induction bs with
  | nil => intro m t x _; rfl
  | cons b bs ih =>
    intro m t x h
    have h0 : x ≠ ringAddr w base N t := by simpa using h 0 (by simp)
    rw [ringStore, ih _ _ _ fun i hi => ?_, store_ne m b h0]
    rw [show t + 1 + i = t + (i + 1) by omega]
    exact h (i + 1) (by simpa using hi)

theorem ringStore_in (hN : 0 < N) (hb : base + N ≤ 2 ^ w) : ∀ (bs : List β) (m : Mem w β) (t i : Nat),
    bs.length ≤ N → (hi : i < bs.length) → ringStore base N m t bs (ringAddr w base N (t + i)) = bs[i] := by
  intro bs
  induction bs with
  | nil => intro m t i _ hi; simp at hi
  | cons b bs ih =>
    intro m t i hl hi
    simp only [List.length_cons] at hl hi
    cases i with
    | zero =>
      rw [ringStore, ringStore_out base N bs _ _ _ fun i hi' => ?_]
      · simp
      · rw [show t + 1 + i = t + (i + 1) by omega]
        exact (ringAddr_ne hN hb (by omega) (by omega)).symm
    | succ i =>
      rw [ringStore, show t + (i + 1) = t + 1 + i by omega]
      simpa using ih _ (t + 1) i (by omega) (by omega)

theorem ringLoad_ringStore (hN : 0 < N) (hb : base + N ≤ 2 ^ w) (m : Mem w β) (t : Nat) (bs : List β)
    (hl : bs.length ≤ N) : ringLoad base N (ringStore base N m t bs) t bs.length = bs := by
  apply List.ext_getElem (ringLoad_length _ _ _ _ _)
  intro i h1 h2
  simp only [ringLoad, List.getElem_map, List.getElem_range]
  exact ringStore_in hN hb bs m t i hl h2

theorem RingHolds.append (hN : 0 < N) (hb : base + N ≤ 2 ^ w) {m : Mem w β} {h : Nat} {bs new : List β}
    (hold : RingHolds base N m h bs) (hl : bs.length + new.length ≤ N) :
    RingHolds base N (ringStore base N m (h + bs.length) new) h (bs ++ new) := by
  have hfront : ringLoad base N (ringStore base N m (h + bs.length) new) h bs.length = ringLoad base N m h bs.length := by
    refine List.map_congr_left fun i hi => ringStore_out base N new m _ _ fun j hj => ?_
    have hi := List.mem_range.mp hi
    rw [Nat.add_assoc]
    exact (ringAddr_ne hN hb (by omega) (by omega)).symm
  unfold RingHolds at hold ⊢
  rw [List.length_append, ringLoad_add, hfront, hold, ringLoad_ringStore hN hb m _ new (by omega)]

theorem RingHolds.split {m : Mem w β} {h : Nat} (front bs : List β) (hold : RingHolds base N m h (front ++ bs)) :
    ringLoad base N m h front.length = front ∧ RingHolds base N m (h + front.length) bs := by
  unfold RingHolds at hold ⊢
  rw [List.length_append, ringLoad_add] at hold
  exact List.append_inj hold (ringLoad_length _ _ _ _ _)

/-! ## The pointer walk and the block copy -/

theorem toNat_succ {a : BitVec w} (h : a.toNat + 1 < 2 ^ w) : (a + 1).toNat = a.toNat + 1 := by
  have h1 : (1 : BitVec w).toNat = 1 := by
    have : 1 % 2 ^ w = 1 := Nat.mod_eq_of_lt (by omega)
    simpa using this
  rw [BitVec.toNat_add, h1, Nat.mod_eq_of_lt h]

theorem storeBytes_cons (m : Mem w β) {a : BitVec w} (b : β) (bs : List β) (h : a.toNat + bs.length + 1 < 2 ^ w) :
    storeBytes m a (b :: bs) = storeBytes (store m a b) (a + 1) bs := by
  have ha := toNat_succ (a := a) (by omega)
  funext x
  obtain ⟨k, hk, rfl⟩ : ∃ k, k < 2 ^ w ∧ x = BitVec.ofNat w k := ⟨x.toNat, x.isLt, by simp⟩
  by_cases hin : a.toNat ≤ k ∧ k < a.toNat + bs.length + 1
  · rw [storeBytes_in m hk hin.1 (by simp only [List.length_cons]; omega)]
    by_cases e : k = a.toNat
    · subst e
      rw [storeBytes_out _ hk (by omega) (by omega)]
      simp
    · rw [storeBytes_in _ hk (by omega) (by omega)]
      simp only [ha, show k - a.toNat = k - (a.toNat + 1) + 1 by omega, List.getElem_cons_succ]
  · have hne : BitVec.ofNat w k ≠ a := by
      intro e
      have := congrArg BitVec.toNat e
      rw [BitVec.toNat_ofNat, Nat.mod_eq_of_lt hk] at this
      omega
    rw [storeBytes_out m hk (by simp only [List.length_cons]; omega) (by simp only [List.length_cons]; omega),
      storeBytes_out _ hk (by omega) (by omega), store_ne m b hne]

theorem succ_mod (t N : Nat) : (t + 1) % N = (t % N + 1) % N := by
  simp

/-- The pointer behind position `t`, reset to the base at the end of the ring, is
    position `t + 1`. -/
theorem ringAddr_succ (hN : 0 < N) (hb : base + N < 2 ^ w) (t : Nat) :
    (if ringAddr w base N t + 1 = BitVec.ofNat w (base + N) then BitVec.ofNat w base else ringAddr w base N t + 1)
      = ringAddr w base N (t + 1) := by
  have hlt := Nat.mod_lt t hN
  have hpos := toNat_ringAddr hN (Nat.le_of_lt hb) t
  have hadd := toNat_succ (a := ringAddr w base N t) (by omega)
  have hend : ringAddr w base N t + 1 = BitVec.ofNat w (base + N) ↔ t % N + 1 = N := by
    rw [← BitVec.toNat_inj, hadd, hpos, BitVec.toNat_ofNat, Nat.mod_eq_of_lt hb]
    omega
  by_cases e : t % N + 1 = N
  · rw [if_pos (hend.mpr e), ringAddr, succ_mod, e, Nat.mod_self]
    rfl
  · rw [if_neg (fun h => e (hend.mp h)), ← BitVec.toNat_inj, hadd, hpos, toNat_ringAddr hN (Nat.le_of_lt hb), succ_mod,
      Nat.mod_eq_of_lt (show t % N + 1 < N by omega), Nat.add_assoc]

/-- A store that ends before the end of the ring is one block copy. -/
theorem ringStore_eq_storeBytes (hN : 0 < N) (hb : base + N < 2 ^ w) : ∀ (bs : List β) (m : Mem w β) (t : Nat),
    t % N + bs.length < N → ringStore base N m t bs = storeBytes m (ringAddr w base N t) bs := by
  intro bs
  induction bs with
  | nil => intro m t _; funext x; simp [ringStore, storeBytes]
  | cons b bs ih =>
    intro m t h
    simp only [List.length_cons] at h
    have hnext : (t + 1) % N = t % N + 1 := by rw [succ_mod, Nat.mod_eq_of_lt (by omega)]
    have hpos := toNat_ringAddr hN (Nat.le_of_lt hb) t
    have haddr : ringAddr w base N (t + 1) = ringAddr w base N t + 1 := by
      rw [← BitVec.toNat_inj, toNat_succ (by omega), hpos, toNat_ringAddr hN (Nat.le_of_lt hb), hnext, Nat.add_assoc]
    rw [ringStore, ih _ _ (by omega), storeBytes_cons m b bs (by omega), haddr]

/-- A load that ends before the end of the ring reads one block. -/
theorem block_eq_ringLoad (hN : 0 < N) (hb : base + N ≤ 2 ^ w) (m : Mem w β) {h n : Nat} (hn : h % N + n ≤ N) :
    block m (ringAddr w base N h).toNat n = ringLoad base N m h n := by
  apply List.map_congr_left
  intro i hi
  have hi := List.mem_range.mp hi
  rw [toNat_ringAddr hN hb, ringAddr, add_mod_of_lt (by omega), if_pos (by omega), Nat.add_assoc]

end Sized

end EDarts.Lib
