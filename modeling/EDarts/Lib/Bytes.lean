/-
  EDarts.Lib.Bytes — a flat memory addressed by machine words, and the bytes of
  numbers.

  A memory gives every word address a cell. `storeBytes` is one block copy to an
  address, `block` reads consecutive cells from an address given as a number, and the
  lemmas say what a copy does to a block: the block it wrote reads back as the copied
  list, a cell beside it is as before. `toLE`/`ofLE` are a number's little-endian
  bytes and the number a list of bytes spells; `Endian.toBytes`/`Endian.ofBytes` are the
  same in a given byte order.
-/

import Mathlib.Algebra.Order.Ring.Nat

namespace EDarts.Lib

abbrev Mem (w : Nat) (β : Type) := BitVec w → β

variable {w : Nat} {β : Type}

def store (m : Mem w β) (a : BitVec w) (b : β) : Mem w β := fun x => if x = a then b else m x

/-- A block copy: cell `a + i` becomes `bs[i]`. -/
def storeBytes (m : Mem w β) (a : BitVec w) (bs : List β) : Mem w β := fun x => bs.getD (x - a).toNat (m x)

/-- The `n` cells from address `a` on. -/
def block (m : Mem w β) (a n : Nat) : List β := (List.range n).map fun i => m (BitVec.ofNat w (a + i))

@[simp] theorem store_same (m : Mem w β) (a : BitVec w) (b : β) : store m a b a = b := by simp [store]
@[simp] theorem store_ne (m : Mem w β) {a x : BitVec w} (b : β) (h : x ≠ a) : store m a b x = m x := by
  simp [store, h]

@[simp] theorem block_length (m : Mem w β) (a n : Nat) : (block m a n).length = n := by simp [block]

@[simp] theorem block_getElem (m : Mem w β) (a n i : Nat) (h : i < (block m a n).length) :
    (block m a n)[i] = m (BitVec.ofNat w (a + i)) := by simp [block]

theorem block_congr {m m' : Mem w β} {a n : Nat}
    (h : ∀ k, a ≤ k → k < a + n → m (BitVec.ofNat w k) = m' (BitVec.ofNat w k)) : block m a n = block m' a n := by
  refine List.map_congr_left fun i hi => h _ (by omega) ?_
  have := List.mem_range.mp hi
  omega

theorem block_append (m : Mem w β) (a n k : Nat) : block m a (n + k) = block m a n ++ block m (a + n) k := by
  simp [block, List.range_add, Nat.add_assoc]

theorem block_take (m : Mem w β) (a : Nat) {n k : Nat} (h : k ≤ n) : (block m a n).take k = block m a k := by
  obtain ⟨r, rfl⟩ := Nat.exists_eq_add_of_le h
  rw [block_append, List.take_left' (block_length m a k)]

theorem block_drop (m : Mem w β) (a : Nat) {n k : Nat} (h : k ≤ n) :
    (block m a n).drop k = block m (a + k) (n - k) := by
  obtain ⟨r, rfl⟩ := Nat.exists_eq_add_of_le h
  rw [block_append, List.drop_left' (block_length m a k), Nat.add_sub_cancel_left]

/-! ## What a copy does to the cells -/

/-- The distance from `a` to cell `k`, when neither wraps. -/
theorem toNat_ofNat_sub {a : BitVec w} {k : Nat} (hk : k < 2 ^ w) (h : a.toNat ≤ k) :
    (BitVec.ofNat w k - a).toNat = k - a.toNat := by
  have hk' : (BitVec.ofNat w k).toNat = k := by rw [BitVec.toNat_ofNat, Nat.mod_eq_of_lt hk]
  have hle : a ≤ BitVec.ofNat w k := by rw [BitVec.le_def, hk']; exact h
  rw [BitVec.toNat_sub_of_le hle, hk']

/-- A cell below `a` is at least `2 ^ w - a` cells past it. -/
theorem toNat_ofNat_sub_lt {a : BitVec w} {k : Nat} (h : k < a.toNat) :
    (BitVec.ofNat w k - a).toNat = 2 ^ w - (a.toNat - k) := by
  have hk : k < 2 ^ w := Nat.lt_trans h a.isLt
  have hk' : (BitVec.ofNat w k).toNat = k := by rw [BitVec.toNat_ofNat, Nat.mod_eq_of_lt hk]
  have hlt : BitVec.ofNat w k < a := by rw [BitVec.lt_def, hk']; exact h
  rw [BitVec.toNat_sub_of_lt hlt, hk']

theorem storeBytes_in (m : Mem w β) {a : BitVec w} {bs : List β} {k : Nat} (hk : k < 2 ^ w) (h : a.toNat ≤ k)
    (hl : k - a.toNat < bs.length) : storeBytes m a bs (BitVec.ofNat w k) = bs[k - a.toNat] := by
  simp only [storeBytes, toNat_ofNat_sub hk h, List.getD_eq_getElem?_getD, List.getElem?_eq_getElem hl,
    Option.getD_some]

theorem storeBytes_out (m : Mem w β) {a : BitVec w} {bs : List β} {k : Nat} (hk : k < 2 ^ w)
    (ha : a.toNat + bs.length ≤ 2 ^ w) (h : k < a.toNat ∨ a.toNat + bs.length ≤ k) :
    storeBytes m a bs (BitVec.ofNat w k) = m (BitVec.ofNat w k) := by
  have hlen : bs.length ≤ (BitVec.ofNat w k - a).toNat := by
    rcases h with h | h
    · rw [toNat_ofNat_sub_lt h]; omega
    · rw [toNat_ofNat_sub hk (by omega)]; omega
  simp only [storeBytes, List.getD_eq_getElem?_getD, List.getElem?_eq_none hlen, Option.getD_none]

/-- What was copied reads back. -/
theorem block_storeBytes (m : Mem w β) {a : BitVec w} {bs : List β} (ha : a.toNat + bs.length ≤ 2 ^ w) :
    block (storeBytes m a bs) a.toNat bs.length = bs := by
  apply List.ext_getElem (block_length _ _ _)
  intro i h1 h2
  rw [block_getElem, storeBytes_in m (by omega) (by omega) (by omega)]
  simp

@[simp] theorem storeBytes_nil (m : Mem w β) (a : BitVec w) : storeBytes m a [] = m := rfl

/-- One byte more of a copy. -/
theorem store_storeBytes_take (m : Mem w β) (a : BitVec w) {bs : List β} {i : Nat} {b : β} (hi : i < 2 ^ w)
    (h : bs[i]? = some b) :
    store (storeBytes m a (bs.take i)) (a + BitVec.ofNat w i) b = storeBytes m a (bs.take (i + 1)) := by
  have hi' : (BitVec.ofNat w i).toNat = i := by rw [BitVec.toNat_ofNat, Nat.mod_eq_of_lt hi]
  funext x
  by_cases hx : x = a + BitVec.ofNat w i
  · subst hx
    have hsub : a + BitVec.ofNat w i - a = BitVec.ofNat w i := by rw [BitVec.add_comm, BitVec.add_sub_cancel]
    simp only [store, if_true, storeBytes, hsub, hi', List.getD_eq_getElem?_getD, List.getElem?_take,
      Nat.lt_succ_self, h, Option.getD_some]
  · have hne : (x - a).toNat ≠ i := by
      intro e
      apply hx
      rw [← BitVec.sub_add_cancel x a, BitVec.add_comm]
      congr 1
      rw [← BitVec.toNat_inj, e, hi']
    have hlt : (x - a).toNat < i ↔ (x - a).toNat < i + 1 := by omega
    simp only [store, if_neg hx, storeBytes, List.getD_eq_getElem?_getD, List.getElem?_take, hlt]

/-! ## Little-endian numbers -/

def toLE : Nat → Nat → List (BitVec 8)
  | 0, _ => []
  | k + 1, x => BitVec.ofNat 8 x :: toLE k (x / 256)

def ofLE : List (BitVec 8) → Nat
  | [] => 0
  | b :: bs => b.toNat + 256 * ofLE bs

@[simp] theorem toLE_length (k x : Nat) : (toLE k x).length = k := by
  induction k generalizing x with
  | zero => rfl
  | succ k ih => simp [toLE, ih]

theorem ofLE_toLE (k x : Nat) : ofLE (toLE k x) = x % 256 ^ k := by
  induction k generalizing x with
  | zero => simp [toLE, ofLE, Nat.mod_one]
  | succ k ih =>
    have hp : 256 ^ (k + 1) = 256 * 256 ^ k := by rw [Nat.pow_succ, Nat.mul_comm]
    simp only [toLE, ofLE, ih, BitVec.toNat_ofNat]
    rw [hp, Nat.mod_mul]

theorem ofLE_lt (bs : List (BitVec 8)) : ofLE bs < 256 ^ bs.length := by
  induction bs with
  | nil => simp [ofLE]
  | cons b bs ih =>
    have hb := b.isLt
    simp only [ofLE, List.length_cons, Nat.pow_succ]
    omega

theorem toLE_ofLE (bs : List (BitVec 8)) : toLE bs.length (ofLE bs) = bs := by
  induction bs with
  | nil => rfl
  | cons b bs ih =>
    have hb := b.isLt
    have hdiv : (b.toNat + 256 * ofLE bs) / 256 = ofLE bs := by omega
    have hmod : BitVec.ofNat 8 (b.toNat + 256 * ofLE bs) = b := by
      apply BitVec.eq_of_toNat_eq
      rw [BitVec.toNat_ofNat]; omega
    simp only [List.length_cons, toLE, ofLE, hdiv, hmod, ih]

/-! ## Either byte order -/

inductive Endian where
  | little
  | big
  deriving DecidableEq

def Endian.toBytes : Endian → Nat → Nat → List (BitVec 8)
  | .little, k, x => toLE k x
  | .big, k, x => (toLE k x).reverse

def Endian.ofBytes : Endian → List (BitVec 8) → Nat
  | .little, bs => ofLE bs
  | .big, bs => ofLE bs.reverse

@[simp] theorem Endian.toBytes_length (e : Endian) (k x : Nat) : (e.toBytes k x).length = k := by
  cases e <;> simp [toBytes]

theorem Endian.ofBytes_toBytes (e : Endian) (k x : Nat) : e.ofBytes (e.toBytes k x) = x % 256 ^ k := by
  cases e with
  | little => exact ofLE_toLE k x
  | big => rw [toBytes, ofBytes, List.reverse_reverse, ofLE_toLE]

theorem Endian.toBytes_ofBytes (e : Endian) {k : Nat} {bs : List (BitVec 8)} (h : bs.length = k) :
    e.toBytes k (e.ofBytes bs) = bs := by
  subst h
  cases e with
  | little => exact toLE_ofLE bs
  | big =>
    have hrev := toLE_ofLE bs.reverse
    rw [List.length_reverse] at hrev
    rw [toBytes, ofBytes, hrev, List.reverse_reverse]

theorem Endian.ofBytes_lt (e : Endian) (bs : List (BitVec 8)) : e.ofBytes bs < 256 ^ bs.length := by
  cases e with
  | little => exact ofLE_lt bs
  | big => rw [ofBytes, ← List.length_reverse]; exact ofLE_lt bs.reverse

end EDarts.Lib
