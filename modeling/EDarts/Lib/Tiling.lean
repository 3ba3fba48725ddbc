/-
  EDarts.Lib.Tiling — records of different lengths laid end to end in memory.

  `Tiles enc m a xs b`: the cells from `a` to `b` are the records `xs`, one behind the
  other, each written as `enc` writes it. Tilings join (`Tiles.append`) and come apart
  (`Tiles.split`), a record behind the last one extends a tiling (`Tiles.snoc`), also by a
  copy to its end (`Tiles.storeBytes_snoc`), a copy beside one leaves it alone
  (`Tiles.storeBytes`), and a copy over one of its records replaces that one
  (`Tiles.replace`).
-/

import EDarts.Lib.Bytes

namespace EDarts.Lib

variable {w : Nat} {α β : Type} {enc : α → List β}

def Tiles (enc : α → List β) (m : Mem w β) : Nat → List α → Nat → Prop
  | a, [], b => a = b
  | a, x :: xs, b => block m a (enc x).length = enc x ∧ Tiles enc m (a + (enc x).length) xs b

theorem Tiles.le {m : Mem w β} : ∀ {xs : List α} {a b : Nat}, Tiles enc m a xs b → a ≤ b
  | [], _, _, h => Nat.le_of_eq h
  | x :: _, _, _, h => Nat.le_trans (Nat.le_add_right _ (enc x).length) (Tiles.le h.2)

theorem Tiles.append {m : Mem w β} : ∀ {xs ys : List α} {a b c : Nat}, Tiles enc m a xs b → Tiles enc m b ys c →
    Tiles enc m a (xs ++ ys) c
  | [], _, _, _, _, h, h' => by cases h; exact h'
  | _ :: _, _, _, _, _, h, h' => ⟨h.1, h.2.append h'⟩

theorem Tiles.split {m : Mem w β} : ∀ {xs ys : List α} {a c : Nat}, Tiles enc m a (xs ++ ys) c →
    ∃ b, Tiles enc m a xs b ∧ Tiles enc m b ys c
  | [], _, a, _, h => ⟨a, rfl, h⟩
  | _ :: _, _, _, _, h => by
    obtain ⟨b, hxs, hys⟩ := h.2.split
    exact ⟨b, ⟨h.1, hxs⟩, hys⟩

/-- Where a tiling ends. -/
theorem Tiles.end_sum {m : Mem w β} : ∀ {xs : List α} {a b : Nat}, Tiles enc m a xs b →
    b = a + (xs.map fun x => (enc x).length).sum
  | [], _, _, h => h.symm
  | x :: xs, a, _, h => by
    rw [Tiles.end_sum h.2, List.map_cons, List.sum_cons, Nat.add_assoc]

/-- Records of one length. -/
theorem Tiles.end_eq {m : Mem w β} {k : Nat} (hk : ∀ x, (enc x).length = k) :
    ∀ {xs : List α} {a b : Nat}, Tiles enc m a xs b → b = a + k * xs.length
  | [], _, _, h => h.symm
  | x :: xs, _, _, h => by
    have hend := Tiles.end_eq hk h.2
    rw [hk] at hend
    rw [hend, List.length_cons, Nat.mul_succ]
    omega

theorem Tiles.snoc {m : Mem w β} {xs : List α} {a b : Nat} (h : Tiles enc m a xs b) {x : α}
    (hx : block m b (enc x).length = enc x) : Tiles enc m a (xs ++ [x]) (b + (enc x).length) :=
  h.append ⟨hx, rfl⟩

/-- A tiling is a matter of the cells it covers. -/
theorem Tiles.congr {m m' : Mem w β} : ∀ {xs : List α} {a b : Nat}, Tiles enc m a xs b →
    (∀ k, a ≤ k → k < b → m (BitVec.ofNat w k) = m' (BitVec.ofNat w k)) → Tiles enc m' a xs b
  | [], _, _, h, _ => h
  | x :: _, a, b, h, he => by
    have hle := Tiles.le h.2
    refine ⟨?_, Tiles.congr h.2 fun k hk hb => he k (by omega) hb⟩
    rw [← block_congr fun k hk hb => he k hk (by omega)]
    exact h.1

theorem Tiles.storeBytes {m : Mem w β} {xs : List α} {a b : Nat} (h : Tiles enc m a xs b) {p : BitVec w} {bs : List β}
    (hb : b ≤ 2 ^ w) (hp : p.toNat + bs.length ≤ 2 ^ w) (hd : b ≤ p.toNat ∨ p.toNat + bs.length ≤ a) :
    Tiles enc (storeBytes m p bs) a xs b :=
  h.congr fun _ _ _ => (storeBytes_out m (by omega) hp (by omega)).symm

/-- A record copied over another one of its length. -/
theorem Tiles.replace {m : Mem w β} {xs ys : List α} {x x' : α} {a b : Nat} {p : BitVec w}
    (hxs : Tiles enc m a xs p.toNat) (hys : Tiles enc m p.toNat (x :: ys) b) (hlen : (enc x').length = (enc x).length)
    (hb : b ≤ 2 ^ w) : Tiles enc (Lib.storeBytes m p (enc x')) a (xs ++ x' :: ys) b := by
  have hle := Tiles.le hys.2
  have hp : p.toNat + (enc x').length ≤ 2 ^ w := by omega
  refine (hxs.storeBytes (by omega) hp (Or.inl (Nat.le_refl _))).append ⟨block_storeBytes m hp, ?_⟩
  rw [hlen]
  exact Tiles.storeBytes hys.2 hb hp (Or.inr (by omega))

/-- A record copied to the end of a tiling extends it. -/
theorem Tiles.storeBytes_snoc {m : Mem w β} {xs : List α} {a : Nat} {p : BitVec w} (h : Tiles enc m a xs p.toNat) (x : α)
    (hp : p.toNat + (enc x).length ≤ 2 ^ w) :
    Tiles enc (Lib.storeBytes m p (enc x)) a (xs ++ [x]) (p.toNat + (enc x).length) :=
  (h.storeBytes (by omega) hp (Or.inl (Nat.le_refl _))).snoc (block_storeBytes m hp)

/-- Records that take room leave none for an empty tiling only. -/
theorem Tiles.eq_nil {m : Mem w β} (pos : ∀ x, 0 < (enc x).length) {xs : List α} {a : Nat} (h : Tiles enc m a xs a) :
    xs = [] := by
  cases xs with
  | nil => rfl
  | cons x xs =>
    have := Tiles.le h.2
    have := pos x
    omega

theorem Tiles.lt {m : Mem w β} (pos : ∀ x, 0 < (enc x).length) {xs : List α} {a b : Nat} (h : Tiles enc m a xs b)
    (hne : xs ≠ []) : a < b := by
  rcases Nat.lt_or_eq_of_le h.le with hlt | rfl
  · exact hlt
  · exact absurd (h.eq_nil pos) hne

end EDarts.Lib
