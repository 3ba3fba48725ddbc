/-
  EDarts.Lib.Blocks — blocks that lie in order in an interval, and first fit.

  `Laid lo hi a xs b`: between `a` and `b` lie the blocks `xs`, in order and apart, each
  from its `lo` to its `hi`. Blocks can be taken out of it (`Laid.sublist`) and put into a
  gap (`Laid.insert`). `firstGap` walks from `a` to the first gap of a size.

  - `firstGap_some`: it finds a gap, at `a` or right behind a block.
  - `firstGap_isSome_iff`: and it finds one whenever there is room for the size anywhere
    beside the blocks.
-/

import Mathlib.Data.List.Basic
import Mathlib.Order.Basic

namespace EDarts.Lib

variable {α : Type} {lo hi : α → Nat}

def Laid (lo hi : α → Nat) : Nat → List α → Nat → Prop
  | a, [], b => a ≤ b
  | a, x :: xs, b => a ≤ lo x ∧ lo x ≤ hi x ∧ Laid lo hi (hi x) xs b

/-- Where the first gap of `size` begins. -/
def firstGap (lo hi : α → Nat) (size : Nat) : Nat → List α → Nat → Option Nat
  | a, [], b => if a + size ≤ b then some a else none
  | a, x :: xs, b => if a + size ≤ lo x then some a else firstGap lo hi size (hi x) xs b

theorem Laid.le : ∀ {xs : List α} {a b : Nat}, Laid lo hi a xs b → a ≤ b
  | [], _, _, h => h
  | _ :: _, _, _, h => Nat.le_trans h.1 (Nat.le_trans h.2.1 (Laid.le h.2.2))

/-- Room before the first block or behind the last one does no harm. -/
theorem Laid.mono : ∀ {xs : List α} {a a' b b' : Nat}, Laid lo hi a xs b → a' ≤ a → b ≤ b' → Laid lo hi a' xs b'
  | [], _, _, _, _, h, ha, hb => Nat.le_trans ha (Nat.le_trans h hb)
  | _ :: _, _, _, _, _, h, ha, hb => ⟨Nat.le_trans ha h.1, h.2.1, h.2.2.mono (Nat.le_refl _) hb⟩

theorem Laid.append : ∀ {xs ys : List α} {a b c : Nat}, Laid lo hi a xs b → Laid lo hi b ys c →
    Laid lo hi a (xs ++ ys) c
  | [], _, _, _, _, h, h' => h'.mono h (Nat.le_refl _)
  | _ :: _, _, _, _, _, h, h' => ⟨h.1, h.2.1, h.2.2.append h'⟩

theorem Laid.split : ∀ {xs ys : List α} {a c : Nat}, Laid lo hi a (xs ++ ys) c →
    ∃ b, Laid lo hi a xs b ∧ Laid lo hi b ys c
  | [], _, a, _, h => ⟨a, Nat.le_refl a, h⟩
  | _ :: _, _, _, _, h => by
    obtain ⟨b, hxs, hys⟩ := h.2.2.split
    exact ⟨b, ⟨h.1, h.2.1, hxs⟩, hys⟩

/-- A block in a gap. -/
theorem Laid.insert {xs ys : List α} {x : α} {a b : Nat} (hxs : Laid lo hi a xs (lo x)) (hx : lo x ≤ hi x)
    (hys : Laid lo hi (hi x) ys b) : Laid lo hi a (xs ++ x :: ys) b :=
  hxs.append ⟨Nat.le_refl _, hx, hys⟩

/-- Another block in the same place. -/
theorem Laid.replace {xs ys : List α} {x x' : α} {a b : Nat} (h : Laid lo hi a (xs ++ x :: ys) b) (hlo : lo x' = lo x)
    (hhi : hi x' = hi x) : Laid lo hi a (xs ++ x' :: ys) b := by
  obtain ⟨c, hxs, hx, hle, hys⟩ := h.split
  refine hxs.append ⟨?_, ?_, ?_⟩
  · rwa [hlo]
  · rwa [hlo, hhi]
  · rwa [hhi]

theorem Laid.sublist {xs ys : List α} (h : xs.Sublist ys) : ∀ {a b : Nat}, Laid lo hi a ys b → Laid lo hi a xs b := by
  induction h with
  | slnil => intro a b h; exact h
  | cons y _ ih => intro a b h; exact (ih h.2.2).mono (Nat.le_trans h.1 h.2.1) (Nat.le_refl _)
  | cons_cons y _ ih => intro a b h; exact ⟨h.1, h.2.1, ih h.2.2⟩

theorem Laid.bounds {xs : List α} {x : α} (hx : x ∈ xs) : ∀ {a b : Nat}, Laid lo hi a xs b →
    a ≤ lo x ∧ lo x ≤ hi x ∧ hi x ≤ b := by
  induction xs with
  | nil => cases hx
  | cons y ys ih =>
    intro a b h
    rcases List.mem_cons.mp hx with rfl | hx
    · exact ⟨h.1, h.2.1, h.2.2.le⟩
    · obtain ⟨hlo, hle, hhi⟩ := ih hx h.2.2
      exact ⟨Nat.le_trans h.1 (Nat.le_trans h.2.1 hlo), hle, hhi⟩

/-! ## First fit -/

theorem firstGap_some {size : Nat} : ∀ {xs : List α} {a b d : Nat}, Laid lo hi a xs b →
    firstGap lo hi size a xs b = some d →
    ∃ ys zs, xs = ys ++ zs ∧ Laid lo hi a ys d ∧ Laid lo hi (d + size) zs b ∧ (d = a ∨ ∃ y ∈ ys, d = hi y) := by
  intro xs
  induction xs with
  | nil =>
    intro a b d _ hd
    rw [firstGap] at hd
    split at hd
    · cases hd
      exact ⟨[], [], rfl, Nat.le_refl a, ‹_›, .inl rfl⟩
    · cases hd
  | cons x xs ih =>
    intro a b d h hd
    rw [firstGap] at hd
    split at hd
    · cases hd
      exact ⟨[], x :: xs, rfl, Nat.le_refl a, ⟨‹_›, h.2⟩, .inl rfl⟩
    · obtain ⟨ys, zs, rfl, hys, hzs, hwhere⟩ := ih h.2.2 hd
      refine ⟨x :: ys, zs, rfl, ⟨h.1, h.2.1, hys⟩, hzs, .inr ?_⟩
      rcases hwhere with rfl | ⟨y, hy, rfl⟩
      · exact ⟨x, List.mem_cons_self, rfl⟩
      · exact ⟨y, List.mem_cons_of_mem x hy, rfl⟩

/-- First fit fails only when no place in the interval is beside all blocks. -/
theorem firstGap_isSome_iff {size : Nat} : ∀ {xs : List α} {a b : Nat}, Laid lo hi a xs b →
    ((firstGap lo hi size a xs b).isSome = true ↔
      ∃ d, a ≤ d ∧ d + size ≤ b ∧ ∀ x ∈ xs, hi x ≤ d ∨ d + size ≤ lo x) := by
  intro xs a b hlaid
  constructor
  · intro h
    obtain ⟨d, hd⟩ := Option.isSome_iff_exists.mp h
    obtain ⟨ys, zs, rfl, hys, hzs, -⟩ := firstGap_some hlaid hd
    refine ⟨d, hys.le, hzs.le, fun x hx => ?_⟩
    rcases List.mem_append.mp hx with hx | hx
    · exact .inl (hys.bounds hx).2.2
    · exact .inr (hzs.bounds hx).1
  · intro h
    obtain ⟨d, had, hdb, hbeside⟩ := h
    induction xs generalizing a with
    | nil =>
      rw [firstGap, if_pos (by omega)]
      rfl
    | cons x xs ih =>
      rw [firstGap]
      split
      · rfl
      · have hx := (hbeside x List.mem_cons_self).resolve_right (by omega)
        exact ih hlaid.2.2 hx fun y hy => hbeside y (List.mem_cons_of_mem x hy)

end EDarts.Lib
