/-
  EDarts.Lib.Stores — a sequence of one-cell stores to a memory.

  `applyStores` makes the stores in order. The last store to a cell decides it
  (`applyStores_eq`), and a cell that no store names keeps its content
  (`applyStores_of_not_mem`). `Settled l m` says that nothing in `m` has overwritten the
  stores `l`: making them again changes nothing. A further store keeps that
  (`Settled.concat`), and so does a foreign write that leaves the cells of `l` as they are
  (`Settled.write`).
-/

import Mathlib.Data.List.Induction
import Mathlib.Logic.Function.Basic

namespace EDarts.Lib

variable {α β : Type}

/-- The `n` cells from `p` on. -/
def cells (m : Nat → β) (p n : Nat) : List β := (List.range n).map fun i => m (p + i)

@[simp] theorem cells_length (m : Nat → β) (p n : Nat) : (cells m p n).length = n := by simp [cells]

@[simp] theorem cells_getElem (m : Nat → β) (p n i : Nat) (h : i < (cells m p n).length) :
    (cells m p n)[i] = m (p + i) := by simp [cells]

theorem cells_congr {m m' : Nat → β} {p p' n : Nat} (h : ∀ i < n, m (p + i) = m' (p' + i)) :
    cells m p n = cells m' p' n :=
  List.map_congr_left fun i hi => h i (List.mem_range.mp hi)

theorem cells_append (m : Nat → β) (p n k : Nat) : cells m p (n + k) = cells m p n ++ cells m (p + n) k := by
  simp [cells, List.range_add, Nat.add_assoc]

theorem cells_succ (m : Nat → β) (p n : Nat) : cells m p (n + 1) = m p :: cells m (p + 1) n := by
  rw [Nat.add_comm, cells_append]
  rfl

variable [DecidableEq α]

def applyStores (m : α → β) (l : List (α × β)) : α → β := l.foldl (fun m x => Function.update m x.1 x.2) m

@[simp] theorem applyStores_cons (m : α → β) (x : α × β) (l : List (α × β)) :
    applyStores m (x :: l) = applyStores (Function.update m x.1 x.2) l := rfl

theorem applyStores_append (m : α → β) (l l' : List (α × β)) :
    applyStores m (l ++ l') = applyStores (applyStores m l) l' := List.foldl_append

theorem applyStores_concat (m : α → β) (l : List (α × β)) (x : α × β) :
    applyStores m (l ++ [x]) = Function.update (applyStores m l) x.1 x.2 := by
  simp [applyStores]

theorem applyStores_of_not_mem {a : α} : ∀ {l : List (α × β)} {m : α → β}, (∀ x ∈ l, x.1 ≠ a) →
    applyStores m l a = m a
  | [], _, _ => rfl
  | x :: l, m, h => by
    rw [applyStores_cons, applyStores_of_not_mem fun y hy => h y (List.mem_cons_of_mem x hy)]
    exact Function.update_of_ne (h x List.mem_cons_self).symm _ _

theorem applyStores_congr {a : α} : ∀ {l : List (α × β)} {m m' : α → β}, m a = m' a →
    applyStores m l a = applyStores m' l a
  | [], _, _, h => h
  | x :: l, m, m', h => by
    simp only [applyStores_cons]
    apply applyStores_congr
    by_cases hx : a = x.1
    · rw [hx, Function.update_self, Function.update_self]
    · rw [Function.update_of_ne hx, Function.update_of_ne hx, h]

/-- A cell that is stored to, always with `b`, holds `b`. -/
theorem applyStores_eq {a : α} {b : β} : ∀ {l : List (α × β)} {m : α → β}, (∃ x ∈ l, x.1 = a) →
    (∀ x ∈ l, x.1 = a → x.2 = b) → applyStores m l a = b
  | [], _, h, _ => by obtain ⟨x, hx, -⟩ := h; cases hx
  | y :: l, m, h, hv => by
    rw [applyStores_cons]
    by_cases hl : ∃ x ∈ l, x.1 = a
    · exact applyStores_eq hl fun x hx => hv x (List.mem_cons_of_mem y hx)
    · have hy : y.1 = a := by
        obtain ⟨x, hx, rfl⟩ := h
        rcases List.mem_cons.mp hx with rfl | hx
        · rfl
        · exact absurd ⟨x, hx, rfl⟩ hl
      rw [applyStores_of_not_mem fun x hx he => hl ⟨x, hx, he⟩, ← hv y List.mem_cons_self hy, ← hy,
        Function.update_self]

/-- A cell holds what it held before, or what some store put there. -/
theorem applyStores_cases (m : α → β) (l : List (α × β)) (a : α) :
    applyStores m l a = m a ∨ ∃ x ∈ l, x.1 = a ∧ applyStores m l a = x.2 := by
  induction l generalizing m with
  | nil => exact .inl rfl
  | cons x l ih =>
    rw [applyStores_cons]
    rcases ih (Function.update m x.1 x.2) with h | ⟨y, hy, hya, h⟩
    · rw [h]
      by_cases hx : x.1 = a
      · exact .inr ⟨x, List.mem_cons_self, hx, by rw [← hx, Function.update_self]⟩
      · exact .inl (Function.update_of_ne (Ne.symm hx) _ _)
    · exact .inr ⟨y, List.mem_cons_of_mem x hy, hya, h⟩

/-! ## Stores that are still there -/

def Settled (l : List (α × β)) (m : α → β) : Prop := applyStores m l = m

theorem settled_nil (m : α → β) : Settled [] m := rfl

theorem Settled.concat {l : List (α × β)} {m : α → β} (h : Settled l m) (x : α × β) :
    Settled (l ++ [x]) (Function.update m x.1 x.2) := by
  rw [Settled, applyStores_concat]
  funext a
  by_cases ha : a = x.1
  · rw [ha, Function.update_self, Function.update_self]
  · have hm : Function.update m x.1 x.2 a = m a := Function.update_of_ne ha _ _
    rw [Function.update_of_ne ha, applyStores_congr hm, congrFun h a, hm]

theorem settled_applyStores (m : α → β) (l : List (α × β)) : Settled l (applyStores m l) := by
  induction l using List.reverseRecOn with
  | nil => exact settled_nil m
  | append_singleton l x ih =>
    rw [applyStores_concat]
    exact ih.concat x

/-- Memories that agree on the stored cells. -/
theorem Settled.congr {l : List (α × β)} {m m' : α → β} (h : Settled l m) (hm : ∀ x ∈ l, m' x.1 = m x.1) :
    Settled l m' := by
  funext a
  by_cases ha : ∃ x ∈ l, x.1 = a
  · obtain ⟨x, hx, rfl⟩ := ha
    rw [applyStores_congr (hm x hx), congrFun h, hm x hx]
  · exact applyStores_of_not_mem fun x hx he => ha ⟨x, hx, he⟩

theorem Settled.write {l : List (α × β)} {m : α → β} {a : α} {b : β} (h : Settled l m)
    (hb : (∃ x ∈ l, x.1 = a) → b = m a) : Settled l (Function.update m a b) := by
  apply h.congr
  intro x hx
  by_cases ha : x.1 = a
  · rw [ha, Function.update_self, hb ⟨x, hx, ha⟩]
  · exact Function.update_of_ne ha _ _

end EDarts.Lib
