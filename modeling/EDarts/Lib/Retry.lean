/-
  EDarts.Lib.Retry — a loop that repeats an attempt until it succeeds, while others act on
  the state.

  An attempt answers whether it succeeded; `none` is one that never returns. `others n` is
  what happens before attempt `n`. A loop counts its attempts on from a number, so that one
  loop can go on where another stopped.

  - `retry_now`: an attempt that succeeds at once ends the loop.
  - `retry_stuck`: attempts that fail in every state of a set which nobody leaves never end.
-/

namespace EDarts.Lib

variable {σ : Type}

/-- The loop from attempt `n` on, at most `fuel` attempts: the number of the next one, and
    the state. -/
def retry (attempt : σ → Option (Bool × σ)) (others : Nat → σ → σ) : Nat → Nat → σ → Option (Nat × σ)
  | 0, _, _ => none
  | fuel + 1, n, s =>
    match attempt (others n s) with
    | none => none
    | some (true, s') => some (n + 1, s')
    | some (false, s') => retry attempt others fuel (n + 1) s'

variable {attempt : σ → Option (Bool × σ)} {others : Nat → σ → σ}

theorem retry_now {s s' : σ} {n : Nat} (h : attempt (others n s) = some (true, s')) (fuel : Nat) :
    retry attempt others (fuel + 1) n s = some (n + 1, s') := by
  rw [retry, h]

theorem retry_stuck {p : σ → Prop} (keep : ∀ n s, p s → p (others n s))
    (fails : ∀ s, p s → ∃ s', attempt s = some (false, s') ∧ p s') :
    ∀ (fuel n : Nat) {s : σ}, p (others n s) → retry attempt others fuel n s = none := by
  intro fuel
  induction fuel with
  | zero => intro n s _; rfl
  | succ fuel ih =>
    intro n s hs
    obtain ⟨s', ha, hs'⟩ := fails _ hs
    rw [retry, ha]
    exact ih (n + 1) (keep (n + 1) s' hs')

end EDarts.Lib
