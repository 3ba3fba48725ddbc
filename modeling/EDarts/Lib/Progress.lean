/-
  EDarts.Lib.Progress — several parties that take turns, and where they must get to.

  A rank that no step raises, and in each state a party whose step lowers it: the others may
  wait for that one, but what they do until then changes neither the rank nor whose turn it is.
  Then the rank falls in every round in which each party takes a step, in whatever order and
  however often (`Progress.round`), and so the goal is reached after as many rounds as the rank
  is high (`Progress.finishes`).
-/

import EDarts.Lib.Runs

namespace EDarts.Lib

variable {σ ι ω κ : Type}

/-- `who i` takes the step `i`. Every step returns, the goal is kept, and short of it a step
    lowers the rank, or is one of a party that waits for `helpful`. -/
structure Progress (step : σ → ι → Option (ω × σ)) (who : ι → κ) (Inv Done : σ → Prop) (rank : σ → Nat)
    (helpful : σ → κ) : Prop where
  returns : ∀ s i, Inv s → ∃ o s', step s i = some (o, s')
  inv : ∀ s i o s', Inv s → step s i = some (o, s') → Inv s'
  done : ∀ s i o s', Inv s → Done s → step s i = some (o, s') → Done s'
  lowers : ∀ s i o s', Inv s → ¬ Done s → step s i = some (o, s') →
    rank s' < rank s ∨ (rank s' = rank s ∧ helpful s' = helpful s ∧ who i ≠ helpful s)

variable {step : σ → ι → Option (ω × σ)} {who : ι → κ} {Inv Done : σ → Prop} {rank : σ → Nat} {helpful : σ → κ}

/-- After a sequence of steps the goal is reached, or the rank is lower, or the party whose
    turn it was has taken no step. -/
theorem Progress.steps (H : Progress step who Inv Done rank helpful) : ∀ (is : List ι) {s : σ}, Inv s →
    ∃ os s', run step s is = some (os, s') ∧ Inv s' ∧
      (Done s' ∨ ¬ Done s ∧ (rank s' < rank s ∨ rank s' = rank s ∧ helpful s' = helpful s ∧ ∀ i ∈ is, who i ≠ helpful s))
  | [], s, hs => by
    refine ⟨[], s, rfl, hs, ?_⟩
    by_cases hdone : Done s
    · exact .inl hdone
    · exact .inr ⟨hdone, .inr ⟨rfl, rfl, fun i hi => absurd hi List.not_mem_nil⟩⟩
  | i :: is, s, hs => by
    obtain ⟨o, s₁, hst⟩ := H.returns s i hs
    obtain ⟨os, s', hrun, hs', hrest⟩ := H.steps is (H.inv s i o s₁ hs hst)
    refine ⟨o :: os, s', by rw [run, hst]; simp only [hrun, Option.map_some], hs', ?_⟩
    rcases hrest with hdone' | ⟨hdone₁, hrest⟩
    · exact .inl hdone'
    · have hdone : ¬ Done s := fun hdone => hdone₁ (H.done s i o s₁ hs hdone hst)
      refine .inr ⟨hdone, ?_⟩
      rcases H.lowers s i o s₁ hs hdone hst with hlt | ⟨hrank, hhelpful, hwho⟩
      · rcases hrest with hlt' | ⟨hrank', -, -⟩
        · exact .inl (Nat.lt_trans hlt' hlt)
        · exact .inl (hrank' ▸ hlt)
      · rw [hrank, hhelpful] at hrest
        refine hrest.imp_right fun hrest => ⟨hrest.1, hrest.2.1, fun j hj => ?_⟩
        rcases List.mem_cons.mp hj with rfl | hj
        · exact hwho
        · exact hrest.2.2 j hj

/-- Every party takes a step. -/
def Round (who : ι → κ) (is : List ι) : Prop := ∀ p, ∃ i ∈ is, who i = p

theorem Progress.round (H : Progress step who Inv Done rank helpful) {is : List ι} (hround : Round who is) {s : σ} (hs : Inv s) :
    ∃ os s', run step s is = some (os, s') ∧ Inv s' ∧ (Done s' ∨ rank s' < rank s) := by
  obtain ⟨os, s', hrun, hs', hrest⟩ := H.steps is hs
  refine ⟨os, s', hrun, hs', hrest.imp_right fun hrest => ?_⟩
  rcases hrest.2 with hlt | ⟨-, -, hnone⟩
  · exact hlt
  · obtain ⟨i, hi, hwho⟩ := hround (helpful s)
    exact absurd hwho (hnone i hi)

/-- Enough rounds reach the goal. -/
theorem Progress.finishes (H : Progress step who Inv Done rank helpful) : ∀ (rounds : List (List ι)) {s : σ}, Inv s →
    (∀ r ∈ rounds, Round who r) → rank s < rounds.length →
    ∃ os s', run step s rounds.flatten = some (os, s') ∧ Inv s' ∧ Done s'
  | [], s, _, _, hrank => absurd hrank (Nat.not_lt_zero _)
  | r :: rounds, s, hs, hrounds, hrank => by
    obtain ⟨os, s₁, hrun, hs₁, hrest⟩ := H.round (hrounds r List.mem_cons_self) hs
    rw [List.flatten_cons, run_append _ r hrun]
    rcases hrest with hdone | hlt
    · obtain ⟨os', s', hrun', hs', hrest'⟩ := H.steps rounds.flatten hs₁
      refine ⟨os ++ os', s', by rw [hrun']; rfl, hs', hrest'.resolve_right fun h => h.1 hdone⟩
    · have hrank₁ : rank s₁ < rounds.length := by
        rw [List.length_cons] at hrank
        omega
      obtain ⟨os', s', hrun', hs', hdone⟩ := H.finishes rounds hs₁ (fun r' hr' => hrounds r' (List.mem_cons_of_mem r hr')) hrank₁
      exact ⟨os ++ os', s', by rw [hrun']; rfl, hs', hdone⟩

end EDarts.Lib
