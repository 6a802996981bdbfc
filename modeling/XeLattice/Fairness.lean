import Mathlib.Data.Nat.Notation
import Mathlib.Tactic.Common

/-!
# Fair schedules

Parties take their steps over one state in the order of a schedule; a step that has to wait leaves
the state as it is.  What every party reaches in the end is shown by a rank: no step raises it, and
as long as it stays, one and the same party is due to lower it.

* **`Fair.eventually`**: under a fair schedule the rank runs out.
-/

set_option autoImplicit false

variable {σ ι : Type} {step : ι → σ → σ} {s : σ} {schedule : ℕ → ι}

/-- The states that the schedule leads through. -/
def statesOf (step : ι → σ → σ) (s : σ) (schedule : ℕ → ι) : ℕ → σ
  | 0 => s
  | t + 1 => step (schedule t) (statesOf step s schedule t)

/-- Every party has its turn again and again. -/
def Fair (schedule : ℕ → ι) : Prop :=
  ∀ i t, ∃ t', t ≤ t' ∧ schedule t' = i

theorem statesOf_invariant {I : σ → Prop} (h₀ : I s) (hstep : ∀ i s, I s → I (step i s))
    (schedule : ℕ → ι) (t : ℕ) : I (statesOf step s schedule t) := by
  induction t with
  | zero => exact h₀
  | succ t ih => exact hstep _ _ ih

/-- **Progress**: until the end is reached, the party that is `due` lowers the rank by its next
step, and the steps of the others lower it too, or leave it and the party as they are. -/
theorem Fair.eventually {I Ended : σ → Prop} (rank : σ → ℕ) (due : σ → ι) (hfair : Fair schedule)
    (h₀ : I s) (hI : ∀ i s, I s → I (step i s))
    (hdue : ∀ s, I s → ¬ Ended s → rank (step (due s) s) < rank s)
    (hkeep : ∀ i s, I s → rank (step i s) < rank s ∨
      rank (step i s) = rank s ∧ due (step i s) = due s) :
    ∃ t, Ended (statesOf step s schedule t) := by
  by_contra hnever
  have hnever := not_exists.mp hnever
  have hinv := statesOf_invariant h₀ hI schedule
  -- By induction on the rank: a state of this rank is never met.
  suffices ∀ n t, rank (statesOf step s schedule t) ≠ n from this _ 0 rfl
  intro n
  induction n using Nat.strongRecOn with
  | ind n ih =>
    intro t ht
    obtain ⟨t', ht', hturn⟩ := hfair (due (statesOf step s schedule t)) t
    have hwait : ∀ d, rank (statesOf step s schedule (t + d)) = n ∧
        due (statesOf step s schedule (t + d)) = due (statesOf step s schedule t) := by
      intro d
      induction d with
      | zero => exact ⟨ht, rfl⟩
      | succ d ihd =>
        rcases hkeep (schedule (t + d)) _ (hinv (t + d)) with hlow | ⟨hrank, hsame⟩
        · exact absurd rfl (ih _ (ihd.1 ▸ hlow) (t + d + 1))
        · exact ⟨hrank.trans ihd.1, hsame.trans ihd.2⟩
    obtain ⟨d, rfl⟩ := Nat.exists_eq_add_of_le ht'
    obtain ⟨hrank, hsame⟩ := hwait d
    have hlow := hdue _ (hinv (t + d)) (hnever _)
    rw [hsame, ← hturn, hrank] at hlow
    exact ih _ hlow (t + d + 1) rfl
