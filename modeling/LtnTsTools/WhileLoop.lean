import Mathlib.Tactic

/-!
# Loops that run while a guard holds

The big-step meaning of a `while` loop over a state, the same loop with fuel, and
the two rules for it: what a round keeps, the loop keeps, and a loop with a
measure ends.
-/

namespace LtnTsTools.WhileLoop

variable {σ : Type*} {guard : σ → Prop} {body : σ → σ} {s t : σ}

/-- The loop from `s` ends in `t`. -/
inductive Ends (guard : σ → Prop) (body : σ → σ) : σ → σ → Prop
  | stop {s : σ} (h : ¬guard s) : Ends guard body s s
  | round {s t : σ} (h : guard s) (rest : Ends guard body (body s) t) : Ends guard body s t

theorem Ends.exit (h : Ends guard body s t) : ¬guard t := by
  induction h with
  | stop h => exact h
  | round _ _ ih => exact ih

theorem Ends.invariant (h : Ends guard body s t) (I : σ → Prop)
    (hbody : ∀ s, guard s → I s → I (body s)) (hs : I s) : I t := by
  induction h with
  | stop _ => exact hs
  | round h _ ih => exact ih (hbody _ h hs)

/-- The loop with at most `fuel` rounds. -/
def fueled (guard : σ → Prop) [DecidablePred guard] (body : σ → σ) : ℕ → σ → σ
  | 0, s => s
  | fuel + 1, s => if guard s then fueled guard body fuel (body s) else s

variable {_ : DecidablePred guard}

theorem fueled_invariant (I : σ → Prop) (hbody : ∀ s, guard s → I s → I (body s)) (fuel : ℕ)
    (hs : I s) : I (fueled guard body fuel s) := by
  induction fuel generalizing s with
  | zero => exact hs
  | succ fuel ih =>
      rw [fueled]
      split_ifs with h
      · exact ih (hbody s h hs)
      · exact hs

/-- A loop whose rounds lower a measure ends, and fuel for the measure is enough. -/
theorem ends_fueled (I : σ → Prop) (measure : σ → ℕ)
    (hbody : ∀ s, guard s → I s → I (body s) ∧ measure (body s) < measure s) {fuel : ℕ}
    (hs : I s) (hfuel : measure s ≤ fuel) : Ends guard body s (fueled guard body fuel s) := by
  induction fuel generalizing s with
  | zero =>
      refine .stop fun h ↦ ?_
      have hless := (hbody s h hs).2
      omega
  | succ fuel ih =>
      rw [fueled]
      split_ifs with h
      · obtain ⟨hnext, hless⟩ := hbody s h hs
        exact .round h (ih hnext (by omega))
      · exact .stop h

end LtnTsTools.WhileLoop
