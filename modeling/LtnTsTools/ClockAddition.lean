import LtnTsTools.ClockMonotonicity

/-!
# Added ticks

Runs of `ltntstools_clock_add_ticks` in `clocks.c`.  The wrap counter and the raw
value are the two digits of one number to the base of the wrap value; the ticks are
added to that number, and the loops only bring the lower digit back into range.
-/

namespace LtnTsTools.Clocks

open WhileLoop

/-- What the loops keep: the wrap value, the number the wrap counter and the raw
value spell, and the distance of the reference. -/
structure Spells (period total gap : ℤ) (clk : Clock) : Prop where
  wrapValue : clk.clockWrapValue = period
  total : clk.clockWrapOccurences * period + clk.currentTimeTicks = total
  gap : clk.monotonicReferenceTicks - clk.currentTimeTicks = gap

variable {period total gap : ℤ} {clk : Clock}

theorem Spells.shift (h : Spells period total gap clk) (ticks : ℤ) :
    Spells period (total + ticks) gap (clockShift clk ticks) := by
  obtain ⟨hwrap, htotal, hgap⟩ := h
  refine ⟨hwrap, ?_, ?_⟩ <;> simp only [clockShift] <;> omega

theorem Spells.reduceRound (h : Spells period total gap clk) :
    Spells period total gap (clockReduceRound clk) := by
  obtain ⟨rfl, htotal, hgap⟩ := h
  refine ⟨rfl, ?_, ?_⟩ <;> simp only [clockReduceRound]
  · linarith
  · omega

/-- The wrap counter of a number that is not negative stands above zero as long as
the raw value lies below. -/
theorem Spells.wraps_pos (h : Spells period total gap clk) (hpos : 0 < period)
    (htotal : 0 ≤ total) (hneg : clk.currentTimeTicks < 0) : 0 < clk.clockWrapOccurences := by
  have hsum := h.total
  by_contra hle
  have hmul : clk.clockWrapOccurences * period ≤ 0 :=
    mul_nonpos_of_nonpos_of_nonneg (Int.not_lt.mp hle) hpos.le
  omega

theorem Spells.raiseRound (h : Spells period total gap clk) (hpos : 0 < period)
    (htotal : 0 ≤ total) (hneg : clk.currentTimeTicks < 0) :
    Spells period total gap (clockRaiseRound clk) := by
  have hwraps := h.wraps_pos hpos htotal hneg
  obtain ⟨rfl, hsum, hgap⟩ := h
  refine ⟨rfl, ?_, ?_⟩ <;> simp only [clockRaiseRound]
  · rw [if_pos hwraps]
    linarith
  · omega

/-- Both loops of `ltntstools_clock_add_ticks` end, the second in the result. -/
def LoopsEnd (clk : Clock) (ticks : ℤ) : Prop :=
  ∃ mid, Ends (fun clk ↦ clk.currentTimeTicks ≥ clk.clockWrapValue) clockReduceRound
      (clockShift clk ticks) mid ∧
    Ends (fun clk ↦ clk.currentTimeTicks < 0) clockRaiseRound mid (clockAddTicks clk ticks)

theorem loopsEnd_of_wrapValue_pos (hpos : 0 < clk.clockWrapValue) (ticks : ℤ) :
    LoopsEnd clk ticks := by
  have hshift : 0 < (clockShift clk ticks).clockWrapValue := hpos
  have hsame := sameTimeline_clockReduce (clockShift clk ticks).currentTimeTicks.toNat
    (clockShift clk ticks)
  refine ⟨_, ends_clockReduce hshift, ?_⟩
  rw [clockAddTicks, if_pos hshift]
  exact ends_clockRaise (hshift.trans_eq hsame.2.1.symm)

theorem Spells.addTicks (h : Spells period total gap clk) (hpos : 0 < period) {ticks : ℤ}
    (htotal : 0 ≤ total + ticks) :
    Spells period (total + ticks) gap (clockAddTicks clk ticks) := by
  obtain ⟨mid, hreduce, hraise⟩ :=
    @loopsEnd_of_wrapValue_pos clk (hpos.trans_eq h.wrapValue.symm) ticks
  have hmid := hreduce.invariant (Spells period (total + ticks) gap)
    (fun _ _ h ↦ h.reduceRound) (h.shift ticks)
  exact hraise.invariant (Spells period (total + ticks) gap)
    (fun _ hneg h ↦ h.raiseRound hpos htotal hneg) hmid

/-- Calls in a row that never take the number below zero. -/
theorem Spells.foldl_addTicks (hpos : 0 < period) (amounts : List ℤ) :
    ∀ {clk : Clock} {total : ℤ}, Spells period total gap clk →
      (∀ n, 0 ≤ total + (amounts.take n).sum) →
      Spells period (total + amounts.sum) gap (amounts.foldl clockAddTicks clk) := by
  induction amounts with
  | nil =>
      intro clk total h _
      rwa [List.sum_nil, add_zero]
  | cons ticks rest ih =>
      intro clk total h hsums
      have hone : 0 ≤ total + ticks := by simpa using hsums 1
      have hrest : ∀ n, 0 ≤ total + ticks + (rest.take n).sum := fun n ↦ by
        simpa [add_assoc] using hsums (n + 1)
      rw [List.sum_cons, ← add_assoc]
      exact ih (h.addTicks hpos hone) hrest

theorem foldl_addTicks_current_mem (hpos : 0 < clk.clockWrapValue)
    (hcurrent : 0 ≤ clk.currentTimeTicks ∧ clk.currentTimeTicks < clk.clockWrapValue)
    (amounts : List ℤ) :
    0 ≤ (amounts.foldl clockAddTicks clk).currentTimeTicks ∧
      (amounts.foldl clockAddTicks clk).currentTimeTicks < clk.clockWrapValue := by
  induction amounts generalizing clk with
  | nil => exact hcurrent
  | cons ticks rest ih =>
      obtain ⟨-, hwrap, -⟩ := sameTimeline_clockAddTicks clk ticks
      have hmem := clockAddTicks_current_mem hpos ticks
      have hrest := @ih (clockAddTicks clk ticks)
      rw [hwrap] at hrest
      exact hrest hpos hmem

/-- After every call of a run the raw value is in range and, with the wrap counter,
spells the number at the start plus all the ticks added; the distance of the
reference is as it was, and both loops of every further call end. -/
theorem clockAddTicks_normalises {clk : Clock} {amounts : List ℤ}
    (hcurrent : 0 ≤ clk.currentTimeTicks ∧ clk.currentTimeTicks < clk.clockWrapValue)
    (hsums : ∀ n, 0 ≤ clk.clockWrapOccurences * clk.clockWrapValue + clk.currentTimeTicks +
      (amounts.take n).sum) (n : ℕ) :
    (0 ≤ ((amounts.take n).foldl clockAddTicks clk).currentTimeTicks ∧
        ((amounts.take n).foldl clockAddTicks clk).currentTimeTicks < clk.clockWrapValue) ∧
      ((amounts.take n).foldl clockAddTicks clk).clockWrapOccurences * clk.clockWrapValue +
          ((amounts.take n).foldl clockAddTicks clk).currentTimeTicks =
        clk.clockWrapOccurences * clk.clockWrapValue + clk.currentTimeTicks +
          (amounts.take n).sum ∧
      ((amounts.take n).foldl clockAddTicks clk).monotonicReferenceTicks -
          ((amounts.take n).foldl clockAddTicks clk).currentTimeTicks =
        clk.monotonicReferenceTicks - clk.currentTimeTicks ∧
      ∀ ticks, LoopsEnd ((amounts.take n).foldl clockAddTicks clk) ticks := by
  have hpos : 0 < clk.clockWrapValue := hcurrent.1.trans_lt hcurrent.2
  have hrun := Spells.foldl_addTicks hpos (amounts.take n) ⟨rfl, rfl, rfl⟩ fun m ↦ by
    rw [List.take_take]
    exact hsums (min m n)
  refine ⟨foldl_addTicks_current_mem hpos hcurrent _, hrun.total, hrun.gap, fun ticks ↦ ?_⟩
  exact loopsEnd_of_wrapValue_pos (hpos.trans_eq hrun.wrapValue.symm) ticks

/-- A clock at 27 MHz goes forward by three periods, and back to zero. -/
theorem clockAddTicks_normalises_back :
    (∀ n, (0 : ℤ) ≤ 0 * 2576980377600 + 7 +
      (([7730941132800, -7730941132807] : List ℤ).take n).sum) ∧
      ([7730941132800, -7730941132807].foldl clockAddTicks (clockEstablishWallclock
        (clockEstablishTimebase clockInitialize 27000000) 7)).clockWrapOccurences * 2576980377600 +
      ([7730941132800, -7730941132807].foldl clockAddTicks (clockEstablishWallclock
        (clockEstablishTimebase clockInitialize 27000000) 7)).currentTimeTicks = 0 := by
  have hsums : ∀ n, (0 : ℤ) ≤ 0 * 2576980377600 + 7 +
      (([7730941132800, -7730941132807] : List ℤ).take n).sum := by
    rintro (_ | _ | n) <;> simp
  have hrun := (@clockAddTicks_normalises (clockEstablishWallclock
    (clockEstablishTimebase clockInitialize 27000000) 7) _ (by decide) hsums 2).2.1
  exact ⟨hsums, hrun⟩

end LtnTsTools.Clocks
