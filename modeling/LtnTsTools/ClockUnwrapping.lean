import LtnTsTools.TickClock

/-!
# Unwrapping a timeline

Both clocks of `clocks.c` are fed the residues of a timeline without wraps.  At
27 MHz the wrap value of the tick clock is the number of its raw values, and the
clock follows every timeline that goes on by at most a hundredth of a period a
step.  The corrected clock follows every timeline whose steps are at most half a
ring, and whatever it is fed, its timeline agrees with the last value on the ring.
-/

namespace LtnTsTools.Clocks

/-! ## The tick clock at 27 MHz -/

/-- The clock stands at `t` of a timeline of 27 MHz ticks. -/
structure FollowsAt (clk : Clock) (t : ℕ) : Prop where
  settled : clk.pendingDiscontinuity = false
  wrapValue : clk.clockWrapValue = maxScrValue
  current : clk.currentTimeTicks = (t % 2576980377600 : ℕ)
  reference : clk.monotonicReferenceTicks = (t % 2576980377600 : ℕ)
  monotonic : clk.monotonicTimeTicks = t
  wraps : clk.clockWrapOccurences = (t / 2576980377600 : ℕ)

theorem followsAt_established (clk : Clock) {t : ℕ} (h : t < 2576980377600) :
    FollowsAt (clockEstablishWallclock (clockEstablishTimebase clk 27000000) t) t := by
  have hmod : ((t % 2576980377600 : ℕ) : ℤ) = t := by rw [Nat.mod_eq_of_lt h]
  refine ⟨rfl, rfl, hmod.symm, hmod.symm, rfl, ?_⟩
  rw [Nat.div_eq_of_lt h]
  rfl

/-- What a raw value that has not wrapped leaves alone. -/
theorem clockAdvance_wraps (clk : Clock) (ticks : ℤ) :
    (clockAdvance clk ticks).clockWrapOccurences = clk.clockWrapOccurences := by
  unfold clockAdvance
  split_ifs <;> rfl

/-- A step of at most a hundredth of a period.  If the period ends in it, the raw
value falls from the last hundredth into the first, far below a fiftieth of the
last one; otherwise it does not fall. -/
theorem FollowsAt.setTicks {clk : Clock} {t t' : ℕ} (h : FollowsAt clk t) (hle : t ≤ t')
    (hstep : t' ≤ t + 25769803776) :
    FollowsAt (clockSetTicks clk (t' % 2576980377600 : ℕ)) t' := by
  have hfifty : clk.currentTimeTicks.tdiv 50 = ((t % 2576980377600 / 50 : ℕ) : ℤ) := by
    rw [h.current]
    rfl
  by_cases hwrap : t' % 2576980377600 < t % 2576980377600
  · have hdiv : t' / 2576980377600 = t / 2576980377600 + 1 := by omega
    rw [clockSetTicks_of_wrap h.settled (by rw [hfifty]; omega) (by rw [h.wrapValue]; decide)]
    refine ⟨h.settled, h.wrapValue, rfl, rfl, ?_, ?_⟩
    · simp only [clockWrap, clockComputeDelta, h.reference, h.monotonic, h.wrapValue]
      rw [if_neg (by omega), maxScrValue]
      omega
    · simp only [clockWrap, h.wraps, hdiv]
      push_cast
      rfl
  · have hdiv : t' / 2576980377600 = t / 2576980377600 := by omega
    obtain ⟨hpending, hvalue, href, hmono⟩ := clockAdvance_spec clk
      (t' % 2576980377600 : ℕ) (by rw [h.reference]; omega)
    rw [clockSetTicks_of_onward h.settled (by rw [hfifty]; omega)]
    refine ⟨hpending.trans h.settled, hvalue.trans h.wrapValue, rfl, href, ?_, ?_⟩
    · refine hmono.trans ?_
      rw [h.monotonic, h.reference]
      omega
    · refine (clockAdvance_wraps clk _).trans ?_
      rw [h.wraps, hdiv]

/-- A timeline that goes on by at most `step` ticks at a time. -/
def AdvancesBy (step : ℕ) (ts : List ℕ) : Prop := ts.IsChain fun a b ↦ a ≤ b ∧ b ≤ a + step

/-- A clock that is given the timebase of the program clock reference and the wall
clock at `t₀`, after the values of a timeline. -/
def pcrClockAfter (clk : Clock) (t₀ : ℕ) (ts : List ℕ) : Clock :=
  ts.foldl (fun clk t ↦ clockSetTicks clk (t % (300 * 2 ^ 33) : ℕ))
    (clockEstablishWallclock (clockEstablishTimebase clk 27000000) t₀)

theorem FollowsAt.run {clk : Clock} {t : ℕ} {ts : List ℕ} (h : FollowsAt clk t)
    (hts : AdvancesBy (300 * 2 ^ 33 / 100) (t :: ts)) :
    FollowsAt (ts.foldl (fun clk t ↦ clockSetTicks clk (t % (300 * 2 ^ 33) : ℕ)) clk)
      (ts.getLastD t) := by
  induction ts generalizing t clk with
  | nil => exact h
  | cons t' rest ih =>
      obtain ⟨⟨hle, hstep⟩, hrest⟩ := List.isChain_cons_cons.mp hts
      rw [List.getLastD_cons]
      exact ih (h.setTicks hle hstep) hrest

/-- After every step of a timeline the tick clock at 27 MHz has advanced as the
timeline has, shows its residue and has counted its wraps. -/
theorem pcrClock_unwraps (clk : Clock) {t₀ : ℕ} {ts : List ℕ} (hstart : t₀ < 300 * 2 ^ 33)
    (h : AdvancesBy (300 * 2 ^ 33 / 100) (t₀ :: ts)) (n : ℕ) :
    clockGetMonotonicTicks (pcrClockAfter clk t₀ (ts.take n)) - t₀ =
        ((ts.take n).getLastD t₀ : ℤ) - t₀ ∧
      (pcrClockAfter clk t₀ (ts.take n)).currentTimeTicks =
        ((ts.take n).getLastD t₀ % (300 * 2 ^ 33) : ℕ) ∧
      (pcrClockAfter clk t₀ (ts.take n)).clockWrapOccurences =
        ((ts.take n).getLastD t₀ / (300 * 2 ^ 33) : ℕ) := by
  have hfollows := (followsAt_established clk hstart).run (isChain_cons_take h n)
  refine ⟨?_, hfollows.current, hfollows.wraps⟩
  rw [clockGetMonotonicTicks]
  exact congrArg (· - (t₀ : ℤ)) hfollows.monotonic

/-- Two steps of which the first ends a period, from a clock that has never been
used. -/
theorem pcrClock_unwraps_wrap :
    AdvancesBy (300 * 2 ^ 33 / 100) [2576980377000, 2602750180000, 2602750180000] ∧
      ∀ n, clockGetMonotonicTicks (pcrClockAfter clockInitialize 2576980377000
          ([2602750180000, 2602750180000].take n)) - (2576980377000 : ℕ) =
        (([2602750180000, 2602750180000].take n).getLastD 2576980377000 : ℕ) -
          (2576980377000 : ℕ) := by
  have hsteps : AdvancesBy (300 * 2 ^ 33 / 100) [2576980377000, 2602750180000, 2602750180000] := by
    simp [AdvancesBy]
  exact ⟨hsteps, fun n ↦ (pcrClock_unwraps clockInitialize (by norm_num) hsteps n).1⟩

/-! ## The corrected clock -/

/-- A timeline whose steps are at most half a ring, and less than that forward. -/
def StaysClose (ts : List ℕ) : Prop :=
  ts.IsChain fun (a b : ℕ) ↦ (a : ℤ) - 2 ^ 32 ≤ b ∧ (b : ℤ) < a + 2 ^ 32

theorem StandsAt.run {ctx : CorrectedClock} {t : ℕ} {ts : List ℕ} (h : StandsAt ctx t)
    (hts : StaysClose (t :: ts)) :
    StandsAt (ts.foldl (fun ctx t ↦ (correctedClockUpdate ctx (t % 2 ^ 33 : ℕ)).2) ctx)
      (ts.getLastD t) := by
  induction ts generalizing t ctx with
  | nil => exact h
  | cons t' rest ih =>
      obtain ⟨⟨hlo, hhi⟩, hrest⟩ := List.isChain_cons_cons.mp hts
      rw [List.getLastD_cons]
      exact ih (h.update hlo hhi) hrest

/-- The timeline is not negative and agrees with the last value on the ring. -/
structure OnRing (ctx : CorrectedClock) : Prop where
  initialized : ctx.initialized = true
  nonneg : 0 ≤ ctx.unwrapped
  residue : ctx.unwrapped % 2 ^ 33 = ctx.lastTickValue

/-- Whatever the two values are, the signed difference takes the one to the other
on the ring. -/
theorem add_pts33SignedDelta {u : ℤ} {prev curr : ℕ} (hprev : u % 2 ^ 33 = prev)
    (hcurr : curr < 2 ^ 33) : (u + pts33SignedDelta curr prev) % 2 ^ 33 = curr := by
  have hdiff : ((((curr % 2 ^ 33 : ℕ) : ℤ) - (prev % 2 ^ 33 : ℕ)) % 2 ^ 64).toNat % 2 ^ 33 =
      (((curr : ℤ) - prev) % 2 ^ 33).toNat := by
    omega
  unfold pts33SignedDelta
  simp only [and_clkMask, hdiff, clkMod]
  split_ifs <;> push_cast <;> omega

theorem OnRing.update {ctx : CorrectedClock} (h : OnRing ctx) (ticks : ℤ) :
    OnRing (correctedClockUpdate ctx ticks).2 := by
  have hsmall : (ticks % 2 ^ 64).toNat &&& clkMask < 2 ^ 33 := by
    rw [and_clkMask]
    exact Nat.mod_lt _ (by norm_num)
  have hring := add_pts33SignedDelta h.residue hsmall
  rw [correctedClockUpdate, h.initialized, if_neg (by simp)]
  unfold correctedClockSettle
  by_cases hneg : ctx.unwrapped +
      pts33SignedDelta ((ticks % 2 ^ 64).toNat &&& clkMask) ctx.lastTickValue < 0
  · -- the clock starts again at the new value
    rw [if_pos hneg]
    exact ⟨h.initialized, Int.natCast_nonneg _, by dsimp only; omega⟩
  · rw [if_neg hneg]
    split_ifs <;> exact ⟨h.initialized, Int.not_lt.mp hneg, hring⟩

def correctedClockFed (inputs : List ℤ) : CorrectedClock :=
  inputs.foldl (fun ctx ticks ↦ (correctedClockUpdate ctx ticks).2) correctedClockInit

theorem OnRing.run {ctx : CorrectedClock} (h : OnRing ctx) (inputs : List ℤ) :
    OnRing (inputs.foldl (fun ctx ticks ↦ (correctedClockUpdate ctx ticks).2) ctx) := by
  induction inputs generalizing ctx with
  | nil => exact h
  | cons ticks rest ih => exact ih (h.update ticks)

/-- The corrected clock after every update of a timeline, and after every update
with any value at all. -/
theorem correctedClock_unwraps {t₀ : ℕ} {ts : List ℕ} (hstart : t₀ < 2 ^ 33)
    (h : StaysClose (t₀ :: ts)) :
    (∀ n, correctedClockUnwrapped (correctedClockAfter t₀ (ts.take n)) =
        (ts.take n).getLastD t₀) ∧
      ∀ inputs : List ℤ, 0 ≤ (correctedClockFed inputs).unwrapped ∧
        (correctedClockFed inputs).unwrapped % 2 ^ 33 =
          (correctedClockFed inputs).lastTickValue := by
  refine ⟨fun n ↦ ((standsAt_first hstart).run (isChain_cons_take h n)).query, fun inputs ↦ ?_⟩
  have hinit : OnRing correctedClockInit := ⟨rfl, le_rfl, rfl⟩
  exact ⟨(hinit.run inputs).nonneg, (hinit.run inputs).residue⟩

/-- The first value lies in the upper half of the ring; the steps go half a ring
forward less a tick, across the wrap, and half a ring back. -/
theorem correctedClock_unwraps_back :
    StaysClose [8589934591, 12884901886, 8589934590] ∧
      ∀ n, correctedClockUnwrapped
          (correctedClockAfter 8589934591 ([12884901886, 8589934590].take n)) =
        (([12884901886, 8589934590].take n).getLastD 8589934591 : ℕ) := by
  have hsteps : StaysClose [8589934591, 12884901886, 8589934590] := by
    simp [StaysClose]
  exact ⟨hsteps, (correctedClock_unwraps (by norm_num) hsteps).1⟩

end LtnTsTools.Clocks
