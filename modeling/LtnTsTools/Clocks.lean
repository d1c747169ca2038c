import Mathlib.Data.Nat.Bitwise
import Mathlib.Tactic

/-!
# The corrected clock

The model of the clock in `clocks.c` that extends 33-bit time stamps into a
timeline without wraps: each new value moves the timeline by the shortest signed
distance on the ring of `2^33` ticks.
-/

namespace LtnTsTools.Clocks

/-- `clk_mod`, for a clock of 90 kHz. -/
def clkMod : ℕ := 2 ^ 33

/-- `clk_mask`. -/
def clkMask : ℕ := clkMod - 1

/-- `clk_half`. -/
def clkHalf : ℕ := 2 ^ 32

/-- `JITTER_MAX`. -/
def jitterMax : ℤ := 90000 / 2

/-- `struct ltntstools_corrected_clock_s`. -/
structure CorrectedClock where
  initialized : Bool
  lastTickValue : ℕ
  unwrapped : ℤ
  correctedClk : ℕ
deriving DecidableEq

/-- `ltntstools_corrected_clock_init` at 90 kHz. -/
def correctedClockInit : CorrectedClock where
  initialized := true
  lastTickValue := 0
  unwrapped := 0
  correctedClk := 0

/-- `pts33_signed_delta`; the difference is one of `uint64_t`. -/
def pts33SignedDelta (curr prev : ℕ) : ℤ :=
  let a := curr &&& clkMask
  let b := prev &&& clkMask
  let diff := (((a : ℤ) - b) % 2 ^ 64).toNat &&& clkMask
  if diff &&& clkHalf ≠ 0 then (diff : ℤ) - clkMod else diff

/-- The fields behind the new timeline: a negative one starts the clock again, a
large step back leaves the monotonic clock alone. -/
def correctedClockSettle (ctx : CorrectedClock) (p33 : ℕ) (unwrapped : ℤ) :
    ℤ × CorrectedClock :=
  if unwrapped < 0 then
    (-1, { ctx with correctedClk := p33, unwrapped := p33, lastTickValue := p33 })
  else if (ctx.correctedClk : ℤ) - unwrapped > jitterMax then
    (0, { ctx with unwrapped := unwrapped, lastTickValue := p33 })
  else
    (0, { ctx with
      correctedClk := if unwrapped.toNat > ctx.correctedClk then unwrapped.toNat
        else ctx.correctedClk
      unwrapped := unwrapped
      lastTickValue := p33 })

/-- `ltntstools_corrected_clock_update`. -/
def correctedClockUpdate (ctx : CorrectedClock) (ticks : ℤ) : ℤ × CorrectedClock :=
  if ctx.initialized = false then (-1, ctx)
  else
    let p33 := (ticks % 2 ^ 64).toNat &&& clkMask
    correctedClockSettle ctx p33 (ctx.unwrapped + pts33SignedDelta p33 ctx.lastTickValue)

/-- `ltntstools_corrected_clock_unwrapped`. -/
def correctedClockUnwrapped (ctx : CorrectedClock) : ℤ :=
  if ctx.initialized = false then 0 else ctx.unwrapped

theorem and_clkMask (n : ℕ) : n &&& clkMask = n % 2 ^ 33 :=
  Nat.and_two_pow_sub_one_eq_mod n 33

theorem and_clkHalf {n : ℕ} (h : n < 2 ^ 33) : n &&& clkHalf ≠ 0 ↔ 2 ^ 32 ≤ n := by
  rw [clkHalf, Nat.and_two_pow, Nat.testBit_eq_decide_div_mod_eq]
  simp
  omega

/-- On values of a common timeline that are at most half a ring apart, and less
than that forward, the signed difference is the true one. -/
theorem pts33SignedDelta_of_close {t t' : ℕ} (hlo : (t : ℤ) - 2 ^ 32 ≤ t')
    (hhi : (t' : ℤ) < t + 2 ^ 32) :
    pts33SignedDelta (t' % 2 ^ 33) (t % 2 ^ 33) = t' - t := by
  have hdiff : ((((t' % 2 ^ 33 % 2 ^ 33 : ℕ) : ℤ) - (t % 2 ^ 33 % 2 ^ 33 : ℕ)) % 2 ^ 64).toNat %
      2 ^ 33 = (((t' : ℤ) - t) % 2 ^ 33).toNat := by
    omega
  unfold pts33SignedDelta
  simp only [and_clkMask, hdiff]
  have hsmall : (((t' : ℤ) - t) % 2 ^ 33).toNat < 2 ^ 33 := by omega
  simp only [and_clkHalf hsmall, clkMod]
  split_ifs with hhalf
  · push_cast
    omega
  · omega

/-- The clock stands at `t` of a timeline without wraps. -/
structure StandsAt (ctx : CorrectedClock) (t : ℕ) : Prop where
  initialized : ctx.initialized = true
  last : ctx.lastTickValue = t % 2 ^ 33
  unwrapped : ctx.unwrapped = t

theorem StandsAt.query {ctx : CorrectedClock} {t : ℕ} (h : StandsAt ctx t) :
    correctedClockUnwrapped ctx = t := by
  rw [correctedClockUnwrapped, h.initialized, h.unwrapped]
  rfl

theorem standsAt_init : StandsAt correctedClockInit 0 := ⟨rfl, rfl, rfl⟩

theorem standsAt_settle {ctx : CorrectedClock} {t : ℕ} (hinit : ctx.initialized = true) :
    StandsAt (correctedClockSettle ctx (t % 2 ^ 33) t).2 t := by
  unfold correctedClockSettle
  rw [if_neg (by omega)]
  split_ifs <;> exact ⟨hinit, rfl, rfl⟩

theorem ticks_eq (t : ℕ) :
    (((t % 2 ^ 33 : ℕ) : ℤ) % 2 ^ 64).toNat &&& clkMask = t % 2 ^ 33 := by
  rw [and_clkMask]
  omega

/-- A step of less than half a ring is followed, forward or backward. -/
theorem StandsAt.update {ctx : CorrectedClock} {t t' : ℕ} (h : StandsAt ctx t)
    (hlo : (t : ℤ) - 2 ^ 32 ≤ t') (hhi : (t' : ℤ) < t + 2 ^ 32) :
    StandsAt (correctedClockUpdate ctx (t' % 2 ^ 33 : ℕ)).2 t' := by
  have hsum : (t : ℤ) + (t' - t) = t' := by ring
  rw [correctedClockUpdate, h.initialized, if_neg (by simp)]
  simp only [ticks_eq, h.last, h.unwrapped, pts33SignedDelta_of_close hlo hhi, hsum]
  exact standsAt_settle h.initialized

/-- A new clock takes over its first value: one in the upper half of the ring
would count as a step below zero, which starts the clock there. -/
theorem standsAt_first {t : ℕ} (h : t < 2 ^ 33) :
    StandsAt (correctedClockUpdate correctedClockInit (t % 2 ^ 33 : ℕ)).2 t := by
  rcases lt_or_ge t (2 ^ 32) with hlow | hhigh
  · exact standsAt_init.update (by omega) (by omega)
  · have hdelta : pts33SignedDelta (t % 2 ^ 33) 0 < 0 := by
      unfold pts33SignedDelta
      have hdiff : ((((t % 2 ^ 33 % 2 ^ 33 : ℕ) : ℤ) - (0 % 2 ^ 33 : ℕ)) % 2 ^ 64).toNat %
          2 ^ 33 = t := by
        omega
      simp only [and_clkMask, hdiff]
      rw [if_pos ((and_clkHalf h).mpr hhigh), clkMod]
      push_cast
      omega
    have hneg : correctedClockInit.unwrapped +
        pts33SignedDelta (t % 2 ^ 33) correctedClockInit.lastTickValue < 0 := by
      simpa [correctedClockInit] using hdelta
    have hmod : t % 2 ^ 33 = t := Nat.mod_eq_of_lt h
    rw [correctedClockUpdate, if_neg (by simp [correctedClockInit])]
    simp only [ticks_eq]
    rw [correctedClockSettle, if_pos hneg]
    exact ⟨rfl, rfl, by simp only [hmod]⟩

end LtnTsTools.Clocks
