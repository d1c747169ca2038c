import LtnTsTools.Clocks

/-!
# The tick clock

The model of `ltntstools_clock_s` in `clocks.c`: a raw tick value, a monotonic
one that is meant to survive wraps of the raw value, and the counters beside
them.  The wall clock and the drift against it are left out; no tick value
depends on them.  On a 90 kHz timeline the tick clock is compared with the
corrected clock: they differ by one tick for every wrap.
-/

namespace LtnTsTools.Clocks

/-- `MAX_SCR_VALUE`. -/
def maxScrValue : ℤ := 2576980377600

/-- `MAX_PTS_VALUE`. -/
def maxPtsValue : ℤ := 8589934591

/-- `struct ltntstools_clock_s`. -/
structure Clock where
  establishedTimebase : Bool
  establishedWT : Bool
  ticksPerSecond : ℤ
  currentTimeTicks : ℤ
  monotonicTimeTicks : ℤ
  monotonicReferenceTicks : ℤ
  clockWrapOccurences : ℤ
  backwardJumpUnder500msCount : ℕ
  forwardJumpOver200msCount : ℕ
  discontinuityCount : ℕ
  pendingDiscontinuity : Bool
  establishedTimeTicks : ℤ
  clockWrapValue : ℤ
deriving DecidableEq

/-- `ltntstools_clock_initialize`. -/
def clockInitialize : Clock := ⟨false, false, 0, 0, 0, 0, 0, 0, 0, 0, false, 0, 0⟩

/-- `ltntstools_clock_establish_timebase`. -/
def clockEstablishTimebase (clk : Clock) (ticksPerSecond : ℤ) : Clock where
  establishedTimebase := true
  establishedWT := clk.establishedWT
  ticksPerSecond := ticksPerSecond
  currentTimeTicks := 0
  monotonicTimeTicks := 0
  monotonicReferenceTicks := 0
  clockWrapOccurences := 0
  backwardJumpUnder500msCount := 0
  forwardJumpOver200msCount := 0
  discontinuityCount := 0
  pendingDiscontinuity := false
  establishedTimeTicks := 0
  clockWrapValue :=
    if ticksPerSecond = 90000 then maxPtsValue
    else if ticksPerSecond = 27000000 then maxScrValue
    else 2 ^ 32

/-- `ltntstools_clock_establish_wallclock`. -/
def clockEstablishWallclock (clk : Clock) (ticks : ℤ) : Clock :=
  { clk with
    establishedWT := true
    establishedTimeTicks := ticks
    currentTimeTicks := ticks
    monotonicTimeTicks := ticks
    monotonicReferenceTicks := ticks
    clockWrapOccurences := 0
    backwardJumpUnder500msCount := 0
    forwardJumpOver200msCount := 0
    pendingDiscontinuity := false }

/-- `ltntstools_clock_compute_delta`. -/
def clockComputeDelta (clk : Clock) (ticksnow ticksthen : ℤ) : ℤ :=
  if ticksnow ≥ ticksthen then ticksnow - ticksthen
  else (clk.clockWrapValue - ticksthen) + ticksnow

def clockRebase (clk : Clock) (ticks : ℤ) : Clock :=
  { clk with
    pendingDiscontinuity := false
    clockWrapOccurences := 0
    currentTimeTicks := ticks
    monotonicTimeTicks := ticks
    monotonicReferenceTicks := ticks
    establishedTimeTicks := ticks
    establishedWT := true }

def clockWrap (clk : Clock) (ticks : ℤ) : Clock :=
  { clk with
    monotonicTimeTicks := clk.monotonicTimeTicks +
      clockComputeDelta clk ticks clk.monotonicReferenceTicks
    monotonicReferenceTicks := ticks }

/-- A raw value that has not: the monotonic clock only goes forward. -/
def clockAdvance (clk : Clock) (ticks : ℤ) : Clock :=
  if ticks > clk.monotonicReferenceTicks then
    { clk with
      forwardJumpOver200msCount := clk.forwardJumpOver200msCount +
        (decide (clk.ticksPerSecond > 0 ∧
          ticks - clk.monotonicReferenceTicks > clk.ticksPerSecond.tdiv 5)).toNat
      monotonicTimeTicks := clk.monotonicTimeTicks + (ticks - clk.monotonicReferenceTicks)
      monotonicReferenceTicks := ticks }
  else if ticks < clk.currentTimeTicks ∧ clk.ticksPerSecond > 0 ∧
      clk.currentTimeTicks - ticks < clk.ticksPerSecond.tdiv 2 then
    { clk with backwardJumpUnder500msCount := clk.backwardJumpUnder500msCount + 1 }
  else clk

/-- `ltntstools_clock_set_ticks`. -/
def clockSetTicks (clk : Clock) (ticks : ℤ) : Clock :=
  if clk.pendingDiscontinuity then clockRebase clk ticks
  else
    let wrapped := decide (ticks < clk.currentTimeTicks.tdiv 50)
    let clk := { clk with clockWrapOccurences := clk.clockWrapOccurences + wrapped.toNat }
    let clk := if wrapped = true ∧ clk.clockWrapValue > 0 then clockWrap clk ticks
      else clockAdvance clk ticks
    { clk with currentTimeTicks := ticks }

/-- `ltntstools_clock_get_ticks`. -/
def clockGetTicks (clk : Clock) : ℤ := clk.currentTimeTicks

/-- `ltntstools_clock_get_monotonic_ticks`. -/
def clockGetMonotonicTicks (clk : Clock) : ℤ := clk.monotonicTimeTicks

/-! ## A 90 kHz timeline -/

/-- The clock at `t` of a timeline of 33-bit time stamps: the monotonic value has
lost a tick in every wrap. -/
structure LagsAt (clk : Clock) (t : ℕ) : Prop where
  settled : clk.pendingDiscontinuity = false
  wrapValue : clk.clockWrapValue = maxPtsValue
  current : clk.currentTimeTicks = (t % 2 ^ 33 : ℕ)
  reference : clk.monotonicReferenceTicks = (t % 2 ^ 33 : ℕ)
  monotonic : clk.monotonicTimeTicks = (t : ℤ) - (t / 2 ^ 33 : ℕ)

theorem lagsAt_established {t : ℕ} (h : t < 2 ^ 33) :
    LagsAt (clockEstablishWallclock (clockEstablishTimebase clockInitialize 90000)
      (t % 2 ^ 33 : ℕ)) t := by
  refine ⟨rfl, rfl, rfl, rfl, ?_⟩
  change ((t % 2 ^ 33 : ℕ) : ℤ) = _
  rw [Nat.mod_eq_of_lt h, Nat.div_eq_of_lt h]
  simp

/-- The reference and the monotonic value behind a raw value that has not
wrapped. -/
theorem clockAdvance_spec (clk : Clock) (ticks : ℤ) (h : clk.monotonicReferenceTicks ≤ ticks) :
    (clockAdvance clk ticks).pendingDiscontinuity = clk.pendingDiscontinuity ∧
      (clockAdvance clk ticks).clockWrapValue = clk.clockWrapValue ∧
      (clockAdvance clk ticks).monotonicReferenceTicks = ticks ∧
      (clockAdvance clk ticks).monotonicTimeTicks =
        clk.monotonicTimeTicks + (ticks - clk.monotonicReferenceTicks) := by
  unfold clockAdvance
  split_ifs with hnew hback
  · exact ⟨rfl, rfl, rfl, rfl⟩
  · refine ⟨rfl, rfl, ?_, ?_⟩ <;> dsimp only <;> omega
  · refine ⟨rfl, rfl, ?_, ?_⟩ <;> omega

theorem clockSetTicks_of_wrap {clk : Clock} {ticks : ℤ}
    (hsettled : clk.pendingDiscontinuity = false)
    (hlow : ticks < clk.currentTimeTicks.tdiv 50) (hvalue : 0 < clk.clockWrapValue) :
    clockSetTicks clk ticks = { clockWrap
      { clk with clockWrapOccurences := clk.clockWrapOccurences + 1 } ticks with
        currentTimeTicks := ticks } := by
  unfold clockSetTicks
  rw [if_neg (by rw [hsettled]; exact Bool.false_ne_true)]
  simp [hlow, hvalue]

theorem clockSetTicks_of_onward {clk : Clock} {ticks : ℤ}
    (hsettled : clk.pendingDiscontinuity = false) (hhigh : clk.currentTimeTicks.tdiv 50 ≤ ticks) :
    clockSetTicks clk ticks = { clockAdvance clk ticks with currentTimeTicks := ticks } := by
  unfold clockSetTicks
  rw [if_neg (by rw [hsettled]; exact Bool.false_ne_true)]
  simp [Int.not_lt.mpr hhigh]

/-- A step of at most a second, which may wrap. -/
theorem LagsAt.setTicks {clk : Clock} {t t' : ℕ} (h : LagsAt clk t) (hle : t ≤ t')
    (hstep : t' ≤ t + 90000) : LagsAt (clockSetTicks clk (t' % 2 ^ 33 : ℕ)) t' := by
  have hfifty : clk.currentTimeTicks.tdiv 50 = ((t % 2 ^ 33 / 50 : ℕ) : ℤ) := by
    rw [h.current]
    rfl
  by_cases hwrap : t' % 2 ^ 33 < t % 2 ^ 33
  · -- the raw value starts again below a second, far below a fiftieth of the last one
    have hdiv : t' / 2 ^ 33 = t / 2 ^ 33 + 1 := by omega
    rw [clockSetTicks_of_wrap h.settled (by rw [hfifty]; omega) (by rw [h.wrapValue]; decide)]
    refine ⟨h.settled, h.wrapValue, rfl, rfl, ?_⟩
    simp only [clockWrap, clockComputeDelta, h.reference, h.monotonic, h.wrapValue, hdiv]
    rw [if_neg (by omega), maxPtsValue]
    omega
  · have hdiv : t' / 2 ^ 33 = t / 2 ^ 33 := by omega
    obtain ⟨hpending, hvalue, href, hmono⟩ := clockAdvance_spec clk
      (t' % 2 ^ 33 : ℕ) (by rw [h.reference]; omega)
    rw [clockSetTicks_of_onward h.settled (by rw [hfifty]; omega)]
    refine ⟨hpending.trans h.settled, hvalue.trans h.wrapValue, rfl, href, ?_⟩
    change (clockAdvance clk _).monotonicTimeTicks = _
    rw [hmono, h.monotonic, h.reference, hdiv]
    omega

/-- The first steps of a timeline. -/
theorem isChain_cons_take {R : ℕ → ℕ → Prop} {t : ℕ} {ts : List ℕ} (h : (t :: ts).IsChain R)
    (n : ℕ) : (t :: ts.take n).IsChain R := by
  have htake := List.IsChain.take h (n + 1)
  rwa [List.take_succ_cons] at htake

/-- A timeline that goes on by at most a second a step. -/
def Steady (ts : List ℕ) : Prop := ts.IsChain fun a b ↦ a ≤ b ∧ b ≤ a + 90000

/-- The tick clock with its wall clock established at `t₀`, after the values of a
timeline. -/
def tickClockAfter (t₀ : ℕ) (ts : List ℕ) : Clock :=
  ts.foldl (fun clk t ↦ clockSetTicks clk (t % 2 ^ 33 : ℕ))
    (clockEstablishWallclock (clockEstablishTimebase clockInitialize 90000) (t₀ % 2 ^ 33 : ℕ))

/-- The corrected clock after `t₀` and the values of a timeline. -/
def correctedClockAfter (t₀ : ℕ) (ts : List ℕ) : CorrectedClock :=
  ts.foldl (fun ctx t ↦ (correctedClockUpdate ctx (t % 2 ^ 33 : ℕ)).2)
    (correctedClockUpdate correctedClockInit (t₀ % 2 ^ 33 : ℕ)).2

theorem clocks_after {t : ℕ} (ts : List ℕ) {clk : Clock} {ctx : CorrectedClock}
    (hclk : LagsAt clk t) (hctx : StandsAt ctx t) (h : Steady (t :: ts)) :
    LagsAt (ts.foldl (fun clk t ↦ clockSetTicks clk (t % 2 ^ 33 : ℕ)) clk) (ts.getLastD t) ∧
      StandsAt (ts.foldl (fun ctx t ↦ (correctedClockUpdate ctx (t % 2 ^ 33 : ℕ)).2) ctx)
        (ts.getLastD t) := by
  induction ts generalizing t clk ctx with
  | nil => exact ⟨hclk, hctx⟩
  | cons t' rest ih =>
      obtain ⟨⟨hle, hstep⟩, hrest⟩ := List.isChain_cons_cons.mp h
      rw [List.getLastD_cons]
      exact ih (hclk.setTicks hle hstep) (hctx.update (by omega) (by omega)) hrest

def AdvancesAgree (t₀ : ℕ) (ts : List ℕ) : Prop :=
  clockGetMonotonicTicks (tickClockAfter t₀ ts) - clockGetMonotonicTicks (tickClockAfter t₀ []) =
      (ts.getLastD t₀ : ℤ) - t₀ ∧
    correctedClockUnwrapped (correctedClockAfter t₀ ts) -
        correctedClockUnwrapped (correctedClockAfter t₀ []) = (ts.getLastD t₀ : ℤ) - t₀

theorem advancesAgree_iff {t₀ : ℕ} {ts : List ℕ} (hstart : t₀ < 2 ^ 33)
    (h : Steady (t₀ :: ts)) : AdvancesAgree t₀ ts ↔ ts.getLastD t₀ < 2 ^ 33 := by
  have hclk := lagsAt_established hstart
  have hctx := standsAt_first hstart
  obtain ⟨hclk', hctx'⟩ := clocks_after ts hclk hctx h
  have hclk₀ : clockGetMonotonicTicks (tickClockAfter t₀ []) = t₀ := by
    have hmono := hclk.monotonic
    rw [Nat.div_eq_of_lt hstart] at hmono
    simpa [clockGetMonotonicTicks, tickClockAfter] using hmono
  have hctx₀ : correctedClockUnwrapped (correctedClockAfter t₀ []) = t₀ := hctx.query
  unfold AdvancesAgree
  rw [hclk₀, hctx₀, show correctedClockUnwrapped (correctedClockAfter t₀ ts) = _ from hctx'.query,
    show clockGetMonotonicTicks (tickClockAfter t₀ ts) = _ from hclk'.monotonic]
  constructor
  · rintro ⟨hlag, -⟩
    omega
  · intro hbelow
    rw [Nat.div_eq_of_lt hbelow]
    simp

/-- Both clocks follow the timeline in every state of a run exactly as long as it
does not wrap: a wrap costs the tick clock a tick, as its wrap value is the
largest time stamp and not the number of time stamps. -/
theorem clocks_agree_iff {t₀ : ℕ} {ts : List ℕ} (hstart : t₀ < 2 ^ 33) (h : Steady (t₀ :: ts)) :
    (∀ n, AdvancesAgree t₀ (ts.take n)) ↔ ∀ t ∈ ts, t < 2 ^ 33 := by
  have hpart : ∀ n, Steady (t₀ :: ts.take n) := isChain_cons_take h
  constructor
  · intro hall t ht
    obtain ⟨n, hn, rfl⟩ := List.getElem_of_mem ht
    have hlast := (advancesAgree_iff hstart (hpart (n + 1))).mp (hall (n + 1))
    rwa [List.take_succ_eq_append_getElem hn, List.getLastD_concat] at hlast
  · intro hbelow n
    refine (advancesAgree_iff hstart (hpart n)).mpr ?_
    rcases List.eq_nil_or_concat (ts.take n) with hnil | ⟨rest, t, hconcat⟩
    · rw [hnil]
      exact hstart
    · rw [hconcat, List.concat_eq_append, List.getLastD_concat]
      exact hbelow t (List.mem_of_mem_take (by rw [hconcat]; simp))

/-- A second of a stream that does not wrap. -/
theorem clocks_agree_second :
    Steady [8589844591, 8589934591] ∧ ∀ n, AdvancesAgree 8589844591 ([8589934591].take n) := by
  have hsteady : Steady [8589844591, 8589934591] := by
    simp [Steady]
  exact ⟨hsteady, (clocks_agree_iff (by norm_num) hsteady).mpr (by simp)⟩

/-- The wrap from the largest time stamp to zero is one tick of the timeline and
none of the tick clock. -/
theorem wrap_loses_tick :
    Steady [8589934591, 8589934592] ∧ ¬AdvancesAgree 8589934591 [8589934592] ∧
      clockGetMonotonicTicks (tickClockAfter 8589934591 [8589934592]) = 8589934591 ∧
      correctedClockUnwrapped (correctedClockAfter 8589934591 [8589934592]) = 8589934592 := by
  have hsteady : Steady [8589934591, 8589934592] := by
    simp [Steady]
  refine ⟨hsteady, fun h ↦ ?_, by decide +kernel, by decide +kernel⟩
  exact absurd ((advancesAgree_iff (by norm_num) hsteady).mp h) (by simp)

end LtnTsTools.Clocks
