import LtnTsTools.TickClock
import LtnTsTools.WhileLoop

/-!
# The monotonic ticks of the tick clock

`ltntstools_clock_add_ticks` of `clocks.c`, and runs of it together with
`ltntstools_clock_set_ticks`.  The monotonic value of a clock stands still or
goes forward in every step but one: a raw value that is taken for a wrap, when
the reference lies more than a period above it.
-/

namespace LtnTsTools.Clocks

open WhileLoop

/-- The first loop of `ltntstools_clock_add_ticks`. -/
def clockReduce : ℕ → Clock → Clock
  | 0, clk => clk
  | fuel + 1, clk =>
      if clk.currentTimeTicks ≥ clk.clockWrapValue then
        clockReduce fuel { clk with
          currentTimeTicks := clk.currentTimeTicks - clk.clockWrapValue
          monotonicReferenceTicks := clk.monotonicReferenceTicks - clk.clockWrapValue
          clockWrapOccurences := clk.clockWrapOccurences + 1 }
      else clk

/-- The second loop of `ltntstools_clock_add_ticks`. -/
def clockRaise : ℕ → Clock → Clock
  | 0, clk => clk
  | fuel + 1, clk =>
      if clk.currentTimeTicks < 0 then
        clockRaise fuel { clk with
          currentTimeTicks := clk.currentTimeTicks + clk.clockWrapValue
          monotonicReferenceTicks := clk.monotonicReferenceTicks + clk.clockWrapValue
          clockWrapOccurences :=
            if clk.clockWrapOccurences > 0 then clk.clockWrapOccurences - 1
            else clk.clockWrapOccurences }
      else clk

/-- The ticks are added to the raw value and its reference, and to the monotonic
value if they go forward. -/
def clockShift (clk : Clock) (ticks : ℤ) : Clock :=
  { clk with
    monotonicTimeTicks :=
      if ticks > 0 then clk.monotonicTimeTicks + ticks else clk.monotonicTimeTicks
    currentTimeTicks := clk.currentTimeTicks + ticks
    monotonicReferenceTicks := clk.monotonicReferenceTicks + ticks }

/-- `ltntstools_clock_add_ticks`.  A round of either loop moves the raw value by
at least one tick, so its distance from zero is fuel enough. -/
def clockAddTicks (clk : Clock) (ticks : ℤ) : Clock :=
  let clk := clockShift clk ticks
  if clk.clockWrapValue > 0 then
    let clk := clockReduce clk.currentTimeTicks.toNat clk
    clockRaise (-clk.currentTimeTicks).toNat clk
  else clk

/-! ## The loops -/

def clockReduceRound (clk : Clock) : Clock :=
  { clk with
    currentTimeTicks := clk.currentTimeTicks - clk.clockWrapValue
    monotonicReferenceTicks := clk.monotonicReferenceTicks - clk.clockWrapValue
    clockWrapOccurences := clk.clockWrapOccurences + 1 }

def clockRaiseRound (clk : Clock) : Clock :=
  { clk with
    currentTimeTicks := clk.currentTimeTicks + clk.clockWrapValue
    monotonicReferenceTicks := clk.monotonicReferenceTicks + clk.clockWrapValue
    clockWrapOccurences :=
      if clk.clockWrapOccurences > 0 then clk.clockWrapOccurences - 1
      else clk.clockWrapOccurences }

theorem clockReduce_eq (fuel : ℕ) (clk : Clock) : clockReduce fuel clk =
    fueled (fun clk ↦ clk.currentTimeTicks ≥ clk.clockWrapValue) clockReduceRound fuel clk := by
  induction fuel generalizing clk with
  | zero => rfl
  | succ fuel ih =>
      rw [clockReduce, fueled, ← ih]
      rfl

theorem clockRaise_eq (fuel : ℕ) (clk : Clock) : clockRaise fuel clk =
    fueled (fun clk ↦ clk.currentTimeTicks < 0) clockRaiseRound fuel clk := by
  induction fuel generalizing clk with
  | zero => rfl
  | succ fuel ih =>
      rw [clockRaise, fueled, ← ih]
      rfl

/-- The first loop ends: a round lowers the raw value. -/
theorem ends_clockReduce {clk : Clock} (hpos : 0 < clk.clockWrapValue) :
    Ends (fun clk ↦ clk.currentTimeTicks ≥ clk.clockWrapValue) clockReduceRound clk
      (clockReduce clk.currentTimeTicks.toNat clk) := by
  rw [clockReduce_eq]
  refine ends_fueled (fun clk ↦ 0 < clk.clockWrapValue) (fun clk ↦ clk.currentTimeTicks.toNat) ?_
    hpos le_rfl
  intro clk hhigh hpos
  refine ⟨hpos, ?_⟩
  simp only [clockReduceRound]
  omega

/-- The second loop ends: a round raises the raw value. -/
theorem ends_clockRaise {clk : Clock} (hpos : 0 < clk.clockWrapValue) :
    Ends (fun clk ↦ clk.currentTimeTicks < 0) clockRaiseRound clk
      (clockRaise (-clk.currentTimeTicks).toNat clk) := by
  rw [clockRaise_eq]
  refine ends_fueled (fun clk ↦ 0 < clk.clockWrapValue) (fun clk ↦ (-clk.currentTimeTicks).toNat) ?_
    hpos le_rfl
  intro clk hlow hpos
  refine ⟨hpos, ?_⟩
  simp only [clockRaiseRound]
  omega

/-- What neither loop touches. -/
def SameTimeline (clk clk' : Clock) : Prop :=
  clk'.monotonicTimeTicks = clk.monotonicTimeTicks ∧ clk'.clockWrapValue = clk.clockWrapValue ∧
    clk'.pendingDiscontinuity = clk.pendingDiscontinuity

theorem SameTimeline.trans {a b c : Clock} (hab : SameTimeline a b) (hbc : SameTimeline b c) :
    SameTimeline a c :=
  ⟨hbc.1.trans hab.1, hbc.2.1.trans hab.2.1, hbc.2.2.trans hab.2.2⟩

theorem sameTimeline_clockReduce (fuel : ℕ) (clk : Clock) :
    SameTimeline clk (clockReduce fuel clk) := by
  rw [clockReduce_eq]
  apply fueled_invariant (SameTimeline clk)
  · exact fun _ _ h ↦ h
  · exact ⟨rfl, rfl, rfl⟩

theorem sameTimeline_clockRaise (fuel : ℕ) (clk : Clock) :
    SameTimeline clk (clockRaise fuel clk) := by
  rw [clockRaise_eq]
  apply fueled_invariant (SameTimeline clk)
  · exact fun _ _ h ↦ h
  · exact ⟨rfl, rfl, rfl⟩

/-- The first loop ends below the wrap value. -/
theorem clockReduce_current_lt {clk : Clock} (hpos : 0 < clk.clockWrapValue) :
    (clockReduce clk.currentTimeTicks.toNat clk).currentTimeTicks < clk.clockWrapValue := by
  have hexit := (ends_clockReduce hpos).exit
  rw [(sameTimeline_clockReduce _ clk).2.1] at hexit
  exact Int.not_le.mp hexit

/-- The second loop ends at zero or above, and still below the wrap value. -/
theorem clockRaise_current_mem {clk : Clock} (hlt : clk.currentTimeTicks < clk.clockWrapValue)
    (hpos : 0 < clk.clockWrapValue) :
    0 ≤ (clockRaise (-clk.currentTimeTicks).toNat clk).currentTimeTicks ∧
      (clockRaise (-clk.currentTimeTicks).toNat clk).currentTimeTicks < clk.clockWrapValue := by
  have hends := ends_clockRaise hpos
  refine ⟨Int.not_lt.mp hends.exit, ?_⟩
  have hbelow := hends.invariant (fun clk ↦ clk.currentTimeTicks < clk.clockWrapValue) ?_ hlt
  · rwa [(sameTimeline_clockRaise _ clk).2.1] at hbelow
  · intro clk hneg _
    simp only [clockRaiseRound]
    omega

theorem sameTimeline_clockAddTicks (clk : Clock) (ticks : ℤ) :
    SameTimeline (clockShift clk ticks) (clockAddTicks clk ticks) := by
  simp only [clockAddTicks]
  split_ifs
  · exact (sameTimeline_clockReduce _ _).trans (sameTimeline_clockRaise _ _)
  · exact ⟨rfl, rfl, rfl⟩

theorem clockAddTicks_current_mem {clk : Clock} (hpos : 0 < clk.clockWrapValue) (ticks : ℤ) :
    0 ≤ (clockAddTicks clk ticks).currentTimeTicks ∧
      (clockAddTicks clk ticks).currentTimeTicks < clk.clockWrapValue := by
  have hsame := sameTimeline_clockReduce (clockShift clk ticks).currentTimeTicks.toNat
    (clockShift clk ticks)
  have hlt := @clockReduce_current_lt (clockShift clk ticks) hpos
  have hmem := clockRaise_current_mem (hlt.trans_eq hsame.2.1.symm)
    (hpos.trans_eq hsame.2.1.symm)
  rw [hsame.2.1] at hmem
  simp only [clockAddTicks]
  rw [if_pos (show (clockShift clk ticks).clockWrapValue > 0 from hpos)]
  exact hmem

/-! ## Runs -/

inductive ClockCall
  | setTicks (ticks : ℤ)
  | addTicks (ticks : ℤ)
deriving DecidableEq

def clockCall (clk : Clock) : ClockCall → Clock
  | .setTicks ticks => clockSetTicks clk ticks
  | .addTicks ticks => clockAddTicks clk ticks

def clockAfter (clk : Clock) (calls : List ClockCall) : Clock := calls.foldl clockCall clk

/-- A clock with a timebase, with or without an established wall clock. -/
def Established (ticksPerSecond : ℤ) (clk : Clock) : Prop :=
  clk = clockEstablishTimebase clockInitialize ticksPerSecond ∨
    ∃ ticks, 0 ≤ ticks ∧ ticks < clk.clockWrapValue ∧
      clk = clockEstablishWallclock (clockEstablishTimebase clockInitialize ticksPerSecond) ticks

/-- A clock that has a wrap value and waits for no new timeline. -/
structure Wrapping (clk : Clock) : Prop where
  settled : clk.pendingDiscontinuity = false
  wrapValue_pos : 0 < clk.clockWrapValue

theorem clockEstablishTimebase_wrapping (clk : Clock) (ticksPerSecond : ℤ) :
    Wrapping (clockEstablishTimebase clk ticksPerSecond) := by
  refine ⟨rfl, ?_⟩
  simp only [clockEstablishTimebase]
  split_ifs <;> decide

theorem Established.wrapping {ticksPerSecond : ℤ} {clk : Clock}
    (h : Established ticksPerSecond clk) : Wrapping clk := by
  have hbase := clockEstablishTimebase_wrapping clockInitialize ticksPerSecond
  rcases h with rfl | ⟨ticks, -, -, rfl⟩
  · exact hbase
  · exact ⟨rfl, hbase.wrapValue_pos⟩

theorem clockAdvance_frame (clk : Clock) (ticks : ℤ) :
    (clockAdvance clk ticks).pendingDiscontinuity = clk.pendingDiscontinuity ∧
      (clockAdvance clk ticks).clockWrapValue = clk.clockWrapValue ∧
      clk.monotonicTimeTicks ≤ (clockAdvance clk ticks).monotonicTimeTicks := by
  unfold clockAdvance
  split_ifs with hnew
  · exact ⟨rfl, rfl, by dsimp only; omega⟩
  · exact ⟨rfl, rfl, le_rfl⟩
  · exact ⟨rfl, rfl, le_rfl⟩

theorem clockCall_frame {clk : Clock} (h : Wrapping clk) (call : ClockCall) :
    (clockCall clk call).pendingDiscontinuity = false ∧
      (clockCall clk call).clockWrapValue = clk.clockWrapValue := by
  cases call with
  | setTicks ticks =>
      rcases lt_or_ge ticks (clk.currentTimeTicks.tdiv 50) with hlow | hhigh
      · rw [clockCall, clockSetTicks_of_wrap h.settled hlow h.wrapValue_pos]
        exact ⟨h.settled, rfl⟩
      · obtain ⟨hpending, hwrap, -⟩ := clockAdvance_frame clk ticks
        rw [clockCall, clockSetTicks_of_onward h.settled hhigh]
        exact ⟨hpending.trans h.settled, hwrap⟩
  | addTicks ticks =>
      obtain ⟨-, hwrap, hpending⟩ := sameTimeline_clockAddTicks clk ticks
      exact ⟨hpending.trans h.settled, hwrap⟩

theorem Wrapping.clockCall {clk : Clock} (h : Wrapping clk) (call : ClockCall) :
    Wrapping (clockCall clk call) := by
  obtain ⟨hpending, hwrap⟩ := clockCall_frame h call
  exact ⟨hpending, h.wrapValue_pos.trans_eq hwrap.symm⟩

theorem Wrapping.clockAfter {clk : Clock} (h : Wrapping clk) (calls : List ClockCall) :
    Wrapping (clockAfter clk calls) := by
  induction calls generalizing clk with
  | nil => exact h
  | cons call rest ih => exact ih (h.clockCall call)

/-- A raw value of the clock, or a step of less than a period. -/
def ClockCall.InRange (wrapValue : ℤ) : ClockCall → Prop
  | .setTicks ticks => 0 ≤ ticks ∧ ticks < wrapValue
  | .addTicks ticks => |ticks| < wrapValue

instance (wrapValue : ℤ) : ∀ call : ClockCall, Decidable (call.InRange wrapValue)
  | .setTicks _ => inferInstanceAs (Decidable (_ ∧ _))
  | .addTicks _ => inferInstanceAs (Decidable (_ < _))

/-- A raw value that is taken for a wrap finds the reference at most a period
above it. -/
def ReferenceInReach (clk : Clock) : ClockCall → Prop
  | .setTicks ticks => ticks < clk.currentTimeTicks.tdiv 50 →
      clk.monotonicReferenceTicks ≤ clk.clockWrapValue + ticks
  | .addTicks _ => True

instance (clk : Clock) : ∀ call, Decidable (ReferenceInReach clk call)
  | .setTicks _ => inferInstanceAs (Decidable (_ → _))
  | .addTicks _ => inferInstanceAs (Decidable True)

/-- The one step that can take the monotonic clock back. -/
theorem monotonicTicks_clockCall_iff {clk : Clock} (h : Wrapping clk) (call : ClockCall) :
    clockGetMonotonicTicks clk ≤ clockGetMonotonicTicks (clockCall clk call) ↔
      ReferenceInReach clk call := by
  have hpos := h.wrapValue_pos
  cases call with
  | setTicks ticks =>
      rcases lt_or_ge ticks (clk.currentTimeTicks.tdiv 50) with hlow | hhigh
      · rw [clockCall, clockSetTicks_of_wrap h.settled hlow hpos]
        simp only [ReferenceInReach, clockGetMonotonicTicks, clockWrap, clockComputeDelta, hlow,
          true_imp_iff]
        split_ifs <;> omega
      · obtain ⟨-, -, hmono⟩ := clockAdvance_frame clk ticks
        rw [clockCall, clockSetTicks_of_onward h.settled hhigh]
        exact iff_of_true hmono fun hlow ↦ absurd hlow (Int.not_lt.mpr hhigh)
  | addTicks ticks =>
      obtain ⟨hmono, -, -⟩ := sameTimeline_clockAddTicks clk ticks
      refine iff_of_true ?_ trivial
      rw [clockGetMonotonicTicks, clockGetMonotonicTicks, clockCall, hmono]
      simp only [clockShift]
      split_ifs <;> omega

theorem clockAfter_take_succ (clk : Clock) {calls : List ClockCall} {n : ℕ}
    (hn : n < calls.length) :
    clockAfter clk (calls.take (n + 1)) = clockCall (clockAfter clk (calls.take n)) calls[n] := by
  rw [List.take_succ_eq_append_getElem hn]
  exact List.foldl_append

/-- The monotonic ticks never decrease along a run exactly when every call finds
the reference in reach. -/
theorem monotonicTicks_monotone_iff {ticksPerSecond : ℤ} {clk : Clock}
    (h : Established ticksPerSecond clk) (calls : List ClockCall) :
    (Monotone fun n ↦ clockGetMonotonicTicks (clockAfter clk (calls.take n))) ↔
      ∀ n (hn : n < calls.length), ReferenceInReach (clockAfter clk (calls.take n)) calls[n] := by
  have hstep : ∀ n (hn : n < calls.length),
      clockGetMonotonicTicks (clockAfter clk (calls.take n)) ≤
          clockGetMonotonicTicks (clockAfter clk (calls.take (n + 1))) ↔
        ReferenceInReach (clockAfter clk (calls.take n)) calls[n] := fun n hn ↦ by
    rw [clockAfter_take_succ clk hn]
    exact monotonicTicks_clockCall_iff (h.wrapping.clockAfter _) _
  constructor
  · intro hmono n hn
    exact (hstep n hn).mp (hmono n.le_succ)
  · intro hreach
    refine monotone_nat_of_le_succ fun n ↦ ?_
    rcases lt_or_ge n calls.length with hn | hn
    · exact (hstep n hn).mpr (hreach n hn)
    · rw [List.take_of_length_le hn, List.take_of_length_le (hn.trans n.le_succ)]

/-- A stream at 90 kHz that wraps twice. -/
theorem monotonicTicks_monotone_wraps :
    Established 90000 (clockEstablishTimebase clockInitialize 90000) ∧
      Monotone fun n ↦ clockGetMonotonicTicks
        (clockAfter (clockEstablishTimebase clockInitialize 90000)
          ([.setTicks 8589934500, .setTicks 400, .addTicks 8589934500, .setTicks 200].take n)) := by
  have hclk : Established 90000 (clockEstablishTimebase clockInitialize 90000) := Or.inl rfl
  exact ⟨hclk, (monotonicTicks_monotone_iff hclk _).mpr (by decide +kernel)⟩

/-- The raw value jumps back without being taken for a wrap, is brought to its end
by added ticks, which carry the reference beyond it, and then wraps. -/
theorem monotonicTicks_decrease :
    Established 90000 (clockEstablishWallclock
        (clockEstablishTimebase clockInitialize 90000) 8589934590) ∧
      (∀ call ∈ [ClockCall.setTicks 171798691, .addTicks 8418135899, .setTicks 0],
        call.InRange 8589934591) ∧
      clockGetMonotonicTicks (clockAfter (clockEstablishWallclock
        (clockEstablishTimebase clockInitialize 90000) 8589934590)
        [.setTicks 171798691, .addTicks 8418135899]) = 17008070489 ∧
      clockGetMonotonicTicks (clockAfter (clockEstablishWallclock
        (clockEstablishTimebase clockInitialize 90000) 8589934590)
        [.setTicks 171798691, .addTicks 8418135899, .setTicks 0]) = 8589934591 := by
  refine ⟨Or.inr ⟨8589934590, ?_, ?_, rfl⟩, ?_, ?_, ?_⟩ <;> decide +kernel

end LtnTsTools.Clocks
