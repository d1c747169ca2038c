import LtnTsTools.TransportPacket

/-!
# Stream statistics

The counters that `ltntstools_pid_stats_update` keeps over a multiplex: those of
each pid, those of the stream, and the clock of the bitrate calculator.  The
wall-clock measurements of the same function (rates, intervals, drift and their
histograms) are left out; no counter depends on them.  A pid that has not been
seen yet has all its counters at zero, as the record the source allocates on
first sight.
-/

namespace LtnTsTools.Stats

/-! ## Single packets -/

/-- `ltntstools_isCCInError`. -/
def isCCInError (pkt : Packet) (oldCC : ℕ) : Bool :=
  let adap := Ts.adaptionFieldControl pkt
  let cc := Ts.continuityCounter pkt
  if (adap = 0 ∨ adap = 2) ∧ oldCC = cc then false
  else if (adap = 1 ∨ adap = 3) ∧ oldCC = cc then true
  else if (oldCC + 1) &&& 0x0f = cc then false
  else true

/-- `ltntstools_isPayloadPUSIInError`. -/
def isPayloadPUSIInError (pkt : Packet) : Bool :=
  let adap := Ts.adaptionFieldControl pkt
  (adap == 0 || adap == 2) && Ts.payloadUnitStartIndicator pkt

/-- `struct ltntstools_pid_statistics_s`. -/
structure PidStatistics where
  packetCount : ℕ
  ccErrors : ℕ
  lastCC : ℕ
  payloadPUSIErrors : ℕ
  scrambledCount : ℕ
  teiErrors : ℕ
deriving DecidableEq

/-- A record from `calloc`. -/
def PidStatistics.zero : PidStatistics := ⟨0, 0, 0, 0, 0, 0⟩

/-- `struct ltntstools_bc_ctx_s`, without the floating point rate. -/
structure BitrateCalculator where
  running : Bool
  pcrpidnr : ℕ
  pcrFirst : ℤ
  pcrSecond : ℤ
  packetsInbetween : ℕ
  ticksPerPCR : ℤ
  ticksPerPacket : ℤ
  stc : ℤ
  ccErrorsStreamLastWrite : ℕ
deriving DecidableEq

/-- `struct ltntstools_stream_statistics_s`. -/
structure StreamStatistics where
  pids : ℕ → PidStatistics
  packetCount : ℕ
  ccErrors : ℕ
  notMultipleOfSevenError : ℕ
  payloadPUSIErrors : ℕ
  scrambledCount : ℕ
  teiErrors : ℕ
  bc : BitrateCalculator

/-! ## The bitrate calculator -/

def bitrateCalculatorReset (bc : BitrateCalculator) : BitrateCalculator :=
  { bc with pcrFirst := -1, pcrSecond := -1, packetsInbetween := 0, running := true }

/-- The clock fields once a packet has given a second reference; a useless one
ends the loop. -/
def bitrateCalculatorMeasure (bc : BitrateCalculator) : BitrateCalculator × Bool :=
  let ticksPerPCR := Ts.scrDiff bc.pcrFirst bc.pcrSecond
  if ticksPerPCR ≤ 0 ∨ bc.packetsInbetween = 0 then (bitrateCalculatorReset bc, false)
  else (bitrateCalculatorReset { bc with
    ticksPerPCR := ticksPerPCR
    ticksPerPacket := ticksPerPCR.tdiv bc.packetsInbetween }, true)

/-- One packet of the loop in `ltntstools_bitrate_calculator_write`, in a stream
with the given number of errors, and whether the loop goes on. -/
def bitrateCalculatorTurn (bc : BitrateCalculator) (ccErrors : ℕ) (pkt : Packet) :
    BitrateCalculator × Bool :=
  if bc.ccErrorsStreamLastWrite ≠ ccErrors then
    ({ bitrateCalculatorReset bc with ccErrorsStreamLastWrite := ccErrors }, false)
  else
    let bc := if bc.pcrFirst > -1 ∧ bc.pcrSecond = -1 then
      { bc with packetsInbetween := (bc.packetsInbetween + 1) % 2 ^ 32 } else bc
    if Ts.pid pkt ≠ bc.pcrpidnr ∧ bc.pcrFirst = -1 then (bc, true)
    else
      let bc := match Ts.scr pkt with
        | none => bc
        | some pcr => if bc.pcrFirst = -1 then { bc with pcrFirst := pcr, packetsInbetween := 0 }
            else { bc with pcrSecond := pcr, stc := pcr }
      if bc.pcrFirst > -1 ∧ bc.pcrSecond > -1 then bitrateCalculatorMeasure bc else (bc, true)

def bitrateCalculatorLoop (bc : BitrateCalculator) (ccErrors : ℕ) : List Packet → BitrateCalculator
  | [] => bc
  | pkt :: rest =>
      let turn := bitrateCalculatorTurn bc ccErrors pkt
      if turn.2 then bitrateCalculatorLoop turn.1 ccErrors rest else turn.1

/-- `ltntstools_bitrate_calculator_write`. -/
def bitrateCalculatorWrite (bc : BitrateCalculator) (ccErrors : ℕ) (pkts : List Packet) :
    BitrateCalculator :=
  let bc := { bc with stc := bc.stc + pkts.length * bc.ticksPerPacket }
  if bc.running = false then bc else bitrateCalculatorLoop bc ccErrors pkts

/-! ## The update -/

/-- A record from `ltntstools_pid_stats_alloc`. -/
def pidStatsAlloc : StreamStatistics where
  pids := fun _ ↦ PidStatistics.zero
  packetCount := 0
  ccErrors := 0
  notMultipleOfSevenError := 0
  payloadPUSIErrors := 0
  scrambledCount := 0
  teiErrors := 0
  bc := bitrateCalculatorReset
    { running := false, pcrpidnr := 0, pcrFirst := 0, pcrSecond := 0, packetsInbetween := 0,
      ticksPerPCR := 0, ticksPerPacket := 0, stc := 0, ccErrorsStreamLastWrite := 0 }

/-- `ltntstools_pid_stats_pid_set_contains_pcr`, as far as the bitrate
calculator is concerned. -/
def pidSetContainsPcr (stream : StreamStatistics) (pidnr : ℕ) : StreamStatistics :=
  { stream with bc := bitrateCalculatorReset { stream.bc with
      pcrpidnr := pidnr &&& 0x1fff
      ccErrorsStreamLastWrite := stream.ccErrors } }

def breaksContinuity (pid : PidStatistics) (pkt : Packet) : Bool :=
  isCCInError pkt pid.lastCC && decide (pid.packetCount + 1 > 1) && Ts.pid pkt != 0x1fff

def updatePid (pid : PidStatistics) (pkt : Packet) : PidStatistics where
  packetCount := pid.packetCount + 1
  ccErrors := pid.ccErrors + (breaksContinuity pid pkt).toNat
  lastCC := Ts.continuityCounter pkt
  payloadPUSIErrors := pid.payloadPUSIErrors + (isPayloadPUSIInError pkt).toNat
  scrambledCount := pid.scrambledCount + (Ts.transportScramblingControl pkt != 0).toNat
  teiErrors := pid.teiErrors + (Ts.teiSet pkt).toNat

/-- A packet of the first loop: without the sync byte it is an error of the
stream. -/
def countPacket (stream : StreamStatistics) (pkt : Packet) : StreamStatistics :=
  if Ts.syncPresent pkt then { stream with packetCount := stream.packetCount + 1 }
  else { stream with ccErrors := stream.ccErrors + 1 }

/-- A packet of the second loop: the counters of its pid, and those of the stream
that follow them. -/
def notePacket (stream : StreamStatistics) (pkt : Packet) : StreamStatistics :=
  let pid := stream.pids (Ts.pid pkt)
  { stream with
    pids := Function.update stream.pids (Ts.pid pkt) (updatePid pid pkt)
    ccErrors := stream.ccErrors + (breaksContinuity pid pkt).toNat
    payloadPUSIErrors := stream.payloadPUSIErrors + (isPayloadPUSIInError pkt).toNat
    scrambledCount := stream.scrambledCount + (Ts.transportScramblingControl pkt != 0).toNat
    teiErrors := stream.teiErrors + (Ts.teiSet pkt).toNat }

/-- The part of `ltntstools_pid_stats_update` in front of its loops. -/
def noteCall (stream : StreamStatistics) (pkts : List Packet) : StreamStatistics :=
  { stream with
    notMultipleOfSevenError := stream.notMultipleOfSevenError + (pkts.length != 7).toNat
    bc := if stream.bc.pcrpidnr ≠ 0 then bitrateCalculatorWrite stream.bc stream.ccErrors pkts
      else stream.bc }

/-- `ltntstools_pid_stats_update`. -/
def pidStatsUpdate (stream : StreamStatistics) (pkts : List Packet) : StreamStatistics :=
  pkts.foldl notePacket (pkts.foldl countPacket (noteCall stream pkts))

@[simp] theorem pids_noteCall (stream : StreamStatistics) (pkts : List Packet) :
    (noteCall stream pkts).pids = stream.pids := rfl

@[simp] theorem ccErrors_noteCall (stream : StreamStatistics) (pkts : List Packet) :
    (noteCall stream pkts).ccErrors = stream.ccErrors := rfl

@[simp] theorem pids_countPacket (stream : StreamStatistics) (pkt : Packet) :
    (countPacket stream pkt).pids = stream.pids := by
  unfold countPacket
  split_ifs <;> rfl

@[simp] theorem ccErrors_countPacket (stream : StreamStatistics) (pkt : Packet) :
    (countPacket stream pkt).ccErrors = stream.ccErrors + (!Ts.syncPresent pkt).toNat := by
  unfold countPacket
  split_ifs with h <;> simp [h]

@[simp] theorem pids_foldl_countPacket (pkts : List Packet) (stream : StreamStatistics) :
    (pkts.foldl countPacket stream).pids = stream.pids := by
  induction pkts generalizing stream with
  | nil => rfl
  | cons pkt rest ih => rw [List.foldl_cons, ih, pids_countPacket]

@[simp] theorem pids_notePacket_self (stream : StreamStatistics) (pkt : Packet) :
    (notePacket stream pkt).pids (Ts.pid pkt) = updatePid (stream.pids (Ts.pid pkt)) pkt := by
  simp [notePacket]

/-- A packet leaves the counters of all other pids alone. -/
theorem pids_notePacket_of_ne {stream : StreamStatistics} {pkt : Packet} {p : ℕ}
    (h : Ts.pid pkt ≠ p) : (notePacket stream pkt).pids p = stream.pids p := by
  simp [notePacket, Function.update_of_ne (Ne.symm h)]

/-- After a counter `old`, a packet with payload is in error unless its counter
is the next one. -/
theorem isCCInError_of_payload {pkt : Packet} {old : ℕ}
    (hpay : Ts.adaptionFieldControl pkt = 1 ∨ Ts.adaptionFieldControl pkt = 3) :
    isCCInError pkt old = true ↔ Ts.continuityCounter pkt ≠ (old + 1) % 16 := by
  have hnone : ¬((Ts.adaptionFieldControl pkt = 0 ∨ Ts.adaptionFieldControl pkt = 2) ∧
      old = Ts.continuityCounter pkt) := by omega
  unfold isCCInError
  simp only [and_f, if_neg hnone]
  split_ifs with hsame hnext
  · simp only [true_iff]
    omega
  · simp [hnext]
  · simpa using Ne.symm hnext

end LtnTsTools.Stats
