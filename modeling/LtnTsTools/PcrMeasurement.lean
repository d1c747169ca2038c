import LtnTsTools.StreamStatistics
import LtnTsTools.PartialMachine

/-!
# Measuring with the clock references of one pid

What the bitrate calculator of `stats.c` is for: from two successive clock
references of the chosen pid it measures the ticks of a packet, and it sets the
system clock to the second one.  The calculator asks for the pid of the first
reference only.  As long as no other pid carries a reference while the second one is
awaited, it is a measurement of the chosen pid and nothing else in the stream
matters to it.
-/

namespace LtnTsTools.Stats

open PartialMachine

def ownPcr (pid : ℕ) (pkt : Packet) : Option ℕ := if Ts.pid pkt = pid then Ts.scr pkt else none

/-- `ticksPerPCR`, `ticksPerPacket` and `stc`. -/
structure Reading where
  ticksPerPCR : ℤ
  ticksPerPacket : ℤ
  stc : ℤ
deriving DecidableEq

def BitrateCalculator.reading (bc : BitrateCalculator) : Reading :=
  ⟨bc.ticksPerPCR, bc.ticksPerPacket, bc.stc⟩

/-- One packet per call, and what can be read behind the call. -/
def feed (stream : StreamStatistics) (pkt : Packet) : Option (StreamStatistics × Reading) :=
  some (pidStatsUpdate stream [pkt], (pidStatsUpdate stream [pkt]).bc.reading)

/-- No other pid carries a reference while the second one is awaited. -/
def Undisturbed (stream : StreamStatistics) (pkt : Packet) : Prop :=
  stream.bc.pcrFirst ≠ -1 → Ts.pid pkt ≠ stream.bc.pcrpidnr → Ts.scr pkt = none

instance (stream : StreamStatistics) (pkt : Packet) : Decidable (Undisturbed stream pkt) :=
  inferInstanceAs (Decidable (_ → _ → _))

/-! ## The measurement -/

/-- A measurement: the first reference with the packets since, and the reading. -/
structure Measurement where
  first : Option (ℕ × ℕ)
  reading : Reading
deriving DecidableEq

/-- A packet passes: the clock goes on by its ticks. -/
def Reading.advance (r : Reading) : Reading := { r with stc := r.stc + r.ticksPerPacket }

/-- The second reference, `n` packets behind the first; the packets are counted in
32 bits. -/
def Reading.measure (r : Reading) (first n second : ℕ) : Reading :=
  if Ts.scrDiff first second ≤ 0 ∨ n % 2 ^ 32 = 0 then { r with stc := second }
  else ⟨Ts.scrDiff first second, (Ts.scrDiff first second).tdiv (n % 2 ^ 32 : ℕ), second⟩

def Measurement.next (m : Measurement) (own : Option ℕ) : Measurement :=
  match m.first, own with
  | none, none => ⟨none, m.reading.advance⟩
  | none, some pcr => ⟨some (pcr, 0), m.reading.advance⟩
  | some (first, n), none => ⟨some (first, n + 1), m.reading.advance⟩
  | some (first, n), some pcr => ⟨none, m.reading.advance.measure first (n + 1) pcr⟩

def measure (m : Measurement) (own : Option ℕ) : Measurement × Reading :=
  (m.next own, (m.next own).reading)

/-! ## The calculator -/

structure Measures (pid ccErrors : ℕ) (bc : BitrateCalculator) (m : Measurement) : Prop where
  pid_eq : bc.pcrpidnr = pid
  running : bc.running = true
  second : bc.pcrSecond = -1
  errors : bc.ccErrorsStreamLastWrite = ccErrors
  reading : bc.reading = m.reading
  first : match m.first with
    | none => bc.pcrFirst = -1
    | some (first, n) => bc.pcrFirst = first ∧ bc.packetsInbetween = n % 2 ^ 32

theorem bitrateCalculatorWrite_one {bc : BitrateCalculator} (hrunning : bc.running = true)
    (ccErrors : ℕ) (pkt : Packet) :
    bitrateCalculatorWrite bc ccErrors [pkt] =
      (bitrateCalculatorTurn { bc with stc := bc.stc + bc.ticksPerPacket } ccErrors pkt).1 := by
  simp [bitrateCalculatorWrite, bitrateCalculatorLoop, hrunning]

section Turn

variable (bc : BitrateCalculator) {pkt : Packet}

theorem turn_without_first (hfirst : bc.pcrFirst = -1)
    (hown : ownPcr bc.pcrpidnr pkt = none) :
    (bitrateCalculatorTurn bc bc.ccErrorsStreamLastWrite pkt).1 = bc := by
  unfold ownPcr at hown
  split_ifs at hown with hpid
  · simp [bitrateCalculatorTurn, hfirst, hpid, hown]
  · simp [bitrateCalculatorTurn, hfirst, hpid]

theorem turn_to_first {pcr : ℕ} (hfirst : bc.pcrFirst = -1) (hsecond : bc.pcrSecond = -1)
    (hown : ownPcr bc.pcrpidnr pkt = some pcr) :
    (bitrateCalculatorTurn bc bc.ccErrorsStreamLastWrite pkt).1 =
      { bc with pcrFirst := pcr, packetsInbetween := 0 } := by
  unfold ownPcr at hown
  split_ifs at hown with hpid
  simp [bitrateCalculatorTurn, hfirst, hsecond, hpid, hown]

theorem turn_without_second {first : ℕ} (hfirst : bc.pcrFirst = first)
    (hsecond : bc.pcrSecond = -1) (hscr : Ts.scr pkt = none) :
    (bitrateCalculatorTurn bc bc.ccErrorsStreamLastWrite pkt).1 =
      { bc with packetsInbetween := (bc.packetsInbetween + 1) % 2 ^ 32 } := by
  have hset : bc.pcrFirst > -1 := by omega
  have hne : bc.pcrFirst ≠ -1 := by omega
  simp [bitrateCalculatorTurn, hset, hne, hsecond, hscr]

theorem turn_to_second {first pcr : ℕ} (hfirst : bc.pcrFirst = first)
    (hsecond : bc.pcrSecond = -1) (hscr : Ts.scr pkt = some pcr) :
    (bitrateCalculatorTurn bc bc.ccErrorsStreamLastWrite pkt).1 =
      (bitrateCalculatorMeasure { bc with
        packetsInbetween := (bc.packetsInbetween + 1) % 2 ^ 32
        pcrSecond := pcr
        stc := pcr }).1 := by
  have hset : bc.pcrFirst > -1 := by omega
  have hne : bc.pcrFirst ≠ -1 := by omega
  have hpcr : (pcr : ℤ) > -1 := by omega
  simp [bitrateCalculatorTurn, hset, hne, hsecond, hscr, hpcr]

end Turn

/-- Useful or not, a second reference starts the calculator again. -/
theorem bitrateCalculatorMeasure_restarts (bc : BitrateCalculator) :
    ∃ r : Reading, (bitrateCalculatorMeasure bc).1 = bitrateCalculatorReset
      { bc with ticksPerPCR := r.ticksPerPCR, ticksPerPacket := r.ticksPerPacket } := by
  unfold bitrateCalculatorMeasure
  dsimp only
  split_ifs with huseless
  · exact ⟨bc.reading, rfl⟩
  · exact ⟨⟨_, _, 0⟩, rfl⟩

theorem bitrateCalculatorMeasure_reading (bc : BitrateCalculator) {first n second : ℕ}
    (hfirst : bc.pcrFirst = first) (hsecond : bc.pcrSecond = second) (hstc : bc.stc = second)
    (hn : bc.packetsInbetween = n % 2 ^ 32) :
    (bitrateCalculatorMeasure bc).1.reading = bc.reading.measure first n second := by
  unfold bitrateCalculatorMeasure Reading.measure
  simp only [hfirst, hsecond, hn]
  split_ifs with huseless
  · simp [bitrateCalculatorReset, BitrateCalculator.reading, hstc]
  · simp [bitrateCalculatorReset, BitrateCalculator.reading, hstc]

theorem measures_of_second (bc : BitrateCalculator) {first n second : ℕ}
    (hfirst : bc.pcrFirst = first) (hsecond : bc.pcrSecond = second) (hstc : bc.stc = second)
    (hn : bc.packetsInbetween = n % 2 ^ 32) :
    Measures bc.pcrpidnr bc.ccErrorsStreamLastWrite (bitrateCalculatorMeasure bc).1
      ⟨none, bc.reading.measure first n second⟩ := by
  have hmeasured := bitrateCalculatorMeasure_reading bc hfirst hsecond hstc hn
  obtain ⟨r, hrestart⟩ := bitrateCalculatorMeasure_restarts bc
  rw [hrestart] at hmeasured ⊢
  exact ⟨rfl, rfl, rfl, rfl, hmeasured, rfl⟩

/-- Where no other pid may carry a reference, all are of the pid. -/
theorem ownPcr_eq_scr {pid : ℕ} {pkt : Packet} (h : Ts.pid pkt ≠ pid → Ts.scr pkt = none) :
    ownPcr pid pkt = Ts.scr pkt := by
  unfold ownPcr
  split_ifs with hpid
  · rfl
  · exact (h hpid).symm

theorem Measures.write {pid ccErrors : ℕ} {bc : BitrateCalculator} {m : Measurement} {pkt : Packet}
    (h : Measures pid ccErrors bc m)
    (hpkt : bc.pcrFirst ≠ -1 → Ts.pid pkt ≠ bc.pcrpidnr → Ts.scr pkt = none) :
    Measures pid ccErrors (bitrateCalculatorWrite bc ccErrors [pkt]) (m.next (ownPcr pid pkt)) := by
  obtain ⟨rfl, hrunning, hsecond, rfl, hreading, hfirst⟩ := h
  rw [bitrateCalculatorWrite_one hrunning]
  obtain ⟨first, reading⟩ := m
  obtain rfl : bc.reading = reading := hreading
  -- the calculator of the turn, with the clock moved on
  set now : BitrateCalculator := { bc with stc := bc.stc + bc.ticksPerPacket }
  have hadvance : now.reading = bc.reading.advance := rfl
  cases first with
  | none =>
      cases hown : ownPcr bc.pcrpidnr pkt with
      | none =>
          rw [turn_without_first now hfirst hown]
          exact ⟨rfl, hrunning, hsecond, rfl, hadvance, hfirst⟩
      | some pcr =>
          rw [turn_to_first now hfirst hsecond hown]
          exact ⟨rfl, hrunning, hsecond, rfl, hadvance, rfl, rfl⟩
  | some start =>
      obtain ⟨first, n⟩ := start
      obtain ⟨hfirst, hn⟩ := hfirst
      have hset : bc.pcrFirst ≠ -1 := by omega
      have hcount : (bc.packetsInbetween + 1) % 2 ^ 32 = (n + 1) % 2 ^ 32 := by
        rw [hn, Nat.mod_add_mod]
      rw [ownPcr_eq_scr (hpkt hset)]
      cases hscr : Ts.scr pkt with
      | none =>
          rw [turn_without_second now hfirst hsecond hscr]
          exact ⟨rfl, hrunning, hsecond, rfl, hadvance, hfirst, hcount⟩
      | some pcr =>
          rw [turn_to_second now hfirst hsecond hscr]
          exact measures_of_second { now with
            packetsInbetween := (now.packetsInbetween + 1) % 2 ^ 32, pcrSecond := pcr, stc := pcr }
            hfirst rfl rfl hcount

/-! ## Runs -/

theorem bc_pidStatsUpdate_one (stream : StreamStatistics) (pkt : Packet) :
    (pidStatsUpdate stream [pkt]).bc = (noteCall stream [pkt]).bc := by
  simp only [pidStatsUpdate, List.foldl_cons, List.foldl_nil, notePacket, countPacket]
  split_ifs <;> rfl

theorem ccErrors_le_pidStatsUpdate_one (stream : StreamStatistics) (pkt : Packet) :
    stream.ccErrors ≤ (pidStatsUpdate stream [pkt]).ccErrors := by
  simp only [pidStatsUpdate, List.foldl_cons, List.foldl_nil, notePacket, ccErrors_countPacket,
    ccErrors_noteCall]
  omega

/-- The packet is not counted as an error of the stream. -/
def ErrorFree (stream : StreamStatistics) (pkt : Packet) : Prop :=
  (pidStatsUpdate stream [pkt]).ccErrors = stream.ccErrors

theorem eq_of_feed {stream next : StreamStatistics} {pkt : Packet} {r : Reading}
    (h : feed stream pkt = some (next, r)) : next = pidStatsUpdate stream [pkt] := by
  simpa [feed, eq_comm] using (congrArg (Option.map Prod.fst) h)

theorem ccErrors_le_of_trace {pkts : List Packet} :
    ∀ {stream last : StreamStatistics} {outs}, trace feed stream pkts = some (last, outs) →
      stream.ccErrors ≤ last.ccErrors := by
  induction pkts with
  | nil =>
      intro stream last outs htrace
      obtain ⟨rfl, -⟩ : stream = last ∧ [] = outs := by simpa [trace] using htrace
      exact le_rfl
  | cons pkt rest ih =>
      intro stream last outs htrace
      obtain ⟨mid, out, later, hs, hrest, -⟩ := exists_of_trace_cons htrace
      obtain rfl := eq_of_feed hs
      exact (ccErrors_le_pidStatsUpdate_one stream pkt).trans (ih hrest)

/-- A counter that ends where it started has not moved in between. -/
theorem meets_errorFree {pkts : List Packet} :
    ∀ {stream last : StreamStatistics} {outs}, trace feed stream pkts = some (last, outs) →
      last.ccErrors = stream.ccErrors → Meets feed ErrorFree stream pkts := by
  induction pkts with
  | nil => exact fun _ _ ↦ trivial
  | cons pkt rest ih =>
      intro stream last outs htrace hcount
      obtain ⟨mid, out, later, hs, hrest, -⟩ := exists_of_trace_cons htrace
      obtain rfl := eq_of_feed hs
      have hfirst := ccErrors_le_pidStatsUpdate_one stream pkt
      have hlater := ccErrors_le_of_trace hrest
      refine ⟨by unfold ErrorFree; omega, ?_⟩
      simp only [hs]
      exact ih hrest (by omega)

theorem Measures.feed {pid : ℕ} {stream : StreamStatistics} {m : Measurement} {pkt : Packet}
    (h : Measures pid stream.ccErrors stream.bc m) (hpid : pid ≠ 0)
    (hclear : Undisturbed stream pkt) (herror : ErrorFree stream pkt) :
    Measures pid (pidStatsUpdate stream [pkt]).ccErrors (pidStatsUpdate stream [pkt]).bc
      (m.next (ownPcr pid pkt)) := by
  have hbc : (pidStatsUpdate stream [pkt]).bc =
      bitrateCalculatorWrite stream.bc stream.ccErrors [pkt] := by
    rw [bc_pidStatsUpdate_one, noteCall]
    exact if_pos (h.pid_eq ▸ hpid)
  rw [hbc, herror]
  exact h.write hclear

theorem measures_run {pid : ℕ} {stream last : StreamStatistics} {m : Measurement}
    {pkts : List Packet} {outs : List Reading} (h : Measures pid stream.ccErrors stream.bc m)
    (hpid : pid ≠ 0) (htrace : trace feed stream pkts = some (last, outs))
    (herrors : last.ccErrors = stream.ccErrors) (hclear : Meets feed Undisturbed stream pkts) :
    outs = outputs measure m (pkts.map (ownPcr pid)) ∧
      last.bc.reading = ((pkts.map (ownPcr pid)).foldl Measurement.next m).reading := by
  have hstep : ∀ (stream : StreamStatistics) (m : Measurement) (pkt : Packet),
      Measures pid stream.ccErrors stream.bc m → Undisturbed stream pkt ∧ ErrorFree stream pkt →
      ∃ next, feed stream pkt = some (next, (measure m (ownPcr pid pkt)).2) ∧
        Measures pid next.ccErrors next.bc (measure m (ownPcr pid pkt)).1 := by
    intro stream m pkt h hguard
    have hnext := h.feed hpid hguard.1 hguard.2
    exact ⟨_, congrArg some (Prod.ext rfl hnext.reading), hnext⟩
  have htracks : Tracks feed (fun m pkt ↦ measure m (ownPcr pid pkt))
      (fun stream m ↦ Measures pid stream.ccErrors stream.bc m) stream m pkts :=
    tracks_of_step _ (fun _ _ h ↦ h) hstep pkts stream m h
      (hclear.and (meets_errorFree htrace herrors))
  obtain ⟨houts, hlast⟩ := htracks.outputs_eq htrace
  rw [outputs_map measure] at houts
  rw [List.foldl_map]
  exact ⟨houts, hlast.reading⟩

/-! ## What is measured -/

/-- The ticks are those from the start, or they were measured between two references
of the list, over the packets from the first to the second, counted in 32 bits. -/
def Measured (owns : List (Option ℕ)) (start r : Reading) : Prop :=
  (r.ticksPerPCR = start.ticksPerPCR ∧ r.ticksPerPacket = start.ticksPerPacket) ∨
    ∃ i j first second : ℕ, i < j ∧ owns[i]? = some (some first) ∧ owns[j]? = some (some second) ∧
      r.ticksPerPCR = Ts.scrDiff first second ∧
      r.ticksPerPacket = (Ts.scrDiff first second).tdiv ((j - i) % 2 ^ 32 : ℕ)

structure MeasuredSoFar (owns : List (Option ℕ)) (start : Reading) (m : Measurement) : Prop where
  reading : Measured owns start m.reading
  first : ∀ first n, m.first = some (first, n) →
    ∃ i, i + n + 1 = owns.length ∧ owns[i]? = some (some first)

theorem getElem?_append_of_some {owns : List (Option ℕ)} {i : ℕ} {own : Option ℕ}
    (h : owns[i]? = some own) (later : List (Option ℕ)) : (owns ++ later)[i]? = some own := by
  rw [List.getElem?_append_left (List.getElem?_eq_some_iff.mp h).1, h]

theorem Measured.append {owns : List (Option ℕ)} {start r : Reading} (h : Measured owns start r)
    (later : List (Option ℕ)) : Measured (owns ++ later) start r := by
  rcases h with hsame | ⟨i, j, first, second, hlt, hi, hj, hticks, hpacket⟩
  · exact .inl hsame
  · exact .inr ⟨i, j, first, second, hlt, getElem?_append_of_some hi later,
      getElem?_append_of_some hj later, hticks, hpacket⟩

/-- The second reference ends the list. -/
theorem Measured.measure {owns : List (Option ℕ)} {start r : Reading} {i n first second : ℕ}
    (h : Measured owns start r) (hn : i + n + 1 = owns.length)
    (hi : owns[i]? = some (some first)) :
    Measured (owns ++ [some second]) start (r.measure first (n + 1) second) := by
  unfold Reading.measure
  split_ifs with huseless
  · exact h.append [some second]
  · refine .inr ⟨i, owns.length, first, second, by omega,
      getElem?_append_of_some hi [some second], by simp, rfl, ?_⟩
    have hbetween : owns.length - i = n + 1 := by omega
    rw [hbetween]

theorem MeasuredSoFar.next {owns : List (Option ℕ)} {start : Reading} {m : Measurement}
    (h : MeasuredSoFar owns start m) (own : Option ℕ) :
    MeasuredSoFar (owns ++ [own]) start (m.next own) := by
  obtain ⟨waiting, r⟩ := m
  have hread : Measured owns start r.advance := h.reading
  cases waiting with
  | none =>
      cases own with
      | none => exact ⟨hread.append [none], nofun⟩
      | some pcr =>
          refine ⟨hread.append [some pcr], ?_⟩
          intro first n hfirst
          obtain ⟨rfl, rfl⟩ : pcr = first ∧ 0 = n := by simpa [Measurement.next] using hfirst
          exact ⟨owns.length, by simp, by simp⟩
  | some start =>
      obtain ⟨first, n⟩ := start
      obtain ⟨i, hn, hi⟩ := h.first first n rfl
      cases own with
      | none =>
          refine ⟨hread.append [none], ?_⟩
          intro first' n' hfirst
          obtain ⟨rfl, rfl⟩ : first = first' ∧ n + 1 = n' := by
            simpa [Measurement.next] using hfirst
          refine ⟨i, ?_, getElem?_append_of_some hi [none]⟩
          rw [List.length_append, List.length_singleton, ← hn]
          omega
      | some pcr => exact ⟨hread.measure hn hi, nofun⟩

theorem measuredSoFar_foldl {start : Reading} (owns : List (Option ℕ)) :
    ∀ {done : List (Option ℕ)} {m : Measurement}, MeasuredSoFar done start m →
      MeasuredSoFar (done ++ owns) start (owns.foldl Measurement.next m) := by
  induction owns with
  | nil =>
      intro done m h
      simpa using h
  | cons own rest ih =>
      intro done m h
      have hlater := ih (h.next own)
      simpa using hlater

/-- Two streams without errors, in which no other pid carries a reference while the
second one is awaited and whose packets carry the same references of the chosen pid
at the same positions, give the same readings behind every packet, and each
measurement is one of two references of that pid. -/
theorem calculator_reads_own_pcrs {stream last last' : StreamStatistics} {p : ℕ}
    {pkts pkts' : List Packet} {outs outs' : List Reading} (hp : p &&& 0x1fff ≠ 0)
    (htrace : trace feed (pidSetContainsPcr stream p) pkts = some (last, outs))
    (htrace' : trace feed (pidSetContainsPcr stream p) pkts' = some (last', outs'))
    (herrors : last.ccErrors = stream.ccErrors) (herrors' : last'.ccErrors = stream.ccErrors)
    (hown : pkts.map (ownPcr (p &&& 0x1fff)) = pkts'.map (ownPcr (p &&& 0x1fff)))
    (hclear : Meets feed Undisturbed (pidSetContainsPcr stream p) pkts)
    (hclear' : Meets feed Undisturbed (pidSetContainsPcr stream p) pkts') :
    outs = outs' ∧
      Measured (pkts.map (ownPcr (p &&& 0x1fff))) stream.bc.reading last.bc.reading := by
  have hstart : Measures (p &&& 0x1fff) (pidSetContainsPcr stream p).ccErrors
      (pidSetContainsPcr stream p).bc ⟨none, stream.bc.reading⟩ :=
    ⟨rfl, rfl, rfl, rfl, rfl, rfl⟩
  obtain ⟨houts, hreading⟩ := measures_run hstart hp htrace herrors hclear
  obtain ⟨houts', -⟩ := measures_run hstart hp htrace' herrors' hclear'
  refine ⟨?_, ?_⟩
  · rw [houts, houts', hown]
  · have hnone : MeasuredSoFar [] stream.bc.reading ⟨none, stream.bc.reading⟩ :=
      ⟨.inl ⟨rfl, rfl⟩, nofun⟩
    rw [hreading]
    simpa using (measuredSoFar_foldl (pkts.map (ownPcr (p &&& 0x1fff))) hnone).reading

/-- A packet with the clock reference `600 * k`. -/
def pcrPacket (pid k : ℕ) : Packet :=
  ((((((Packet.filled 0).set 0 0x47).set 2 pid).set 3 0x20).set 4 7).set 5 0x10).set 9 k

def payloadOnly (pid cc : ℕ) : Packet :=
  (((Packet.filled 0).set 0 0x47).set 2 pid).set 3 (0x10 + cc)

/-- A reference of pid 50 before the first one of pid 49 does not matter. -/
theorem calculator_reads_own_pcrs_foreign_first :
    ∃ last last' outs outs',
      trace feed (pidSetContainsPcr pidStatsAlloc 49)
        [pcrPacket 50 200, pcrPacket 49 1, payloadOnly 50 1, pcrPacket 49 3] =
          some (last, outs) ∧
      trace feed (pidSetContainsPcr pidStatsAlloc 49)
        [payloadOnly 50 0, pcrPacket 49 1, payloadOnly 50 1, pcrPacket 49 3] =
          some (last', outs') ∧
      last.bc.reading = ⟨1200, 600, 1800⟩ ∧ outs = outs' := by
  refine ⟨_, _, _, _, rfl, rfl, by decide +kernel, ?_⟩
  exact (@calculator_reads_own_pcrs pidStatsAlloc _ _ 49
    [pcrPacket 50 200, pcrPacket 49 1, payloadOnly 50 1, pcrPacket 49 3]
    [payloadOnly 50 0, pcrPacket 49 1, payloadOnly 50 1, pcrPacket 49 3] _ _ (by decide) rfl rfl
    (by decide +kernel) (by decide +kernel) (by decide +kernel) (by decide +kernel)
    (by decide +kernel)).1

/-- A reference of pid 50 between two of pid 49 is taken for the second one. -/
theorem calculator_reads_foreign_pcr :
    ∃ last last' outs outs',
      trace feed (pidSetContainsPcr pidStatsAlloc 49)
        [pcrPacket 49 1, pcrPacket 50 200, pcrPacket 49 3] = some (last, outs) ∧
      trace feed (pidSetContainsPcr pidStatsAlloc 49)
        [pcrPacket 49 1, payloadOnly 50 0, pcrPacket 49 3] = some (last', outs') ∧
      last.ccErrors = 0 ∧ last'.ccErrors = 0 ∧
      [pcrPacket 49 1, pcrPacket 50 200, pcrPacket 49 3].map (ownPcr 49) =
        [pcrPacket 49 1, payloadOnly 50 0, pcrPacket 49 3].map (ownPcr 49) ∧
      last.bc.reading = ⟨119400, 119400, 239400⟩ ∧ last'.bc.reading = ⟨1200, 600, 1800⟩ ∧
      ¬Measured ([pcrPacket 49 1, pcrPacket 50 200, pcrPacket 49 3].map (ownPcr 49))
        pidStatsAlloc.bc.reading last.bc.reading := by
  obtain ⟨last, outs, htrace, herrors, hreading⟩ : ∃ last outs,
      trace feed (pidSetContainsPcr pidStatsAlloc 49)
        [pcrPacket 49 1, pcrPacket 50 200, pcrPacket 49 3] = some (last, outs) ∧
      last.ccErrors = 0 ∧ last.bc.reading = ⟨119400, 119400, 239400⟩ :=
    ⟨_, _, rfl, by decide +kernel, by decide +kernel⟩
  obtain ⟨last', outs', htrace', herrors', hreading'⟩ : ∃ last outs,
      trace feed (pidSetContainsPcr pidStatsAlloc 49)
        [pcrPacket 49 1, payloadOnly 50 0, pcrPacket 49 3] = some (last, outs) ∧
      last.ccErrors = 0 ∧ last.bc.reading = ⟨1200, 600, 1800⟩ :=
    ⟨_, _, rfl, by decide +kernel, by decide +kernel⟩
  refine ⟨last, last', outs, outs', htrace, htrace', herrors, herrors', by decide +kernel,
    hreading, hreading', ?_⟩
  have howns : [pcrPacket 49 1, pcrPacket 50 200, pcrPacket 49 3].map (ownPcr 49) =
      [some 600, none, some 1800] := by decide +kernel
  rw [howns, hreading]
  rintro (⟨hticks, -⟩ | ⟨i, j, first, second, -, hi, hj, hticks, -⟩)
  · exact absurd hticks (by decide)
  · have hfirst : first = 600 ∨ first = 1800 := by simpa using List.mem_of_getElem? hi
    have hsecond : second = 600 ∨ second = 1800 := by simpa using List.mem_of_getElem? hj
    rcases hfirst with rfl | rfl <;> rcases hsecond with rfl | rfl <;>
      exact absurd hticks (by decide)

end LtnTsTools.Stats
