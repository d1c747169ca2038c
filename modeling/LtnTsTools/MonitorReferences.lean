import LtnTsTools.MonitorAlarms
import LtnTsTools.PcrIntervals

/-!
# Clock reference alarms

P2.3 of the monitor.  A pid carries references for the statistics once a completed table names it,
so the alarms follow from the packets of the run and from the tables that the stream model
completed.
-/

namespace LtnTsTools.Monitor

open AlarmReporting PriorityOne PidTable StreamModel SectionChecks PartialMachine Psi Neighbours

variable {L : Library}

/-! ## The statistics behind a run -/

def referencePids (pat : Pat) : List ℕ :=
  (pat.programs.filter fun prg ↦ prg.pmt.pcrPID ≠ 0).map fun prg ↦ prg.pmt.pcrPID

/-- What a call does to the statistics: its packets are counted, then the pids of the table are
named. -/
def statisticsOf (cached : Option Pat) (c : Call) : List PidTable.StreamCall :=
  .update c.pkts :: (cached.elim [] referencePids).map .setContainsPcr

def statisticsCalls (L : Library) (past : List Op) : List PidTable.StreamCall :=
  (past.foldl (fun (r : Slice L × List PidTable.StreamCall) op ↦ (r.1.next op, r.2 ++
    match op with
    | .write c => statisticsOf (r.1.next (.write c)).cached c
    | _ => [])) (slice [], [.reset])).2

theorem statisticsCalls_concat (past : List Op) (op : Op) :
    statisticsCalls L (past ++ [op]) = statisticsCalls L past ++
      match op with
      | .write c => statisticsOf ((slice past : Slice L).next (.write c)).cached c
      | _ => [] := by
  have hfst : ∀ r : Slice L × List PidTable.StreamCall,
      (past.foldl (fun (r : Slice L × List PidTable.StreamCall) op ↦ (r.1.next op, r.2 ++
        match op with
        | .write c => statisticsOf (r.1.next (.write c)).cached c
        | _ => [])) r).1 = past.foldl Slice.next r.1 :=
    fun r ↦ (List.foldl_hom Prod.fst fun _ _ ↦ rfl).symm
  rw [statisticsCalls, List.foldl_append, List.foldl_cons, List.foldl_nil, hfst]
  rfl

theorem stream_statsUpdate (s : State L) {c : Call} (hgranted : c.Granted) :
    (statsUpdate s c).streamStatistics =
      performGranted s.streamStatistics (.update c.pkts) := by
  have hpairs : c.packets = c.pkts.map (·, ⟨true, true⟩) := hgranted.packets_eq
  have hpkts : (c.pkts.map (·, (⟨true, true⟩ : Grants))).map Prod.fst = c.pkts := by
    simp [Function.comp_def]
  rw [statsUpdate, foldl_noteUpdate_fst, performGranted, pidStatsUpdate, hpkts, ← hpairs]

theorem stream_entered (s : State L) {c : Call} (hgranted : c.Granted) :
    (entered s c).streamStatistics = performGranted s.streamStatistics (.update c.pkts) :=
  stream_statsUpdate (begun s c) hgranted

theorem stream_p2ProcessPatModel (s : State L) (pat : Pat) {granted : ℕ → Grants}
    (hgranted : ∀ pid, granted pid = ⟨true, true⟩) :
    (p2ProcessPatModel s pat granted).streamStatistics =
      ((referencePids pat).map PidTable.StreamCall.setContainsPcr).foldl performGranted
        s.streamStatistics := by
  rw [p2ProcessPatModel, referencePids, List.map_map, List.foldl_map]
  simp only [hgranted]
  rfl

theorem stream_checkCached (s : State L) {c : Call}
    (hgranted : ∀ pid, c.pcrGrants pid = ⟨true, true⟩) :
    (checkCached s c).streamStatistics =
      ((s.cachedPAT.elim [] referencePids).map PidTable.StreamCall.setContainsPcr).foldl
        performGranted s.streamStatistics := by
  unfold checkCached
  cases hcached : s.cachedPAT with
  | none => rfl
  | some pat =>
      exact stream_p2ProcessPatModel (s.alarms [⟨.pmtError, .alarmClear c.timeNow⟩,
        ⟨.pmtError2, .alarmClear c.timeNow⟩]) pat hgranted

structure Measured (s : State L) (past : List Op) : Prop where
  sound : Sound s past
  stream : s.streamStatistics = (statisticsCalls L past).foldl performGranted pidStatsAlloc

theorem measured_alloc : Measured (tr101290Alloc : State L) [] := ⟨sound_alloc, rfl⟩

def Call.StatisticsGranted (c : Call) : Prop :=
  c.Granted ∧ ∀ pid, c.pcrGrants pid = ⟨true, true⟩

/-- The statistics behind a call are those of its past and the table it leaves. -/
theorem Measured.lateChecks {s : State L} {past : List Op} (h : Measured s past) {c : Call}
    (hgranted : c.StatisticsGranted) {r : State L × Bool}
    (hr : modelWrite (entered s c) c = some r) :
    (Monitor.lateChecks r c).streamStatistics =
      (statisticsCalls L (past ++ [.write c])).foldl performGranted pidStatsAlloc := by
  obtain ⟨tbl, p2, smHandle, seArray, hmid, -⟩ := modelWrite_spec hr
  obtain ⟨-, hcached, -, -⟩ := h.sound.cachedBy hr
  have hbefore : (cachedBy r c).streamStatistics =
      performGranted s.streamStatistics (.update c.pkts) := by
    rw [cachedBy_spec, hmid]
    exact stream_entered s hgranted.1
  obtain ⟨tbl', htimers, -⟩ := checkTimers_spec (checkCached (cachedBy r c) c) c
  rw [Monitor.lateChecks, htimers, statisticsCalls_concat, List.foldl_append, ← h.stream]
  dsimp only
  rw [stream_checkCached _ hgranted.2, hcached, hbefore]
  rfl

/-! ## Late references -/

/-- A pid is measured, and the last interval between its references is too long. -/
def lateReference (p : ℕ) (calls : List PidTable.StreamCall) : Bool :=
  let r := calls.foldl (referencesStep p) (false, [])
  r.1 && lastNeighbours late40ms (measuredPcrs r.2)

/-- What P2.3 asks of a pid. -/
theorem violates_eq (calls : List PidTable.StreamCall) {p : ℕ} (hp : p < maxPid) :
    (pidGetContainsPcr (calls.foldl performGranted pidStatsAlloc) p &&
        pidDidViolatePcrTiming (calls.foldl performGranted pidStatsAlloc) p) =
      lateReference p calls := by
  obtain ⟨htimed, -⟩ := @timed_run p calls pidStatsAlloc (false, []) indexed_alloc bounded_alloc
    (timed_alloc p)
  have hmasked : p &&& 0x1fff = p := masked_of_lt hp
  rw [pidGetContainsPcr, pidDidViolatePcrTiming, hmasked, lateReference]
  cases hr : (calls.foldl performGranted pidStatsAlloc).internalPids p with
  | none =>
      have hflag := htimed.hasPCR
      rw [recordOf, hr] at hflag
      have hnot : (calls.foldl (referencesStep p) (false, [])).1 = false := hflag.symm
      simp [hnot]
  | some r =>
      rw [recordOf_eq hr] at htimed
      simp only [Option.map_some, Option.getD_some]
      rw [htimed.hasPCR, htimed.violates]

/-- The array of P2.3 stays empty when no packet of the call has such a pid. -/
theorem foldl_checkPcr_ne_nil (stream : PidTable.Context) (pkts : List Packet) (arr : List ℕ) :
    pkts.foldl (checkPcr stream) arr ≠ [] ↔ arr ≠ [] ∨
      (pkts.any fun pkt ↦ pidGetContainsPcr stream (Ts.pid pkt) &&
        pidDidViolatePcrTiming stream (Ts.pid pkt)) = true := by
  induction pkts generalizing arr with
  | nil => simp
  | cons pkt rest ih =>
      rw [List.foldl_cons, ih, List.any_cons, Bool.or_eq_true, checkPcr]
      cases hviolates : pidGetContainsPcr stream (Ts.pid pkt) &&
          pidDidViolatePcrTiming stream (Ts.pid pkt) with
      | false => simp
      | true =>
          by_cases hmem : Ts.pid pkt ∈ arr
          · simp [hmem, List.ne_nil_of_mem hmem]
          · simp [hmem]

/-! ## P2.3 -/

/-- P2.3: both alarms are raised by a call of fewer than 31 packets with a packet of a pid whose
last interval is too long, and cleared by every other call of that length. -/
def pcrOps (L : Library) (past : List Op) (c : Call) : List AlarmReporting.Op :=
  if c.pkts.length ≥ 31 then []
  else if c.pkts.any fun pkt ↦
      lateReference (Ts.pid pkt) (statisticsCalls L (past ++ [.write c])) then
    [.alarmRaiseWithArg "" c.timeNow]
  else [.alarmClear c.timeNow]

theorem actionsOn_pcr {id : EventId} (hid : id ∈ [EventId.pcrError, .pcrRepetitionError])
    (op : AlarmReporting.Op) :
    actionsOn id [⟨.pcrError, op⟩, ⟨.pcrRepetitionError, op⟩] = [op] := by
  rcases List.mem_pair.mp hid with rfl | rfl
  · rfl
  · rfl

theorem p2ProcessP23_event (s : State L) (c : Call) {id : EventId}
    (hid : id ∈ [EventId.pcrError, .pcrRepetitionError]) :
    (p2ProcessP23 s c).tr.eventTbl id = Monitor.perform id (s.tr.eventTbl id)
      (if c.pkts.length ≥ 31 then []
        else if c.pkts.foldl (checkPcr s.streamStatistics) [] ≠ [] then
          [.alarmRaiseWithArg "" c.timeNow]
        else [.alarmClear c.timeNow]) := by
  unfold p2ProcessP23
  split_ifs
  · rfl
  · exact (eventTbl_alarms s.tr _ id).trans (by rw [actionsOn_pcr hid])
  · exact (eventTbl_alarms s.tr _ id).trans (by rw [actionsOn_pcr hid])

/-- The two checks in front of it leave its events and the statistics alone. -/
theorem exists_p2ProcessP23 (s : State L) (c : Call) :
    ∃ mid, p2Write s c = p2ProcessP23 mid c ∧ mid.streamStatistics = s.streamStatistics ∧
      ∀ id ∈ [EventId.pcrError, .pcrRepetitionError],
        mid.tr.eventTbl id = s.tr.eventTbl id := by
  refine ⟨_, rfl, rfl, fun id hid ↦ touches_alarms _ _ id ?_⟩
  rcases List.mem_pair.mp hid with rfl | rfl
  · simp
  · simp

theorem Measured.write {s : State L} {past : List Op} (h : Measured s past) {c : Call}
    (hgranted : c.StatisticsGranted) {s' : State L} (hwrite : tr101290Write s c = some s')
    {id : EventId} (hid : id ∈ [EventId.pcrError, .pcrRepetitionError]) :
    Measured s' (past ++ [.write c]) ∧
      s'.tr.eventTbl id = Monitor.perform id (s.tr.eventTbl id) (pcrOps L past c) := by
  have hsound := h.sound.write hgranted.1 hwrite
  obtain ⟨r, hr, rfl⟩ := exists_of_write hwrite
  have hlate := h.lateChecks hgranted hr
  obtain ⟨tr, hsame⟩ := p2Write_spec (Monitor.lateChecks r c) c
  refine ⟨⟨hsound, by rw [hsame, ← hlate]⟩, ?_⟩
  have hfour : id ∈ [EventId.transportError, .catError, .pcrError, .pcrRepetitionError] := by
    rcases List.mem_pair.mp hid with rfl | rfl
    · decide
    · decide
  have hasked : (c.pkts.foldl (checkPcr (Monitor.lateChecks r c).streamStatistics) [] ≠ []) ↔
      (c.pkts.any fun pkt ↦
        lateReference (Ts.pid pkt) (statisticsCalls L (past ++ [.write c]))) = true := by
    rw [foldl_checkPcr_ne_nil, hlate]
    simp only [violates_eq _ (pid_lt_maxPid _), ne_eq, not_true_eq_false, false_or]
  obtain ⟨mid, hmid, hstats, htbl⟩ := exists_p2ProcessP23 (Monitor.lateChecks r c) c
  rw [hmid, p2ProcessP23_event mid c hid, hstats, htbl id hid, eventTbl_beforeP2 hr hfour, pcrOps]
  simp only [hasked]

theorem Measured.other {s : State L} {past : List Op} (h : Measured s past) {op : Op}
    (hop : ∀ c, op ≠ .write c) : Measured (s.alarms op.actions) (past ++ [op]) := by
  refine ⟨h.sound.other hop _, ?_⟩
  rw [statisticsCalls_concat]
  cases op with
  | write c => exact absurd rfl (hop c)
  | resetAlarms now | visit id now | eventClear id | setEnabled id enabled =>
      rw [List.append_nil]
      exact h.stream

/-- The alarms of P2.3 in every run, and the statistics behind them. -/
theorem pcr_alarms_replayed {ops : List Op}
    (hgranted : ∀ c, .write c ∈ ops → c.StatisticsGranted) {s : State L}
    (hrun : run step tr101290Alloc ops = some s) :
    s.streamStatistics = (statisticsCalls L ops).foldl performGranted pidStatsAlloc ∧
      ∀ id ∈ [EventId.pcrError, .pcrRepetitionError],
        s.tr.eventTbl id = Monitor.perform id (trEventsTbl id) (replay id (pcrOps L) ops) := by
  have hevent : ∀ id ∈ [EventId.pcrError, .pcrRepetitionError], Measured s ops ∧
      s.tr.eventTbl id = Monitor.perform id (trEventsTbl id) (replay id (pcrOps L) ops) :=
    fun id hid ↦ event_replay_of measured_alloc (fun _ _ _ h hop ↦ h.other hop)
      (fun _ _ _ _ h hc hs ↦ h.write hc hs hid) hgranted hrun
  exact ⟨(hevent .pcrError List.mem_cons_self).1.stream, fun id hid ↦ (hevent id hid).2⟩

/-- A packet of pid 257 with a clock reference of `k` times 153600 ticks. -/
def clockedPacket (k : ℕ) : Packet := ((referencePacket k).set 1 0x01).set 2 0x01

/-- A program whose references are on pid 257, a hundred and one references in one call, and a late
one. -/
def referenceRun : List Op :=
  [.write (sampleCall 1 [patPacket 0, pmtPacket]),
    .write (sampleCall 1 (List.replicate 101 (clockedPacket 0))),
    .write (sampleCall 1 [clockedPacket 8])]

theorem granted_referenceRun : ∀ c, .write c ∈ referenceRun → c.StatisticsGranted := by
  intro c hc
  obtain ⟨second, pkts, rfl⟩ : ∃ second pkts, c = sampleCall second pkts := by
    simp only [referenceRun, List.mem_cons, List.not_mem_nil, or_false, Op.write.injEq] at hc
    rcases hc with rfl | rfl | rfl
    · exact ⟨_, _, rfl⟩
    · exact ⟨_, _, rfl⟩
    · exact ⟨_, _, rfl⟩
  exact ⟨granted_sampleCall second pkts, fun _ ↦ rfl⟩

theorem exists_run_referenceRun :
    ∃ s : State onePacketLibrary, run step tr101290Alloc referenceRun = some s :=
  Option.isSome_iff_exists.mp (by decide +kernel)

/-- The late reference raises both alarms. -/
theorem pcr_alarms_sample : ∃ s : State onePacketLibrary,
    run step tr101290Alloc referenceRun = some s ∧
      (s.tr.eventTbl .pcrError).raised = true ∧
        (s.tr.eventTbl .pcrRepetitionError).raised = true := by
  obtain ⟨s, hs⟩ := exists_run_referenceRun
  obtain ⟨-, hevents⟩ := pcr_alarms_replayed granted_referenceRun hs
  refine ⟨s, hs, ?_⟩
  rw [hevents .pcrError (by simp), hevents .pcrRepetitionError (by simp)]
  decide +kernel

end LtnTsTools.Monitor
