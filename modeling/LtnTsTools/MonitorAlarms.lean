import LtnTsTools.ModelQuery
import LtnTsTools.MonitorRuns

/-!
# Alarms of the monitor

What a call does to the events of P1.4, P1.5, P1.6, P2.1 and P2.6, told from the packets and
the clocks of the run.
-/

namespace LtnTsTools.Monitor

open AlarmReporting PriorityOne PidTable StreamModel SectionChecks PartialMachine Psi

variable {L : Library}

/-! ## Events of the parts of a call -/

@[simp] theorem event_alarmIf (cond : Bool) (id : EventId) (timeNow : Timeval) :
    (alarmIf cond id timeNow).event = id := by
  cases cond <;> rfl

theorem op_alarmIf (cond : Bool) (id : EventId) (timeNow : Timeval) :
    (alarmIf cond id timeNow).op = if cond then .alarmRaise timeNow else .alarmClear timeNow := by
  cases cond <;> rfl

theorem touches_pair (s : State L) (id id' : EventId) (op : AlarmReporting.Op) :
    Touches [id, id'] s.tr (s.alarms [⟨id, op⟩, ⟨id', op⟩]).tr :=
  touches_alarms s.tr [⟨id, op⟩, ⟨id', op⟩]

theorem touches_p2ProcessP23 (s : State L) (c : Call) :
    Touches [.pcrError, .pcrRepetitionError] s.tr (p2ProcessP23 s c).tr := by
  unfold p2ProcessP23
  split_ifs
  · exact fun _ _ ↦ rfl
  · exact touches_pair s _ _ _
  · exact touches_pair s _ _ _

theorem touches_p2Write (s : State L) (c : Call) :
    Touches [.transportError, .catError, .pcrError, .pcrRepetitionError] s.tr (p2Write s c).tr := by
  intro id hid
  simp only [List.mem_cons, List.not_mem_nil, or_false, not_or] at hid
  obtain ⟨htransport, hcat, hpcr, hrepetition⟩ := hid
  unfold p2Write
  refine (touches_p2ProcessP23 _ c id (by simp [hpcr, hrepetition])).trans ?_
  exact touches_alarms _ _ id (by simp [htransport, hcat])

/-- Up to P2, an event other than those of P1.5, P1.6 and P2.2 is as P1.4 leaves it. -/
theorem eventTbl_lateChecks {s : State L} {c : Call} {r : State L × Bool}
    (hr : modelWrite (entered s c) c = some r) {id : EventId}
    (hid : id ∉ [EventId.crcError, .pmtError, .pmtError2, .pidError]) :
    (lateChecks r c).tr.eventTbl id = (entered s c).tr.eventTbl id := by
  rw [List.mem_cons, not_or] at hid
  obtain ⟨tbl, p2, smHandle, seArray, hmid, -, htbl, -⟩ := modelWrite_spec hr
  obtain ⟨tbl', stream, hlate, htbl', -⟩ := lateChecks_spec r c
  rw [hlate, ← htbl id hid.1]
  exact (htbl' id hid.2).trans (by rw [hmid])

theorem eventTbl_beforeP2 {s : State L} {c : Call} {r : State L × Bool}
    (hr : modelWrite (entered s c) c = some r) {id : EventId}
    (hid : id ∈ [EventId.transportError, .catError, .pcrError, .pcrRepetitionError]) :
    (lateChecks r c).tr.eventTbl id = s.tr.eventTbl id := by
  have hne : ∀ id' ∉ [EventId.transportError, .catError, .pcrError, .pcrRepetitionError],
      id ≠ id' := fun id' hid' heq ↦ hid' (heq ▸ hid)
  rw [eventTbl_lateChecks hr (by simp [hne]), touches_entered s c id (by simp [hne])]

/-! ## A run -/

/-- A call whose allocations succeed, with the same second on all clocks. -/
def sampleCall (second : ℕ) (pkts : List Packet) : Call where
  packets := pkts.map fun p ↦ (p, ⟨true, true⟩)
  behind := fun _ ↦ 0
  timeNow := ⟨second, 0⟩
  statsNow := second
  now := second
  pcrGrants := fun _ ↦ ⟨true, true⟩
  memory := fun _ ↦ some blank
  pmtMemory := fun _ ↦ some blank

/-- A model is completed, and eight seconds later its program is gone: a packet that does not
continue its pid comes with a scrambled one that has the error indicator. -/
def sampleRun : List Op :=
  [.write (sampleCall 1 [patPacket 0, pmtPacket]), .visit .pmtError ⟨2, 0⟩,
    .write (sampleCall 9 [patPacket 5, stuffed [0x47, 0xc2, 0x00, 0xd7]])]

theorem granted_sampleCall (second : ℕ) (pkts : List Packet) :
    (sampleCall second pkts).Granted := by
  intro x hx
  obtain ⟨p, -, rfl⟩ := List.mem_map.mp hx
  rfl

theorem granted_sampleRun : ∀ op ∈ sampleRun, op.Granted := by
  intro op hop
  simp only [sampleRun, List.mem_cons, List.not_mem_nil, or_false] at hop
  rcases hop with rfl | rfl | rfl
  · exact granted_sampleCall _ _
  · trivial
  · exact granted_sampleCall _ _

theorem exists_run_sampleRun :
    ∃ s : State onePacketLibrary, run step tr101290Alloc sampleRun = some s :=
  Option.isSome_iff_exists.mp (by decide +kernel)

/-! ## P1.4 -/

/-- P1.4: the alarm is raised by a call with a packet that has no sync byte or does not continue
its pid, and cleared by every other call. -/
def continuityOps (past : List Op) (c : Call) : List AlarmReporting.Op :=
  [if discontinuities (packetsOf past) c.pkts ≠ 0 then .alarmRaise c.timeNow
    else .alarmClear c.timeNow]

theorem write_continuity {s : State L} {past : List Op} {c : Call} {s' : State L}
    (h : Sound s past) (hgranted : c.Granted) (hwrite : tr101290Write s c = some s') :
    s'.tr.eventTbl .continuityCounterError = perform .continuityCounterError
      (s.tr.eventTbl .continuityCounterError) (continuityOps past c) := by
  obtain ⟨r, hr, rfl⟩ := exists_of_write hwrite
  have hbegun : Remembers (begun s c).streamStatistics (packetsOf past) := h.remembers
  obtain ⟨-, hcc, -⟩ := hbegun.statsUpdate hgranted
  have hchanged : (s.ccCounterLastWrite != (statsUpdate (begun s c) c).streamStatistics.ccErrors) =
      decide (discontinuities (packetsOf past) c.pkts ≠ 0) := by
    rw [h.ccCounter, hcc, begun]
    by_cases hzero : discontinuities (packetsOf past) c.pkts = 0 <;> simp [hzero]
  have hchecked : (entered s c).tr.eventTbl .continuityCounterError =
      perform .continuityCounterError
        ((PriorityOne.p1Write (statsUpdate (begun s c) c).tr
          ⟨c.pkts, c.behind, c.timeNow⟩).1.eventTbl .continuityCounterError)
        (actionsOn .continuityCounterError [alarmIf
          (s.ccCounterLastWrite != (statsUpdate (begun s c) c).streamStatistics.ccErrors)
          .continuityCounterError c.timeNow]) :=
    eventTbl_alarms _ _ _
  rw [touches_p2Write _ c _ (by simp), eventTbl_lateChecks hr (by simp), hchecked,
    touches_p1Write _ _ _ (by simp), hchanged]
  simp [actionsOn_cons, op_alarmIf, continuityOps]
  rfl

theorem continuity_alarm_replayed {ops : List Op} (hgranted : ∀ op ∈ ops, op.Granted) {s : State L}
    (hrun : run step tr101290Alloc ops = some s) :
    s.tr.eventTbl .continuityCounterError = perform .continuityCounterError
      (trEventsTbl .continuityCounterError) (replay .continuityCounterError continuityOps ops) :=
  (event_replay (fun _ _ _ _ ↦ write_continuity) hgranted hrun).2

theorem continuity_alarm_sample : ∃ s : State onePacketLibrary,
    run step tr101290Alloc sampleRun = some s ∧
      (s.tr.eventTbl .continuityCounterError).raised = true := by
  obtain ⟨s, hs⟩ := exists_run_sampleRun
  refine ⟨s, hs, ?_⟩
  rw [continuity_alarm_replayed granted_sampleRun hs]
  decide +kernel

/-! ## P2.1 and P2.6 -/

/-- P2.1: the alarm is raised by a call with an error indicator, and cleared by every other
call. -/
def transportOps (_past : List Op) (c : Call) : List AlarmReporting.Op :=
  [if c.pkts.any Ts.teiSet then .alarmRaise c.timeNow else .alarmClear c.timeNow]

/-- P2.6: no table of conditional access is ever found, so the alarm is raised by a call with a
scrambled packet, but for the first half second of the clock. -/
def catOps (_past : List Op) (c : Call) : List AlarmReporting.Op :=
  [if timerGe c.timeNow ⟨0, 500000⟩ && c.pkts.any fun p ↦ Ts.transportScramblingControl p != 0 then
    .alarmRaise c.timeNow else .alarmClear c.timeNow]

theorem ne_add_countP (n : ℕ) (f : Packet → Bool) (pkts : List Packet) :
    (n != n + pkts.countP f) = pkts.any f := by
  rcases Nat.eq_zero_or_pos (pkts.countP f) with hzero | hpos
  · have hnone : pkts.any f = false := by
      rw [List.any_eq_false]
      exact List.countP_eq_zero.mp hzero
    simp [hzero, hnone]
  · have hsome : pkts.any f = true := List.any_eq_true.mpr (List.countP_pos_iff.mp hpos)
    have hne : n ≠ n + pkts.countP f := by omega
    simp [hsome, bne_iff_ne.mpr hne]

/-- The first two checks of P2. -/
theorem p2Write_events (s : State L) (c : Call) {id : EventId}
    (hid : id ∉ [EventId.pcrError, .pcrRepetitionError]) :
    (p2Write s c).tr.eventTbl id = perform id (s.tr.eventTbl id) (actionsOn id
      [alarmIf (s.preTEIErrors != s.streamStatistics.teiErrors) .transportError c.timeNow,
        alarmIf (timerGe c.timeNow (timeradd (s.p2 .cat) ⟨0, 500 * 1000⟩) &&
          s.preScrambledCount != s.streamStatistics.scrambledCount) .catError c.timeNow]) :=
  (touches_p2ProcessP23 _ c id hid).trans (eventTbl_alarms _ _ id)

theorem cat_lateChecks {s : State L} {past : List Op} {c : Call} (h : Sound s past)
    {r : State L × Bool} (hr : modelWrite (entered s c) c = some r) :
    (lateChecks r c).p2 .cat = ⟨0, 0⟩ := by
  obtain ⟨tbl, p2, smHandle, seArray, hmid, -, -, hcat⟩ := modelWrite_spec hr
  obtain ⟨tbl', stream, hlate, -⟩ := lateChecks_spec r c
  rw [hlate, hmid]
  exact (hcat h.contexts).1.trans h.cat

theorem write_transport {s : State L} {past : List Op} {c : Call} {s' : State L}
    (h : Sound s past) (hgranted : c.Granted) (hwrite : tr101290Write s c = some s') :
    s'.tr.eventTbl .transportError = perform .transportError
      (s.tr.eventTbl .transportError) (transportOps past c) := by
  obtain ⟨r, hr, rfl⟩ := exists_of_write hwrite
  have hbefore := beforeP2 h.remembers hgranted hr
  rw [p2Write_events _ c (by simp), eventTbl_beforeP2 hr (by simp), hbefore.preTEI,
    hbefore.teiErrors, ne_add_countP]
  simp [actionsOn_cons, op_alarmIf, transportOps]

theorem write_cat {s : State L} {past : List Op} {c : Call} {s' : State L}
    (h : Sound s past) (hgranted : c.Granted) (hwrite : tr101290Write s c = some s') :
    s'.tr.eventTbl .catError = perform .catError (s.tr.eventTbl .catError) (catOps past c) := by
  obtain ⟨r, hr, rfl⟩ := exists_of_write hwrite
  have hbefore := beforeP2 h.remembers hgranted hr
  have hstart : timeradd ⟨0, 0⟩ ⟨0, 500 * 1000⟩ = ⟨0, 500000⟩ := by decide
  rw [p2Write_events _ c (by simp), eventTbl_beforeP2 hr (by simp), hbefore.preScrambled,
    hbefore.scrambled, ne_add_countP, cat_lateChecks h hr, hstart]
  simp [actionsOn_cons, op_alarmIf, catOps]

theorem packet_alarms_replayed {ops : List Op} (hgranted : ∀ op ∈ ops, op.Granted) {s : State L}
    (hrun : run step tr101290Alloc ops = some s) :
    s.tr.eventTbl .transportError = perform .transportError
        (trEventsTbl .transportError) (replay .transportError transportOps ops) ∧
      s.tr.eventTbl .catError = perform .catError
        (trEventsTbl .catError) (replay .catError catOps ops) :=
  ⟨(event_replay (fun _ _ _ _ ↦ write_transport) hgranted hrun).2,
    (event_replay (fun _ _ _ _ ↦ write_cat) hgranted hrun).2⟩

theorem packet_alarms_sample : ∃ s : State onePacketLibrary,
    run step tr101290Alloc sampleRun = some s ∧
      (s.tr.eventTbl .transportError).raised = true ∧ (s.tr.eventTbl .catError).raised = true := by
  obtain ⟨s, hs⟩ := exists_run_sampleRun
  obtain ⟨htransport, hcat⟩ := packet_alarms_replayed granted_sampleRun hs
  refine ⟨s, hs, ?_⟩
  rw [htransport, hcat]
  decide +kernel

/-! ## P1.5 -/

/-- P1.5: once the model was complete, a call clears the alarm, and raises it again if the pid of
some program map table is silent for half a second. -/
def pmtOps (L : Library) (past : List Op) (c : Call) : List AlarmReporting.Op :=
  let r : Slice L := slice (past ++ [.write c])
  match r.cached with
  | none => []
  | some pat =>
      .alarmClear c.timeNow ::
        if (watchedPids pat).any fun pid ↦
            timerGe c.timeNow (timeradd (lastTime pid r.since) ⟨0, 500 * 1000⟩) then
          [.alarmRaise c.timeNow]
        else []

theorem alarmClear_kept (ev : TrEvent) (timeNow : Timeval) (hkept : ¬(ev.raised = true ∧
    timerGe timeNow (timeradd (autoClearInterval ev) ev.lastChanged) = true)) :
    alarmClear ev timeNow = { ev with nextAlarm := timeradd timeNow (autoClearInterval ev) } := by
  rw [alarmClear, if_neg hkept]

theorem alarmClear_twice (ev : TrEvent) (timeNow : Timeval) :
    alarmClear (alarmClear ev timeNow) timeNow = alarmClear ev timeNow := by
  by_cases hclear : ev.raised = true ∧
      timerGe timeNow (timeradd (autoClearInterval ev) ev.lastChanged) = true
  · have honce : alarmClear ev timeNow = { ev with
        raised := false, lastChanged := timeNow, arg := "",
        nextAlarm := timeradd timeNow (autoClearInterval ev) } := by
      rw [alarmClear, if_pos hclear]
    rw [honce]
    exact alarmClear_kept _ timeNow (by simp)
  · rw [alarmClear_kept ev timeNow hclear]
    exact alarmClear_kept _ timeNow hclear

/-- The call has the time of its caller, and P1.5 that of the call. -/
theorem now_cachedBy {s : State L} {c : Call} {r : State L × Bool}
    (hr : modelWrite (entered s c) c = some r) : (cachedBy r c).tr.now = c.timeNow := by
  obtain ⟨tbl, p2, smHandle, seArray, hmid, -⟩ := modelWrite_spec hr
  rw [cachedBy_spec, hmid]
  exact now_p1Write _ _

/-- In front of P1.5 its events, and that of P1.6, are as before the call. -/
theorem eventTbl_cachedBy {s : State L} {c : Call} {r : State L × Bool}
    (hr : modelWrite (entered s c) c = some r) {id : EventId}
    (hid : id ∈ [EventId.pmtError, .pmtError2, .pidError]) :
    (cachedBy r c).tr.eventTbl id = s.tr.eventTbl id := by
  have hne : ∀ id' ∉ [EventId.pmtError, .pmtError2, .pidError], id ≠ id' :=
    fun id' hid' heq ↦ hid' (heq ▸ hid)
  obtain ⟨tbl, p2, smHandle, seArray, hmid, -, htbl, -⟩ := modelWrite_spec hr
  rw [cachedBy_spec, ← touches_entered s c id (by simp [hne]), ← htbl id (by simp [hne]), hmid]

theorem actionsOn_pair {id : EventId} (hid : id ∈ [EventId.pmtError, .pmtError2])
    (op : AlarmReporting.Op) : actionsOn id [⟨.pmtError, op⟩, ⟨.pmtError2, op⟩] = [op] := by
  rcases List.mem_pair.mp hid with rfl | rfl <;> simp [actionsOn_cons]

theorem touches_p1ProcessP16 (s : State L) (pat : Pat) (timeNow : Timeval) (now : ℕ) :
    Touches [.pidError] s.tr (p1ProcessP16 s pat timeNow now).tr := by
  unfold p1ProcessP16
  simp only
  split_ifs
  · exact touches_alarms s.tr [⟨.pidError, _⟩]
  · exact touches_alarms s.tr [⟨.pidError, _⟩]

/-- P1.5, the part for a cached table. -/
theorem checkCached_pmt (s : State L) (c : Call) {id : EventId}
    (hid : id ∈ [EventId.pmtError, .pmtError2]) :
    (checkCached s c).tr.eventTbl id = perform id (s.tr.eventTbl id)
      (if s.cachedPAT.isSome then [.alarmClear c.timeNow] else []) := by
  unfold checkCached
  cases hcached : s.cachedPAT with
  | none => rfl
  | some pat =>
      have hne : id ≠ .pidError := by
        rintro rfl
        simp at hid
      refine (touches_p1ProcessP16 _ pat c.timeNow c.now id (by simp [hne])).trans ?_
      refine (eventTbl_alarms s.tr _ id).trans ?_
      rw [actionsOn_pair hid]
      rfl

def timerOps (timeNow : Timeval) (entries : List TrPid) : List AlarmReporting.Op :=
  if entries.any fun e ↦ timerGe timeNow (timeradd e.lastChanged ⟨0, 500 * 1000⟩) then
    [.alarmRaise timeNow]
  else if entries ≠ [] then [.alarmClear timeNow] else []

/-- Behind a clear the second one does nothing. -/
theorem perform_timerOps (id : EventId) (ev : TrEvent) (timeNow : Timeval) (entries : List TrPid) :
    perform id ev (.alarmClear timeNow :: timerOps timeNow entries) =
      perform id ev (.alarmClear timeNow :: if entries.any fun e ↦
        timerGe timeNow (timeradd e.lastChanged ⟨0, 500 * 1000⟩) then [.alarmRaise timeNow]
        else []) := by
  unfold timerOps
  split_ifs
  · rfl
  · exact alarmClear_twice ev timeNow
  · rfl

theorem checkTimers_pmt {s : State L} {c : Call} (hnow : s.tr.now = c.timeNow) {id : EventId}
    (hid : id ∈ [EventId.pmtError, .pmtError2]) :
    (checkTimers s c).tr.eventTbl id = perform id (s.tr.eventTbl id)
      (timerOps c.timeNow (s.lastPMTArray.map (refreshed c.timeNow c.pkts))) := by
  unfold checkTimers timerOps
  simp only [foldl_refreshEntries, timerExpired, hnow]
  split_ifs
  · refine (eventTbl_alarms s.tr _ id).trans ?_
    rw [actionsOn_pair hid]
  · refine (eventTbl_alarms s.tr _ id).trans ?_
    rw [actionsOn_pair hid]
  · rfl

theorem write_pmt {s : State L} {past : List Op} {c : Call} {s' : State L} {id : EventId}
    (hid : id ∈ [EventId.pmtError, .pmtError2]) (h : Sound s past)
    (hwrite : tr101290Write s c = some s') :
    s'.tr.eventTbl id = perform id (s.tr.eventTbl id) (pmtOps L past c) := by
  obtain ⟨r, hr, rfl⟩ := exists_of_write hwrite
  obtain ⟨-, hcached, hentries, -⟩ := h.cachedBy hr
  obtain ⟨tbl, stream, hspec, -⟩ := checkCached_spec (cachedBy r c) c
  have hmem : id ∈ [EventId.pmtError, .pmtError2, .pidError] := by
    simp only [List.mem_cons] at hid ⊢
    tauto
  have hnow : (checkCached (cachedBy r c) c).tr.now = c.timeNow := by
    rw [hspec]
    exact now_cachedBy hr
  have harray : (checkCached (cachedBy r c) c).lastPMTArray.map (refreshed c.timeNow c.pkts) =
      ((slice past : Slice L).next (.write c)).entries := by
    rw [hspec]
    exact hentries
  rw [touches_p2Write _ c id (by rcases List.mem_pair.mp hid with rfl | rfl <;> simp), lateChecks,
    checkTimers_pmt hnow hid, checkCached_pmt _ c hid, ← perform_append, eventTbl_cachedBy hr hmem,
    harray, hcached, pmtOps, slice_concat]
  generalize (slice past : Slice L).next (.write c) = r
  obtain ⟨ctx, cached, since⟩ := r
  cases cached with
  | none => rfl
  | some pat =>
      refine (perform_timerOps id _ c.timeNow _).trans ?_
      rw [Slice.entries, List.any_map]
      rfl

theorem pmt_alarms_replayed {ops : List Op} (hgranted : ∀ op ∈ ops, op.Granted) {s : State L}
    (hrun : run step tr101290Alloc ops = some s) :
    ∀ id ∈ [EventId.pmtError, .pmtError2],
      s.tr.eventTbl id = perform id (trEventsTbl id) (replay id (pmtOps L) ops) :=
  fun _ hid ↦ (event_replay (fun _ _ _ _ h _ ↦ write_pmt hid h) hgranted hrun).2

theorem pmt_alarms_sample : ∃ s : State onePacketLibrary,
    run step tr101290Alloc sampleRun = some s ∧ (s.tr.eventTbl .pmtError).raised = true := by
  obtain ⟨s, hs⟩ := exists_run_sampleRun
  refine ⟨s, hs, ?_⟩
  rw [pmt_alarms_replayed granted_sampleRun hs .pmtError (by simp)]
  decide +kernel

/-! ## P1.6 -/

/-- The referred pids that were not seen in the five seconds before a time. -/
def silentPids (pat : Pat) (past : List Op) (now : ℕ) : List ℕ :=
  (pat.programs.flatMap programPids).filter fun pid ↦ lastSecond (pid &&& 0x1fff) past + 5 ≤ now

/-- P1.6: the alarm is raised with the silent pids of the model that was last complete, as many
of them as fit, and cleared if there is none. -/
def pidOps (L : Library) (past : List Op) (c : Call) : List AlarmReporting.Op :=
  let past := past ++ [.write c]
  match (slice past : Slice L).cached with
  | none => []
  | some pat =>
      let silent := silentPids pat past c.now
      [if silent = [] then .alarmClear c.timeNow
        else .alarmRaiseWithArg (String.ofList ((silent.flatMap pidText).take 255)) c.timeNow]

theorem lastSecond_unseen {pid : ℕ} {past : List Op} (h : lastOn pid (packetsOf past) = none) :
    lastSecond pid past = 0 := by
  induction past using List.reverseRecOn with
  | nil => rfl
  | append_singleton past op ih =>
      rw [packetsOf_concat, lastOn, List.filter_append, List.getLast?_append,
        Option.or_eq_none_iff] at h
      have hold : lastSecond pid past = 0 := ih h.2
      cases op with
      | write c =>
          rw [lastSecond_write, if_neg, hold]
          simpa [lastOn, List.getLast?_eq_none_iff, Op.pkts] using h.1
      | resetAlarms now => simpa [lastSecond] using hold
      | visit id now => simpa [lastSecond] using hold
      | eventClear id => simpa [lastSecond] using hold
      | setEnabled id enabled => simpa [lastSecond] using hold

theorem Sound.pidGetLastUpdate {s : State L} {past : List Op} (h : Sound s past) (pid : ℕ) :
    pidGetLastUpdate s pid = lastSecond (pid &&& 0x1fff) past := by
  unfold Monitor.pidGetLastUpdate
  split_ifs with hsome
  · exact h.updated _
  · cases hlast : lastOn (pid &&& 0x1fff) (packetsOf past) with
    | none => exact (lastSecond_unseen hlast).symm
    | some q =>
        obtain ⟨r, hr, -⟩ := h.remembers.seen _ q hlast
        simp [hr] at hsome

def callbacks (L : Library) (past : List Op) (c : Call) : List CallbackArgs :=
  if c.pkts = [] then []
  else
    (trace checkSections [] (checkCalls L (past ++ [.write c]))).elim [] fun r ↦
      (r.2.getLast?.getD []).map Prod.snd

/-- P2.2: the alarm is raised with the name of its table by a section with a wrong checksum, and
cleared by any other section. -/
def crcOps (L : Library) (past : List Op) (c : Call) : List AlarmReporting.Op :=
  (callbacks L past c).map (crcOp c.timeNow)

theorem write_crc {s : State L} {past : List Op} {c : Call} {s' : State L} (h : Sound s past)
    (hwrite : tr101290Write s c = some s') :
    s'.tr.eventTbl .crcError =
      perform .crcError (s.tr.eventTbl .crcError) (crcOps L past c) := by
  obtain ⟨r, hr, rfl⟩ := exists_of_write hwrite
  obtain ⟨tbl, stream, hlate, htbl, -⟩ := lateChecks_spec r c
  rw [touches_p2Write _ c _ (by simp), hlate]
  refine (htbl _ (by simp)).trans ?_
  rw [← touches_entered s c _ (by simp), crcOps, callbacks]
  rcases modelWrite_checks hr with ⟨hempty, rfl⟩ | ⟨hne, calls, hcalls, hevent⟩
  · rw [if_pos hempty]
    rfl
  · obtain ⟨outs, houts⟩ := h.checks
    have hctx : (entered s c).smHandle = (slice past : Slice L).ctx := h.model
    have hnow : (entered s c).tr.now = c.timeNow := now_p1Write _ _
    rw [hctx] at hcalls
    rw [if_neg hne, checkCalls_concat]
    dsimp only
    rw [if_neg hne, trace_concat houts hcalls, hevent, hnow]
    simp [Function.comp_def]

theorem granted_checkCalls {ops : List Op}
    (hmemory : ∀ c, .write c ∈ ops → (∀ i, (c.memory i).isSome) ∧ ∀ i, (c.pmtMemory i).isSome) :
    ∀ c' ∈ checkCalls L ops, c'.Granted := by
  induction ops using List.reverseRecOn with
  | nil => simp [checkCalls]
  | append_singleton past op ih =>
      have hpast := ih fun c hc ↦ hmemory c (List.mem_append_left _ hc)
      rw [checkCalls_concat]
      cases op with
      | write c =>
          obtain ⟨hfixed, hpmt⟩ := hmemory c (by simp)
          dsimp only
          split_ifs
          · exact hpast
          · intro c' hc'
            rcases List.mem_append.mp hc' with hold | hnew
            · exact hpast c' hold
            · rw [List.mem_singleton.mp hnew]
              refine ⟨hfixed, fun a ha ↦ ?_⟩
              obtain ⟨x, -, rfl⟩ := List.mem_map.mp ha
              exact hpmt x.2
      | resetAlarms now => exact hpast
      | visit id now => exact hpast
      | eventClear id => exact hpast
      | setEnabled id enabled => exact hpast

/-- The event of P2.2 in every run, and the section checks behind it: each of them works alone on
the packets that it listens to. -/
theorem crc_alarm_replayed {ops : List Op} (hgranted : ∀ op ∈ ops, op.Granted)
    (hmemory : ∀ c, .write c ∈ ops → (∀ i, (c.memory i).isSome) ∧ ∀ i, (c.pmtMemory i).isSome)
    {s : State L} (hrun : run step tr101290Alloc ops = some s) :
    s.tr.eventTbl .crcError =
        perform .crcError (trEventsTbl .crcError) (replay .crcError (crcOps L) ops) ∧
      ∃ outs, trace checkSections [] (checkCalls L ops) = some (s.seArray, outs) ∧
        (checkCalls L ops ≠ [] →
          Checked ((checkCalls L ops).flatMap CheckCall.events) s.seArray outs.flatten) := by
  obtain ⟨hsound, hevent⟩ := event_replay (fun _ _ _ _ h _ ↦ write_crc h) hgranted hrun
  obtain ⟨outs, houts⟩ := hsound.checks
  refine ⟨hevent, outs, houts, fun hne ↦ ?_⟩
  have hall : ∀ c' ∈ checkCalls L ops, c'.Granted := granted_checkCalls hmemory
  obtain ⟨first, rest, hlist⟩ := List.exists_cons_of_ne_nil hne
  rw [hlist] at houts hall ⊢
  exact checked_of_trace hall houts

/-- A program association table with another checksum than its own. -/
def spoiledRun : List Op :=
  [.write (sampleCall 1 [stuffed [0x47, 0x40, 0x00, 0x10, 0x00, 0x00, 0xb0, 0x0d, 0x00, 0x01, 0xc1,
    0x00, 0x00, 0x00, 0x01, 0xe1, 0x00, 0xe8, 0xf9, 0x5e, 0x7e]])]

theorem crc_alarm_sample : ∃ s : State onePacketLibrary,
    run step tr101290Alloc spoiledRun = some s ∧
      (s.tr.eventTbl .crcError).arg.toList = "PAT".toList := by
  obtain ⟨s, hs⟩ : ∃ s : State onePacketLibrary, run step tr101290Alloc spoiledRun = some s :=
    Option.isSome_iff_exists.mp (by decide +kernel)
  refine ⟨s, hs, ?_⟩
  rw [(crc_alarm_replayed ?_ ?_ hs).1]
  · decide +kernel
  · intro op hop
    rw [List.mem_singleton.mp hop]
    exact granted_sampleCall _ _
  · intro c hc
    rw [Op.write.inj (List.mem_singleton.mp hc)]
    exact ⟨fun _ ↦ rfl, fun _ ↦ rfl⟩

end LtnTsTools.Monitor
