import LtnTsTools.MonitorEvents

/-!
# Runs of the monitor

What the state of a monitor says about its past: the packets of all calls, the last time a pid
was seen, and the table that the stream model last completed.  An event is then a replay of the
operations on it, each of which depends on that past alone.
-/

namespace LtnTsTools.Monitor

open AlarmReporting PriorityOne PidTable StreamModel SectionChecks PartialMachine Psi

variable {L : Library}

/-! ## The past -/

def Op.pkts : Op → List Packet
  | write c => c.pkts
  | _ => []

def packetsOf (past : List Op) : List Packet := past.flatMap Op.pkts

def lastSecond (pid : ℕ) (past : List Op) : ℕ :=
  past.foldl (fun t op ↦
    match op with
    | .write c => if (c.pkts.any fun p ↦ Ts.pid p == pid) = true then c.statsNow else t
    | _ => t) 0

/-- The stream model of a run, the table it last completed, and the calls from that one on. -/
structure Slice (L : Library) where
  ctx : StreamModel.Context L
  cached : Option Pat
  since : List Call

def Slice.next (r : Slice L) : Op → Slice L
  | .write c =>
      let w := streammodelWrite r.ctx c.pkts c.timeNow.micros.toNat
      match if w.2 then streammodelQueryModel w.1 else none with
      | some pat => ⟨w.1, some pat, [c]⟩
      | none => ⟨w.1, r.cached, r.since ++ [c]⟩
  | _ => r

def slice (past : List Op) : Slice L := past.foldl Slice.next ⟨streammodelAlloc, none, []⟩

def mentions (pid : ℕ) (pkts : List Packet) : Bool :=
  pid != 0 && pid != 0x1fff && pkts.any fun p ↦ Ts.pid p == pid

/-- The last time a pid was seen since the model was completed, or that time. -/
def lastTime (pid : ℕ) (since : List Call) : Timeval :=
  (((since.filter fun c ↦ mentions pid c.pkts).getLast?.or since.head?).map Call.timeNow).getD
    ⟨0, 0⟩

def watchedPids (pat : Pat) : List ℕ :=
  ((pat.programs.filter fun prg ↦ prg.programNumber ≠ 0).map PatProgram.programMapPID).take
    pmtArraySize

def Slice.entries (r : Slice L) : List TrPid :=
  match r.cached with
  | none => []
  | some pat => (watchedPids pat).map fun pid ↦ ⟨pid, lastTime pid r.since⟩

def checkCalls (L : Library) (past : List Op) : List CheckCall :=
  (past.foldl (fun (r : Slice L × List CheckCall) op ↦ (r.1.next op,
    match op with
    | .write c => if c.pkts = [] then r.2 else r.2 ++ [checkCall r.1.ctx c]
    | _ => r.2)) (slice [], [])).2

/-- The operations on an event, if a call makes these of its own. -/
def replay (id : EventId) (opsOf : List Op → Call → List AlarmReporting.Op) (ops : List Op) :
    List AlarmReporting.Op :=
  (ops.foldl (fun r op ↦ (r.1 ++ [op], r.2 ++
    match op with
    | .write c => opsOf r.1 c
    | op => actionsOn id op.actions)) (([] : List Op), [])).2

structure Sound (s : State L) (past : List Op) : Prop where
  remembers : Remembers s.streamStatistics (packetsOf past)
  ccCounter : s.ccCounterLastWrite = s.streamStatistics.ccErrors
  cat : s.p2 .cat = ⟨0, 0⟩
  contexts : ∀ item ∈ s.seArray, item.context ≠ .cat
  updated : ∀ pid, s.ppsLastUpdate pid = lastSecond pid past
  model : s.smHandle = (slice past : Slice L).ctx
  cached : s.cachedPAT = (slice past : Slice L).cached
  entries : s.lastPMTArray = (slice past : Slice L).entries
  since : (slice past : Slice L).cached.isSome → (slice past : Slice L).since ≠ []
  checks : ∃ outs, trace checkSections [] (checkCalls L past) = some (s.seArray, outs)

@[simp] theorem packetsOf_concat (past : List Op) (op : Op) :
    packetsOf (past ++ [op]) = packetsOf past ++ op.pkts := by
  simp [packetsOf]

theorem slice_concat (past : List Op) (op : Op) :
    (slice (past ++ [op]) : Slice L) = (slice past).next op := by
  simp [slice]

theorem checkCalls_concat (past : List Op) (op : Op) :
    checkCalls L (past ++ [op]) =
      match op with
      | .write c =>
          if c.pkts = [] then checkCalls L past
          else checkCalls L past ++ [checkCall (slice past : Slice L).ctx c]
      | _ => checkCalls L past := by
  have hfst : ∀ r : Slice L × List CheckCall,
      (past.foldl (fun (r : Slice L × List CheckCall) op ↦ (r.1.next op,
        match op with
        | .write c => if c.pkts = [] then r.2 else r.2 ++ [checkCall r.1.ctx c]
        | _ => r.2)) r).1 = past.foldl Slice.next r.1 :=
    fun r ↦ (List.foldl_hom Prod.fst fun _ _ ↦ rfl).symm
  rw [checkCalls, List.foldl_append, List.foldl_cons, List.foldl_nil, hfst]
  rfl

theorem lastSecond_write (pid : ℕ) (past : List Op) (c : Call) :
    lastSecond pid (past ++ [.write c]) =
      if (c.pkts.any fun p ↦ Ts.pid p == pid) = true then c.statsNow else lastSecond pid past := by
  simp [lastSecond]

theorem replay_concat (id : EventId) (opsOf : List Op → Call → List AlarmReporting.Op)
    (ops : List Op) (op : Op) :
    replay id opsOf (ops ++ [op]) = replay id opsOf ops ++
      match op with
      | .write c => opsOf ops c
      | op => actionsOn id op.actions := by
  have hfst : ∀ (ops past : List Op) (out : List AlarmReporting.Op),
      (ops.foldl (fun r op ↦ (r.1 ++ [op], r.2 ++
        match op with
        | .write c => opsOf r.1 c
        | op => actionsOn id op.actions)) (past, out)).1 = past ++ ops := by
    intro ops
    induction ops with
    | nil => exact fun past out ↦ (List.append_nil past).symm
    | cons op rest ih =>
        intro past out
        rw [List.foldl_cons, ih, List.append_assoc]
        rfl
  rw [replay, List.foldl_append, List.foldl_cons, List.foldl_nil, hfst]
  rfl

theorem sound_alloc : Sound (tr101290Alloc : State L) [] where
  remembers := by
    obtain ⟨hindexed, hbounded⟩ := indexed_alloc.pidStatsReset bounded_alloc
    refine ⟨hindexed, hbounded, ?_, by simp [packetsOf, lastOn]⟩
    intro pid r _ hr
    simp [tr101290Alloc, pidStatsReset, PidTable.pidStatsAlloc] at hr
  ccCounter := rfl
  cat := rfl
  contexts := by simp [tr101290Alloc]
  updated := fun _ ↦ rfl
  model := rfl
  cached := rfl
  entries := rfl
  since := by simp [slice]
  checks := ⟨[], rfl⟩

theorem Sound.other {s : State L} {past : List Op} (h : Sound s past) {op : Op}
    (hop : ∀ c, op ≠ .write c) (actions : List Action) :
    Sound (s.alarms actions) (past ++ [op]) := by
  have hpkts : packetsOf (past ++ [op]) = packetsOf past := by
    cases op <;> simp [Op.pkts]
    exact absurd rfl (hop _)
  have hslice : (slice (past ++ [op]) : Slice L) = slice past := by
    rw [slice_concat]
    cases op <;> first | rfl | exact absurd rfl (hop _)
  have hsecond : ∀ pid, lastSecond pid (past ++ [op]) = lastSecond pid past := by
    intro pid
    cases op <;> simp [lastSecond]
    exact absurd rfl (hop _)
  have hcalls : checkCalls L (past ++ [op]) = checkCalls L past := by
    rw [checkCalls_concat]
    cases op <;> first | rfl | exact absurd rfl (hop _)
  refine ⟨hpkts ▸ h.remembers, h.ccCounter, h.cat, h.contexts, fun pid ↦ ?_, ?_, ?_, ?_, ?_, ?_⟩
  · rw [hsecond]
    exact h.updated pid
  · rw [hslice]
    exact h.model
  · rw [hslice]
    exact h.cached
  · rw [hslice]
    exact h.entries
  · rw [hslice]
    exact h.since
  · rw [hcalls]
    exact h.checks

/-! ## A call -/

theorem Remembers.foldl_noteUpdate_snd {now pid : ℕ} {pkts : List Packet} :
    ∀ {stream past}, Remembers stream past → ∀ f : ℕ → ℕ,
      ((pkts.map fun p ↦ (p, (⟨true, true⟩ : Grants))).foldl (noteUpdate now) (stream, f)).2 pid =
        if (pkts.any fun p ↦ Ts.pid p == pid) = true then now else f pid := by
  induction pkts with
  | nil => exact fun _ _ ↦ rfl
  | cons p rest ih =>
      intro stream past h f
      obtain ⟨mid, hgranted⟩ := discover_granted h.indexed h.bounded (pid_lt_maxPid p)
      have hone : noteUpdate now (stream, f) (p, ⟨true, true⟩) =
          (PidTable.notePacket stream (p, ⟨true, true⟩), Function.update f (Ts.pid p) now) := by
        simp [noteUpdate, hgranted]
      rw [List.map_cons, List.foldl_cons, hone, ih (h.notePacket p).1, List.any_cons]
      by_cases hpid : Ts.pid p = pid
      · simp [hpid]
      · simp [hpid, Function.update_of_ne (Ne.symm hpid)]

def refreshed (timeNow : Timeval) (pkts : List Packet) (e : TrPid) : TrPid :=
  if mentions e.pmtpid pkts then { e with lastChanged := timeNow } else e

theorem mentions_cons (pid : ℕ) (p : Packet) (rest : List Packet) :
    mentions pid (p :: rest) = (mentions pid [p] || mentions pid rest) := by
  simp only [mentions, List.any_cons, List.any_nil, Bool.or_false]
  cases pid != 0 <;> cases pid != 0x1fff <;> rfl

theorem refreshEntries_eq (timeNow : Timeval) (entries : List TrPid) (p : Packet) :
    refreshEntries timeNow entries p = entries.map (refreshed timeNow [p]) := by
  unfold refreshEntries
  split_ifs with hskip
  · refine (List.map_id'' (fun e ↦ ?_) entries).symm
    have hno : mentions e.pmtpid [p] = false := by
      by_contra hyes
      obtain ⟨hzero, hnull, hpid⟩ : e.pmtpid ≠ 0 ∧ e.pmtpid ≠ 0x1fff ∧ Ts.pid p = e.pmtpid := by
        simpa [mentions] using hyes
      exact hskip.elim (fun h ↦ hzero (hpid ▸ h)) fun h ↦ hnull (hpid ▸ h)
    simp [refreshed, hno]
  · rw [not_or] at hskip
    refine List.map_congr_left fun e _ ↦ ?_
    have hiff : mentions e.pmtpid [p] = true ↔ Ts.pid p = e.pmtpid := by
      simp only [mentions, List.any_cons, List.any_nil, Bool.or_false, Bool.and_eq_true,
        bne_iff_ne, beq_iff_eq]
      refine ⟨fun h ↦ h.2, fun h ↦ ⟨⟨?_, ?_⟩, h⟩⟩
      · exact h ▸ hskip.1
      · exact h ▸ hskip.2
    simp only [refreshed, hiff]

theorem foldl_refreshEntries (timeNow : Timeval) (pkts : List Packet) (entries : List TrPid) :
    pkts.foldl (refreshEntries timeNow) entries = entries.map (refreshed timeNow pkts) := by
  induction pkts generalizing entries with
  | nil =>
      have hnone : ∀ e, refreshed timeNow [] e = e := by simp [refreshed, mentions]
      exact (List.map_id'' hnone entries).symm
  | cons p rest ih =>
      rw [List.foldl_cons, ih, refreshEntries_eq, List.map_map]
      refine List.map_congr_left fun e _ ↦ ?_
      by_cases hone : mentions e.pmtpid [p] = true
      · simp [refreshed, mentions_cons e.pmtpid p rest, hone]
      · simp [refreshed, mentions_cons e.pmtpid p rest, hone]

theorem lastTime_concat (pid : ℕ) {since : List Call} (hsince : since ≠ []) (c : Call) :
    lastTime pid (since ++ [c]) =
      if mentions pid c.pkts then c.timeNow else lastTime pid since := by
  obtain ⟨first, rest, rfl⟩ := List.exists_cons_of_ne_nil hsince
  cases hc : mentions pid c.pkts with
  | true => simp [lastTime, hc]
  | false => simp [lastTime, hc]

theorem lastTime_singleton (pid : ℕ) (c : Call) : lastTime pid [c] = c.timeNow := by
  cases hc : mentions pid c.pkts <;> simp [lastTime, hc]

/-- The entries of P1.5 behind a call that completes no model. -/
theorem entries_kept {r : Slice L} (hsince : r.cached.isSome → r.since ≠ []) (ctx : Context L)
    (c : Call) : (⟨ctx, r.cached, r.since ++ [c]⟩ : Slice L).entries =
      r.entries.map (refreshed c.timeNow c.pkts) := by
  cases hcached : r.cached with
  | none => simp [Slice.entries, hcached]
  | some pat =>
      have hne : r.since ≠ [] := hsince (by rw [hcached]; rfl)
      simp only [Slice.entries, hcached, List.map_map]
      refine List.map_congr_left fun pid _ ↦ ?_
      simp only [Function.comp_apply, refreshed, lastTime_concat pid hne]
      split_ifs <;> rfl

/-- The entries of P1.5 behind a call that completes a model. -/
theorem entries_completed (ctx : Context L) (pat : Pat) (c : Call) :
    (⟨ctx, some pat, [c]⟩ : Slice L).entries =
      (((pat.programs.filter fun prg ↦ prg.programNumber ≠ 0).map fun prg ↦
        (⟨prg.programMapPID, c.timeNow⟩ : TrPid)).take pmtArraySize).map
          (refreshed c.timeNow c.pkts) := by
  have hmap : ((pat.programs.filter fun prg ↦ prg.programNumber ≠ 0).map fun prg ↦
      (⟨prg.programMapPID, c.timeNow⟩ : TrPid)).take pmtArraySize =
        (watchedPids pat).map fun pid ↦ ⟨pid, c.timeNow⟩ := by
    rw [watchedPids, List.map_take, List.map_map]
    rfl
  rw [hmap, List.map_map]
  refine List.map_congr_left fun pid _ ↦ ?_
  simp only [Function.comp_apply, refreshed, lastTime_singleton]
  split_ifs <;> rfl

theorem p2Write_spec (s : State L) (c : Call) : ∃ tr, p2Write s c = { s with tr := tr } := by
  unfold p2Write p2ProcessP23
  simp only
  split_ifs <;> exact ⟨_, rfl⟩

theorem Sound.cachedBy {s : State L} {past : List Op} (h : Sound s past) {c : Call}
    {r : State L × Bool} (hr : modelWrite (entered s c) c = some r) :
    r.1.smHandle = ((slice past : Slice L).next (.write c)).ctx ∧
      (cachedBy r c).cachedPAT = ((slice past : Slice L).next (.write c)).cached ∧
      (cachedBy r c).lastPMTArray.map (refreshed c.timeNow c.pkts) =
        ((slice past : Slice L).next (.write c)).entries ∧
      ((slice past : Slice L).next (.write c)).since ≠ [] := by
  obtain ⟨tbl, p2, smHandle, seArray, hmid, hmodel, -, -⟩ := modelWrite_spec hr
  have hhandle : (entered s c).smHandle = (slice past : Slice L).ctx := h.model
  have hcached : (entered s c).cachedPAT = (slice past : Slice L).cached := h.cached
  have hentries : (entered s c).lastPMTArray = (slice past : Slice L).entries := h.entries
  rw [hhandle] at hmodel
  have hctx : r.1.smHandle =
      (streammodelWrite (slice past : Slice L).ctx c.pkts c.timeNow.micros.toNat).1 := by
    rw [hmid, ← hmodel]
  have hcomplete : r.2 =
      (streammodelWrite (slice past : Slice L).ctx c.pkts c.timeNow.micros.toNat).2 := by
    rw [← hmodel]
  simp only [Slice.next, ← hctx, ← hcomplete, Monitor.cachedBy, cacheModel]
  cases hflag : r.2 with
  | false =>
      simp only [Bool.false_eq_true, if_false]
      refine ⟨trivial, ?_, ?_, by simp⟩
      · rw [hmid]
        exact hcached
      · rw [hmid, entries_kept h.since, ← hentries]
  | true =>
      simp only [if_true]
      cases hquery : streammodelQueryModel r.1.smHandle with
      | none =>
          refine ⟨rfl, ?_, ?_, by simp⟩
          · rw [hmid]
            exact hcached
          · rw [entries_kept h.since, ← hentries, hmid]
      | some pat =>
          exact ⟨rfl, rfl, (entries_completed _ pat c).symm, by simp⟩

theorem Sound.checkCall {s : State L} {past : List Op} (h : Sound s past) {c : Call}
    {r : State L × Bool} (hr : modelWrite (entered s c) c = some r) :
    ∃ outs, trace checkSections [] (checkCalls L (past ++ [.write c])) =
      some (r.1.seArray, outs) := by
  obtain ⟨outs, houts⟩ := h.checks
  rw [checkCalls_concat]
  rcases modelWrite_checks hr with ⟨hempty, rfl⟩ | ⟨hne, calls, hcalls, -⟩
  · dsimp only
    rw [if_pos hempty]
    exact ⟨outs, houts⟩
  · have hctx : (entered s c).smHandle = (slice past : Slice L).ctx := h.model
    dsimp only
    rw [if_neg hne]
    rw [hctx] at hcalls
    exact ⟨outs ++ [calls], trace_concat houts hcalls⟩

theorem Sound.write {s s' : State L} {past : List Op} (h : Sound s past) {c : Call}
    (hgranted : c.Granted) (hwrite : tr101290Write s c = some s') :
    Sound s' (past ++ [.write c]) := by
  obtain ⟨r, hr, rfl⟩ := exists_of_write hwrite
  obtain ⟨tbl, p2, smHandle, seArray, hmid, -, -, hcontexts⟩ := modelWrite_spec hr
  obtain ⟨hcat, hitems⟩ := hcontexts h.contexts
  obtain ⟨tbl', stream, hlate, -⟩ := lateChecks_spec r c
  obtain ⟨tr, hlast⟩ := p2Write_spec (lateChecks r c) c
  obtain ⟨hmodel, hcached, hentries, hsince⟩ := h.cachedBy hr
  have hbefore := beforeP2 h.remembers hgranted hr
  have hupdated : ∀ pid, (entered s c).ppsLastUpdate pid = lastSecond pid (past ++ [.write c]) := by
    intro pid
    obtain ⟨hpids, harray⟩ :=
      foldl_countPacket_table c.pkts (PidTable.noteCall s.streamStatistics c.pkts)
    have hcounted : Remembers (c.pkts.foldl PidTable.countPacket
        (PidTable.noteCall s.streamStatistics c.pkts)) (packetsOf past) :=
      h.remembers.congr hpids harray
    rw [lastSecond_write, ← h.updated pid, ← hcounted.foldl_noteUpdate_snd s.ppsLastUpdate,
      ← hgranted.packets_eq]
    rfl
  rw [hlast]
  refine ⟨?_, hbefore.ccCounter, ?_, ?_, fun pid ↦ ?_, ?_, ?_, ?_, fun _ ↦ ?_, ?_⟩
  · rw [packetsOf_concat]
    exact hbefore.remembers
  · rw [hlate, hmid]
    exact hcat.trans h.cat
  · rw [hlate, hmid]
    exact hitems
  · rw [hlate, hmid]
    exact hupdated pid
  · rw [hlate, slice_concat]
    exact hmodel
  · rw [hlate, slice_concat]
    exact hcached
  · rw [hlate, slice_concat, ← hentries]
    exact foldl_refreshEntries _ _ _
  · rw [slice_concat]
    exact hsince
  · rw [hlate]
    exact h.checkCall hr

/-! ## Runs -/

def Op.Granted : Op → Prop
  | write c => c.Granted
  | _ => True

/-- A step is a call of the writer, or touches nothing but events. -/
theorem step_cases {s s' : State L} {op : Op} {out : Unit} (h : step s op = some (s', out)) :
    (∃ c, op = .write c ∧ tr101290Write s c = some s') ∨
      (∀ c, op ≠ .write c) ∧ s' = s.alarms op.actions := by
  cases op with
  | write c =>
      obtain ⟨mid, hmid, heq⟩ := Option.map_eq_some_iff.mp h
      exact .inl ⟨c, rfl, hmid.trans (congrArg some (Prod.mk.inj heq).1)⟩
  | resetAlarms now => exact .inr ⟨by simp, (Prod.mk.inj (Option.some.inj h)).1.symm⟩
  | visit id now => exact .inr ⟨by simp, (Prod.mk.inj (Option.some.inj h)).1.symm⟩
  | eventClear id => exact .inr ⟨by simp, (Prod.mk.inj (Option.some.inj h)).1.symm⟩
  | setEnabled id enabled => exact .inr ⟨by simp, (Prod.mk.inj (Option.some.inj h)).1.symm⟩

/-- What operations other than calls make of an event. -/
theorem replay_other {id : EventId} {opsOf : List Op → Call → List AlarmReporting.Op} {op : Op}
    (hother : ∀ c, op ≠ .write c) (past : List Op) :
    replay id opsOf (past ++ [op]) = replay id opsOf past ++ actionsOn id op.actions := by
  rw [replay_concat]
  cases op <;> first | rfl | exact absurd rfl (hother _)

/-- What an invariant says about the state and its past is true behind every run, and an event whose
operations in a call follow from it is a replay of them. -/
theorem event_replay_of {id : EventId} {opsOf : List Op → Call → List AlarmReporting.Op}
    {I : State L → List Op → Prop} {guard : Call → Prop} (hstart : I tr101290Alloc [])
    (hother : ∀ s past op, I s past → (∀ c, op ≠ .write c) → I (s.alarms op.actions) (past ++ [op]))
    (hwrite : ∀ s past c s', I s past → guard c → tr101290Write s c = some s' →
      I s' (past ++ [.write c]) ∧
        s'.tr.eventTbl id = perform id (s.tr.eventTbl id) (opsOf past c))
    {ops : List Op} (hguard : ∀ c, .write c ∈ ops → guard c) {s : State L}
    (hrun : run step tr101290Alloc ops = some s) :
    I s ops ∧ s.tr.eventTbl id = perform id (trEventsTbl id) (replay id opsOf ops) := by
  have hstep : ∀ (s : State L) past op s' (out : Unit),
      ((∀ c, .write c ∈ past → guard c) → I s past ∧
        s.tr.eventTbl id = perform id (trEventsTbl id) (replay id opsOf past)) →
      step s op = some (s', out) → (∀ c, .write c ∈ past ++ [op] → guard c) →
        I s' (past ++ [op]) ∧
          s'.tr.eventTbl id = perform id (trEventsTbl id) (replay id opsOf (past ++ [op])) := by
    intro s past op s' out h hs hguard
    obtain ⟨hI, hevent⟩ := h fun c hc ↦ hguard c (List.mem_append_left _ hc)
    rcases step_cases hs with ⟨c, rfl, hc⟩ | ⟨hop, rfl⟩
    · obtain ⟨hI', hevent'⟩ := hwrite s past c s' hI (hguard c (by simp)) hc
      refine ⟨hI', ?_⟩
      rw [replay_concat, perform_append, ← hevent]
      exact hevent'
    · refine ⟨hother s past op hI hop, ?_⟩
      rw [replay_other hop, perform_append, ← hevent]
      exact eventTbl_alarms s.tr op.actions id
  exact run_history hstep (fun _ ↦ ⟨hstart, rfl⟩) hrun (by simpa using hguard)

/-- The state behind a run belongs to its past, and an event whose operations in a call depend
on the past alone is a replay of them. -/
theorem event_replay {id : EventId} {opsOf : List Op → Call → List AlarmReporting.Op}
    (hwrite : ∀ (s : State L) past c s', Sound s past → c.Granted → tr101290Write s c = some s' →
      s'.tr.eventTbl id = perform id (s.tr.eventTbl id) (opsOf past c))
    {ops : List Op} (hgranted : ∀ op ∈ ops, op.Granted) {s : State L}
    (hrun : run step tr101290Alloc ops = some s) :
    Sound s ops ∧ s.tr.eventTbl id = perform id (trEventsTbl id) (replay id opsOf ops) :=
  event_replay_of sound_alloc (fun _ _ op h hop ↦ h.other hop op.actions)
    (fun s past c s' h hc hs ↦ ⟨h.write hc hs, hwrite s past c s' h hc hs⟩)
    (fun c hc ↦ hgranted (.write c) hc) hrun

end LtnTsTools.Monitor
