import Mathlib.Data.List.ReduceOption
import LtnTsTools.CTypes
import LtnTsTools.PartialMachine

/-!
# Alarm reporting

The events of `tr101290-events.c` and `tr101290-alarms.c` and the polling thread of
`tr101290.c`.  An event is raised and cleared with time stamps of the caller; the
thread compares the last change with its own last report to decide whether there is
something to tell.  The last record of an event is right as long as every change of
its flag is stamped later than the last report.  A run is any order of calls and of
visits of the thread, so a pass may have calls between its visits; the raises and
clears of `p2_process_p2_2`, which the thread makes on its way, are such calls.  The
logging, the summaries and the delivery of the records to the callback are left out,
and so is `E101290_P4_1__UDP_DROPS`, which has no entry in the table of events.
-/

namespace LtnTsTools.AlarmReporting

open PartialMachine

/-- `enum ltntstools_tr101290_event_e`, the events with an entry in the table. -/
inductive EventId
  | undefined
  | tsSyncLoss
  | syncByteError
  | patError
  | patError2
  | continuityCounterError
  | pmtError
  | pmtError2
  | pidError
  | transportError
  | crcError
  | pcrError
  | pcrRepetitionError
  | pcrAccuracyError
  | ptsError
  | catError
deriving DecidableEq

/-- `ltntstools_tr101290_event_name_ascii`. -/
def eventNameAscii : EventId → String
  | .undefined => "E101290_UNDEFINED"
  | .tsSyncLoss => "E101290_P1_1__TS_SYNC_LOSS"
  | .syncByteError => "E101290_P1_2__SYNC_BYTE_ERROR"
  | .patError => "E101290_P1_3__PAT_ERROR"
  | .patError2 => "E101290_P1_3a__PAT_ERROR_2"
  | .continuityCounterError => "E101290_P1_4__CONTINUITY_COUNTER_ERROR"
  | .pmtError => "E101290_P1_5__PMT_ERROR"
  | .pmtError2 => "E101290_P1_5a__PMT_ERROR_2"
  | .pidError => "E101290_P1_6__PID_ERROR"
  | .transportError => "E101290_P2_1__TRANSPORT_ERROR"
  | .crcError => "E101290_P2_2__CRC_ERROR"
  | .pcrError => "E101290_P2_3__PCR_ERROR"
  | .pcrRepetitionError => "E101290_P2_3a__PCR_REPETITION_ERROR"
  | .pcrAccuracyError => "E101290_P2_4__PCR_ACCURACY_ERROR"
  | .ptsError => "E101290_P2_5__PTS_ERROR"
  | .catError => "E101290_P2_6__CAT_ERROR"

/-- `ltntstools_tr101290_event_priority`. -/
def eventPriority : EventId → ℕ
  | .undefined | .tsSyncLoss | .syncByteError | .patError | .patError2
  | .continuityCounterError | .pmtError | .pmtError2 | .pidError => 1
  | .transportError | .crcError | .pcrError | .pcrRepetitionError | .pcrAccuracyError
  | .ptsError | .catError => 2

/-- `struct tr_event_s`. -/
structure TrEvent where
  enabled : Bool
  raised : Bool
  lastChanged : Timeval
  lastReported : Timeval
  nextAlarm : Timeval
  autoClearAlarmAfterReport : ℕ
  arg : String
deriving DecidableEq

/-- An entry of `tr_events_tbl`. -/
def trEvent (enabled : Bool) (autoClearAlarmAfterReport : ℕ) : TrEvent :=
  ⟨enabled, false, ⟨0, 0⟩, ⟨0, 0⟩, ⟨0, 0⟩, autoClearAlarmAfterReport, ""⟩

/-- `tr_events_tbl`. -/
def trEventsTbl : EventId → TrEvent
  | .undefined | .pcrAccuracyError | .ptsError => trEvent false 0
  | _ => trEvent true 5000

/-- `struct ltntstools_tr101290_alarm_s`. -/
structure Alarm where
  id : EventId
  priorityNr : ℕ
  timestamp : Timeval
  raised : Bool
  description : String
  arg : String
deriving DecidableEq

/-- The interval that `autoClearAlarmAfterReport` stands for. -/
def autoClearInterval (ev : TrEvent) : Timeval :=
  ⟨ev.autoClearAlarmAfterReport / 1000, ev.autoClearAlarmAfterReport * 1000 % 1000000⟩

/-- `ltntstools_tr101290_alarm_raise`. -/
def alarmRaise (ev : TrEvent) (timeNow : Timeval) : TrEvent :=
  { (if ev.raised then ev else { ev with raised := true, lastChanged := timeNow, arg := "" }) with
    nextAlarm := timeradd timeNow (autoClearInterval ev) }

/-- `ltntstools_tr101290_alarm_raise_with_arg`. -/
def alarmRaiseWithArg (ev : TrEvent) (msg : String) (timeNow : Timeval) : TrEvent :=
  { (if ev.raised then ev else { ev with raised := true, lastChanged := timeNow }) with
    arg := String.ofList (msg.toList.take 127)
    nextAlarm := timeradd timeNow (autoClearInterval ev) }

/-- `ltntstools_tr101290_alarm_clear`: a raised event stays so for a while. -/
def alarmClear (ev : TrEvent) (timeNow : Timeval) : TrEvent :=
  { (if ev.raised ∧ timerGe timeNow (timeradd (autoClearInterval ev) ev.lastChanged) then
      { ev with raised := false, lastChanged := timeNow, arg := "" }
    else ev) with
    nextAlarm := timeradd timeNow (autoClearInterval ev) }

/-- `ltntstools_tr101290_event_clear`. -/
def eventClear (ev : TrEvent) : TrEvent := { ev with raised := false }

/-- `ltntstools_tr101290_event_should_report`, which moves the last report of an event
that was never reported. -/
def eventShouldReport (ev : TrEvent) : TrEvent × Bool :=
  if ev.enabled = false then (ev, false)
  else
    let ev := if ev.lastReported.sec = 0 then
        { ev with lastReported := ⟨ev.lastChanged.sec - 1, ev.lastReported.usec⟩ }
      else ev
    (ev, !timerGe ev.lastReported ev.lastChanged)

def alarmRecord (id : EventId) (ev : TrEvent) (now : Timeval) : Alarm :=
  ⟨id, eventPriority id, now, ev.raised, eventNameAscii id, ev.arg⟩

/-- `ltntstools_tr101290_threadFunc`, one event of a pass: a record if there is
something to report, and the event is raised when its time has come. -/
def visit (id : EventId) (ev : TrEvent) (now : Timeval) : TrEvent × Option Alarm :=
  if ev.enabled = false then (ev, none)
  else
    let r := eventShouldReport ev
    let ev := if r.2 then { r.1 with lastReported := timeradd now ⟨0, 1000⟩ } else r.1
    (if timerGe now ev.nextAlarm then alarmRaise ev now else ev,
      if r.2 then some (alarmRecord id ev now) else none)

inductive Op
  | alarmRaise (timeNow : Timeval)
  | alarmRaiseWithArg (msg : String) (timeNow : Timeval)
  | alarmClear (timeNow : Timeval)
  | eventClear
  | setEnabled (enabled : Bool)
  | visit (now : Timeval)
deriving DecidableEq

def eventStep (id : EventId) (ev : TrEvent) : Op → TrEvent × Option Alarm
  | .alarmRaise timeNow => (alarmRaise ev timeNow, none)
  | .alarmRaiseWithArg msg timeNow => (alarmRaiseWithArg ev msg timeNow, none)
  | .alarmClear timeNow => (alarmClear ev timeNow, none)
  | .eventClear => (eventClear ev, none)
  | .setEnabled enabled => ({ ev with enabled := enabled }, none)
  | .visit now => visit id ev now

structure Action where
  event : EventId
  op : Op
deriving DecidableEq

def step (tbl : EventId → TrEvent) (a : Action) : Option ((EventId → TrEvent) × Option Alarm) :=
  let r := eventStep a.event (tbl a.event) a.op
  some (Function.update tbl a.event r.1, r.2)

def visitedEvents : List EventId :=
  [.tsSyncLoss, .syncByteError, .patError, .patError2, .continuityCounterError, .pmtError,
    .pmtError2, .pidError, .transportError, .crcError, .pcrError, .pcrRepetitionError,
    .pcrAccuracyError, .ptsError, .catError]

def pollingPass (now : Timeval) : List Action := visitedEvents.map fun id ↦ ⟨id, .visit now⟩

/-- `ltntstools_tr101290_alarm_raise_all`. -/
def alarmRaiseAll (now : Timeval) : List Action :=
  visitedEvents.map fun id ↦ ⟨id, .alarmRaise now⟩

def lastRaised (id : EventId) (outs : List (Option Alarm)) : Option Bool :=
  ((outs.reduceOption.filter fun a ↦ a.id == id).getLast?).map Alarm.raised

@[simp] theorem lastRaised_none (id : EventId) (outs : List (Option Alarm)) :
    lastRaised id (outs ++ [none]) = lastRaised id outs := by
  simp [lastRaised, List.reduceOption_append]

theorem lastRaised_some (id : EventId) (outs : List (Option Alarm)) (alarm : Alarm) :
    lastRaised id (outs ++ [some alarm]) =
      if alarm.id = id then some alarm.raised else lastRaised id outs := by
  split_ifs with hid
  · simp [lastRaised, List.reduceOption_append, hid]
  · simp [lastRaised, List.reduceOption_append, hid]

/-! ## One event -/

def LaterThanReport (ev : TrEvent) (stamp : Timeval) : Prop :=
  ev.lastReported.sec = 0 ∨ timerGe ev.lastReported stamp = false

instance (ev : TrEvent) (stamp : Timeval) : Decidable (LaterThanReport ev stamp) :=
  inferInstanceAs (Decidable (_ ∨ _))

/-- Every change of the flag is stamped later than the last report, and a pass does
not report an event that it also raises. -/
def Stamped (ev : TrEvent) : Op → Prop
  | .alarmRaise timeNow | .alarmRaiseWithArg _ timeNow =>
      ev.raised = false → LaterThanReport ev timeNow
  | .alarmClear timeNow =>
      ev.raised = true →
        timerGe timeNow (timeradd (autoClearInterval ev) ev.lastChanged) = true →
        LaterThanReport ev timeNow
  | .eventClear => ev.raised = true → LaterThanReport ev ev.lastChanged
  | .setEnabled _ => True
  | .visit now =>
      ev.enabled = true → ev.raised = false → timerGe now ev.nextAlarm = true →
        ¬LaterThanReport ev ev.lastChanged ∧ LaterThanReport ev now

instance (ev : TrEvent) : ∀ op, Decidable (Stamped ev op)
  | .alarmRaise _ | .alarmRaiseWithArg _ _ => inferInstanceAs (Decidable (_ → _))
  | .alarmClear _ => inferInstanceAs (Decidable (_ → _ → _))
  | .eventClear => inferInstanceAs (Decidable (_ → _))
  | .setEnabled _ => isTrue trivial
  | .visit _ => inferInstanceAs (Decidable (_ → _ → _ → _))

/-- The last record is right, or there is one to come. -/
def Upright (ev : TrEvent) (told : Option Bool) : Prop :=
  LaterThanReport ev ev.lastChanged ∨ told = some ev.raised

theorem eventShouldReport_snd {ev : TrEvent} (henabled : ev.enabled = true) :
    (eventShouldReport ev).2 = true ↔ LaterThanReport ev ev.lastChanged := by
  unfold eventShouldReport LaterThanReport
  by_cases hstart : ev.lastReported.sec = 0
  · simp [henabled, hstart, timerGe]
  · simp [henabled, hstart]

theorem eventShouldReport_raised (ev : TrEvent) :
    (eventShouldReport ev).1.raised = ev.raised := by
  unfold eventShouldReport
  split_ifs <;> rfl

theorem eventShouldReport_nextAlarm (ev : TrEvent) :
    (eventShouldReport ev).1.nextAlarm = ev.nextAlarm := by
  unfold eventShouldReport
  split_ifs <;> rfl

theorem visit_disabled (id : EventId) {ev : TrEvent} (hdisabled : ev.enabled = false)
    (now : Timeval) : visit id ev now = (ev, none) := by
  simp [visit, hdisabled]

theorem visit_reports (id : EventId) {ev : TrEvent} (henabled : ev.enabled = true)
    (hlater : LaterThanReport ev ev.lastChanged) (now : Timeval) :
    ∃ mid : TrEvent, mid.raised = ev.raised ∧
      visit id ev now = (if timerGe now ev.nextAlarm then alarmRaise mid now else mid,
        some (alarmRecord id mid now)) := by
  have hreport := (eventShouldReport_snd henabled).mpr hlater
  refine ⟨{ (eventShouldReport ev).1 with lastReported := timeradd now ⟨0, 1000⟩ }, ?_, ?_⟩
  · exact eventShouldReport_raised ev
  · simp [visit, henabled, hreport, eventShouldReport_nextAlarm]

theorem visit_silent (id : EventId) {ev : TrEvent} (henabled : ev.enabled = true)
    (hlater : ¬LaterThanReport ev ev.lastChanged) (now : Timeval) :
    visit id ev now = (if timerGe now ev.nextAlarm then alarmRaise ev now else ev, none) := by
  have hreport : (eventShouldReport ev).2 = false := by
    simpa using mt (eventShouldReport_snd henabled).mp hlater
  have hstart : ev.lastReported.sec ≠ 0 := fun h ↦ hlater (.inl h)
  have hsame : (eventShouldReport ev).1 = ev := by simp [eventShouldReport, henabled, hstart]
  simp [visit, henabled, hreport, hsame]

theorem alarmRaise_raised (ev : TrEvent) (timeNow : Timeval) :
    (alarmRaise ev timeNow).raised = true := by
  unfold alarmRaise
  split_ifs with hraised
  · exact hraised
  · rfl

theorem upright_alarmRaise {ev : TrEvent} {told : Option Bool} {timeNow : Timeval}
    (h : Upright ev told) (hlater : ev.raised = false → LaterThanReport ev timeNow) :
    Upright (alarmRaise ev timeNow) told := by
  by_cases hraised : ev.raised = true
  · -- only the timer moves
    simpa [Upright, LaterThanReport, alarmRaise, hraised] using h
  · have hcleared : ev.raised = false := by simpa using hraised
    apply Or.inl
    simpa [LaterThanReport, alarmRaise, hcleared] using hlater hcleared

theorem upright_alarmRaiseWithArg {ev : TrEvent} {told : Option Bool} {timeNow : Timeval}
    (h : Upright ev told) (hlater : ev.raised = false → LaterThanReport ev timeNow)
    (msg : String) : Upright (alarmRaiseWithArg ev msg timeNow) told := by
  by_cases hraised : ev.raised = true
  · simpa [Upright, LaterThanReport, alarmRaiseWithArg, hraised] using h
  · have hcleared : ev.raised = false := by simpa using hraised
    apply Or.inl
    simpa [LaterThanReport, alarmRaiseWithArg, hcleared] using hlater hcleared

theorem upright_alarmClear {ev : TrEvent} {told : Option Bool} {timeNow : Timeval}
    (h : Upright ev told) (hlater : Stamped ev (.alarmClear timeNow)) :
    Upright (alarmClear ev timeNow) told := by
  by_cases hclears :
      ev.raised = true ∧ timerGe timeNow (timeradd (autoClearInterval ev) ev.lastChanged) = true
  · apply Or.inl
    simpa [LaterThanReport, alarmClear, hclears] using hlater hclears.1 hclears.2
  · simpa [Upright, LaterThanReport, alarmClear, hclears] using h

theorem upright_eventClear {ev : TrEvent} {told : Option Bool} (h : Upright ev told)
    (hlater : ev.raised = true → LaterThanReport ev ev.lastChanged) :
    Upright (eventClear ev) told := by
  by_cases hraised : ev.raised = true
  · exact .inl (hlater hraised)
  · have hsame : eventClear ev = ev := by
      obtain ⟨_, raised, _, _, _, _, _⟩ := ev
      simpa [eventClear] using hraised
    rwa [hsame]

/-- Behind a visit the last record is right for the event as the visit found it. -/
theorem lastRaised_visit (id : EventId) {ev : TrEvent} {outs : List (Option Alarm)}
    (henabled : ev.enabled = true) (h : Upright ev (lastRaised id outs)) (now : Timeval) :
    lastRaised id (outs ++ [(visit id ev now).2]) = some ev.raised := by
  by_cases hlater : LaterThanReport ev ev.lastChanged
  · obtain ⟨mid, hraised, hvisit⟩ := visit_reports id henabled hlater now
    simp [hvisit, lastRaised_some, alarmRecord, hraised]
  · rw [visit_silent id henabled hlater, lastRaised_none]
    exact h.resolve_left hlater

theorem upright_visit (id : EventId) {ev : TrEvent} {now : Timeval} (henabled : ev.enabled = true)
    (hstamped : Stamped ev (.visit now)) : Upright (visit id ev now).1 (some ev.raised) := by
  by_cases hraises : ev.raised = false ∧ timerGe now ev.nextAlarm = true
  · obtain ⟨hsilent, hlater⟩ := hstamped henabled hraises.1 hraises.2
    rw [visit_silent id henabled hsilent]
    simp only [hraises.2, if_true]
    exact upright_alarmRaise (.inr rfl) fun _ ↦ hlater
  · -- the flag stays as it is
    apply Or.inr
    by_cases hlater : LaterThanReport ev ev.lastChanged
    · obtain ⟨mid, hraised, hvisit⟩ := visit_reports id henabled hlater now
      rw [hvisit]
      split_ifs with htimer
      · have htrue : ev.raised = true := by simpa [htimer] using hraises
        rw [alarmRaise_raised, htrue]
      · rw [hraised]
    · rw [visit_silent id henabled hlater]
      split_ifs with htimer
      · have htrue : ev.raised = true := by simpa [htimer] using hraises
        rw [alarmRaise_raised, htrue]
      · rfl

theorem upright_eventStep (id : EventId) {ev : TrEvent} {outs : List (Option Alarm)} {op : Op}
    (h : Upright ev (lastRaised id outs)) (hstamped : Stamped ev op) :
    Upright (eventStep id ev op).1 (lastRaised id (outs ++ [(eventStep id ev op).2])) := by
  cases op with
  | alarmRaise timeNow =>
      rw [eventStep, lastRaised_none]
      exact upright_alarmRaise h hstamped
  | alarmRaiseWithArg msg timeNow =>
      rw [eventStep, lastRaised_none]
      exact upright_alarmRaiseWithArg h hstamped msg
  | alarmClear timeNow =>
      rw [eventStep, lastRaised_none]
      exact upright_alarmClear h hstamped
  | eventClear =>
      rw [eventStep, lastRaised_none]
      exact upright_eventClear h hstamped
  | setEnabled enabled =>
      rw [eventStep, lastRaised_none]
      exact h
  | visit now =>
      rw [eventStep]
      cases henabled : ev.enabled with
      | false =>
          rw [visit_disabled id henabled, lastRaised_none]
          exact h
      | true =>
          rw [lastRaised_visit id henabled h]
          exact upright_visit id henabled hstamped

/-- A record speaks of the event that was visited, as the visit found it. -/
theorem of_mem_eventStep {id : EventId} {ev : TrEvent} {op : Op} {alarm : Alarm}
    (h : (eventStep id ev op).2 = some alarm) : alarm.id = id ∧ alarm.raised = ev.raised := by
  cases op with
  | visit now =>
      rw [eventStep] at h
      cases henabled : ev.enabled with
      | false => simp [visit_disabled id henabled] at h
      | true =>
          by_cases hlater : LaterThanReport ev ev.lastChanged
          · obtain ⟨mid, hraised, hvisit⟩ := visit_reports id henabled hlater now
            obtain rfl : alarmRecord id mid now = alarm := by simpa [hvisit] using h
            exact ⟨rfl, hraised⟩
          · simp [visit_silent id henabled hlater] at h
  | _ => simp [eventStep] at h

/-! ## Runs of the table -/

def AllUpright (tbl : EventId → TrEvent) (outs : List (Option Alarm)) : Prop :=
  ∀ id, Upright (tbl id) (lastRaised id outs)

def Timely (tbl : EventId → TrEvent) (a : Action) : Prop := Stamped (tbl a.event) a.op

def Steady (id : EventId) (raised : Bool) (tbl : EventId → TrEvent) (_ : Action) : Prop :=
  (tbl id).enabled = true ∧ (tbl id).raised = raised

instance (tbl : EventId → TrEvent) (a : Action) : Decidable (Timely tbl a) :=
  inferInstanceAs (Decidable (Stamped _ _))

instance (id : EventId) (raised : Bool) (tbl : EventId → TrEvent) (a : Action) :
    Decidable (Steady id raised tbl a) :=
  inferInstanceAs (Decidable (_ ∧ _))

theorem eq_of_step {tbl tbl' : EventId → TrEvent} {a : Action} {out : Option Alarm}
    (hs : step tbl a = some (tbl', out)) :
    tbl' = Function.update tbl a.event (eventStep a.event (tbl a.event) a.op).1 ∧
      out = (eventStep a.event (tbl a.event) a.op).2 := by
  obtain ⟨rfl, rfl⟩ : _ = tbl' ∧ _ = out := by simpa [step] using hs
  exact ⟨rfl, rfl⟩

/-- The records of a step say nothing about the other events. -/
theorem lastRaised_of_ne {tbl tbl' : EventId → TrEvent} {a : Action} {out : Option Alarm}
    {id : EventId} (hs : step tbl a = some (tbl', out)) (hne : id ≠ a.event)
    (outs : List (Option Alarm)) : lastRaised id (outs ++ [out]) = lastRaised id outs := by
  cases hout : out with
  | none => exact lastRaised_none id outs
  | some alarm =>
      have hid := of_mem_eventStep ((eq_of_step hs).2.symm.trans hout)
      rw [lastRaised_some, if_neg]
      rw [hid.1]
      exact hne.symm

theorem allUpright_step (tbl : EventId → TrEvent) (outs : List (Option Alarm))
    (a : Action) (tbl' : EventId → TrEvent) (out : Option Alarm) (h : AllUpright tbl outs)
    (htimely : Timely tbl a) (hs : step tbl a = some (tbl', out)) :
    AllUpright tbl' (outs ++ [out]) := by
  intro id
  obtain ⟨htbl, hout⟩ := eq_of_step hs
  by_cases hid : id = a.event
  · subst hid
    rw [htbl, Function.update_self, hout]
    exact upright_eventStep a.event (h a.event) htimely
  · rw [lastRaised_of_ne hs hid, htbl, Function.update_of_ne hid]
    exact h id

/-- While the flag of an event does not change, neither does what was told of it. -/
theorem lastRaised_step {id : EventId} {raised : Bool} (tbl : EventId → TrEvent)
    (outs : List (Option Alarm)) (a : Action) (tbl' : EventId → TrEvent)
    (out : Option Alarm) (h : lastRaised id outs = some raised) (hsteady : Steady id raised tbl a)
    (hs : step tbl a = some (tbl', out)) : lastRaised id (outs ++ [out]) = some raised := by
  by_cases hid : id = a.event
  · subst hid
    cases hout : out with
    | none => rwa [lastRaised_none]
    | some alarm =>
        have halarm := of_mem_eventStep ((eq_of_step hs).2.symm.trans hout)
        rw [lastRaised_some, if_pos halarm.1, halarm.2, hsteady.2]
  · rwa [lastRaised_of_ne hs hid]

theorem lastRaised_of_visited {id : EventId} {raised : Bool} {now : Timeval} {pass : List Action} :
    ∀ {tbl tbl' past outs}, AllUpright tbl past → Meets step Timely tbl pass →
      Meets step (Steady id raised) tbl pass → ⟨id, .visit now⟩ ∈ pass →
      trace step tbl pass = some (tbl', outs) → lastRaised id (past ++ outs) = some raised := by
  -- along the stretch, until the visit
  induction pass with
  | nil =>
      intro tbl tbl' past outs _ _ _ hvisited
      simp at hvisited
  | cons a rest ih =>
      intro tbl tbl' past outs hupright htimely hsteady hvisited htrace
      obtain ⟨mid, out, later, hs, hrest, rfl⟩ := exists_of_trace_cons htrace
      have htimely' := htimely.tail hs
      have hsteady' := hsteady.tail hs
      have hlist : past ++ out :: later = (past ++ [out]) ++ later := by simp
      rw [hlist]
      rcases List.mem_cons.mp hvisited with rfl | hvisited
      · -- the visit tells, and the rest of the stretch changes nothing
        have htold : lastRaised id (past ++ [out]) = some raised := by
          rw [(eq_of_step hs).2, ← hsteady.1.2]
          exact lastRaised_visit id hsteady.1.1 (hupright id) now
        exact outputs_invariant_of_meets lastRaised_step htold hsteady' hrest
      · exact ih (allUpright_step tbl past a mid out hupright htimely.1 hs) htimely' hsteady'
          hvisited hrest

/-- In a run whose changes are stamped later than the last report of their event, a
stretch in which an enabled event keeps its flag and is visited leaves a last record
with the current value of the flag. -/
theorem alarm_reporting_converges {acts pass : List Action} {mid tbl : EventId → TrEvent}
    {past outs : List (Option Alarm)} {id : EventId} {now : Timeval}
    (hacts : trace step trEventsTbl acts = some (mid, past))
    (hpass : trace step mid pass = some (tbl, outs))
    (htimely : Meets step Timely trEventsTbl acts) (htimely' : Meets step Timely mid pass)
    (hsteady : Meets step (Steady id (tbl id).raised) mid pass)
    (hvisited : ⟨id, .visit now⟩ ∈ pass) :
    lastRaised id (past ++ outs) = some (tbl id).raised := by
  have hstart : AllUpright trEventsTbl [] := by
    intro id
    apply Or.inl
    apply Or.inl
    cases id <;> rfl
  have hupright := outputs_invariant_of_meets allUpright_step hstart htimely hacts
  exact lastRaised_of_visited hupright htimely' hsteady hvisited hpass

/-- Everything is raised and reported, one event is cleared behind the report and the
next pass tells. -/
theorem alarm_reporting_converges_cleared :
    ∃ mid tbl past outs,
      trace step trEventsTbl (alarmRaiseAll ⟨1000, 0⟩ ++ pollingPass ⟨1001, 0⟩ ++
        [⟨.patError, .alarmClear ⟨1006, 0⟩⟩]) = some (mid, past) ∧
      trace step mid (pollingPass ⟨1007, 0⟩) = some (tbl, outs) ∧
      lastRaised .patError past = some true ∧ (tbl .patError).raised = false ∧
      lastRaised .patError (past ++ outs) = some false := by
  refine ⟨_, _, _, _, rfl, rfl, by decide +kernel, by decide +kernel, ?_⟩
  exact @alarm_reporting_converges (alarmRaiseAll ⟨1000, 0⟩ ++ pollingPass ⟨1001, 0⟩ ++
      [⟨.patError, .alarmClear ⟨1006, 0⟩⟩]) (pollingPass ⟨1007, 0⟩) _ _ _ _ .patError ⟨1007, 0⟩
    rfl rfl (by decide +kernel) (by decide +kernel) (by decide +kernel) (by decide +kernel)

/-- `ltntstools_tr101290_event_clear` behind a report: two passes later, the flag the
same in both, the last record still says raised. -/
theorem alarm_reporting_diverges :
    ∃ mid tbl past outs,
      trace step trEventsTbl (alarmRaiseAll ⟨1000, 0⟩ ++ pollingPass ⟨1001, 0⟩ ++
        [⟨.patError, .eventClear⟩] ++ pollingPass ⟨1002, 0⟩) = some (mid, past) ∧
      trace step mid (pollingPass ⟨1003, 0⟩) = some (tbl, outs) ∧
      Meets step (Steady .patError (tbl .patError).raised) mid (pollingPass ⟨1003, 0⟩) ∧
      (tbl .patError).raised = false ∧
      lastRaised .patError (past ++ outs) = some true := by
  refine ⟨_, _, _, _, rfl, rfl, ?_, ?_, ?_⟩ <;> decide +kernel

end LtnTsTools.AlarmReporting
