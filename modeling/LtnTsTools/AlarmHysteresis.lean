import Mathlib.Data.List.Chain
import LtnTsTools.AlarmReporting

/-!
# Alarm hysteresis

What the calls of `tr101290-alarms.c` do to the flag of an event in the course of time.  The
delay before a raised event can be cleared is kept in milliseconds and added as seconds and
microseconds; it counts from the change that raised the event, whatever came in between.
-/

namespace LtnTsTools.AlarmReporting

/-! ## The delay -/

theorem micros_autoClearInterval (ev : TrEvent) :
    (autoClearInterval ev).micros = 1000 * ev.autoClearAlarmAfterReport := by
  simp only [autoClearInterval, Timeval.micros]
  omega

theorem normal_autoClearInterval (ev : TrEvent) : (autoClearInterval ev).Normal := by
  simp only [autoClearInterval, Timeval.Normal]
  omega

/-- The milliseconds of every event can be multiplied in an `int`. -/
theorem autoClear_fits (id : EventId) :
    (trEventsTbl id).autoClearAlarmAfterReport * 1000 < 2 ^ 31 := by
  cases id <;> decide

/-- The delay of a raised event is over. -/
theorem timerGe_delay_iff {ev : TrEvent} {timeNow : Timeval} (hnow : timeNow.Normal)
    (hlast : ev.lastChanged.Normal) :
    timerGe timeNow (timeradd (autoClearInterval ev) ev.lastChanged) = true ↔
      ev.lastChanged.micros + 1000 * ev.autoClearAlarmAfterReport ≤ timeNow.micros := by
  rw [timerGe_iff hnow (normal_timeradd (normal_autoClearInterval ev) hlast), micros_timeradd,
    micros_autoClearInterval, add_comm]

/-! ## Calls -/

inductive AlarmCall
  | alarmRaise (timeNow : Timeval)
  | alarmRaiseWithArg (msg : String) (timeNow : Timeval)
  | alarmClear (timeNow : Timeval)
deriving DecidableEq

def AlarmCall.timeNow : AlarmCall → Timeval
  | .alarmRaise timeNow | .alarmRaiseWithArg _ timeNow | .alarmClear timeNow => timeNow

def alarmCall (ev : TrEvent) : AlarmCall → TrEvent
  | .alarmRaise timeNow => alarmRaise ev timeNow
  | .alarmRaiseWithArg msg timeNow => alarmRaiseWithArg ev msg timeNow
  | .alarmClear timeNow => alarmClear ev timeNow

/-- A call keeps the flag, raises the event, or clears it when its delay is over. -/
inductive CallEffect (ev : TrEvent) (timeNow : Timeval) (ev' : TrEvent) : Prop
  | kept (hraised : ev'.raised = ev.raised) (hlast : ev'.lastChanged = ev.lastChanged)
  | raised (hbefore : ev.raised = false) (hraised : ev'.raised = true)
      (hlast : ev'.lastChanged = timeNow)
  | cleared (hbefore : ev.raised = true) (hraised : ev'.raised = false)
      (hlast : ev'.lastChanged = timeNow)
      (hdelay : timerGe timeNow (timeradd (autoClearInterval ev) ev.lastChanged) = true)

theorem alarmCall_effect (ev : TrEvent) (c : AlarmCall) :
    CallEffect ev c.timeNow (alarmCall ev c) := by
  cases c with
  | alarmRaise timeNow =>
      by_cases hraised : ev.raised = true
      · apply CallEffect.kept <;> simp [alarmCall, alarmRaise, hraised]
      · have hcleared : ev.raised = false := by simpa using hraised
        apply CallEffect.raised hcleared <;>
          simp [alarmCall, alarmRaise, hcleared, AlarmCall.timeNow]
  | alarmRaiseWithArg msg timeNow =>
      by_cases hraised : ev.raised = true
      · apply CallEffect.kept <;> simp [alarmCall, alarmRaiseWithArg, hraised]
      · have hcleared : ev.raised = false := by simpa using hraised
        apply CallEffect.raised hcleared <;>
          simp [alarmCall, alarmRaiseWithArg, hcleared, AlarmCall.timeNow]
  | alarmClear timeNow =>
      by_cases hclears : ev.raised = true ∧
          timerGe timeNow (timeradd (autoClearInterval ev) ev.lastChanged) = true
      · apply CallEffect.cleared hclears.1 _ _ hclears.2 <;>
          simp [alarmCall, alarmClear, hclears]
      · apply CallEffect.kept <;> simp [alarmCall, alarmClear, hclears]

@[simp] theorem alarmCall_autoClear (ev : TrEvent) (c : AlarmCall) :
    (alarmCall ev c).autoClearAlarmAfterReport = ev.autoClearAlarmAfterReport := by
  cases c with
  | alarmRaise timeNow =>
      simp only [alarmCall, alarmRaise]
      split_ifs <;> rfl
  | alarmRaiseWithArg msg timeNow =>
      simp only [alarmCall, alarmRaiseWithArg]
      split_ifs <;> rfl
  | alarmClear timeNow =>
      simp only [alarmCall, alarmClear]
      split_ifs <;> rfl

/-! ## Changes of the flag -/

structure FlagChange where
  time : Timeval
  raised : Bool
deriving DecidableEq

def flagStep (r : TrEvent × List FlagChange) (c : AlarmCall) : TrEvent × List FlagChange :=
  let ev := alarmCall r.1 c
  (ev, if ev.raised = r.1.raised then r.2 else r.2 ++ [⟨c.timeNow, ev.raised⟩])

def flagHistory (ev : TrEvent) (calls : List AlarmCall) : TrEvent × List FlagChange :=
  calls.foldl flagStep (ev, [])

/-- A change to cleared comes `delay` milliseconds behind the change that raised the event. -/
def Delayed (delay : ℕ) (a b : FlagChange) : Prop :=
  a.raised = !b.raised ∧ (b.raised = false → a.time.micros + 1000 * delay ≤ b.time.micros)

/-- The changes of an event that was cleared at first: they alternate and keep the delay,
`lastChanged` is the time of the last one, and a call behind the delay clears. -/
structure Hysteresis (start : TrEvent) (r : TrEvent × List FlagChange) : Prop where
  first : ∀ change ∈ r.2.head?, change.raised = true
  delayed : r.2.IsChain (Delayed start.autoClearAlarmAfterReport)
  flag : r.1.raised = (r.2.getLast?.map FlagChange.raised).getD false
  lastChanged : r.1.lastChanged = (r.2.getLast?.map FlagChange.time).getD start.lastChanged
  clears : ∀ change ∈ r.2.getLast?, change.raised = true → ∀ timeNow : Timeval,
    timeNow.Normal →
      change.time.micros + 1000 * start.autoClearAlarmAfterReport ≤ timeNow.micros →
        (alarmClear r.1 timeNow).raised = false

structure Tracked (start : TrEvent) (r : TrEvent × List FlagChange) : Prop where
  delay : r.1.autoClearAlarmAfterReport = start.autoClearAlarmAfterReport
  first : ∀ change ∈ r.2.head?, change.raised = true
  delayed : r.2.IsChain (Delayed start.autoClearAlarmAfterReport)
  normal : ∀ change ∈ r.2, change.time.Normal
  flag : r.1.raised = (r.2.getLast?.map FlagChange.raised).getD false
  lastChanged : r.1.lastChanged = (r.2.getLast?.map FlagChange.time).getD start.lastChanged

theorem Tracked.exists_raise {start : TrEvent} {r : TrEvent × List FlagChange}
    (h : Tracked start r) (hraised : r.1.raised = true) :
    ∃ change, r.2.getLast? = some change ∧ change.raised = true ∧
      change.time = r.1.lastChanged ∧ change.time.Normal := by
  have hflag := h.flag
  have hlast := h.lastChanged
  cases hchange : r.2.getLast? with
  | none => simp [hchange, hraised] at hflag
  | some change =>
      simp only [hchange, Option.map_some, Option.getD_some] at hflag hlast
      exact ⟨change, rfl, hflag ▸ hraised, hlast.symm,
        h.normal change (List.mem_of_getLast? hchange)⟩

/-- A change behind the others that alternates with the last one and keeps the delay. -/
theorem Tracked.change {start : TrEvent} {r : TrEvent × List FlagChange} (h : Tracked start r)
    {ev : TrEvent} {timeNow : Timeval} (hnow : timeNow.Normal)
    (hdelay : ev.autoClearAlarmAfterReport = r.1.autoClearAlarmAfterReport)
    (hflag : ev.raised = !r.1.raised) (hlast : ev.lastChanged = timeNow)
    (hlate : r.1.raised = true →
      timerGe timeNow (timeradd (autoClearInterval r.1) r.1.lastChanged) = true) :
    Tracked start (ev, r.2 ++ [⟨timeNow, ev.raised⟩]) where
  delay := hdelay.trans h.delay
  first := by
    intro change hchange
    cases hchanges : r.2 with
    | nil =>
        have hcleared : r.1.raised = false := by simpa [hchanges] using h.flag
        obtain rfl : ⟨timeNow, ev.raised⟩ = change := by simpa [hchanges] using hchange
        rw [hflag, hcleared, Bool.not_false]
    | cons a rest =>
        obtain rfl : a = change := by simpa [hchanges] using hchange
        exact h.first a (by rw [hchanges]; rfl)
  delayed := by
    refine List.isChain_append.mpr ⟨h.delayed, List.isChain_singleton _, ?_⟩
    intro before hbefore after hafter
    obtain rfl : ⟨timeNow, ev.raised⟩ = after := by simpa using hafter
    have hbefore' : r.2.getLast? = some before := hbefore
    have hraised : r.1.raised = before.raised := by simpa [hbefore'] using h.flag
    refine ⟨by rw [hflag, hraised, Bool.not_not], fun hclear ↦ ?_⟩
    have hcleared : ev.raised = false := hclear
    have hset : r.1.raised = true := by simpa [hcleared] using hflag
    obtain ⟨change, hchange, -, htime, hnormal⟩ := h.exists_raise hset
    obtain rfl : before = change := Option.some.inj (hbefore'.symm.trans hchange)
    have hover := (timerGe_delay_iff hnow (htime ▸ hnormal)).mp (hlate hset)
    rwa [h.delay, ← htime] at hover
  normal := by
    intro change hchange
    rcases List.mem_append.mp hchange with hbefore | hafter
    · exact h.normal change hbefore
    · obtain rfl : change = ⟨timeNow, ev.raised⟩ := by simpa using hafter
      exact hnow
  flag := by simp
  lastChanged := by simp [hlast]

theorem tracked_flagStep {start : TrEvent} {r : TrEvent × List FlagChange} (h : Tracked start r)
    {c : AlarmCall} (hnow : c.timeNow.Normal) : Tracked start (flagStep r c) := by
  have hdelay := alarmCall_autoClear r.1 c
  cases alarmCall_effect r.1 c with
  | kept hraised hlast =>
      rw [flagStep, if_pos hraised]
      exact ⟨hdelay.trans h.delay, h.first, h.delayed, h.normal, hraised.trans h.flag,
        hlast.trans h.lastChanged⟩
  | raised hbefore hraised hlast =>
      have hflag : (alarmCall r.1 c).raised = !r.1.raised := by
        rw [hraised, hbefore, Bool.not_false]
      rw [flagStep, if_neg (by rw [hraised, hbefore]; decide)]
      exact h.change hnow hdelay hflag hlast fun hset ↦ by simp [hbefore] at hset
  | cleared hbefore hraised hlast hlate =>
      have hflag : (alarmCall r.1 c).raised = !r.1.raised := by
        rw [hraised, hbefore, Bool.not_true]
      rw [flagStep, if_neg (by rw [hraised, hbefore]; decide)]
      exact h.change hnow hdelay hflag hlast fun _ ↦ hlate

theorem tracked_flagHistory {start : TrEvent} (hstart : start.raised = false)
    {calls : List AlarmCall} (hnormal : ∀ c ∈ calls, c.timeNow.Normal) :
    Tracked start (flagHistory start calls) := by
  induction calls using List.reverseRecOn with
  | nil => exact ⟨rfl, by simp [flagHistory], .nil, by simp [flagHistory], hstart, rfl⟩
  | append_singleton calls c ih =>
      rw [flagHistory, List.foldl_concat]
      have hbefore := ih fun d hd ↦ hnormal d (List.mem_append_left _ hd)
      exact tracked_flagStep hbefore (hnormal c (by simp))

theorem Tracked.hysteresis {start : TrEvent} {r : TrEvent × List FlagChange}
    (h : Tracked start r) : Hysteresis start r where
  first := h.first
  delayed := h.delayed
  flag := h.flag
  lastChanged := h.lastChanged
  clears := by
    intro change hchange hraise timeNow hnow hlate
    have hchange' : r.2.getLast? = some change := hchange
    have hraised : r.1.raised = true := by simpa [hchange', hraise] using h.flag
    have htime : r.1.lastChanged = change.time := by simpa [hchange'] using h.lastChanged
    have hnormal := h.normal change (List.mem_of_getLast? hchange')
    have hover : timerGe timeNow (timeradd (autoClearInterval r.1) r.1.lastChanged) = true := by
      rw [timerGe_delay_iff hnow (htime ▸ hnormal), htime, h.delay]
      exact hlate
    simp [alarmClear, hraised, hover]

/-- Behind every sequence of calls, the changes of every event alternate, a change to cleared
keeps the delay behind its raise, `lastChanged` is the time of the last change, and a call
behind the delay clears. -/
theorem alarm_hysteresis (id : EventId) (calls : List AlarmCall)
    (hnormal : ∀ c ∈ calls, c.timeNow.Normal) :
    Hysteresis (trEventsTbl id) (flagHistory (trEventsTbl id) calls) := by
  have hstart : (trEventsTbl id).raised = false := by cases id <;> rfl
  exact (tracked_flagHistory hstart hnormal).hysteresis

/-- Raised, raised again, cleared too early, and cleared when five seconds are over. -/
theorem alarm_hysteresis_clears :
    (flagHistory (trEventsTbl .patError) [.alarmRaise ⟨100, 999999⟩,
        .alarmRaiseWithArg "late" ⟨103, 0⟩, .alarmClear ⟨105, 999998⟩,
        .alarmClear ⟨105, 999999⟩]).2 =
      [⟨⟨100, 999999⟩, true⟩, ⟨⟨105, 999999⟩, false⟩] ∧
    Hysteresis (trEventsTbl .patError) (flagHistory (trEventsTbl .patError)
      [.alarmRaise ⟨100, 999999⟩, .alarmRaiseWithArg "late" ⟨103, 0⟩,
        .alarmClear ⟨105, 999998⟩, .alarmClear ⟨105, 999999⟩]) :=
  ⟨by decide +kernel, alarm_hysteresis .patError _ (by decide)⟩

end LtnTsTools.AlarmReporting
