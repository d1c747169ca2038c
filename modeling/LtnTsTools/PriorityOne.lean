import LtnTsTools.AlarmReporting
import LtnTsTools.TransportPacket

/-!
# Priority one alarms

`p1_write` of `tr101290-p1.c` as far as the sync bytes and the PAT go: P1.1, P1.2 and P1.3.
P1.4, P1.5 and P1.6, which come behind them, raise and clear other events and are left out.
-/

namespace LtnTsTools.PriorityOne

open AlarmReporting Ts

/-- `struct ltntstools_tr101290_s`, the fields of P1.1, P1.2 and P1.3. -/
structure Tr101290 where
  eventTbl : EventId → TrEvent
  consecutiveSyncBytes : ℤ
  consecutiveSyncErrors : ℤ
  now : Timeval
  lastPAT : Timeval

/-- The arguments of `p1_write`, and the memory behind its packets. -/
structure WriteCall where
  packets : List Packet
  behind : ℕ → UInt8
  timeNow : Timeval

/-- `ltntstools_tr101290_alloc`, before its thread runs. -/
def tr101290Alloc : Tr101290 := ⟨trEventsTbl, 0, 0, ⟨0, 0⟩, ⟨0, 0⟩⟩

/-- The calls of `tr101290-alarms.c`, one after the other. -/
def Tr101290.alarms (s : Tr101290) (actions : List Action) : Tr101290 :=
  { s with
    eventTbl := actions.foldl (fun tbl a ↦
      Function.update tbl a.event (eventStep a.event (tbl a.event) a.op).1) s.eventTbl }

/-- `SYNC_LOSS_THRESHOLD`. -/
def syncLossThreshold : ℤ := 2

/-- `p1_write`, one packet of the loop of P1.1 and P1.2.  The run of errors is counted in an
`int`. -/
def syncPacket (timeNow : Timeval) (s : Tr101290) (p : Packet) : Tr101290 :=
  if syncPresent p then
    let s := { s with
      consecutiveSyncBytes := s.consecutiveSyncBytes + 1
      consecutiveSyncErrors := 0 }
    let s := if s.consecutiveSyncBytes > 5 then
        s.alarms [⟨.syncByteError, .alarmClear timeNow⟩, ⟨.tsSyncLoss, .alarmClear timeNow⟩]
      else s
    if s.consecutiveSyncBytes ≥ 50000 then { s with consecutiveSyncBytes := 16 } else s
  else
    let consecutiveSyncErrors := (s.consecutiveSyncErrors + 1).bmod (2 ^ 32)
    let s := { s with
      consecutiveSyncBytes := 0
      consecutiveSyncErrors := consecutiveSyncErrors }
    let s := s.alarms [⟨.syncByteError, .alarmRaise timeNow⟩]
    if consecutiveSyncErrors ≥ syncLossThreshold then
      s.alarms [⟨.tsSyncLoss, .alarmRaise timeNow⟩]
    else s

/-- `ltntstools_get_section_tableid` of the first packet. -/
def getSectionTableid (behind : ℕ → UInt8) (p : Packet) (rest : List Packet) : ℕ :=
  let sectionOffset := if hasAdaption p then 5 + 1 + adaptionFieldLength p else 5
  bufferByte behind (p :: rest) sectionOffset

/-- `p1_process_p1_3`, the loop: `patIssue` and `gotPAT`. -/
def scanPat (behind : ℕ → UInt8) : ℕ × Bool → List Packet → ℕ × Bool
  | r, [] => r
  | (patIssue, gotPAT), p :: rest =>
      if pid p = 0 then
        let patIssue := if getSectionTableid behind p rest ≠ 0 then patIssue + 1 else patIssue
        let patIssue := if transportScramblingControl p ≠ 0 then patIssue + 1 else patIssue
        scanPat behind (patIssue, true) rest
      else scanPat behind (patIssue, gotPAT) rest

/-- `p1_process_p1_3`, what it does to the two events. -/
def patActions (patIssue : ℕ) (timeNow : Timeval) : List Action :=
  if patIssue ≠ 0 then [⟨.patError, .alarmRaise timeNow⟩, ⟨.patError2, .alarmRaise timeNow⟩]
  else [⟨.patError, .alarmClear timeNow⟩, ⟨.patError2, .alarmClear timeNow⟩]

/-- `p1_process_p1_3`, with the calls that it makes. -/
def p1ProcessP13 (s : Tr101290) (c : WriteCall) : Tr101290 × List Action :=
  let r := scanPat c.behind (0, false) c.packets
  let patIssue :=
    if !r.2 && timerGe c.timeNow (timeradd s.lastPAT ⟨0, 500 * 1000⟩) then r.1 + 1 else r.1
  let actions := patActions patIssue c.timeNow
  ({ s with lastPAT := if r.2 then c.timeNow else s.lastPAT }.alarms actions, actions)

/-- `p1_write`, with the calls of P1.3. -/
def p1Write (s : Tr101290) (c : WriteCall) : Tr101290 × List Action :=
  p1ProcessP13 (c.packets.foldl (syncPacket c.timeNow) { s with now := c.timeNow }) c

def p1Writes (s : Tr101290) (calls : List WriteCall) : Tr101290 :=
  calls.foldl (fun s c ↦ (p1Write s c).1) s

/-- A packet with its sync byte: past a run of five both events are cleared. -/
theorem syncPacket_present {p : Packet} (h : syncPresent p = true) (timeNow : Timeval)
    (s : Tr101290) :
    syncPacket timeNow s p =
      { s.alarms (if s.consecutiveSyncBytes + 1 > 5 then
          [⟨.syncByteError, .alarmClear timeNow⟩, ⟨.tsSyncLoss, .alarmClear timeNow⟩]
        else []) with
        consecutiveSyncBytes :=
          if s.consecutiveSyncBytes + 1 ≥ 50000 then 16 else s.consecutiveSyncBytes + 1
        consecutiveSyncErrors := 0 } := by
  simp only [syncPacket, h, if_true]
  by_cases hlong : s.consecutiveSyncBytes + 1 > 5
  · simp only [if_pos hlong, Tr101290.alarms]
    split_ifs <;> rfl
  · simp only [if_neg hlong, Tr101290.alarms, List.foldl_nil]
    split_ifs <;> rfl

/-- A packet without it: one event is raised, and the other one with the second such packet. -/
theorem syncPacket_missing {p : Packet} (h : syncPresent p = false) (timeNow : Timeval)
    (s : Tr101290) :
    syncPacket timeNow s p =
      { s.alarms (if (s.consecutiveSyncErrors + 1).bmod (2 ^ 32) ≥ syncLossThreshold then
          [⟨.syncByteError, .alarmRaise timeNow⟩, ⟨.tsSyncLoss, .alarmRaise timeNow⟩]
        else [⟨.syncByteError, .alarmRaise timeNow⟩]) with
        consecutiveSyncBytes := 0
        consecutiveSyncErrors := (s.consecutiveSyncErrors + 1).bmod (2 ^ 32) } := by
  simp only [syncPacket, h, Tr101290.alarms, Bool.false_eq_true, if_false]
  by_cases hloss : (s.consecutiveSyncErrors + 1).bmod (2 ^ 32) ≥ syncLossThreshold
  · simp only [if_pos hloss, List.foldl_cons, List.foldl_nil]
  · simp only [if_neg hloss]

@[simp] theorem syncPacket_lastPAT (timeNow : Timeval) (s : Tr101290) (p : Packet) :
    (syncPacket timeNow s p).lastPAT = s.lastPAT := by
  cases h : syncPresent p with
  | true => rw [syncPacket_present h, Tr101290.alarms]
  | false => rw [syncPacket_missing h, Tr101290.alarms]

theorem foldl_syncPacket_lastPAT (timeNow : Timeval) (packets : List Packet) (s : Tr101290) :
    (packets.foldl (syncPacket timeNow) s).lastPAT = s.lastPAT := by
  induction packets generalizing s with
  | nil => rfl
  | cons p rest ih => rw [List.foldl_cons, ih, syncPacket_lastPAT]

theorem alarms_patActions (s : Tr101290) (patIssue : ℕ) (timeNow : Timeval) {id : EventId}
    (hne : id ≠ .patError) (hne' : id ≠ .patError2) :
    (s.alarms (patActions patIssue timeNow)).eventTbl id = s.eventTbl id := by
  unfold Tr101290.alarms patActions
  split_ifs <;> simp [Function.update_of_ne hne, Function.update_of_ne hne']

end LtnTsTools.PriorityOne
