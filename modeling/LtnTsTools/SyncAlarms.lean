import LtnTsTools.AlarmHysteresis
import LtnTsTools.PriorityOne

/-!
# Alarms for lost sync bytes

P1.1 and P1.2 behind any number of calls whose time stamps lie closer together than the delay
of the two events: nothing is cleared in such a window, so each event says whether its pattern
of packets has been seen.
-/

namespace LtnTsTools.PriorityOne

open AlarmReporting Ts

def SyncMissing (p : Packet) : Prop := p.byte 0 ≠ 0x47

theorem syncMissing_iff (p : Packet) : SyncMissing p ↔ syncPresent p = false := by
  rw [SyncMissing, syncPresent, beq_eq_false_iff_ne]

structure SyncExact (packets : List Packet) (s : Tr101290) : Prop where
  syncByteError : (s.eventTbl .syncByteError).raised = true ↔ ∃ p ∈ packets, SyncMissing p
  tsSyncLoss : (s.eventTbl .tsSyncLoss).raised = true ↔
    ∃ p q, [p, q] <:+: packets ∧ SyncMissing p ∧ SyncMissing q
  bounded : s.consecutiveSyncBytes < 50000

/-! ## Events in a window of time -/

/-- Normalised time stamps that lie closer together than a delay in milliseconds. -/
structure Window (times : Set Timeval) (delay : ℕ) : Prop where
  normal : ∀ t ∈ times, t.Normal
  span : ∀ t ∈ times, ∀ t' ∈ times, t'.micros < t.micros + 1000 * delay

structure Held (times : Set Timeval) (delay : ℕ) (ev : TrEvent) : Prop where
  delay : ev.autoClearAlarmAfterReport = delay
  since : ev.raised = true → ev.lastChanged ∈ times

/-- In the window a call can raise the event and cannot clear it. -/
theorem Held.alarmCall {times : Set Timeval} {delay : ℕ} (hw : Window times delay) {ev : TrEvent}
    (h : Held times delay ev) {c : AlarmCall} (hc : c.timeNow ∈ times) :
    Held times delay (alarmCall ev c) ∧ (ev.raised = true → (alarmCall ev c).raised = true) := by
  have hdelay : (AlarmReporting.alarmCall ev c).autoClearAlarmAfterReport = delay :=
    (alarmCall_autoClear ev c).trans h.delay
  cases alarmCall_effect ev c with
  | kept hraised hlast =>
      refine ⟨⟨hdelay, fun hset ↦ ?_⟩, fun hset ↦ hraised.trans hset⟩
      rw [hlast]
      exact h.since (hraised ▸ hset)
  | raised hbefore hraised hlast =>
      exact ⟨⟨hdelay, fun _ ↦ hlast ▸ hc⟩, fun _ ↦ hraised⟩
  | cleared hbefore hraised hlast hlate =>
      have hsince := h.since hbefore
      rw [timerGe_delay_iff (hw.normal _ hc) (hw.normal _ hsince), h.delay] at hlate
      exact absurd hlate (not_le.mpr (hw.span _ hsince _ hc))

theorem Held.alarmRaise {times : Set Timeval} {delay : ℕ} (hw : Window times delay)
    {ev : TrEvent} (h : Held times delay ev) {t : Timeval} (ht : t ∈ times) :
    Held times delay (alarmRaise ev t) :=
  (h.alarmCall hw (c := .alarmRaise t) ht).1

theorem Held.alarmClear {times : Set Timeval} {delay : ℕ} (hw : Window times delay)
    {ev : TrEvent} (h : Held times delay ev) {t : Timeval} (ht : t ∈ times) :
    Held times delay (alarmClear ev t) ∧ (alarmClear ev t).raised = ev.raised := by
  obtain ⟨hheld, hkeeps⟩ := h.alarmCall hw (c := .alarmClear t) ht
  refine ⟨hheld, ?_⟩
  cases hraised : ev.raised with
  | true => exact hkeeps hraised
  | false => simp [AlarmReporting.alarmClear, hraised]

/-! ## Runs of packets -/

/-- Two neighbours with a property, in a list that grows at its end. -/
theorem exists_pair_concat_iff {α : Type*} {P : α → Prop} {xs : List α} {x : α} :
    (∃ a b, [a, b] <:+: xs ++ [x] ∧ P a ∧ P b) ↔
      (∃ a b, [a, b] <:+: xs ∧ P a ∧ P b) ∨ (∃ a, xs.getLast? = some a ∧ P a) ∧ P x := by
  constructor
  · rintro ⟨a, b, hpair, ha, hb⟩
    rcases List.infix_concat_iff.mp hpair with ⟨init, hsuffix⟩ | hinfix
    · have hsplit : (init ++ [a]) ++ [b] = xs ++ [x] := by simpa using hsuffix
      obtain ⟨rfl, hb'⟩ := List.append_inj' hsplit rfl
      obtain rfl : b = x := by simpa using hb'
      exact .inr ⟨⟨a, by simp, ha⟩, hb⟩
    · exact .inl ⟨a, b, hinfix, ha, hb⟩
  · rintro (⟨a, b, hpair, hab⟩ | ⟨⟨a, hlast, ha⟩, hx⟩)
    · exact ⟨a, b, hpair.trans (List.prefix_append xs [x]).isInfix, hab⟩
    · obtain ⟨init, rfl⟩ := List.getLast?_eq_some_iff.mp hlast
      exact ⟨a, x, ⟨init, [], by simp⟩, ha, hx⟩

theorem exists_mem_concat_iff {α : Type*} {P : α → Prop} {xs : List α} {x : α} :
    (∃ a ∈ xs ++ [x], P a) ↔ (∃ a ∈ xs, P a) ∨ P x := by
  simp only [List.mem_append, List.mem_singleton, or_and_right, exists_or, exists_eq_left]

structure Synced (times : Set Timeval) (delay delay' : ℕ) (done : List Packet)
    (s : Tr101290) : Prop where
  byteError : Held times delay (s.eventTbl .syncByteError)
  syncLoss : Held times delay' (s.eventTbl .tsSyncLoss)
  exact : SyncExact done s
  run : (∃ p, done.getLast? = some p ∧ SyncMissing p) →
    s.consecutiveSyncErrors = 1 ∨ (s.eventTbl .tsSyncLoss).raised = true
  noRun : ¬(∃ p, done.getLast? = some p ∧ SyncMissing p) → s.consecutiveSyncErrors = 0

section Step

variable {times : Set Timeval} {delay delay' : ℕ} {done : List Packet} {s : Tr101290}
  {timeNow : Timeval} {p : Packet}

theorem exists_getLast?_concat_iff : (∃ q, (done ++ [p]).getLast? = some q ∧ SyncMissing q) ↔
    SyncMissing p := by
  simp

theorem eventTbl_syncByteError_missing (hp : SyncMissing p) :
    (syncPacket timeNow s p).eventTbl .syncByteError =
      alarmRaise (s.eventTbl .syncByteError) timeNow := by
  rw [syncPacket_missing ((syncMissing_iff p).mp hp), Tr101290.alarms]
  dsimp only
  split_ifs <;> rfl

theorem eventTbl_tsSyncLoss_missing (hp : SyncMissing p) :
    (syncPacket timeNow s p).eventTbl .tsSyncLoss =
      if (s.consecutiveSyncErrors + 1).bmod (2 ^ 32) ≥ syncLossThreshold then
        alarmRaise (s.eventTbl .tsSyncLoss) timeNow
      else s.eventTbl .tsSyncLoss := by
  rw [syncPacket_missing ((syncMissing_iff p).mp hp), Tr101290.alarms]
  dsimp only
  split_ifs <;> rfl

/-- An event that packets with their sync byte clear keeps its flag behind such a packet. -/
theorem Held.syncPacket_present {t : Set Timeval} {d : ℕ} {id : EventId} (hw : Window t d)
    (h : Held t d (s.eventTbl id)) (ht : timeNow ∈ t) (hp : syncPresent p = true)
    (hid : id = .syncByteError ∨ id = .tsSyncLoss) :
    Held t d ((syncPacket timeNow s p).eventTbl id) ∧
      ((syncPacket timeNow s p).eventTbl id).raised = (s.eventTbl id).raised := by
  rw [PriorityOne.syncPacket_present hp]
  by_cases hlong : s.consecutiveSyncBytes + 1 > 5
  · have hclear := h.alarmClear hw ht
    simp only [if_pos hlong, Tr101290.alarms]
    rcases hid with rfl | rfl
    · exact hclear
    · exact hclear
  · simp only [if_neg hlong, Tr101290.alarms]
    exact ⟨h, rfl⟩

theorem Synced.present (hw : Window times delay) (hw' : Window times delay')
    (h : Synced times delay delay' done s) (ht : timeNow ∈ times) (hp : syncPresent p = true) :
    Synced times delay delay' (done ++ [p]) (syncPacket timeNow s p) := by
  have hmissing : ¬SyncMissing p := by simp [syncMissing_iff, hp]
  obtain ⟨hbyte, hsame⟩ := h.byteError.syncPacket_present hw ht hp (.inl rfl)
  obtain ⟨hloss, hsame'⟩ := h.syncLoss.syncPacket_present hw' ht hp (.inr rfl)
  have hbounded := h.exact.bounded
  refine ⟨hbyte, hloss, ⟨?_, ?_, ?_⟩, ?_, fun _ ↦ ?_⟩
  · rw [hsame, h.exact.syncByteError, exists_mem_concat_iff, or_iff_left hmissing]
  · rw [hsame', h.exact.tsSyncLoss, exists_pair_concat_iff,
      or_iff_left fun hpair ↦ hmissing hpair.2]
  · rw [PriorityOne.syncPacket_present hp]
    dsimp only
    split_ifs <;> omega
  · rw [exists_getLast?_concat_iff]
    exact fun hno ↦ absurd hno hmissing
  · rw [PriorityOne.syncPacket_present hp]

/-- Behind a packet without its sync byte, P1.1 is raised exactly if the one before lacked it
too or it was raised already. -/
theorem Synced.tsSyncLoss_missing (h : Synced times delay delay' done s) (hp : SyncMissing p)
    (timeNow : Timeval) :
    ((syncPacket timeNow s p).eventTbl .tsSyncLoss).raised = true ↔
      (s.eventTbl .tsSyncLoss).raised = true ∨ ∃ q, done.getLast? = some q ∧ SyncMissing q := by
  rw [eventTbl_tsSyncLoss_missing hp]
  by_cases hlast : ∃ q, done.getLast? = some q ∧ SyncMissing q
  · -- the second packet of a run at least
    refine iff_of_true ?_ (.inr hlast)
    rcases h.run hlast with hone | hset
    · rw [hone, if_pos (by decide), alarmRaise_raised]
    · split_ifs
      · exact alarmRaise_raised _ _
      · exact hset
  · -- the first one of a run
    rw [h.noRun hlast, if_neg (by decide), or_iff_left hlast]

/-- A packet without it raises one event, and the other one behind another such packet. -/
theorem Synced.missing (hw : Window times delay) (hw' : Window times delay')
    (h : Synced times delay delay' done s) (ht : timeNow ∈ times) (hp : SyncMissing p) :
    Synced times delay delay' (done ++ [p]) (syncPacket timeNow s p) := by
  have hbyte : Held times delay ((syncPacket timeNow s p).eventTbl .syncByteError) := by
    rw [eventTbl_syncByteError_missing hp]
    exact h.byteError.alarmRaise hw ht
  have hloss : Held times delay' ((syncPacket timeNow s p).eventTbl .tsSyncLoss) := by
    rw [eventTbl_tsSyncLoss_missing hp]
    split_ifs
    · exact h.syncLoss.alarmRaise hw' ht
    · exact h.syncLoss
  have hraised : ((syncPacket timeNow s p).eventTbl .syncByteError).raised = true := by
    rw [eventTbl_syncByteError_missing hp, alarmRaise_raised]
  have hraised' := h.tsSyncLoss_missing hp timeNow
  refine ⟨hbyte, hloss, ⟨?_, ?_, ?_⟩, fun _ ↦ ?_, ?_⟩
  · exact iff_of_true hraised ⟨p, by simp, hp⟩
  · rw [hraised', h.exact.tsSyncLoss, exists_pair_concat_iff, and_iff_left hp]
  · rw [syncPacket_missing ((syncMissing_iff p).mp hp)]
    norm_num
  · by_cases hlast : ∃ q, done.getLast? = some q ∧ SyncMissing q
    · exact .inr (hraised'.mpr (.inr hlast))
    · have hone : ((0 : ℤ) + 1).bmod (2 ^ 32) = 1 := by decide
      rw [syncPacket_missing ((syncMissing_iff p).mp hp), h.noRun hlast]
      exact .inl hone
  · rw [exists_getLast?_concat_iff]
    exact fun hno ↦ absurd hp hno

theorem Synced.packets (hw : Window times delay) (hw' : Window times delay')
    (h : Synced times delay delay' done s) (ht : timeNow ∈ times) (packets : List Packet) :
    Synced times delay delay' (done ++ packets) (packets.foldl (syncPacket timeNow) s) := by
  induction packets generalizing done s with
  | nil => simpa using h
  | cons p rest ih =>
      have hone : Synced times delay delay' (done ++ [p]) (syncPacket timeNow s p) := by
        cases hp : syncPresent p with
        | true => exact h.present hw hw' ht hp
        | false => exact h.missing hw hw' ht ((syncMissing_iff p).mpr hp)
      simpa using ih hone

theorem Synced.congr (h : Synced times delay delay' done s) {s' : Tr101290}
    (hbyte : s'.eventTbl .syncByteError = s.eventTbl .syncByteError)
    (hloss : s'.eventTbl .tsSyncLoss = s.eventTbl .tsSyncLoss)
    (hbytes : s'.consecutiveSyncBytes = s.consecutiveSyncBytes)
    (herrors : s'.consecutiveSyncErrors = s.consecutiveSyncErrors) :
    Synced times delay delay' done s' where
  byteError := hbyte ▸ h.byteError
  syncLoss := hloss ▸ h.syncLoss
  exact := ⟨hbyte ▸ h.exact.syncByteError, hloss ▸ h.exact.tsSyncLoss, hbytes ▸ h.exact.bounded⟩
  run := by
    rw [hloss, herrors]
    exact h.run
  noRun := by
    rw [herrors]
    exact h.noRun

theorem Synced.call (hw : Window times delay) (hw' : Window times delay')
    (h : Synced times delay delay' done s) {c : WriteCall} (ht : c.timeNow ∈ times) :
    Synced times delay delay' (done ++ c.packets) (p1Write s c).1 := by
  have hstart : Synced times delay delay' done { s with now := c.timeNow } :=
    h.congr rfl rfl rfl rfl
  refine (hstart.packets hw hw' ht c.packets).congr ?_ ?_ rfl rfl
  · exact alarms_patActions _ _ _ (by decide) (by decide)
  · exact alarms_patActions _ _ _ (by decide) (by decide)

theorem Synced.calls (hw : Window times delay) (hw' : Window times delay')
    {calls : List WriteCall} (hcalls : ∀ c ∈ calls, c.timeNow ∈ times) :
    ∀ {done s}, Synced times delay delay' done s →
      Synced times delay delay' (done ++ calls.flatMap WriteCall.packets) (p1Writes s calls) := by
  induction calls with
  | nil =>
      intro done s h
      simpa [p1Writes] using h
  | cons c rest ih =>
      intro done s h
      obtain ⟨hc, hrest⟩ := List.forall_mem_cons.mp hcalls
      simpa [p1Writes] using ih hrest (h.call hw hw' hc)

end Step

/-- In a window shorter than the delay of the two events, P1.2 is raised exactly when a packet
lacked its sync byte and P1.1 exactly when two neighbours did, however the packets are split
into calls. -/
theorem sync_alarms_exact (s : Tr101290) (calls : List WriteCall)
    (hcleared : (s.eventTbl .syncByteError).raised = false)
    (hcleared' : (s.eventTbl .tsSyncLoss).raised = false)
    (herrors : s.consecutiveSyncErrors = 0) (hbytes : s.consecutiveSyncBytes < 50000)
    (hwindow : Window {t | ∃ c ∈ calls, c.timeNow = t}
      (s.eventTbl .syncByteError).autoClearAlarmAfterReport)
    (hwindow' : Window {t | ∃ c ∈ calls, c.timeNow = t}
      (s.eventTbl .tsSyncLoss).autoClearAlarmAfterReport) :
    SyncExact (calls.flatMap WriteCall.packets) (p1Writes s calls) := by
  have hstart : Synced {t | ∃ c ∈ calls, c.timeNow = t}
      (s.eventTbl .syncByteError).autoClearAlarmAfterReport
      (s.eventTbl .tsSyncLoss).autoClearAlarmAfterReport [] s := by
    refine ⟨⟨rfl, ?_⟩, ⟨rfl, ?_⟩, ⟨?_, ?_, hbytes⟩, ?_, fun _ ↦ herrors⟩
    · simp [hcleared]
    · simp [hcleared']
    · simp [hcleared]
    · simp [hcleared']
    · simp
  have hcalls : ∀ c ∈ calls, c.timeNow ∈ {t | ∃ c ∈ calls, c.timeNow = t} :=
    fun c hc ↦ ⟨c, hc, rfl⟩
  simpa using (hstart.calls hwindow hwindow' hcalls).exact

/-- Two neighbours in different calls lack their sync byte. -/
def acrossCalls : List WriteCall :=
  [⟨[Packet.filled 0x47, Packet.filled 0x46], fun _ ↦ 0, ⟨1000, 900000⟩⟩,
    ⟨[Packet.filled 0x46, Packet.filled 0x47], fun _ ↦ 0, ⟨1005, 899999⟩⟩]

theorem sync_alarms_exact_across_calls :
    SyncExact (acrossCalls.flatMap WriteCall.packets) (p1Writes tr101290Alloc acrossCalls) ∧
      ((p1Writes tr101290Alloc acrossCalls).eventTbl .syncByteError).raised = true ∧
      ((p1Writes tr101290Alloc acrossCalls).eventTbl .tsSyncLoss).raised = true := by
  have hwindow : Window {t | ∃ c ∈ acrossCalls, c.timeNow = t} 5000 := by
    constructor
    · rintro t ⟨c, hc, rfl⟩
      rcases List.mem_pair.mp hc with rfl | rfl <;> decide
    · rintro t ⟨c, hc, rfl⟩ t' ⟨c', hc', rfl⟩
      rcases List.mem_pair.mp hc with rfl | rfl <;> rcases List.mem_pair.mp hc' with rfl | rfl <;>
        decide
  have hexact := sync_alarms_exact tr101290Alloc acrossCalls rfl rfl rfl (by decide) hwindow hwindow
  have hmissing : SyncMissing (Packet.filled 0x46) := by
    rw [SyncMissing]
    decide
  refine ⟨hexact, ?_, ?_⟩
  · exact hexact.syncByteError.mpr ⟨Packet.filled 0x46, by simp [acrossCalls], hmissing⟩
  · exact hexact.tsSyncLoss.mpr ⟨Packet.filled 0x46, Packet.filled 0x46,
      ⟨[Packet.filled 0x47], [Packet.filled 0x47], rfl⟩, hmissing, hmissing⟩

end LtnTsTools.PriorityOne
