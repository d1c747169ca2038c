import LtnTsTools.Monitor

/-!
# Events of the monitor

Every check of the monitor has events of its own.  So the record of an event behind a run is
what the operations on that event make of it, and a call of the writer is one or two of them,
which can be read off the packets and the clocks of the run.
-/

namespace LtnTsTools.Monitor

open AlarmReporting PriorityOne PidTable StreamModel SectionChecks PartialMachine Psi

/-! ## One event of the table -/

def actionsOn (id : EventId) (actions : List Action) : List AlarmReporting.Op :=
  actions.filterMap fun a ↦ if a.event = id then some a.op else none

def perform (id : EventId) (ev : TrEvent) (ops : List AlarmReporting.Op) : TrEvent :=
  ops.foldl (fun ev op ↦ (eventStep id ev op).1) ev

@[simp] theorem actionsOn_nil (id : EventId) : actionsOn id [] = [] := rfl

theorem actionsOn_cons (id : EventId) (a : Action) (actions : List Action) :
    actionsOn id (a :: actions) =
      if a.event = id then a.op :: actionsOn id actions else actionsOn id actions := by
  by_cases h : a.event = id <;> simp [actionsOn, h]

@[simp] theorem perform_nil (id : EventId) (ev : TrEvent) : perform id ev [] = ev := rfl

theorem perform_append (id : EventId) (ev : TrEvent) (ops ops' : List AlarmReporting.Op) :
    perform id ev (ops ++ ops') = perform id (perform id ev ops) ops' :=
  List.foldl_append

theorem eventTbl_alarms (s : Tr101290) (actions : List Action) (id : EventId) :
    (s.alarms actions).eventTbl id = perform id (s.eventTbl id) (actionsOn id actions) := by
  suffices hfold : ∀ tbl : EventId → TrEvent, actions.foldl (fun tbl a ↦
      Function.update tbl a.event (eventStep a.event (tbl a.event) a.op).1) tbl id =
        perform id (tbl id) (actionsOn id actions) from hfold s.eventTbl
  induction actions with
  | nil => exact fun _ ↦ rfl
  | cons a rest ih =>
      intro tbl
      rw [List.foldl_cons, ih, actionsOn_cons]
      split_ifs with hid
      · subst hid
        rw [Function.update_self]
        rfl
      · rw [Function.update_of_ne (Ne.symm hid)]

section Frame

/-- Only these events may differ. -/
def Touches (ids : List EventId) (s s' : Tr101290) : Prop :=
  ∀ id ∉ ids, s'.eventTbl id = s.eventTbl id

theorem Touches.trans {ids ids' : List EventId} {s s' s'' : Tr101290} (h : Touches ids s s')
    (h' : Touches ids' s' s'') : Touches (ids ++ ids') s s'' := by
  intro id hid
  rw [List.mem_append, not_or] at hid
  exact (h' id hid.2).trans (h id hid.1)

theorem touches_alarms (s : Tr101290) (actions : List Action) :
    Touches (actions.map Action.event) s (s.alarms actions) := by
  intro id hid
  have hnone : actionsOn id actions = [] := by
    simp only [actionsOn, List.filterMap_eq_nil_iff]
    intro a ha
    rw [if_neg]
    exact fun heq ↦ hid (heq ▸ List.mem_map_of_mem ha)
  rw [eventTbl_alarms, hnone, perform_nil]

theorem touches_syncPacket (timeNow : Timeval) (s : Tr101290) (p : Packet) :
    Touches [.syncByteError, .tsSyncLoss] s (syncPacket timeNow s p) := by
  intro id hid
  have hother : ∀ actions : List Action,
      (∀ a ∈ actions, a.event ∈ [EventId.syncByteError, EventId.tsSyncLoss]) →
        (s.alarms actions).eventTbl id = s.eventTbl id := by
    intro actions hactions
    refine touches_alarms s actions id fun hmem ↦ ?_
    obtain ⟨a, ha, rfl⟩ := List.mem_map.mp hmem
    exact hid (hactions a ha)
  cases hp : Ts.syncPresent p with
  | true =>
      rw [syncPacket_present hp]
      refine hother _ fun a ha ↦ ?_
      split_ifs at ha <;> simp at ha
      rcases ha with rfl | rfl <;> simp
  | false =>
      rw [syncPacket_missing hp]
      refine hother _ fun a ha ↦ ?_
      split_ifs at ha <;> simp at ha
      · rcases ha with rfl | rfl <;> simp
      · rw [ha]
        simp

theorem touches_foldl_syncPacket (timeNow : Timeval) (packets : List Packet) (s : Tr101290) :
    Touches [.syncByteError, .tsSyncLoss] s (packets.foldl (syncPacket timeNow) s) := by
  induction packets generalizing s with
  | nil => exact fun _ _ ↦ rfl
  | cons p rest ih =>
      intro id hid
      rw [List.foldl_cons, ih _ id hid, touches_syncPacket timeNow s p id hid]

/-- P1.1, P1.2 and P1.3 have events of their own. -/
theorem touches_p1Write (s : Tr101290) (c : WriteCall) :
    Touches [.syncByteError, .tsSyncLoss, .patError, .patError2] s (PriorityOne.p1Write s c).1 := by
  intro id hid
  simp only [List.mem_cons, List.not_mem_nil, or_false, not_or] at hid
  obtain ⟨hbyte, hloss, hpat, hpat2⟩ := hid
  have hsync := touches_foldl_syncPacket c.timeNow c.packets { s with now := c.timeNow } id
    (by simp [hbyte, hloss])
  refine (alarms_patActions _ _ _ hpat hpat2).trans ?_
  exact hsync

/-- The callbacks of the section checks raise and clear P2.2, and set the times of their
tables. -/
theorem callbacks_spec {L : Library} (calls : List (ℕ × CallbackArgs)) (s : State L) :
    ∃ tbl p2, calls.foldl (fun s call ↦ p2StreammodelCallback s call.2) s =
        { s with tr := { s.tr with eventTbl := tbl }, p2 := p2 } ∧
      (∀ id, id ≠ .crcError → tbl id = s.tr.eventTbl id) ∧
      ((∀ call ∈ calls, call.2.context ≠ .cat) → p2 .cat = s.p2 .cat) := by
  induction calls generalizing s with
  | nil => exact ⟨s.tr.eventTbl, s.p2, rfl, fun _ _ ↦ rfl, fun _ ↦ rfl⟩
  | cons call rest ih =>
      obtain ⟨tbl, p2, heq, htbl, hp2⟩ := ih (p2StreammodelCallback s call.2)
      by_cases hstatus : call.2.status ≠ cbCrcStatus
      · have hsame : p2StreammodelCallback s call.2 = s := if_pos hstatus
        rw [hsame] at heq htbl hp2
        refine ⟨tbl, p2, by rw [List.foldl_cons, hsame, heq], htbl, fun hcalls ↦ ?_⟩
        exact hp2 fun c hc ↦ hcalls c (List.mem_cons_of_mem call hc)
      · have hset : p2StreammodelCallback s call.2 = _ := if_neg hstatus
        rw [hset] at heq htbl hp2
        refine ⟨tbl, p2, by rw [List.foldl_cons, hset, heq]; rfl, fun id hid ↦ ?_, fun hcalls ↦ ?_⟩
        · refine (htbl id hid).trans (touches_alarms _ _ id ?_)
          split_ifs <;> simpa using hid
        · obtain ⟨hcall, hrest⟩ := List.forall_mem_cons.mp hcalls
          exact (hp2 hrest).trans (Function.update_of_ne (Ne.symm hcall) _ _)

end Frame

/-! ## What the statistics remember -/

def lastOn (pid : ℕ) (past : List Packet) : Option Packet :=
  (past.filter fun p ↦ Ts.pid p = pid).getLast?

def breaks (past : List Packet) (p : Packet) : Bool :=
  Ts.pid p != 0x1fff && ((lastOn (Ts.pid p) past).map fun q ↦
    Stats.isCCInError p (Ts.continuityCounter q)).getD false

structure Remembers (stream : PidTable.Context) (past : List Packet) : Prop where
  indexed : Indexed stream
  bounded : Bounded stream
  unseen : ∀ pid r, lastOn pid past = none → stream.internalPids pid = some r →
    r.counters.packetCount = 0
  seen : ∀ pid q, lastOn pid past = some q → ∃ r, stream.internalPids pid = some r ∧
    0 < r.counters.packetCount ∧ r.counters.lastCC = Ts.continuityCounter q

theorem lastOn_concat_self (past : List Packet) (p : Packet) :
    lastOn (Ts.pid p) (past ++ [p]) = some p := by
  simp [lastOn, List.filter_append]

theorem lastOn_concat_ne {pid : ℕ} {p : Packet} (h : Ts.pid p ≠ pid) (past : List Packet) :
    lastOn pid (past ++ [p]) = lastOn pid past := by
  simp [lastOn, List.filter_append, h]

theorem Remembers.congr {stream stream' : PidTable.Context} {past : List Packet}
    (h : Remembers stream past) (hpids : stream'.internalPids = stream.internalPids)
    (harray : stream'.pidArray = stream.pidArray) : Remembers stream' past := by
  refine ⟨h.indexed.congr hpids harray, fun pid hpid ↦ ?_, ?_, ?_⟩
  · rw [hpids] at hpid
    exact h.bounded pid hpid
  · rw [hpids]
    exact h.unseen
  · rw [hpids]
    exact h.seen

/-- What finding or making a record leaves as it was. -/
theorem Remembers.discover {stream mid : PidTable.Context} {past : List Packet}
    (h : Remembers stream past) {pid : ℕ} (hpid : pid < maxPid) {g : Grants}
    (hd : PidTable.discover stream pid g = some mid) :
    Remembers mid past ∧ mid.ccErrors = stream.ccErrors ∧ mid.teiErrors = stream.teiErrors ∧
      mid.scrambledCount = stream.scrambledCount := by
  obtain ⟨hindexed, hbounded⟩ := h.indexed.discover h.bounded hpid hd
  rcases discover_cases hd with ⟨-, rfl⟩ | ⟨hnew, rfl⟩
  · exact ⟨h, rfl, rfl, rfl⟩
  · refine ⟨⟨hindexed, hbounded, fun p r hp hr ↦ ?_, fun p q hq ↦ ?_⟩, rfl, rfl, rfl⟩
    · dsimp only at hr
      rcases eq_or_ne p pid with rfl | hne
      · rw [Function.update_self] at hr
        rw [← Option.some.inj hr]
        rfl
      · rw [Function.update_of_ne hne] at hr
        exact h.unseen p r hp hr
    · obtain ⟨r, hr, hcount⟩ := h.seen p q hq
      have hne : p ≠ pid := by
        rintro rfl
        rw [hnew] at hr
        exact absurd hr (by simp)
      exact ⟨r, (Function.update_of_ne hne _ _).trans hr, hcount⟩

/-- A packet that breaks the continuity of its record. -/
theorem Remembers.breaksContinuity_eq {stream : PidTable.Context} {past : List Packet}
    (h : Remembers stream past) {p : Packet} {r : PidRecord}
    (hr : stream.internalPids (Ts.pid p) = some r) :
    Stats.breaksContinuity r.counters p = breaks past p := by
  cases hlast : lastOn (Ts.pid p) past with
  | none =>
      have hcount := h.unseen _ r hlast hr
      simp [Stats.breaksContinuity, breaks, hlast, hcount]
  | some q =>
      obtain ⟨r', hr', hcount, hcc⟩ := h.seen _ q hlast
      obtain rfl : r = r' := Option.some.inj (hr.symm.trans hr')
      simp [Stats.breaksContinuity, breaks, hlast, hcc, hcount, Bool.and_comm]

/-- A packet of the second loop, with its allocations granted. -/
theorem Remembers.notePacket {stream : PidTable.Context} {past : List Packet}
    (h : Remembers stream past) (p : Packet) :
    Remembers (PidTable.notePacket stream (p, ⟨true, true⟩)) (past ++ [p]) ∧
      (PidTable.notePacket stream (p, ⟨true, true⟩)).ccErrors =
        stream.ccErrors + (breaks past p).toNat ∧
      (PidTable.notePacket stream (p, ⟨true, true⟩)).teiErrors =
        stream.teiErrors + (Ts.teiSet p).toNat ∧
      (PidTable.notePacket stream (p, ⟨true, true⟩)).scrambledCount =
        stream.scrambledCount + (Ts.transportScramblingControl p != 0).toNat := by
  obtain ⟨mid', hgranted⟩ := discover_granted h.indexed h.bounded (pid_lt_maxPid p)
  obtain ⟨hindexed, hbounded⟩ := h.indexed.notePacket h.bounded (p, ⟨true, true⟩)
  rcases notePacket_cases stream (p, ⟨true, true⟩) with ⟨hnone, -⟩ | ⟨mid, r, hd, hr, heq⟩
  · rw [hgranted] at hnone
    exact absurd hnone (by simp)
  obtain ⟨hmid, hcc, htei, hscrambled⟩ := h.discover (pid_lt_maxPid p) hd
  refine ⟨⟨hindexed, hbounded, fun pid r' hlast hr' ↦ ?_, fun pid q hq ↦ ?_⟩, ?_⟩
  · rcases eq_or_ne (Ts.pid p) pid with rfl | hne
    · rw [lastOn_concat_self] at hlast
      exact absurd hlast (by simp)
    · rw [heq, noteRecord] at hr'
      dsimp only at hr'
      rw [Function.update_of_ne (Ne.symm hne)] at hr'
      exact hmid.unseen pid r' (lastOn_concat_ne hne past ▸ hlast) hr'
  · rw [heq, noteRecord]
    dsimp only
    rcases eq_or_ne (Ts.pid p) pid with rfl | hne
    · obtain rfl : p = q := Option.some.inj ((lastOn_concat_self past p).symm.trans hq)
      refine ⟨_, Function.update_self _ _ _, ?_⟩
      rw [counters_measurePcr]
      exact ⟨Nat.succ_pos _, rfl⟩
    · rw [Function.update_of_ne (Ne.symm hne)]
      exact hmid.seen pid q (lastOn_concat_ne hne past ▸ hq)
  · rw [heq, noteRecord]
    simp only [hmid.breaksContinuity_eq hr, hcc, htei, hscrambled, and_self]

def breakCount : List Packet → List Packet → ℕ
  | _, [] => 0
  | past, p :: rest => (breaks past p).toNat + breakCount (past ++ [p]) rest

/-- The faults of P1.4 in the packets of a call: those without their sync byte, and those that
break the continuity of their pid. -/
def discontinuities (past pkts : List Packet) : ℕ :=
  pkts.countP (fun p ↦ !Ts.syncPresent p) + breakCount past pkts

theorem countP_cons_toNat {α : Type*} (f : α → Bool) (a : α) (l : List α) :
    (a :: l).countP f = (f a).toNat + l.countP f := by
  cases h : f a <;> simp [h, add_comm]

theorem Remembers.foldl_notePacket {pkts : List Packet} :
    ∀ {stream past}, Remembers stream past →
      Remembers ((pkts.map fun p ↦ (p, ⟨true, true⟩)).foldl PidTable.notePacket stream)
          (past ++ pkts) ∧
        ((pkts.map fun p ↦ (p, ⟨true, true⟩)).foldl PidTable.notePacket stream).ccErrors =
          stream.ccErrors + breakCount past pkts ∧
        ((pkts.map fun p ↦ (p, ⟨true, true⟩)).foldl PidTable.notePacket stream).teiErrors =
          stream.teiErrors + pkts.countP Ts.teiSet ∧
        ((pkts.map fun p ↦ (p, ⟨true, true⟩)).foldl PidTable.notePacket stream).scrambledCount =
          stream.scrambledCount + pkts.countP fun p ↦ Ts.transportScramblingControl p != 0 := by
  induction pkts with
  | nil => exact fun h ↦ ⟨by simpa using h, rfl, rfl, rfl⟩
  | cons p rest ih =>
      intro stream past h
      obtain ⟨hone, hcc, htei, hscrambled⟩ := h.notePacket p
      obtain ⟨hrest, hcc', htei', hscrambled'⟩ := ih hone
      simp only [List.map_cons, List.foldl_cons]
      refine ⟨by simpa using hrest, ?_, ?_, ?_⟩
      · rw [hcc', hcc, breakCount, add_assoc]
      · rw [htei', htei, countP_cons_toNat, add_assoc]
      · rw [hscrambled', hscrambled, countP_cons_toNat, add_assoc]

theorem foldl_countPacket_totals (pkts : List Packet) (stream : PidTable.Context) :
    (pkts.foldl PidTable.countPacket stream).ccErrors =
        stream.ccErrors + pkts.countP (fun p ↦ !Ts.syncPresent p) ∧
      (pkts.foldl PidTable.countPacket stream).teiErrors = stream.teiErrors ∧
      (pkts.foldl PidTable.countPacket stream).scrambledCount = stream.scrambledCount := by
  induction pkts generalizing stream with
  | nil => exact ⟨rfl, rfl, rfl⟩
  | cons p rest ih =>
      obtain ⟨hcc, htei, hscrambled⟩ := ih (PidTable.countPacket stream p)
      rw [List.foldl_cons, hcc, htei, hscrambled, countP_cons_toNat, ← add_assoc]
      cases hp : Ts.syncPresent p <;> simp [PidTable.countPacket, hp]

def Call.Granted (c : Call) : Prop := ∀ x ∈ c.packets, x.2 = ⟨true, true⟩

theorem Call.Granted.packets_eq {c : Call} (h : c.Granted) :
    c.packets = c.pkts.map fun p ↦ (p, ⟨true, true⟩) := by
  have hid : ∀ x ∈ c.packets, id x = (x.1, ⟨true, true⟩) := fun x hx ↦ by rw [← h x hx, id]
  rw [Call.pkts, List.map_map]
  exact (List.map_id c.packets).symm.trans (List.map_congr_left hid)

theorem foldl_noteUpdate_fst (now : ℕ) (packets : List (Packet × Grants))
    (r : PidTable.Context × (ℕ → ℕ)) :
    (packets.foldl (noteUpdate now) r).1 = packets.foldl PidTable.notePacket r.1 := by
  induction packets generalizing r with
  | nil => rfl
  | cons x rest ih => rw [List.foldl_cons, ih, List.foldl_cons, noteUpdate]

theorem Remembers.statsUpdate {L : Library} {s : State L} {past : List Packet}
    (h : Remembers s.streamStatistics past) {c : Call} (hgranted : c.Granted) :
    Remembers (statsUpdate s c).streamStatistics (past ++ c.pkts) ∧
      (statsUpdate s c).streamStatistics.ccErrors =
        s.streamStatistics.ccErrors + discontinuities past c.pkts ∧
      (statsUpdate s c).streamStatistics.teiErrors =
        s.streamStatistics.teiErrors + c.pkts.countP Ts.teiSet ∧
      (statsUpdate s c).streamStatistics.scrambledCount = s.streamStatistics.scrambledCount +
        c.pkts.countP fun p ↦ Ts.transportScramblingControl p != 0 := by
  obtain ⟨hpids, harray⟩ :=
    foldl_countPacket_table c.pkts (PidTable.noteCall s.streamStatistics c.pkts)
  obtain ⟨hcc, htei, hscrambled⟩ :=
    foldl_countPacket_totals c.pkts (PidTable.noteCall s.streamStatistics c.pkts)
  have hcounted : Remembers (c.pkts.foldl PidTable.countPacket
      (PidTable.noteCall s.streamStatistics c.pkts)) past := h.congr hpids harray
  have hstats : (Monitor.statsUpdate s c).streamStatistics =
      (c.pkts.map fun p ↦ (p, ⟨true, true⟩)).foldl PidTable.notePacket
        (c.pkts.foldl PidTable.countPacket (PidTable.noteCall s.streamStatistics c.pkts)) := by
    rw [Monitor.statsUpdate, foldl_noteUpdate_fst, ← hgranted.packets_eq]
  obtain ⟨hnoted, hcc', htei', hscrambled'⟩ := @Remembers.foldl_notePacket c.pkts _ _ hcounted
  rw [hstats]
  refine ⟨hnoted, ?_, ?_, ?_⟩
  · rw [hcc', hcc, discontinuities, add_assoc]
    rfl
  · rw [htei', htei]
    rfl
  · rw [hscrambled', hscrambled]
    rfl

/-- A pid that is said to carry references may get a record, and keeps its counters. -/
theorem setContainsPcr_spec (stream : PidTable.Context) (pidnr : ℕ) (g : Grants) :
    (∀ past, Remembers stream past → Remembers (pidStatsPidSetContainsPcr stream pidnr g) past) ∧
      (pidStatsPidSetContainsPcr stream pidnr g).ccErrors = stream.ccErrors ∧
      (pidStatsPidSetContainsPcr stream pidnr g).teiErrors = stream.teiErrors ∧
      (pidStatsPidSetContainsPcr stream pidnr g).scrambledCount = stream.scrambledCount := by
  cases hd : discover stream (pidnr &&& 0x1fff) g with
  | none =>
      simp only [pidStatsPidSetContainsPcr, hd, and_self, and_true]
      exact fun _ ↦ id
  | some mid =>
      have htotals : mid.ccErrors = stream.ccErrors ∧ mid.teiErrors = stream.teiErrors ∧
          mid.scrambledCount = stream.scrambledCount := by
        rcases discover_cases hd with ⟨-, rfl⟩ | ⟨-, rfl⟩ <;> exact ⟨rfl, rfl, rfl⟩
      refine ⟨fun past h ↦ ?_, ?_⟩
      · obtain ⟨hmid, -⟩ := h.discover (masked_lt pidnr) hd
        obtain ⟨hindexed, hbounded⟩ := h.indexed.setContainsPcr h.bounded pidnr g
        obtain ⟨r₀, hr₀⟩ := Option.isSome_iff_exists.mp (discover_isSome hd)
        simp only [pidStatsPidSetContainsPcr, hd] at hindexed hbounded ⊢
        refine ⟨hindexed, hbounded, fun p r hp hr ↦ ?_, fun p q hq ↦ ?_⟩
        · dsimp only at hr
          rcases eq_or_ne p (pidnr &&& 0x1fff) with rfl | hne
          · rw [Function.update_self, hr₀] at hr
            rw [← Option.some.inj hr]
            exact hmid.unseen _ r₀ hp hr₀
          · rw [Function.update_of_ne hne] at hr
            exact hmid.unseen p r hp hr
        · dsimp only
          obtain ⟨r, hr, hcount⟩ := hmid.seen p q hq
          rcases eq_or_ne p (pidnr &&& 0x1fff) with rfl | hne
          · refine ⟨{ r with hasPCR := true }, ?_, hcount⟩
            rw [Function.update_self, hr]
            rfl
          · exact ⟨r, (Function.update_of_ne hne _ _).trans hr, hcount⟩
      · simpa only [pidStatsPidSetContainsPcr, hd] using htotals

theorem containsPcr_spec (programs : List PatProgram) (granted : ℕ → Grants)
    (stream : PidTable.Context) :
    let stream' := programs.foldl (fun stream prg ↦
      pidStatsPidSetContainsPcr stream prg.pmt.pcrPID (granted prg.pmt.pcrPID)) stream
    (∀ past, Remembers stream past → Remembers stream' past) ∧
      stream'.ccErrors = stream.ccErrors ∧ stream'.teiErrors = stream.teiErrors ∧
      stream'.scrambledCount = stream.scrambledCount := by
  induction programs generalizing stream with
  | nil => exact ⟨fun _ ↦ id, rfl, rfl, rfl⟩
  | cons prg rest ih =>
      obtain ⟨hone, hcc, htei, hscrambled⟩ :=
        setContainsPcr_spec stream prg.pmt.pcrPID (granted prg.pmt.pcrPID)
      obtain ⟨hrest, hcc', htei', hscrambled'⟩ :=
        ih (pidStatsPidSetContainsPcr stream prg.pmt.pcrPID (granted prg.pmt.pcrPID))
      exact ⟨fun past h ↦ hrest past (hone past h), hcc'.trans hcc, htei'.trans htei,
        hscrambled'.trans hscrambled⟩

/-! ## The parts of a call -/

section Parts

variable {L : Library}

/-- A call up to the statistics. -/
def begun (s : State L) (c : Call) : State L :=
  { s with
    tr := { s.tr with now := c.timeNow }
    lastWriteCall := c.timeNow
    preTEIErrors := s.streamStatistics.teiErrors
    preScrambledCount := s.streamStatistics.scrambledCount }

/-- A call up to P1.4. -/
def entered (s : State L) (c : Call) : State L :=
  let s := statsUpdate (begun s c) c
  p1ProcessP14 { s with tr := (PriorityOne.p1Write s.tr ⟨c.pkts, c.behind, c.timeNow⟩).1 } c.timeNow

/-- The table of a complete model. -/
def cachedBy (r : State L × Bool) (c : Call) : State L :=
  if r.2 then cacheModel r.1 c.timeNow else r.1

/-- P1.5 and P1.6 behind the stream model. -/
def lateChecks (r : State L × Bool) (c : Call) : State L :=
  checkTimers (checkCached (cachedBy r c) c) c

theorem exists_of_write {s s' : State L} {c : Call} (h : tr101290Write s c = some s') :
    ∃ r, modelWrite (entered s c) c = some r ∧ s' = p2Write (lateChecks r c) c := by
  obtain ⟨mid, hmid, rfl⟩ := Option.map_eq_some_iff.mp h
  obtain ⟨r, hr, rfl⟩ := Option.map_eq_some_iff.mp hmid
  exact ⟨r, hr, rfl⟩

theorem now_p1Write (s : Tr101290) (c : WriteCall) :
    (PriorityOne.p1Write s c).1.now = c.timeNow := by
  have hpacket : ∀ (p : Packet) (s : Tr101290), (syncPacket c.timeNow s p).now = s.now := by
    intro p s
    cases hp : Ts.syncPresent p with
    | true => rw [syncPacket_present hp, Tr101290.alarms]
    | false => rw [syncPacket_missing hp, Tr101290.alarms]
  suffices hfold : ∀ (packets : List Packet) (s : Tr101290),
      (packets.foldl (syncPacket c.timeNow) s).now = s.now from hfold c.packets _
  intro packets
  induction packets with
  | nil => exact fun _ ↦ rfl
  | cons p rest ih => exact fun s ↦ (ih _).trans (hpacket p s)

theorem touches_entered (s : State L) (c : Call) :
    Touches [.syncByteError, .tsSyncLoss, .patError, .patError2, .continuityCounterError]
      s.tr (entered s c).tr := by
  have hp14 : ∀ s' : State L, Touches [.continuityCounterError] s'.tr
      (p1ProcessP14 s' c.timeNow).tr := by
    intro s' id hid
    refine touches_alarms _ _ id ?_
    unfold alarmIf
    split_ifs <;> simpa using hid
  exact (touches_p1Write _ _).trans (hp14 _)

/-- What the stream model leaves alone in the monitor. -/
theorem modelWrite_spec {s : State L} {c : Call} {r : State L × Bool}
    (h : modelWrite s c = some r) :
    ∃ tbl p2 smHandle seArray, r.1 = { s with
        tr := { s.tr with eventTbl := tbl }, p2 := p2, smHandle := smHandle, seArray := seArray } ∧
      (smHandle, r.2) = streammodelWrite s.smHandle c.pkts c.timeNow.micros.toNat ∧
      (∀ id, id ≠ .crcError → tbl id = s.tr.eventTbl id) ∧
      ((∀ item ∈ s.seArray, item.context ≠ .cat) →
        p2 .cat = s.p2 .cat ∧ ∀ item ∈ seArray, item.context ≠ .cat) := by
  unfold modelWrite at h
  split_ifs at h with hempty
  · obtain rfl := Option.some.inj h
    refine ⟨s.tr.eventTbl, s.p2, s.smHandle, s.seArray, rfl, ?_, fun _ _ ↦ rfl, fun h ↦ ⟨rfl, h⟩⟩
    rw [streammodelWrite, if_pos hempty]
  · obtain ⟨⟨items, calls⟩, hchecks, rfl⟩ := Option.map_eq_some_iff.mp h
    obtain ⟨tbl, p2, heq, htbl, hp2⟩ := callbacks_spec calls { s with
      smHandle := (streammodelWrite s.smHandle c.pkts c.timeNow.micros.toNat).1, seArray := items }
    refine ⟨tbl, p2, _, items, heq, rfl, htbl, fun hitems ↦ ?_⟩
    have hfixed : ∀ r ∈ fixedTables, r.context ≠ .cat := by decide
    have hpmt : CbContext.pmt ≠ .cat := by decide
    obtain ⟨hitems', hcalls⟩ := @contexts_checkSections (fun context ↦ context ≠ .cat) hfixed hpmt
      _ _ hitems _ _ hchecks
    exact ⟨hp2 hcalls, hitems'⟩

def crcOp (timeNow : Timeval) (args : CallbackArgs) : AlarmReporting.Op :=
  if args.arg then .alarmClear timeNow else .alarmRaiseWithArg (tableName args.context) timeNow

theorem callbacks_crc {calls : List (ℕ × CallbackArgs)}
    (hstatus : ∀ call ∈ calls, call.2.status = cbCrcStatus) (s : State L) :
    (calls.foldl (fun s call ↦ p2StreammodelCallback s call.2) s).tr.eventTbl .crcError =
      perform .crcError (s.tr.eventTbl .crcError)
        (calls.map fun call ↦ crcOp s.tr.now call.2) := by
  induction calls generalizing s with
  | nil => rfl
  | cons call rest ih =>
      obtain ⟨hcall, hrest⟩ := List.forall_mem_cons.mp hstatus
      have hset : p2StreammodelCallback s call.2 = _ := if_neg (not_not.mpr hcall)
      have hnow : (p2StreammodelCallback s call.2).tr.now = s.tr.now := by
        rw [hset]
        rfl
      have hone : (p2StreammodelCallback s call.2).tr.eventTbl .crcError =
          perform .crcError (s.tr.eventTbl .crcError) [crcOp s.tr.now call.2] := by
        rw [hset]
        refine (eventTbl_alarms s.tr _ _).trans ?_
        unfold crcOp
        split_ifs <;> rfl
      rw [List.foldl_cons, ih hrest, hone, hnow, ← perform_append, List.map_cons]
      rfl

/-- What the section checks do in a call of the writer. -/
theorem modelWrite_checks {s : State L} {c : Call} {r : State L × Bool}
    (h : modelWrite s c = some r) :
    (c.pkts = [] ∧ r = (s, false)) ∨ (c.pkts ≠ [] ∧ ∃ calls,
      checkSections s.seArray (checkCall s.smHandle c) = some (r.1.seArray, calls) ∧
        r.1.tr.eventTbl .crcError = perform .crcError (s.tr.eventTbl .crcError)
          (calls.map fun call ↦ crcOp s.tr.now call.2)) := by
  unfold modelWrite at h
  split_ifs at h with hempty
  · exact .inl ⟨hempty, (Option.some.inj h).symm⟩
  · obtain ⟨⟨items, calls⟩, hchecks, rfl⟩ := Option.map_eq_some_iff.mp h
    refine .inr ⟨hempty, calls, ?_, ?_⟩
    · obtain ⟨tbl, p2, heq, -⟩ := callbacks_spec calls { s with
        smHandle := (streammodelWrite s.smHandle c.pkts c.timeNow.micros.toNat).1
        seArray := items }
      have harray := congrArg State.seArray heq
      exact hchecks.trans (congrArg (fun items ↦ some (items, calls)) harray.symm)
    · exact callbacks_crc (status_checkSections hchecks) _

/-- P1.5, P1.6 and the statistics of the pids with references. -/
theorem checkCached_spec (s : State L) (c : Call) :
    ∃ tbl stream, checkCached s c = { s with
        tr := { s.tr with eventTbl := tbl }, streamStatistics := stream } ∧
      (∀ id ∉ [EventId.pmtError, .pmtError2, .pidError], tbl id = s.tr.eventTbl id) ∧
      (∀ past, Remembers s.streamStatistics past → Remembers stream past) ∧
      stream.ccErrors = s.streamStatistics.ccErrors ∧
      stream.teiErrors = s.streamStatistics.teiErrors ∧
      stream.scrambledCount = s.streamStatistics.scrambledCount := by
  rcases Option.eq_none_or_eq_some s.cachedPAT with hcached | ⟨pat, hcached⟩
  · have hsame : checkCached s c = s := by
      unfold checkCached
      rw [hcached]
    rw [hsame]
    exact ⟨s.tr.eventTbl, s.streamStatistics, rfl, fun _ _ ↦ rfl, fun _ ↦ id, rfl, rfl, rfl⟩
  · have hstream := containsPcr_spec (pat.programs.filter fun prg ↦ prg.pmt.pcrPID ≠ 0)
      c.pcrGrants s.streamStatistics
    have hsome : checkCached s c = p1ProcessP16 (p2ProcessPatModel (s.alarms
        [⟨.pmtError, .alarmClear c.timeNow⟩, ⟨.pmtError2, .alarmClear c.timeNow⟩]) pat
          c.pcrGrants) pat c.timeNow c.now := by
      unfold checkCached
      rw [hcached]
    refine ⟨(checkCached s c).tr.eventTbl, _, ?_, fun id hid ↦ ?_, hstream⟩
    · rw [hsome]
      rfl
    · simp only [List.mem_cons, List.not_mem_nil, or_false, not_or] at hid
      rw [hsome]
      refine (touches_alarms _ _ id ?_).trans (touches_alarms _ _ id ?_)
      · split_ifs <;> simpa using hid.2.2
      · simpa using ⟨hid.1, hid.2.1⟩

theorem checkTimers_spec (s : State L) (c : Call) :
    ∃ tbl, checkTimers s c = { s with
        tr := { s.tr with eventTbl := tbl }
        lastPMTArray := c.pkts.foldl (refreshEntries c.timeNow) s.lastPMTArray } ∧
      (∀ id ∉ [EventId.pmtError, .pmtError2], tbl id = s.tr.eventTbl id) := by
  have hboth : ∀ (s : State L) (op : AlarmReporting.Op) (id : EventId),
      id ∉ [EventId.pmtError, .pmtError2] →
        (s.alarms [⟨.pmtError, op⟩, ⟨.pmtError2, op⟩]).tr.eventTbl id = s.tr.eventTbl id :=
    fun s op id hid ↦ touches_alarms s.tr _ id hid
  unfold checkTimers
  simp only
  split_ifs
  · exact ⟨_, rfl, fun id hid ↦ hboth _ _ id hid⟩
  · exact ⟨_, rfl, fun id hid ↦ hboth _ _ id hid⟩
  · exact ⟨_, rfl, fun _ _ ↦ rfl⟩

theorem cachedBy_spec (r : State L × Bool) (c : Call) :
    cachedBy r c = { r.1 with
      cachedPAT := (cachedBy r c).cachedPAT, lastPMTArray := (cachedBy r c).lastPMTArray } := by
  unfold cachedBy cacheModel
  split_ifs
  · split <;> rfl
  · rfl

theorem lateChecks_spec (r : State L × Bool) (c : Call) :
    ∃ tbl stream, lateChecks r c = { r.1 with
        tr := { r.1.tr with eventTbl := tbl }
        streamStatistics := stream
        cachedPAT := (cachedBy r c).cachedPAT
        lastPMTArray := c.pkts.foldl (refreshEntries c.timeNow) (cachedBy r c).lastPMTArray } ∧
      (∀ id ∉ [EventId.pmtError, .pmtError2, .pidError], tbl id = r.1.tr.eventTbl id) ∧
      (∀ past, Remembers r.1.streamStatistics past → Remembers stream past) ∧
      stream.ccErrors = r.1.streamStatistics.ccErrors ∧
      stream.teiErrors = r.1.streamStatistics.teiErrors ∧
      stream.scrambledCount = r.1.streamStatistics.scrambledCount := by
  have hcache := cachedBy_spec r c
  obtain ⟨tbl, stream, hcached, htbl, hstream⟩ := checkCached_spec (cachedBy r c) c
  obtain ⟨tbl', htimers, htbl'⟩ := checkTimers_spec (checkCached (cachedBy r c) c) c
  have htr : (cachedBy r c).tr = r.1.tr := by rw [hcache]
  have hstats : (cachedBy r c).streamStatistics = r.1.streamStatistics := by rw [hcache]
  rw [hstats] at hstream
  refine ⟨tbl', stream, ?_, fun id hid ↦ ?_, hstream⟩
  · rw [lateChecks, htimers, hcached]
    dsimp only
    rw [hcache]
  · have hid' : id ∉ [EventId.pmtError, .pmtError2] := by
      simp only [List.mem_cons, List.not_mem_nil, or_false, not_or] at hid ⊢
      exact ⟨hid.1, hid.2.1⟩
    rw [htbl' id hid', hcached, ← htr]
    exact htbl id hid

/-- The state that P2 works on: the clock, the counts from before the call and the statistics
are those of the call. -/
structure BeforeP2 (s : State L) (past : List Packet) (c : Call) (mid : State L) : Prop where
  now : mid.tr.now = c.timeNow
  preTEI : mid.preTEIErrors = s.streamStatistics.teiErrors
  preScrambled : mid.preScrambledCount = s.streamStatistics.scrambledCount
  remembers : Remembers mid.streamStatistics (past ++ c.pkts)
  ccErrors : mid.streamStatistics.ccErrors =
    s.streamStatistics.ccErrors + discontinuities past c.pkts
  teiErrors : mid.streamStatistics.teiErrors =
    s.streamStatistics.teiErrors + c.pkts.countP Ts.teiSet
  scrambled : mid.streamStatistics.scrambledCount = s.streamStatistics.scrambledCount +
    c.pkts.countP fun p ↦ Ts.transportScramblingControl p != 0
  ccCounter : mid.ccCounterLastWrite = mid.streamStatistics.ccErrors

theorem beforeP2 {s : State L} {past : List Packet} (h : Remembers s.streamStatistics past)
    {c : Call} (hgranted : c.Granted) {r : State L × Bool}
    (hr : modelWrite (entered s c) c = some r) : BeforeP2 s past c (lateChecks r c) := by
  have hbegun : Remembers (begun s c).streamStatistics past := h
  obtain ⟨hremembers, hcc, htei, hscrambled⟩ := hbegun.statsUpdate hgranted
  obtain ⟨tbl, p2, smHandle, seArray, hmid, -, -, -⟩ := modelWrite_spec hr
  obtain ⟨tbl', stream, hlate, -, hstream, hcc', htei', hscrambled'⟩ := lateChecks_spec r c
  rw [hmid] at hlate hstream hcc' htei' hscrambled'
  rw [hlate]
  exact ⟨now_p1Write _ _, rfl, rfl, hstream _ hremembers, hcc'.trans hcc, htei'.trans htei,
    hscrambled'.trans hscrambled, hcc'.symm⟩

end Parts

end LtnTsTools.Monitor
