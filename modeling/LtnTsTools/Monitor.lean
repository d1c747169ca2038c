import LtnTsTools.AlarmHysteresis
import LtnTsTools.PidTable
import LtnTsTools.PriorityOne
import LtnTsTools.SectionChecks
import LtnTsTools.StreamModel

/-!
# The monitor

`ltntstools_tr101290_write` as a whole: the statistics, all checks of `tr101290-p1.c`, the
stream model with its section checks, and the checks of `tr101290-p2.c`.  P1.1, P1.2 and P1.3
are those of `PriorityOne`.  Beside the time stamp of the caller, the statistics and P1.6 read
the clock of the system for themselves.  The histogram of the intervals between calls and the
timers are left out; no event depends on them.
-/

namespace LtnTsTools.Monitor

open AlarmReporting PriorityOne PidTable StreamModel SectionChecks PartialMachine Psi

/-! ## The pids that `cb_pat` adds -/

section Asked

variable {L : Library}

/-- `cb_pat`, its calls of `extractors_add`: the pids of the programs, if it accepts the
table. -/
def callbackAsked (_pid : ℕ) (ctx : StreamModel.Context L) : Table → List ℕ
  | .pat table =>
      if supersedes ctx table then []
      else (table.programs.filter fun program ↦ program.1 > 0).map Prod.snd
  | .pmt _ => []

def parserAsked (pid : ℕ) (pkt : Packet) (ctx : StreamModel.Context L) (j : ℕ) : List ℕ :=
  let ps := ctx.next.pids pid
  match (ps.parser j).dvbpsi with
  | none => []
  | some h =>
      let r := L.push h.kind h.state pkt
      let p := { ps.parser j with dvbpsi := some ⟨h.kind, r.1⟩ }
      foldTrace (callback pid) (callbackAsked pid)
        { ctx with next := ctx.next.setPid pid (ps.setParser j p) } r.2

def scanAsked (ctx : StreamModel.Context L) (pkt : Packet) : List ℕ :=
  if Ts.pid pkt = 0x11 then parserAsked 0x11 pkt (attachSdt (checkPatCC ctx pkt)) 0 else []

def processAsked (ctx : StreamModel.Context L) (pkt : Packet) : List ℕ :=
  let ctx := attachPat ctx (Ts.pid pkt)
  if (ctx.next.pids (Ts.pid pkt)).present then
    foldTrace (pushParser (Ts.pid pkt) pkt) (parserAsked (Ts.pid pkt) pkt) ctx
      (List.range maxPidParsers)
  else []

def loopAsked (ctx : StreamModel.Context L) : List Packet → List ℕ
  | [] => []
  | pkt :: rest =>
      if ctx.writePackets = false then []
      else if Ts.pid pkt = 0x11 then loopAsked ctx rest
      else if (processPacket ctx pkt).restartModel then processAsked ctx pkt
      else processAsked ctx pkt ++ loopAsked (processPacket ctx pkt) rest

/-- The pids that `extractors_add` is called for in `ltntstools_streammodel_write`. -/
def writeAsked (ctx : StreamModel.Context L) (pkts : List Packet) (timestamp : ℕ) : List ℕ :=
  foldTrace scanPacket scanAsked (beginWrite ctx timestamp) pkts ++
    loopAsked (pkts.foldl scanPacket (beginWrite ctx timestamp)) pkts

end Asked

/-! ## The context -/

/-- `struct tr_pid_s`. -/
structure TrPid where
  pmtpid : ℕ
  lastChanged : Timeval
deriving DecidableEq

/-- `PMT_ARRAY_SIZE`. -/
def pmtArraySize : ℕ := 64

/-- `struct ltntstools_tr101290_s`.  `ppsLastUpdate` is the field of that name in the records of
the statistics, `lastPMTArray` holds the entries in use, and `p2` has a time for each table. -/
structure State (L : Library) where
  tr : Tr101290
  lastWriteCall : Timeval
  streamStatistics : PidTable.Context
  ppsLastUpdate : ℕ → ℕ
  ccCounterLastWrite : ℕ
  preTEIErrors : ℕ
  preScrambledCount : ℕ
  cachedPAT : Option Pat
  lastPMTArray : List TrPid
  smHandle : StreamModel.Context L
  seArray : List SeArrayItem
  p2 : CbContext → Timeval

/-- A call of `ltntstools_tr101290_write`: the packets, each with what the allocator grants for
its pid, the memory behind them, the time stamp, the system clock at the statistics and at P1.6,
and what the allocator grants elsewhere. -/
structure Call where
  packets : List (Packet × Grants)
  behind : ℕ → UInt8
  timeNow : Timeval
  statsNow : ℕ
  now : ℕ
  pcrGrants : ℕ → Grants
  memory : Fin 9 → Option Memory
  pmtMemory : ℕ → Option Memory

def Call.pkts (c : Call) : List Packet := c.packets.map Prod.fst

variable {L : Library}

/-- `ltntstools_tr101290_alloc`. -/
def tr101290Alloc : State L where
  tr := PriorityOne.tr101290Alloc
  lastWriteCall := ⟨0, 0⟩
  streamStatistics := pidStatsReset PidTable.pidStatsAlloc
  ppsLastUpdate := fun _ ↦ 0
  ccCounterLastWrite := 0
  preTEIErrors := 0
  preScrambledCount := 0
  cachedPAT := none
  lastPMTArray := []
  smHandle := streammodelAlloc
  seArray := []
  p2 := fun _ ↦ ⟨0, 0⟩

/-- The calls of `tr101290-alarms.c`, one after the other. -/
def State.alarms (s : State L) (actions : List Action) : State L :=
  { s with tr := s.tr.alarms actions }

/-! ## Statistics -/

/-- A packet of `ltntstools_pid_stats_update`, with the second its pid was last updated in. -/
def noteUpdate (now : ℕ) (r : PidTable.Context × (ℕ → ℕ)) (x : Packet × Grants) :
    PidTable.Context × (ℕ → ℕ) :=
  (notePacket r.1 x,
    if (discover r.1 (Ts.pid x.1) x.2).isSome then Function.update r.2 (Ts.pid x.1) now else r.2)

/-- `ltntstools_pid_stats_update`. -/
def statsUpdate (s : State L) (c : Call) : State L :=
  let r := c.packets.foldl (noteUpdate c.statsNow)
    (c.pkts.foldl PidTable.countPacket (PidTable.noteCall s.streamStatistics c.pkts),
      s.ppsLastUpdate)
  { s with streamStatistics := r.1, ppsLastUpdate := r.2 }

/-- `ltntstools_pid_stats_pid_get_last_update`. -/
def pidGetLastUpdate (s : State L) (pidnr : ℕ) : ℕ :=
  if (s.streamStatistics.internalPids (pidnr &&& 0x1fff)).isSome then
    s.ppsLastUpdate (pidnr &&& 0x1fff)
  else 0

/-- `ltntstools_pid_stats_pid_get_contains_pcr`. -/
def pidGetContainsPcr (stream : PidTable.Context) (pidnr : ℕ) : Bool :=
  ((stream.internalPids (pidnr &&& 0x1fff)).map PidRecord.hasPCR).getD false

/-- `ltntstools_pid_stats_pid_did_violate_pcr_timing`. -/
def pidDidViolatePcrTiming (stream : PidTable.Context) (pidnr : ℕ) : Bool :=
  ((stream.internalPids (pidnr &&& 0x1fff)).map fun pid ↦
    pid.prevPcrExceeds40ms != pid.pcrExceeds40ms).getD true

/-! ## Priority one -/

/-- The alarm of an event whose condition is checked by every call. -/
def alarmIf (cond : Bool) (id : EventId) (timeNow : Timeval) : Action :=
  if cond then ⟨id, .alarmRaise timeNow⟩ else ⟨id, .alarmClear timeNow⟩

/-- `p1_process_p1_4`. -/
def p1ProcessP14 (s : State L) (timeNow : Timeval) : State L :=
  let count := s.streamStatistics.ccErrors
  { s.alarms [alarmIf (s.ccCounterLastWrite != count) .continuityCounterError timeNow] with
    ccCounterLastWrite := count }

/-- `isPIDActive`. -/
def isPIDActive (s : State L) (pidNr now : ℕ) : Bool := !decide (pidGetLastUpdate s pidNr + 5 ≤ now)

/-- `"%x"` of a digit. -/
def hexDigit (n : ℕ) : Char := Nat.digitChar (n % 16)

/-- `"0x%04x "` of a sixteen bit number. -/
def pidText (pid : ℕ) : List Char :=
  ['0', 'x', hexDigit (pid / 4096), hexDigit (pid / 256), hexDigit (pid / 16), hexDigit pid, ' ']

/-- `snprintf` behind the text of a buffer of 256 bytes. -/
def appendText (msg text : List Char) : List Char := msg ++ text.take (255 - msg.length)

/-- The pids of a program that `p1_process_p1_6` looks at. -/
def programPids (prg : PatProgram) : List ℕ :=
  prg.programMapPID :: prg.pmt.streams.map PmtEntry.elementaryPID

/-- `p1_process_p1_6`, a pid: `msg` and `raiseIssue`. -/
def checkActive (s : State L) (now : ℕ) (r : List Char × ℕ) (pid : ℕ) : List Char × ℕ :=
  if isPIDActive s pid now then r else (appendText r.1 (pidText pid), r.2 + 1)

/-- `p1_process_p1_6`. -/
def p1ProcessP16 (s : State L) (pat : Pat) (timeNow : Timeval) (now : ℕ) : State L :=
  let r := (pat.programs.flatMap programPids).foldl (checkActive s now) ([], 0)
  s.alarms [if r.2 = 0 then ⟨.pidError, .alarmClear timeNow⟩
    else ⟨.pidError, .alarmRaiseWithArg (String.ofList r.1) timeNow⟩]

/-- `timer_expired`, true for expired. -/
def timerExpired (s : State L) (tv : Timeval) : Bool :=
  timerGe s.tr.now (timeradd tv ⟨0, 500 * 1000⟩)

/-- `p2_streammodel_callback`, the name of the table in its message. -/
def tableName : CbContext → String
  | .pat => "PAT"
  | .pmt => "PMT"
  | .cat => "CAT"
  | .sdt => "SDT"
  | .bat => "BAT"
  | .nit => "NIT"
  | .tot => "TOT"
  | .eit => "EIT"

/-- `p2_streammodel_callback`. -/
def p2StreammodelCallback (s : State L) (args : CallbackArgs) : State L :=
  if args.status ≠ cbCrcStatus then s
  else
    { s with p2 := Function.update s.p2 args.context s.tr.now }.alarms
      [if args.arg then ⟨.crcError, .alarmClear s.tr.now⟩
        else ⟨.crcError, .alarmRaiseWithArg (tableName args.context) s.tr.now⟩]

/-- `p2_process_pat_model`. -/
def p2ProcessPatModel (s : State L) (pat : Pat) (granted : ℕ → Grants) : State L :=
  { s with
    streamStatistics := (pat.programs.filter fun prg ↦ prg.pmt.pcrPID ≠ 0).foldl
      (fun stream prg ↦ pidStatsPidSetContainsPcr stream prg.pmt.pcrPID (granted prg.pmt.pcrPID))
      s.streamStatistics }

def checkCall (ctx : StreamModel.Context L) (c : Call) : CheckCall where
  pkts := c.pkts
  behind := c.behind
  added := (writeAsked ctx c.pkts c.timeNow.micros.toNat).zipIdx.map fun a ↦ (a.1, c.pmtMemory a.2)
  memory := c.memory

/-- `ltntstools_streammodel_write` with its section checks, and `*complete`. -/
def modelWrite (s : State L) (c : Call) : Option (State L × Bool) :=
  if c.pkts = [] then some (s, false)
  else
    (checkSections s.seArray (checkCall s.smHandle c)).map fun r ↦
      let w := streammodelWrite s.smHandle c.pkts c.timeNow.micros.toNat
      (r.2.foldl (fun s call ↦ p2StreammodelCallback s call.2)
        { s with smHandle := w.1, seArray := r.1 }, w.2)

/-- `p1_process_p1_56`, the part for a complete model. -/
def cacheModel (s : State L) (timeNow : Timeval) : State L :=
  match streammodelQueryModel s.smHandle with
  | none => s
  | some pat =>
      { s with
        cachedPAT := some pat
        lastPMTArray := ((pat.programs.filter fun prg ↦ prg.programNumber ≠ 0).map fun prg ↦
          ⟨prg.programMapPID, timeNow⟩).take pmtArraySize }

/-- `p1_process_p1_56`, the part for a cached table. -/
def checkCached (s : State L) (c : Call) : State L :=
  match s.cachedPAT with
  | none => s
  | some pat =>
      let s := s.alarms [⟨.pmtError, .alarmClear c.timeNow⟩, ⟨.pmtError2, .alarmClear c.timeNow⟩]
      p1ProcessP16 (p2ProcessPatModel s pat c.pcrGrants) pat c.timeNow c.now

/-- A packet of `p1_process_p1_56`. -/
def refreshEntries (timeNow : Timeval) (entries : List TrPid) (pkt : Packet) : List TrPid :=
  if Ts.pid pkt = 0 ∨ Ts.pid pkt = 0x1fff then entries
  else entries.map fun e ↦ if Ts.pid pkt = e.pmtpid then { e with lastChanged := timeNow } else e

/-- `p1_process_p1_56`, the timers of the program map tables. -/
def checkTimers (s : State L) (c : Call) : State L :=
  let s := { s with lastPMTArray := c.pkts.foldl (refreshEntries c.timeNow) s.lastPMTArray }
  if s.lastPMTArray.any fun e ↦ timerExpired s e.lastChanged then
    s.alarms [⟨.pmtError, .alarmRaise c.timeNow⟩, ⟨.pmtError2, .alarmRaise c.timeNow⟩]
  else if s.lastPMTArray ≠ [] then
    s.alarms [⟨.pmtError, .alarmClear c.timeNow⟩, ⟨.pmtError2, .alarmClear c.timeNow⟩]
  else s

/-- `p1_process_p1_56`. -/
def p1ProcessP156 (s : State L) (c : Call) : Option (State L) :=
  (modelWrite s c).map fun r ↦
    checkTimers (checkCached (if r.2 then cacheModel r.1 c.timeNow else r.1) c) c

/-- `p1_write`. -/
def p1Write (s : State L) (c : Call) : Option (State L) :=
  let s := { s with tr := (PriorityOne.p1Write s.tr ⟨c.pkts, c.behind, c.timeNow⟩).1 }
  p1ProcessP156 (p1ProcessP14 s c.timeNow) c

/-! ## Priority two -/

/-- `raise_alarm_p2_table`. -/
def raiseAlarmP2Table (s : State L) (tv : Timeval) : Bool :=
  timerGe s.tr.now (timeradd tv ⟨0, 500 * 1000⟩)

/-- `p2_process_p2_3`, a packet: `arr`, whose entries are the pids that raise the issue. -/
def checkPcr (stream : PidTable.Context) (arr : List ℕ) (pkt : Packet) : List ℕ :=
  if pidGetContainsPcr stream (Ts.pid pkt) && pidDidViolatePcrTiming stream (Ts.pid pkt) &&
      !arr.contains (Ts.pid pkt) then
    arr ++ [Ts.pid pkt]
  else arr

/-- `p2_process_p2_3`.  The pids never get into the message: the size that is passed with them
is zero. -/
def p2ProcessP23 (s : State L) (c : Call) : State L :=
  if c.pkts.length ≥ 31 then s
  else if c.pkts.foldl (checkPcr s.streamStatistics) [] ≠ [] then
    s.alarms [⟨.pcrError, .alarmRaiseWithArg "" c.timeNow⟩,
      ⟨.pcrRepetitionError, .alarmRaiseWithArg "" c.timeNow⟩]
  else
    s.alarms [⟨.pcrError, .alarmClear c.timeNow⟩, ⟨.pcrRepetitionError, .alarmClear c.timeNow⟩]

/-- `p2_write`. -/
def p2Write (s : State L) (c : Call) : State L :=
  let s := { s with tr := { s.tr with now := c.timeNow } }
  let s := s.alarms
    [alarmIf (s.preTEIErrors != s.streamStatistics.teiErrors) .transportError c.timeNow,
      alarmIf (raiseAlarmP2Table s (s.p2 .cat) &&
        s.preScrambledCount != s.streamStatistics.scrambledCount) .catError c.timeNow]
  p2ProcessP23 s c

/-! ## Calls -/

/-- `ltntstools_tr101290_write`. -/
def tr101290Write (s : State L) (c : Call) : Option (State L) :=
  let s := { s with
    tr := { s.tr with now := c.timeNow }
    lastWriteCall := c.timeNow
    preTEIErrors := s.streamStatistics.teiErrors
    preScrambledCount := s.streamStatistics.scrambledCount }
  (p1Write (statsUpdate s c) c).map fun s ↦ p2Write s c

/-- What is done to a monitor: a call of its writer, a reset of all alarms, a visit of the
thread to an event, or a public function of `tr101290-events.c`. -/
inductive Op
  | write (c : Call)
  | resetAlarms (now : Timeval)
  | visit (id : EventId) (now : Timeval)
  | eventClear (id : EventId)
  | setEnabled (id : EventId) (enabled : Bool)

def Op.actions : Op → List Action
  | write _ => []
  | resetAlarms now => alarmRaiseAll now
  | visit id now => [⟨id, .visit now⟩]
  | eventClear id => [⟨id, .eventClear⟩]
  | setEnabled id enabled => [⟨id, .setEnabled enabled⟩]

def step (s : State L) : Op → Option (State L × Unit)
  | .write c => (tr101290Write s c).map (·, ())
  | op => some (s.alarms op.actions, ())

end LtnTsTools.Monitor
