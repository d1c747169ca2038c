import LtnTsTools.PsiDecoding
import LtnTsTools.StreamStatistics

/-!
# The stream model

The model of `streammodel.c`: a running object model (rom) of the programs of a
stream is collected from the tables that the decoders of libdvbpsi report, and
replaces the current one when it is complete and differs.  The decoders are a
parameter; `PatContent` and `PmtContent` are the tables they report.  Service
descriptions and the section checks of TR 101 290 are left out, no table depends
on them.  Times are in microseconds.
-/

namespace LtnTsTools.StreamModel

open Psi

/-! ## Decoders -/

inductive DecoderKind
  | pat
  | sdt
  | pmt (programNumber : ℕ)
deriving DecidableEq

inductive Table
  | pat (table : PatContent)
  | pmt (table : PmtContent)
deriving DecidableEq

/-- libdvbpsi: new decoders with something attached, and `dvbpsi_packet_push`, with
the tables it calls back with. -/
structure Library where
  Decoder : Type
  new : DecoderKind → Decoder
  push : DecoderKind → Decoder → Packet → Decoder × List Table

variable (L : Library)

/-- `dvbpsi_t`. -/
structure Handle where
  kind : DecoderKind
  state : L.Decoder

/-- `dvbpsi_new` and one of the attach functions. -/
def attach (kind : DecoderKind) : Handle L := ⟨kind, L.new kind⟩

/-! ## The running object model -/

/-- `MAX_PID_PARSERS`. -/
def maxPidParsers : ℕ := 24

/-- `struct streammodel_pid_parser_s`. -/
structure PidParser where
  dvbpsi : Option (Handle L)
  pmt : Option PmtContent
  programNumber : ℕ

/-- `struct streammodel_pid_s`; only the first `maxPidParsers` parsers are used. -/
structure PidState where
  present : Bool
  parser : ℕ → PidParser L
  pat : Option PatContent
  packetCount : ℕ

/-- `struct streammodel_rom_s`. -/
structure Rom where
  totalPMTsInPAT : ℕ
  parsedPMTs : ℕ
  modelComplete : Bool
  allowableWriteTime : ℕ
  pmtCollectionTimer : ℕ
  pids : ℕ → PidState L

/-- `struct streammodel_ctx_s`. -/
structure Context where
  currentModelVersion : ℕ
  current : Rom L
  next : Rom L
  modelChanged : Bool
  lastPATCC : ℕ
  now : ℕ
  writePackets : Bool
  restartModel : Bool
  restartReason : ℕ

variable {L}

def PidState.setParser (ps : PidState L) (j : ℕ) (p : PidParser L) : PidState L :=
  { ps with parser := Function.update ps.parser j p }

def Rom.setPid (rom : Rom L) (pid : ℕ) (ps : PidState L) : Rom L :=
  { rom with pids := Function.update rom.pids pid ps }

/-- `_rom_initialize`: the program numbers of the parsers stay, of the timer only
the seconds are cleared. -/
def romInitialize (rom : Rom L) : Rom L where
  totalPMTsInPAT := 0
  parsedPMTs := 0
  modelComplete := false
  allowableWriteTime := rom.allowableWriteTime
  pmtCollectionTimer := rom.pmtCollectionTimer % 1000000
  pids := fun pid ↦
    { present := false
      parser := fun j ↦ ⟨none, none, ((rom.pids pid).parser j).programNumber⟩
      pat := none
      packetCount := 0 }

/-! ## Queries -/

theorem length_no_streams : ([] : List PmtEntry).length ≤ 16 := Nat.zero_le 16

/-- A program map table from `calloc`. -/
def zeroPmt : Pmt := ⟨0, 0, 0, 0, [], .empty, length_no_streams⟩

/-- `ltntstools_pat_alloc_from_existing`. -/
def patAllocFromExisting (pat : PatContent) : Pat where
  transportStreamId := pat.transportStreamId
  versionNumber := pat.versionNumber
  currentNextIndicator := pat.currentNextIndicator
  programs := (pat.programs.take 64).map fun e ↦ ⟨e.1, e.2, zeroPmt⟩
  length_programs := by
    rw [List.length_map, List.length_take]
    omega

/-- `ltntstools_descriptor_list_add`; the length is a byte. -/
def descriptorListAdd (list : DescriptorList) (d : DescriptorContent) : DescriptorList :=
  if h : list.array.length < 16 then
    { array := list.array ++ [⟨d.1, d.2.take 255, by rw [List.length_take]; omega⟩]
      length_array := by
        rw [List.length_append, List.length_singleton]
        omega }
  else list

/-- A stream of `ltntstools_pat_add_from_existing`. -/
def addStream (pmt : Pmt) (stream : StreamContent) : Pmt :=
  if h : pmt.streams.length < 16 then
    { pmt with
      streams := pmt.streams ++ [⟨stream.streamType, stream.elementaryPID,
        stream.descriptors.foldl descriptorListAdd .empty⟩]
      length_streams := by
        rw [List.length_append, List.length_singleton]
        omega }
  else pmt

/-- `ltntstools_pat_add_from_existing`, on the table of the program. -/
def fillPmt (e : Pmt) (pmt : PmtContent) : Pmt :=
  pmt.streams.foldl addStream
    { e with
      versionNumber := pmt.versionNumber
      programNumber := pmt.programNumber
      currentNextIndicator := pmt.currentNextIndicator
      pcrPID := pmt.pcrPID
      descrList := pmt.descriptors.foldl descriptorListAdd e.descrList }

def fillProgram (pmt : PmtContent) : List PatProgram → List PatProgram
  | [] => []
  | p :: rest =>
      if p.programNumber = pmt.programNumber then { p with pmt := fillPmt p.pmt pmt } :: rest
      else p :: fillProgram pmt rest

theorem length_fillProgram (pmt : PmtContent) (programs : List PatProgram) :
    (fillProgram pmt programs).length = programs.length := by
  induction programs with
  | nil => rfl
  | cons p rest ih =>
      rw [fillProgram]
      split_ifs
      · rfl
      · rw [List.length_cons, ih, List.length_cons]

/-- `ltntstools_pat_add_from_existing`. -/
def patAddFromExisting (pat : Pat) (pmt : PmtContent) : Pat :=
  { pat with
    programs := fillProgram pmt pat.programs
    length_programs := (length_fillProgram pmt pat.programs).trans_le pat.length_programs }

/-- The parsers of a program, in `_streammodel_query_model`. -/
def addParser (number : ℕ) (pat : Pat) (p : PidParser L) : Pat :=
  match p.pmt with
  | some pmt => if p.programNumber = number then patAddFromExisting pat pmt else pat
  | none => pat

/-- One program of `_streammodel_query_model`; program zero is the network pid. -/
def queryProgram (rom : Rom L) (pat : Pat) (program : PatProgram) : Pat :=
  if program.programNumber = 0 then pat
  else
    let c := rom.pids program.programMapPID
    if c.present = false then pat
    else ((List.range maxPidParsers).map c.parser).foldl (addParser program.programNumber) pat

/-- `_streammodel_query_model`; `none` is the error return. -/
def queryRom (rom : Rom L) : Option Pat :=
  if rom.modelComplete then
    (rom.pids 0).pat.map fun streamPat ↦
      let newpat := patAllocFromExisting streamPat
      newpat.programs.foldl (queryProgram rom) newpat
  else none

/-- `ltntstools_streammodel_query_model`. -/
def streammodelQueryModel (ctx : Context L) : Option Pat :=
  if ctx.current.modelComplete then queryRom ctx.current else none

/-- `ltntstools_pmt_entry_compare`, true for identical. -/
def pmtEntryCompare (a b : PmtEntry) : Bool :=
  a.streamType == b.streamType && a.elementaryPID == b.elementaryPID

/-- `ltntstools_pmt_compare`, true for identical. -/
def pmtCompare (a b : Pmt) : Bool :=
  a.versionNumber == b.versionNumber && a.programNumber == b.programNumber &&
    a.pcrPID == b.pcrPID && a.currentNextIndicator == b.currentNextIndicator &&
    a.streams.length == b.streams.length &&
    (a.streams.zip b.streams).all fun r ↦ pmtEntryCompare r.1 r.2

/-- `ltntstools_pat_program_compare`, true for identical. -/
def patProgramCompare (a b : PatProgram) : Bool :=
  a.programNumber == b.programNumber && a.programMapPID == b.programMapPID && pmtCompare a.pmt b.pmt

/-- `ltntstools_pat_compare`, true for identical. -/
def patCompare (a b : Pat) : Bool :=
  a.transportStreamId == b.transportStreamId && a.versionNumber == b.versionNumber &&
    a.currentNextIndicator == b.currentNextIndicator &&
    a.programs.length == b.programs.length &&
    (a.programs.zip b.programs).all fun r ↦ patProgramCompare r.1 r.2

/-! ## Callbacks -/

def changeModel (ctx : Context L) : Context L :=
  { ctx with currentModelVersion := ctx.currentModelVersion + 1, modelChanged := true }

/-- `_rom_compare_current_next`; its result is `modelChanged`. -/
def romCompareCurrentNext (ctx : Context L) : Context L :=
  match queryRom ctx.current, queryRom ctx.next with
  | some patCurrent, some patNext =>
      if patCompare patCurrent patNext = false then changeModel ctx
      else if ctx.restartReason = 1 then { changeModel ctx with restartReason := 0 }
      else ctx
  | none, some _ => changeModel ctx
  | _, none => ctx

/-- `_rom_next_complete`. -/
def romNextComplete (ctx : Context L) : Context L :=
  let compared := romCompareCurrentNext { ctx with next := { ctx.next with modelComplete := true } }
  if compared.modelChanged then compared
  else { compared with restartReason := 0, restartModel := true }

/-- The stream of a program map table makes its pid present; the pids below 0x10 are
refused. -/
def markStream (rom : Rom L) (stream : StreamContent) : Rom L :=
  if stream.elementaryPID ≥ 0x10 then
    rom.setPid stream.elementaryPID { rom.pids stream.elementaryPID with present := true }
  else rom

/-- The last parser of the program number, or the first parser. -/
def parserIndex (ps : PidState L) (programNumber : ℕ) : ℕ :=
  (List.range maxPidParsers).foldl
    (fun idx j ↦ if (ps.parser j).programNumber = programNumber then j else idx) 0

def cachePmt (rom : Rom L) (pid : ℕ) (pmt : PmtContent) : Rom L :=
  let ps := rom.pids pid
  let idx := parserIndex ps pmt.programNumber
  { rom.setPid pid (ps.setParser idx { ps.parser idx with pmt := some pmt }) with
    parsedPMTs := rom.parsedPMTs + 1 }

/-- `cb_pmt`, on a pid of the next rom. -/
def cbPmt (ctx : Context L) (pid : ℕ) (pmt : PmtContent) : Context L :=
  let rom := cachePmt (pmt.streams.foldl markStream ctx.next) pid pmt
  if rom.parsedPMTs = rom.totalPMTsInPAT then romNextComplete { ctx with next := rom }
  else { ctx with next := rom }

/-- The first parser without a decoder, or the first parser. -/
def freeParser (ps : PidState L) : ℕ :=
  ((List.range maxPidParsers).find? fun j ↦ (ps.parser j).dvbpsi.isNone).getD 0

/-- A program of `cb_pat`: its table gets a decoder. -/
def attachProgram (rom : Rom L) (program : ℕ × ℕ) : Rom L :=
  if program.1 > 0 then
    let m := rom.pids program.2
    let idx := freeParser m
    let p := { m.parser idx with
      dvbpsi := some (attach L (.pmt program.1)), programNumber := program.1 }
    { rom.setPid program.2 { m.setParser idx p with present := true } with
      totalPMTsInPAT := rom.totalPMTsInPAT + 1 }
  else rom

/-- The check of `cb_pat` for a table that replaces one in progress. -/
def supersedes (ctx : Context L) (pat : PatContent) : Bool :=
  ctx.next.totalPMTsInPAT != 0 &&
    ((ctx.next.pids 0).pat.any fun m ↦ m.versionNumber != pat.versionNumber) &&
    pat.currentNextIndicator != 0

def acceptPat (rom : Rom L) (now : ℕ) (pat : PatContent) : Rom L :=
  let attached := pat.programs.foldl attachProgram
    { rom with pmtCollectionTimer := now + 1000000, totalPMTsInPAT := 0 }
  attached.setPid 0 { attached.pids 0 with pat := some pat }

/-- `cb_pat`. -/
def cbPat (ctx : Context L) (pat : PatContent) : Context L :=
  if supersedes ctx pat then { ctx with restartModel := true }
  else { ctx with next := acceptPat ctx.next ctx.now pat }

def callback (pid : ℕ) (ctx : Context L) : Table → Context L
  | .pat table => cbPat ctx table
  | .pmt table => cbPmt ctx pid table

/-! ## Writes -/

/-- `_rom_activate`. -/
def romActivate (ctx : Context L) : Context L :=
  { ctx with
    current := ctx.next
    next := { romInitialize ctx.current with allowableWriteTime := ctx.now + 500000 } }

/-- A rom from `calloc`. -/
def zeroRom : Rom L := ⟨0, 0, false, 0, 0, fun _ ↦ ⟨false, fun _ ↦ ⟨none, none, 0⟩, none, 0⟩⟩

/-- `ltntstools_streammodel_alloc`. -/
def streammodelAlloc : Context L :=
  romActivate ⟨0, romInitialize zeroRom, romInitialize zeroRom, false, 0xea, 0, false, false, 0⟩

/-- `dvbpsi_packet_push` into a parser of the next rom, with its callbacks. -/
def pushParser (pid : ℕ) (pkt : Packet) (ctx : Context L) (j : ℕ) : Context L :=
  let ps := ctx.next.pids pid
  match (ps.parser j).dvbpsi with
  | none => ctx
  | some h =>
      let r := L.push h.kind h.state pkt
      let p := { ps.parser j with dvbpsi := some ⟨h.kind, r.1⟩ }
      r.2.foldl (callback pid) { ctx with next := ctx.next.setPid pid (ps.setParser j p) }

def checkPatCC (ctx : Context L) (pkt : Packet) : Context L :=
  if Ts.pid pkt = 0 then
    let bad := ctx.lastPATCC != 0xea && Stats.isCCInError pkt ctx.lastPATCC
    { ctx with
      restartModel := ctx.restartModel || bad
      restartReason := if bad then 1 else ctx.restartReason
      writePackets := ctx.writePackets || bad
      lastPATCC := Ts.continuityCounter pkt }
  else ctx

/-- A decoder in the first parser of a pid, which becomes present. -/
def attachFirst (rom : Rom L) (pid : ℕ) (kind : DecoderKind) : Rom L :=
  let ps := rom.pids pid
  rom.setPid pid
    { ps.setParser 0 { ps.parser 0 with dvbpsi := some (attach L kind) } with present := true }

def countPacket (rom : Rom L) (pid : ℕ) : Rom L :=
  rom.setPid pid { rom.pids pid with packetCount := (rom.pids pid).packetCount + 1 }

def attachSdt (ctx : Context L) : Context L :=
  if (ctx.next.pids 0x11).packetCount = 0 then
    { ctx with next := countPacket (attachFirst ctx.next 0x11 .sdt) 0x11 }
  else ctx

/-- One turn of the first loop of `ltntstools_streammodel_write`. -/
def scanPacket (ctx : Context L) (pkt : Packet) : Context L :=
  let checked := checkPatCC ctx pkt
  if Ts.pid pkt = 0x11 then pushParser 0x11 pkt (attachSdt checked) 0 else checked

/-- A new decoder of the program association table with the first packet of pid 0. -/
def attachPat (ctx : Context L) (pid : ℕ) : Context L :=
  if pid = 0 ∧ (ctx.next.pids 0).packetCount = 0 then
    { ctx with next := attachFirst ctx.next 0 .pat }
  else ctx

def pushPacket (ctx : Context L) (pid : ℕ) (pkt : Packet) : Context L :=
  if (ctx.next.pids pid).present then
    (List.range maxPidParsers).foldl (pushParser pid pkt) ctx
  else ctx

/-- One turn of the second loop, up to the restart of the model. -/
def processPacket (ctx : Context L) (pkt : Packet) : Context L :=
  let pushed := pushPacket (attachPat ctx (Ts.pid pkt)) (Ts.pid pkt) pkt
  { pushed with next := countPacket pushed.next (Ts.pid pkt) }

def restartDelay (restartReason : ℕ) : ℕ :=
  if restartReason = 1 then 500000 else if restartReason = 0 then 15000000 else 0

def restart (ctx : Context L) : Context L :=
  { ctx with
    restartModel := false
    next := { romInitialize ctx.next with
      allowableWriteTime := ctx.now + restartDelay ctx.restartReason } }

/-- The second loop of `ltntstools_streammodel_write`. -/
def writeLoop (ctx : Context L) : List Packet → Context L
  | [] => ctx
  | pkt :: rest =>
      if ctx.writePackets = false then ctx
      else if Ts.pid pkt = 0x11 then writeLoop ctx rest
      else if (processPacket ctx pkt).restartModel then restart (processPacket ctx pkt)
      else writeLoop (processPacket ctx pkt) rest

/-- The tables of the next rom did not arrive in time. -/
def collectionExpired (ctx : Context L) : Bool :=
  decide (ctx.next.pmtCollectionTimer ≥ 1000000) &&
    decide (ctx.now ≥ ctx.next.pmtCollectionTimer) &&
    decide (ctx.next.totalPMTsInPAT ≠ 0) &&
    decide (ctx.next.parsedPMTs < ctx.next.totalPMTsInPAT)

/-- `ltntstools_streammodel_write` before its loops. -/
def beginWrite (ctx : Context L) (timestamp : ℕ) : Context L :=
  let timed := { ctx with
    now := timestamp, writePackets := decide (timestamp ≥ ctx.next.allowableWriteTime) }
  if collectionExpired timed then
    { timed with
      next := romInitialize timed.next
      writePackets := true
      current := { timed.current with modelComplete := false } }
  else timed

/-- `ltntstools_streammodel_write` behind its loops; the flag is `*complete`. -/
def finishWrite (ctx : Context L) : Context L × Bool :=
  if ctx.modelChanged then ({ romActivate ctx with modelChanged := false }, true) else (ctx, false)

/-- `ltntstools_streammodel_write`; without packets it returns at once. -/
def streammodelWrite (ctx : Context L) (pkts : List Packet) (timestamp : ℕ) : Context L × Bool :=
  if pkts = [] then (ctx, false)
  else finishWrite (writeLoop (pkts.foldl scanPacket (beginWrite ctx timestamp)) pkts)

end LtnTsTools.StreamModel
