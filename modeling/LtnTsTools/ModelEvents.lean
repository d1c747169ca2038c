import LtnTsTools.PartialMachine
import LtnTsTools.StreamModel

/-!
# The stream model, callback by callback

A write of the stream model calls decoders, and the decoders call back.  Here the
same run is taken one callback, one restart, one promotion at a time: a machine
over `Event`, the events of a write, and the proof that a write is the run of its
events.  Beside the context goes a record of what the decoders have reported.
-/

namespace LtnTsTools.StreamModel

open Psi PartialMachine

variable {L : Library}

/-! ## Events -/

inductive Event
  | beginWrite (timestamp : ℕ)
  | checkPatCC (pkt : Packet)
  | attachSdt
  | attachPat (pid : ℕ)
  | decode (pid j : ℕ) (pkt : Packet)
  | cbPat (pat : PatContent)
  | cbPmt (pid : ℕ) (pmt : PmtContent)
  | countPacket (pid : ℕ)
  | restart
  | finishWrite

def Rom.decoder (rom : Rom L) (pid j : ℕ) : Option DecoderKind :=
  ((rom.pids pid).parser j).dvbpsi.map Handle.kind

def Attached (rom : Rom L) (pid programNumber : ℕ) : Prop :=
  ∃ j < maxPidParsers, rom.decoder pid j = some (.pmt programNumber)

instance (rom : Rom L) (pid programNumber : ℕ) : Decidable (Attached rom pid programNumber) :=
  inferInstanceAs (Decidable (∃ j < maxPidParsers, _))

def decode (ctx : Context L) (pid j : ℕ) (pkt : Packet) (h : Handle L) : Context L :=
  let ps := ctx.next.pids pid
  let p := { ps.parser j with dvbpsi := some ⟨h.kind, (L.push h.kind h.state pkt).1⟩ }
  { ctx with next := ctx.next.setPid pid (ps.setParser j p) }

/-- `cb_pmt` calls `_rom_next_complete`. -/
def completes (ctx : Context L) (pid : ℕ) (pmt : PmtContent) : Bool :=
  let rom := cachePmt (pmt.streams.foldl markStream ctx.next) pid pmt
  decide (rom.parsedPMTs = rom.totalPMTsInPAT)

/-- One event; the flag tells whether `_rom_next_complete` was called.  A decoder
reports the table of its own program only, so without one nothing is reported. -/
def eventStep (ctx : Context L) : Event → Option (Context L × Bool)
  | .beginWrite timestamp => some (beginWrite ctx timestamp, false)
  | .checkPatCC pkt => some (checkPatCC ctx pkt, false)
  | .attachSdt => some (attachSdt ctx, false)
  | .attachPat pid => some (attachPat ctx pid, false)
  | .decode pid j pkt =>
      ((ctx.next.pids pid).parser j).dvbpsi.map fun h ↦ (decode ctx pid j pkt h, false)
  | .cbPat pat => some (cbPat ctx pat, false)
  | .cbPmt pid pmt =>
      if Attached ctx.next pid pmt.programNumber then
        some (cbPmt ctx pid pmt, completes ctx pid pmt)
      else none
  | .countPacket pid => some ({ ctx with next := countPacket ctx.next pid }, false)
  | .restart => some (restart ctx, false)
  | .finishWrite => some ((finishWrite ctx).1, false)

structure History where
  /-- The program map tables since the next rom was initialised, with their pids, the
  latest first. -/
  reported : List (ℕ × PmtContent)
  /-- The program association table of the model that completed in this write. -/
  completed : Option PatContent
  /-- The program map tables of the model promoted last. -/
  delivered : List (ℕ × PmtContent)

def History.note (ctx : Context L) (history : History) : Event → History
  | .beginWrite timestamp =>
      { history with
        reported := if collectionExpired { ctx with now := timestamp } then []
          else history.reported
        completed := none }
  | .cbPmt pid pmt =>
      { history with
        reported := (pid, pmt) :: history.reported
        completed := if ctx.modelChanged = false ∧ (cbPmt ctx pid pmt).modelChanged
          then (ctx.next.pids 0).pat else history.completed }
  | .restart => { history with reported := [] }
  | .finishWrite =>
      if ctx.modelChanged then { history with reported := [], delivered := history.reported }
      else history
  | _ => history

abbrev Traced (L : Library) := Context L × History

def step : Traced L → Event → Option (Traced L × Bool) := recorded eventStep History.note

def start : Traced L := (streammodelAlloc, ⟨[], none, []⟩)

/-! ## The events of a write

For each function of a write its trace: the events of its run, in their order.
-/

/-- What the decoders report: each the tables it is attached for. -/
structure Library.Correct (L : Library) : Prop where
  pmt : ∀ n state pkt, ∀ t ∈ (L.push (.pmt n) state pkt).2,
    ∃ table, t = .pmt table ∧ table.programNumber = n
  pat : ∀ state pkt, ∀ t ∈ (L.push .pat state pkt).2, ∃ table, t = .pat table
  sdt : ∀ state pkt, (L.push .sdt state pkt).2 = []

def tableEvent (pid : ℕ) : Table → Event
  | .pat table => .cbPat table
  | .pmt table => .cbPmt pid table

/-- The events of `pushParser`. -/
def pushTrace (pid : ℕ) (pkt : Packet) (ctx : Context L) (j : ℕ) : List Event :=
  match ((ctx.next.pids pid).parser j).dvbpsi with
  | none => []
  | some h => .decode pid j pkt :: (L.push h.kind h.state pkt).2.map (tableEvent pid)

def scanTrace (ctx : Context L) (pkt : Packet) : List Event :=
  .checkPatCC pkt ::
    if Ts.pid pkt = 0x11 then .attachSdt :: pushTrace 0x11 pkt (attachSdt (checkPatCC ctx pkt)) 0
    else []

def packetTrace (ctx : Context L) (pid : ℕ) (pkt : Packet) : List Event :=
  if (ctx.next.pids pid).present then
    foldTrace (pushParser pid pkt) (pushTrace pid pkt) ctx (List.range maxPidParsers)
  else []

def processTrace (ctx : Context L) (pkt : Packet) : List Event :=
  .attachPat (Ts.pid pkt) :: packetTrace (attachPat ctx (Ts.pid pkt)) (Ts.pid pkt) pkt ++
    [.countPacket (Ts.pid pkt)]

def loopTrace (ctx : Context L) : List Packet → List Event
  | [] => []
  | pkt :: rest =>
      if ctx.writePackets = false then []
      else if Ts.pid pkt = 0x11 then loopTrace ctx rest
      else processTrace ctx pkt ++
        if (processPacket ctx pkt).restartModel then [.restart]
        else loopTrace (processPacket ctx pkt) rest

/-- The events of `streammodelWrite` up to the end of its loops. -/
def bodyTrace (ctx : Context L) (pkts : List Packet) (timestamp : ℕ) : List Event :=
  let begun := beginWrite ctx timestamp
  .beginWrite timestamp ::
    (foldTrace scanPacket scanTrace begun pkts ++ loopTrace (pkts.foldl scanPacket begun) pkts)

/-- The events of `streammodelWrite`. -/
def writeTrace (ctx : Context L) (pkts : List Packet) (timestamp : ℕ) : List Event :=
  if pkts = [] then [] else bodyTrace ctx pkts timestamp ++ [.finishWrite]

/-! ## Assignments -/

theorem pids_setPid (rom : Rom L) (pid : ℕ) (ps : PidState L) (q : ℕ) :
    (rom.setPid pid ps).pids q = if q = pid then ps else rom.pids q :=
  Function.update_apply rom.pids pid ps q

theorem parser_setPid (rom : Rom L) (pid : ℕ) (ps : PidState L) (q j : ℕ) :
    ((rom.setPid pid ps).pids q).parser j =
      if q = pid then ps.parser j else (rom.pids q).parser j := by
  rw [pids_setPid]
  split_ifs <;> rfl

theorem parser_setParser (ps : PidState L) (i : ℕ) (p : PidParser L) (j : ℕ) :
    (ps.setParser i p).parser j = if j = i then p else ps.parser j :=
  Function.update_apply ps.parser i p j

/-- `cb_pmt` writes to a single parser. -/
theorem parser_cachePmt (rom : Rom L) (pid : ℕ) (pmt : PmtContent) (q j : ℕ) :
    ((cachePmt rom pid pmt).pids q).parser j =
      if q = pid ∧ j = parserIndex (rom.pids pid) pmt.programNumber then
        { (rom.pids q).parser j with pmt := some pmt }
      else (rom.pids q).parser j := by
  have hset := parser_setPid rom pid ((rom.pids pid).setParser
    (parserIndex (rom.pids pid) pmt.programNumber)
    { (rom.pids pid).parser (parserIndex (rom.pids pid) pmt.programNumber) with
      pmt := some pmt }) q j
  rw [parser_setParser] at hset
  refine hset.trans ?_
  by_cases hq : q = pid
  · subst hq
    by_cases hj : j = parserIndex (rom.pids q) pmt.programNumber
    · simp [hj]
    · simp [hj]
  · simp [hq]

/-! ## A write is the run of its events -/

/-- `rom'` has the tables of `rom`, no more decoders of programs, and no fewer pids. -/
structure SameTables (rom rom' : Rom L) : Prop where
  total : rom'.totalPMTsInPAT = rom.totalPMTsInPAT
  parsed : rom'.parsedPMTs = rom.parsedPMTs
  complete : rom'.modelComplete = rom.modelComplete
  pat : (rom'.pids 0).pat = (rom.pids 0).pat
  pmt : ∀ pid j, ((rom'.pids pid).parser j).pmt = ((rom.pids pid).parser j).pmt
  programNumber : ∀ pid j,
    ((rom'.pids pid).parser j).programNumber = ((rom.pids pid).parser j).programNumber
  present : ∀ pid, (rom.pids pid).present = true → (rom'.pids pid).present = true
  decoder : ∀ pid j n, rom'.decoder pid j = some (.pmt n) → rom.decoder pid j = some (.pmt n)

theorem SameTables.refl (rom : Rom L) : SameTables rom rom :=
  ⟨rfl, rfl, rfl, rfl, fun _ _ ↦ rfl, fun _ _ ↦ rfl, fun _ h ↦ h, fun _ _ _ h ↦ h⟩

theorem SameTables.trans {rom rom' rom'' : Rom L} (h : SameTables rom rom')
    (h' : SameTables rom' rom'') : SameTables rom rom'' where
  total := h'.total.trans h.total
  parsed := h'.parsed.trans h.parsed
  complete := h'.complete.trans h.complete
  pat := h'.pat.trans h.pat
  pmt := fun pid j ↦ (h'.pmt pid j).trans (h.pmt pid j)
  programNumber := fun pid j ↦ (h'.programNumber pid j).trans (h.programNumber pid j)
  present := fun pid hp ↦ h'.present pid (h.present pid hp)
  decoder := fun pid j n hd ↦ h.decoder pid j n (h'.decoder pid j n hd)

theorem SameTables.setPid (rom : Rom L) (pid : ℕ) {ps : PidState L}
    (hpat : ps.pat = (rom.pids pid).pat)
    (hparser : ∀ j, (ps.parser j).pmt = ((rom.pids pid).parser j).pmt ∧
      (ps.parser j).programNumber = ((rom.pids pid).parser j).programNumber)
    (hpresent : (rom.pids pid).present = true → ps.present = true)
    (hdecoder : ∀ j n, (ps.parser j).dvbpsi.map Handle.kind = some (.pmt n) →
      rom.decoder pid j = some (.pmt n)) : SameTables rom (rom.setPid pid ps) := by
  have hpids := pids_setPid rom pid ps
  refine ⟨rfl, rfl, rfl, ?_, fun q j ↦ ?_, fun q j ↦ ?_, fun q hq ↦ ?_, fun q j n hq ↦ ?_⟩
  · rw [hpids]
    split_ifs with h
    · rw [hpat, h]
    · rfl
  · rw [hpids]
    split_ifs with h
    · rw [(hparser j).1, h]
    · rfl
  · rw [hpids]
    split_ifs with h
    · rw [(hparser j).2, h]
    · rfl
  · rw [hpids]
    split_ifs with h
    · exact hpresent (h ▸ hq)
    · exact hq
  · rw [Rom.decoder, hpids] at hq
    split_ifs at hq with h
    · exact h ▸ hdecoder j n hq
    · exact hq

theorem sameTables_markStream (rom : Rom L) (stream : StreamContent) :
    SameTables rom (markStream rom stream) := by
  rw [markStream]
  split_ifs
  · exact .setPid rom _ rfl (fun _ ↦ ⟨rfl, rfl⟩) (fun _ ↦ rfl) fun _ _ h ↦ h
  · exact .refl rom

theorem sameTables_markStreams (streams : List StreamContent) (rom : Rom L) :
    SameTables rom (streams.foldl markStream rom) := by
  induction streams generalizing rom with
  | nil => exact .refl rom
  | cons stream rest ih => exact (sameTables_markStream rom stream).trans (ih _)

theorem sameTables_countPacket (rom : Rom L) (pid : ℕ) : SameTables rom (countPacket rom pid) :=
  .setPid rom pid rfl (fun _ ↦ ⟨rfl, rfl⟩) (fun h ↦ h) fun _ _ h ↦ h

theorem setParser_tables (ps : PidState L) (i : ℕ) (h : Option (Handle L)) (j : ℕ) :
    ((ps.setParser i { ps.parser i with dvbpsi := h }).parser j).pmt = (ps.parser j).pmt ∧
      ((ps.setParser i { ps.parser i with dvbpsi := h }).parser j).programNumber =
        (ps.parser j).programNumber := by
  rw [parser_setParser]
  split_ifs with hj
  · rw [hj]
    exact ⟨rfl, rfl⟩
  · exact ⟨rfl, rfl⟩

theorem sameTables_attachFirst (rom : Rom L) (pid : ℕ) {kind : DecoderKind}
    (hkind : ∀ n, kind ≠ .pmt n) : SameTables rom (attachFirst rom pid kind) := by
  refine .setPid rom pid rfl (setParser_tables _ 0 _) (fun _ ↦ rfl) fun j n h ↦ ?_
  rw [parser_setParser] at h
  split_ifs at h with hj
  · exact absurd (Option.some.inj h) (hkind n)
  · exact h

theorem sameTables_decode (ctx : Context L) {pid j : ℕ} {pkt : Packet} {h : Handle L}
    (hh : ((ctx.next.pids pid).parser j).dvbpsi = some h) :
    SameTables ctx.next (decode ctx pid j pkt h).next := by
  refine .setPid ctx.next pid rfl (setParser_tables _ j _) (fun hp ↦ hp) fun i n hi ↦ ?_
  rw [parser_setParser] at hi
  split_ifs at hi with hij
  · subst hij
    rw [Rom.decoder, hh]
    exact hi
  · exact hi

theorem romCompareCurrentNext_next (ctx : Context L) :
    (romCompareCurrentNext ctx).next = ctx.next := by
  rw [romCompareCurrentNext]
  split
  · split_ifs <;> rfl
  · rfl
  · rfl

theorem romNextComplete_next (ctx : Context L) :
    (romNextComplete ctx).next = { ctx.next with modelComplete := true } := by
  rw [romNextComplete]
  split_ifs
  · exact romCompareCurrentNext_next _
  · exact romCompareCurrentNext_next _

/-- `cb_pmt` caches the table, and completes the rom or not. -/
theorem cbPmt_next (ctx : Context L) (pid : ℕ) (pmt : PmtContent) :
    (cbPmt ctx pid pmt).next =
      { cachePmt (pmt.streams.foldl markStream ctx.next) pid pmt with
        modelComplete := completes ctx pid pmt || ctx.next.modelComplete } := by
  have hcomplete := (sameTables_markStreams pmt.streams ctx.next).complete
  by_cases h : (cachePmt (pmt.streams.foldl markStream ctx.next) pid pmt).parsedPMTs =
      (cachePmt (pmt.streams.foldl markStream ctx.next) pid pmt).totalPMTsInPAT
  · simp [cbPmt, completes, h, romNextComplete_next]
  · simp only [cbPmt, completes, h, if_false, decide_false, Bool.false_or]
    rw [← hcomplete]
    rfl

theorem decoder_markStream (rom : Rom L) (stream : StreamContent) (q j : ℕ) :
    (markStream rom stream).decoder q j = rom.decoder q j := by
  rw [markStream]
  split_ifs
  · rw [Rom.decoder, parser_setPid]
    split_ifs with hq
    · rw [hq]
      rfl
    · rfl
  · rfl

theorem decoder_markStreams (streams : List StreamContent) (rom : Rom L) (q j : ℕ) :
    (streams.foldl markStream rom).decoder q j = rom.decoder q j := by
  induction streams generalizing rom with
  | nil => rfl
  | cons stream rest ih => exact (ih _).trans (decoder_markStream rom stream q j)

theorem decoder_cachePmt (rom : Rom L) (pid : ℕ) (pmt : PmtContent) (q j : ℕ) :
    (cachePmt rom pid pmt).decoder q j = rom.decoder q j := by
  rw [Rom.decoder, parser_cachePmt]
  split_ifs <;> rfl

/-- Callbacks of program map tables leave the decoders alone. -/
theorem decoder_cbPmt (ctx : Context L) (pid : ℕ) (pmt : PmtContent) (q j : ℕ) :
    (cbPmt ctx pid pmt).next.decoder q j = ctx.next.decoder q j := by
  rw [cbPmt_next]
  exact (decoder_cachePmt _ pid pmt q j).trans (decoder_markStreams pmt.streams ctx.next q j)

theorem Attached.cbPmt {ctx : Context L} {pid n q : ℕ} {pmt : PmtContent}
    (h : Attached ctx.next q n) : Attached (cbPmt ctx pid pmt).next q n := by
  obtain ⟨j, hj, hkind⟩ := h
  exact ⟨j, hj, (decoder_cbPmt ctx pid pmt q j).trans hkind⟩

theorem decoder_decode (ctx : Context L) (pid j : ℕ) (pkt : Packet) (h : Handle L) :
    (decode ctx pid j pkt h).next.decoder pid j = some h.kind := by
  simp [decode, Rom.decoder, Rom.setPid, PidState.setParser]

theorem run_pmtTables {n pid : ℕ} {tables : List Table}
    (h : ∀ t ∈ tables, ∃ table, t = .pmt table ∧ table.programNumber = n) {ctx : Context L}
    (hattached : Attached ctx.next pid n) :
    run eventStep ctx (tables.map (tableEvent pid)) = some (tables.foldl (callback pid) ctx) := by
  induction tables generalizing ctx with
  | nil => rfl
  | cons t rest ih =>
      obtain ⟨table, rfl, rfl⟩ := h _ List.mem_cons_self
      have hstep : eventStep ctx (.cbPmt pid table) =
          some (StreamModel.cbPmt ctx pid table, completes ctx pid table) := if_pos hattached
      simp only [List.map_cons, tableEvent, run, hstep, List.foldl_cons, callback]
      exact ih (fun t ht ↦ h t (List.mem_cons_of_mem _ ht)) hattached.cbPmt

theorem run_patTables {pid : ℕ} {tables : List Table} (h : ∀ t ∈ tables, ∃ table, t = .pat table)
    (ctx : Context L) :
    run eventStep ctx (tables.map (tableEvent pid)) = some (tables.foldl (callback pid) ctx) := by
  induction tables generalizing ctx with
  | nil => rfl
  | cons t rest ih =>
      obtain ⟨table, rfl⟩ := h _ List.mem_cons_self
      exact ih (fun t ht ↦ h t (List.mem_cons_of_mem _ ht)) _

section Write

variable (hL : L.Correct)

include hL

theorem run_pushTrace {pid : ℕ} {pkt : Packet} {j : ℕ} (hj : j < maxPidParsers) (ctx : Context L) :
    run eventStep ctx (pushTrace pid pkt ctx j) = some (pushParser pid pkt ctx j) := by
  cases hh : ((ctx.next.pids pid).parser j).dvbpsi with
  | none => simp [pushTrace, pushParser, hh, run]
  | some h =>
      have hpush : pushParser pid pkt ctx j =
          (L.push h.kind h.state pkt).2.foldl (callback pid) (decode ctx pid j pkt h) := by
        simp only [pushParser, hh, decode]
      have hstep : eventStep ctx (.decode pid j pkt) = some (decode ctx pid j pkt h, false) := by
        simp [eventStep, hh]
      rw [hpush]
      simp only [pushTrace, hh, run, hstep]
      have hdecoder := decoder_decode ctx pid j pkt h
      cases hkind : h.kind with
      | pat => exact run_patTables (hL.pat h.state pkt) _
      | sdt => exact hL.sdt h.state pkt ▸ rfl
      | pmt n => exact run_pmtTables (hL.pmt n h.state pkt) ⟨j, hj, hdecoder.trans (hkind ▸ rfl)⟩

theorem run_scanTrace (ctx : Context L) (pkt : Packet) :
    run eventStep ctx (scanTrace ctx pkt) = some (scanPacket ctx pkt) := by
  rw [scanTrace, scanPacket]
  split_ifs with h
  · exact run_pushTrace hL (by decide) _
  · rfl

theorem run_processTrace (ctx : Context L) (pkt : Packet) :
    run eventStep ctx (processTrace ctx pkt) = some (processPacket ctx pkt) := by
  have hpacket : ∀ ctx : Context L, run eventStep ctx (packetTrace ctx (Ts.pid pkt) pkt) =
      some (pushPacket ctx (Ts.pid pkt) pkt) := by
    intro ctx
    rw [packetTrace, pushPacket]
    split_ifs
    · exact run_foldTrace (fun j hj s ↦ run_pushTrace hL (List.mem_range.mp hj) s) ctx
    · rfl
  rw [processTrace, List.cons_append, run]
  simp only [eventStep]
  rw [run_append, hpacket]
  rfl

theorem run_loopTrace (pkts : List Packet) (ctx : Context L) :
    run eventStep ctx (loopTrace ctx pkts) = some (writeLoop ctx pkts) := by
  induction pkts generalizing ctx with
  | nil => rfl
  | cons pkt rest ih =>
      rw [loopTrace, writeLoop]
      split_ifs
      · rfl
      · exact ih ctx
      · rw [run_append, run_processTrace hL]
        rfl
      · rw [run_append, run_processTrace hL]
        exact ih _

theorem run_bodyTrace (ctx : Context L) (pkts : List Packet) (timestamp : ℕ) :
    run eventStep ctx (bodyTrace ctx pkts timestamp) =
      some (writeLoop (pkts.foldl scanPacket (beginWrite ctx timestamp)) pkts) := by
  simp only [bodyTrace, run, eventStep]
  rw [run_append, run_foldTrace (fun pkt _ s ↦ run_scanTrace hL s pkt), Option.bind_some,
    run_loopTrace hL]

theorem run_writeTrace (ctx : Context L) (pkts : List Packet) (timestamp : ℕ) :
    run eventStep ctx (writeTrace ctx pkts timestamp) =
      some (streammodelWrite ctx pkts timestamp).1 := by
  rw [writeTrace, streammodelWrite]
  split_ifs
  · rfl
  · rw [run_append, run_bodyTrace hL]
    rfl

end Write

/-! ## What an event can do -/

theorem checkPatCC_frame (ctx : Context L) (pkt : Packet) :
    (checkPatCC ctx pkt).next = ctx.next ∧
      (checkPatCC ctx pkt).modelChanged = ctx.modelChanged := by
  rw [checkPatCC]
  split_ifs
  · exact ⟨rfl, rfl⟩
  · exact ⟨rfl, rfl⟩

theorem attachSdt_frame (ctx : Context L) :
    SameTables ctx.next (attachSdt ctx).next ∧ (attachSdt ctx).modelChanged = ctx.modelChanged := by
  rw [attachSdt]
  split_ifs
  · refine ⟨.trans (sameTables_attachFirst ctx.next 0x11 ?_) (sameTables_countPacket _ _), rfl⟩
    exact fun n ↦ DecoderKind.noConfusion
  · exact ⟨.refl _, rfl⟩

theorem attachPat_frame (ctx : Context L) (pid : ℕ) :
    SameTables ctx.next (attachPat ctx pid).next ∧
      (attachPat ctx pid).modelChanged = ctx.modelChanged := by
  rw [attachPat]
  split_ifs
  · refine ⟨sameTables_attachFirst ctx.next 0 ?_, rfl⟩
    exact fun n ↦ DecoderKind.noConfusion
  · exact ⟨.refl _, rfl⟩

/-- What a step can do: most events leave the tables alone. -/
inductive Effect : Traced L → Event → Traced L → Bool → Prop
  | quiet {ctx ctx' : Context L} {history : History} {e : Event}
      (hsame : SameTables ctx.next ctx'.next) (hchanged : ctx'.modelChanged = ctx.modelChanged) :
      Effect (ctx, history) e (ctx', history) false
  | beginWrite {ctx : Context L} {history : History} (timestamp : ℕ) :
      Effect (ctx, history) (.beginWrite timestamp)
        (beginWrite ctx timestamp, history.note ctx (.beginWrite timestamp)) false
  | cbPat {ctx : Context L} {history : History} (pat : PatContent) :
      Effect (ctx, history) (.cbPat pat) (cbPat ctx pat, history) false
  | cbPmt {ctx : Context L} {history : History} {pid : ℕ} {pmt : PmtContent}
      (hattached : Attached ctx.next pid pmt.programNumber) :
      Effect (ctx, history) (.cbPmt pid pmt)
        (cbPmt ctx pid pmt, history.note ctx (.cbPmt pid pmt)) (completes ctx pid pmt)
  | restart {ctx : Context L} {history : History} :
      Effect (ctx, history) .restart (restart ctx, { history with reported := [] }) false
  | finishWrite {ctx : Context L} {history : History} :
      Effect (ctx, history) .finishWrite
        ((finishWrite ctx).1, history.note ctx .finishWrite) false

theorem effect_of_step {s s' : Traced L} {e : Event} {complete : Bool}
    (hs : step s e = some (s', complete)) : Effect s e s' complete := by
  obtain ⟨ctx, history⟩ := s
  obtain ⟨⟨ctx', out⟩, hevent, heq⟩ := Option.map_eq_some_iff.mp hs
  obtain ⟨rfl, rfl⟩ := Prod.mk.inj heq
  cases e with
  | beginWrite timestamp =>
      obtain ⟨rfl, rfl⟩ := Prod.mk.inj (Option.some.inj hevent)
      exact .beginWrite timestamp
  | checkPatCC pkt =>
      obtain ⟨rfl, rfl⟩ := Prod.mk.inj (Option.some.inj hevent)
      have hframe := checkPatCC_frame ctx pkt
      exact .quiet (hframe.1 ▸ .refl _) hframe.2
  | attachSdt =>
      obtain ⟨rfl, rfl⟩ := Prod.mk.inj (Option.some.inj hevent)
      exact .quiet (attachSdt_frame ctx).1 (attachSdt_frame ctx).2
  | attachPat pid =>
      obtain ⟨rfl, rfl⟩ := Prod.mk.inj (Option.some.inj hevent)
      exact .quiet (attachPat_frame ctx pid).1 (attachPat_frame ctx pid).2
  | decode pid j pkt =>
      obtain ⟨handle, hhandle, hctx⟩ := Option.map_eq_some_iff.mp hevent
      obtain ⟨rfl, rfl⟩ := Prod.mk.inj hctx
      exact .quiet (sameTables_decode ctx hhandle) rfl
  | cbPat pat =>
      obtain ⟨rfl, rfl⟩ := Prod.mk.inj (Option.some.inj hevent)
      exact .cbPat pat
  | cbPmt pid pmt =>
      rw [eventStep] at hevent
      split_ifs at hevent with hattached
      obtain ⟨rfl, rfl⟩ := Prod.mk.inj (Option.some.inj hevent)
      exact .cbPmt hattached
  | countPacket pid =>
      obtain ⟨rfl, rfl⟩ := Prod.mk.inj (Option.some.inj hevent)
      exact .quiet (sameTables_countPacket ctx.next pid) rfl
  | restart =>
      obtain ⟨rfl, rfl⟩ := Prod.mk.inj (Option.some.inj hevent)
      exact .restart
  | finishWrite =>
      obtain ⟨rfl, rfl⟩ := Prod.mk.inj (Option.some.inj hevent)
      exact .finishWrite

/-! ## Tables of one packet -/

def report {T : Type} (versionNumber : T → ℕ) (table : T → Table) (version : Option ℕ) :
    Option T → Option ℕ × List Table
  | none => (version, [])
  | some t =>
      if version = some (versionNumber t) then (version, [])
      else (some (versionNumber t), [table t])

/-- Decoders for sections that fit a packet: a table is reported when its version is
not the one reported last. -/
def onePacketLibrary : Library where
  Decoder := Option ℕ
  new _ := none
  push
    | .pat, version, pkt =>
        report PatContent.versionNumber .pat version (readPat (sectionBytes pkt))
    | .sdt, version, _ => (version, [])
    | .pmt n, version, pkt =>
        report PmtContent.versionNumber .pmt version
          ((readPmt (sectionBytes pkt)).filter fun t ↦ t.programNumber = n)

theorem mem_report {T : Type} {versionNumber : T → ℕ} {table : T → Table} {version : Option ℕ}
    {o : Option T} {t : Table} (h : t ∈ (report versionNumber table version o).2) :
    ∃ x, o = some x ∧ t = table x := by
  cases o with
  | none => simp [report] at h
  | some x =>
      rw [report] at h
      split_ifs at h
      · simp at h
      · exact ⟨x, rfl, by simpa using h⟩

theorem onePacketLibrary_correct : onePacketLibrary.Correct where
  pmt := by
    intro n state pkt t ht
    obtain ⟨table, htable, rfl⟩ := mem_report ht
    exact ⟨table, rfl, by simpa using (Option.filter_eq_some_iff.mp htable).2⟩
  pat := by
    intro state pkt t ht
    obtain ⟨table, -, rfl⟩ := mem_report ht
    exact ⟨table, rfl⟩
  sdt := fun _ _ ↦ rfl

end LtnTsTools.StreamModel
