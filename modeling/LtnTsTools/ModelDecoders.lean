import LtnTsTools.ModelQuery

/-!
# One packet in the stream model

What a packet does to the next rom, told by the decoders of its pid: nothing where none is
attached, a program association table where the first parser has the decoder of one, and a program
map table where it waits for that program.  Every other pid keeps its decoders.
-/

namespace LtnTsTools.StreamModel

open Psi

variable {L : Library}

/-! ## Decoders of a pid -/

def Rom.handle (rom : Rom L) (pid j : ℕ) : Option (Handle L) := ((rom.pids pid).parser j).dvbpsi

def Idle (rom : Rom L) (pid : ℕ) : Prop := ∀ j, rom.handle pid j = none

/-- The pid has a new decoder in its first parser, and no other one. -/
structure Waits (rom : Rom L) (pid : ℕ) (kind : DecoderKind) : Prop where
  present : (rom.pids pid).present = true
  first : rom.handle pid 0 = some (attach L kind)
  others : ∀ j ≠ 0, rom.handle pid j = none

theorem handle_setPid (rom : Rom L) (pid : ℕ) (ps : PidState L) (q j : ℕ) :
    (rom.setPid pid ps).handle q j = if q = pid then (ps.parser j).dvbpsi else rom.handle q j := by
  rw [Rom.handle, pids_setPid]
  split_ifs <;> rfl

theorem handle_markStream (rom : Rom L) (stream : StreamContent) (q j : ℕ) :
    (markStream rom stream).handle q j = rom.handle q j := by
  rw [markStream]
  split_ifs
  · rw [handle_setPid]
    split_ifs with hq
    · rw [hq]
      rfl
    · rfl
  · rfl

theorem handle_markStreams (streams : List StreamContent) (rom : Rom L) (q j : ℕ) :
    (streams.foldl markStream rom).handle q j = rom.handle q j := by
  induction streams generalizing rom with
  | nil => rfl
  | cons stream rest ih => exact (ih _).trans (handle_markStream rom stream q j)

theorem handle_cachePmt (rom : Rom L) (pid : ℕ) (pmt : PmtContent) (q j : ℕ) :
    (cachePmt rom pid pmt).handle q j = rom.handle q j := by
  rw [Rom.handle, parser_cachePmt]
  split_ifs <;> rfl

/-- Callbacks of program map tables leave the decoders alone. -/
theorem handle_cbPmt (ctx : Context L) (pid : ℕ) (pmt : PmtContent) (q j : ℕ) :
    (cbPmt ctx pid pmt).next.handle q j = ctx.next.handle q j := by
  rw [cbPmt_next]
  exact (handle_cachePmt _ pid pmt q j).trans (handle_markStreams pmt.streams ctx.next q j)

theorem handle_decode (ctx : Context L) (pid i : ℕ) (pkt : Packet) (h : Handle L) (q j : ℕ) :
    (decode ctx pid i pkt h).next.handle q j =
      if q = pid ∧ j = i then some ⟨h.kind, (L.push h.kind h.state pkt).1⟩
      else ctx.next.handle q j := by
  rw [decode, handle_setPid]
  by_cases hq : q = pid
  · subst hq
    rw [parser_setParser]
    by_cases hj : j = i
    · simp [hj]
    · simp [hj, Rom.handle]
  · simp [hq]

theorem handle_countPacket (rom : Rom L) (pid q j : ℕ) :
    (countPacket rom pid).handle q j = rom.handle q j := by
  rw [countPacket, handle_setPid]
  split_ifs with hq
  · rw [hq]
    rfl
  · rfl

theorem handle_attachFirst (rom : Rom L) (pid : ℕ) (kind : DecoderKind) (q j : ℕ) :
    (attachFirst rom pid kind).handle q j =
      if q = pid ∧ j = 0 then some (attach L kind) else rom.handle q j := by
  rw [attachFirst, handle_setPid]
  by_cases hq : q = pid
  · subst hq
    rw [if_pos rfl, parser_setParser]
    by_cases hj : j = 0
    · simp [hj]
    · simp [hj, Rom.handle]
  · simp [hq]

/-! ## The parsers of a packet -/

theorem pushParser_none {ctx : Context L} {pid j : ℕ} (h : ctx.next.handle pid j = none)
    (pkt : Packet) : pushParser pid pkt ctx j = ctx := by
  rw [Rom.handle] at h
  simp only [pushParser, h]

theorem pushParser_some {ctx : Context L} {pid j : ℕ} {h : Handle L}
    (hh : ctx.next.handle pid j = some h) (pkt : Packet) :
    pushParser pid pkt ctx j =
      (L.push h.kind h.state pkt).2.foldl (callback pid) (decode ctx pid j pkt h) := by
  rw [Rom.handle] at hh
  simp only [pushParser, hh, decode]

theorem pushPacket_idle {ctx : Context L} {pid : ℕ} (h : Idle ctx.next pid) (pkt : Packet) :
    pushPacket ctx pid pkt = ctx := by
  rw [pushPacket]
  split_ifs
  · exact foldl_eq_self fun j _ ↦ pushParser_none (h j) pkt
  · rfl

theorem pushPacket_first {ctx : Context L} {pid : ℕ} {pkt : Packet}
    (hpresent : (ctx.next.pids pid).present = true)
    (hothers : ∀ j ≠ 0, (pushParser pid pkt ctx 0).next.handle pid j = none) :
    pushPacket ctx pid pkt = pushParser pid pkt ctx 0 := by
  have hrange : List.range maxPidParsers = 0 :: List.range' 1 23 := by decide
  rw [pushPacket, if_pos hpresent, hrange, List.foldl_cons]
  refine foldl_eq_self fun j hj ↦ pushParser_none (hothers j ?_) pkt
  rw [List.mem_range'_1] at hj
  omega

/-- The first packet of a decoder that waits for a program map table. -/
theorem pushPacket_pmt {ctx : Context L} {pid n : ℕ} {pkt : Packet} {pmt : PmtContent}
    (hwaits : Waits ctx.next pid (.pmt n))
    (hpush : (L.push (.pmt n) (L.new (.pmt n)) pkt).2 = [.pmt pmt]) :
    pushPacket ctx pid pkt = cbPmt (decode ctx pid 0 pkt (attach L (.pmt n))) pid pmt := by
  have hfirst : pushParser pid pkt ctx 0 =
      cbPmt (decode ctx pid 0 pkt (attach L (.pmt n))) pid pmt := by
    rw [pushParser_some hwaits.first]
    exact congrArg (List.foldl (callback pid) _) hpush
  rw [pushPacket_first hwaits.present, hfirst]
  intro j hj
  rw [hfirst, handle_cbPmt, handle_decode, if_neg fun h ↦ hj h.2]
  exact hwaits.others j hj

/-! ## The callback of a program map table -/

theorem markStreams_times (streams : List StreamContent) (rom : Rom L) :
    (streams.foldl markStream rom).pmtCollectionTimer = rom.pmtCollectionTimer ∧
      (streams.foldl markStream rom).allowableWriteTime = rom.allowableWriteTime := by
  induction streams generalizing rom with
  | nil => exact ⟨rfl, rfl⟩
  | cons stream rest ih =>
      have hone : (markStream rom stream).pmtCollectionTimer = rom.pmtCollectionTimer ∧
          (markStream rom stream).allowableWriteTime = rom.allowableWriteTime := by
        rw [markStream]
        split_ifs <;> exact ⟨rfl, rfl⟩
      exact ⟨(ih _).1.trans hone.1, (ih _).2.trans hone.2⟩

theorem cbPmt_times (ctx : Context L) (pid : ℕ) (pmt : PmtContent) :
    (cbPmt ctx pid pmt).next.pmtCollectionTimer = ctx.next.pmtCollectionTimer ∧
      (cbPmt ctx pid pmt).next.allowableWriteTime = ctx.next.allowableWriteTime := by
  rw [cbPmt_next]
  exact markStreams_times pmt.streams ctx.next

theorem cbPmt_present {ctx : Context L} {q : ℕ} (h : (ctx.next.pids q).present = true) (pid : ℕ)
    (pmt : PmtContent) : ((cbPmt ctx pid pmt).next.pids q).present = true := by
  rw [cbPmt_next]
  refine (cachePmt_pids _ pid pmt q).2.trans ?_
  exact (sameTables_markStreams pmt.streams ctx.next).present q h

theorem cbPmt_counts (ctx : Context L) (pid : ℕ) (pmt : PmtContent) :
    (cbPmt ctx pid pmt).next.parsedPMTs = ctx.next.parsedPMTs + 1 ∧
      (cbPmt ctx pid pmt).next.totalPMTsInPAT = ctx.next.totalPMTsInPAT := by
  have hsame := sameTables_markStreams pmt.streams ctx.next
  rw [cbPmt_next]
  exact ⟨congrArg (· + 1) hsame.parsed, hsame.total⟩

theorem cbPmt_of_incomplete {ctx : Context L} {pid : ℕ} {pmt : PmtContent}
    (h : completes ctx pid pmt = false) :
    (cbPmt ctx pid pmt).modelChanged = ctx.modelChanged ∧
      (cbPmt ctx pid pmt).restartModel = ctx.restartModel := by
  have hcount := of_decide_eq_false h
  rw [cbPmt]
  simp only [hcount, if_false]
  exact ⟨trivial, trivial⟩

/-- The first model that completes is a changed one. -/
theorem cbPmt_of_complete {ctx : Context L} {pid : ℕ} {pmt : PmtContent}
    (h : completes ctx pid pmt = true) (hempty : ctx.current.modelComplete = false)
    (hquery : (queryRom (cbPmt ctx pid pmt).next).isSome) :
    (cbPmt ctx pid pmt).modelChanged = true ∧
      (cbPmt ctx pid pmt).restartModel = ctx.restartModel := by
  have hcount := of_decide_eq_true h
  obtain ⟨q, hq⟩ := Option.isSome_iff_exists.mp hquery
  have hcurrent : queryRom ctx.current = none := by
    rw [queryRom, hempty]
    rfl
  simp only [cbPmt, hcount, if_true, romNextComplete_next] at hq
  simp only [cbPmt, hcount, if_true, romNextComplete, romCompareCurrentNext, hcurrent, hq,
    changeModel]
  exact ⟨trivial, trivial⟩

/-! ## Programs that get a decoder -/

/-- The decoders behind a program with a program map table, on a pid without any. -/
theorem waits_attachProgram {rom : Rom L} {program : ℕ × ℕ} (hpos : 0 < program.1)
    (hidle : Idle rom program.2) :
    Waits (attachProgram rom program) program.2 (.pmt program.1) := by
  have hfree : freeParser (rom.pids program.2) = 0 := by
    have hnone : ((rom.pids program.2).parser 0).dvbpsi.isNone = true := by
      rw [Option.isNone_iff_eq_none]
      exact hidle 0
    have hrange : List.range maxPidParsers = 0 :: List.range' 1 23 := by decide
    rw [freeParser, hrange, List.find?_cons_of_pos (by exact hnone)]
    rfl
  refine ⟨attachProgram_present (.inr ⟨hpos, rfl⟩), ?_, fun j hj ↦ ?_⟩
  · rw [Rom.handle, parser_attachProgram, if_pos ⟨hpos, rfl, hfree.symm⟩]
  · rw [Rom.handle, parser_attachProgram, if_neg fun h ↦ hj (h.2.2.trans hfree)]
    exact hidle j

theorem handle_attachProgram {rom : Rom L} {program : ℕ × ℕ} {q : ℕ}
    (hq : 0 < program.1 → q ≠ program.2) (j : ℕ) :
    (attachProgram rom program).handle q j = rom.handle q j := by
  rw [Rom.handle, parser_attachProgram, if_neg fun h ↦ hq h.1 h.2.1]
  rfl

theorem Waits.of_handle {rom rom' : Rom L} {pid : ℕ} {kind : DecoderKind} (h : Waits rom pid kind)
    (hpresent : (rom.pids pid).present = true → (rom'.pids pid).present = true)
    (hhandle : ∀ j, rom'.handle pid j = rom.handle pid j) : Waits rom' pid kind where
  present := hpresent h.present
  first := (hhandle 0).trans h.first
  others := fun j hj ↦ (hhandle j).trans (h.others j hj)

theorem handle_attachPrograms {programs : List (ℕ × ℕ)} {rom : Rom L} {q : ℕ}
    (hq : ∀ p ∈ programs, 0 < p.1 → q ≠ p.2) (j : ℕ) :
    (programs.foldl attachProgram rom).handle q j = rom.handle q j := by
  induction programs generalizing rom with
  | nil => rfl
  | cons p rest ih =>
      rw [List.foldl_cons, ih fun x hx ↦ hq x (List.mem_cons_of_mem p hx),
        handle_attachProgram (hq p List.mem_cons_self)]

/-- Programs on pids of their own each get a decoder. -/
theorem waits_attachPrograms {programs : List (ℕ × ℕ)} {rom : Rom L}
    (hnodup : (programs.map Prod.snd).Nodup) (hidle : ∀ p ∈ programs, Idle rom p.2) {p : ℕ × ℕ}
    (hp : p ∈ programs) (hpos : 0 < p.1) :
    Waits (programs.foldl attachProgram rom) p.2 (.pmt p.1) := by
  induction programs generalizing rom with
  | nil => cases hp
  | cons first rest ih =>
      rw [List.map_cons, List.nodup_cons] at hnodup
      have hapart : ∀ x ∈ rest, first.2 ≠ x.2 :=
        fun x hx heq ↦ hnodup.1 (heq ▸ List.mem_map_of_mem hx)
      rw [List.foldl_cons]
      rcases List.mem_cons.mp hp with rfl | hrest
      · refine (waits_attachProgram hpos (hidle p List.mem_cons_self)).of_handle ?_
          fun j ↦ handle_attachPrograms (fun x hx _ ↦ hapart x hx) j
        exact fun h ↦ (attachPrograms_spec rest (attachProgram rom p)).2.2.2.2 p.2 (.inl h)
      · refine ih hnodup.2 (fun x hx j ↦ ?_) hrest
        rw [handle_attachProgram fun _ ↦ (hapart x hx).symm]
        exact hidle x (List.mem_cons_of_mem first hx) j

/-! ## What a packet leaves alone -/

/-- The fields of a context that only the start and the end of a write change. -/
structure Framed (ctx ctx' : Context L) : Prop where
  lastPATCC : ctx'.lastPATCC = ctx.lastPATCC
  writePackets : ctx'.writePackets = ctx.writePackets
  now : ctx'.now = ctx.now
  current : ctx'.current = ctx.current

theorem Framed.refl (ctx : Context L) : Framed ctx ctx := ⟨rfl, rfl, rfl, rfl⟩

theorem Framed.trans {ctx ctx' ctx'' : Context L} (h : Framed ctx ctx') (h' : Framed ctx' ctx'') :
    Framed ctx ctx'' where
  lastPATCC := h'.lastPATCC.trans h.lastPATCC
  writePackets := h'.writePackets.trans h.writePackets
  now := h'.now.trans h.now
  current := h'.current.trans h.current

theorem framed_foldl {α : Type*} {f : Context L → α → Context L}
    (h : ∀ ctx a, Framed ctx (f ctx a)) (l : List α) (ctx : Context L) :
    Framed ctx (l.foldl f ctx) := by
  induction l generalizing ctx with
  | nil => exact .refl ctx
  | cons a rest ih => exact (h ctx a).trans (ih _)

theorem framed_romCompareCurrentNext (ctx : Context L) :
    Framed ctx (romCompareCurrentNext ctx) := by
  rw [romCompareCurrentNext]
  split
  · split_ifs <;> exact ⟨rfl, rfl, rfl, rfl⟩
  · exact ⟨rfl, rfl, rfl, rfl⟩
  · exact .refl ctx

theorem framed_romNextComplete (ctx : Context L) : Framed ctx (romNextComplete ctx) := by
  have hcompare := framed_romCompareCurrentNext
    { ctx with next := { ctx.next with modelComplete := true } }
  rw [romNextComplete]
  split_ifs
  · exact ⟨hcompare.1, hcompare.2, hcompare.3, hcompare.4⟩
  · exact ⟨hcompare.1, hcompare.2, hcompare.3, hcompare.4⟩

theorem framed_callback (pid : ℕ) (ctx : Context L) (t : Table) :
    Framed ctx (callback pid ctx t) := by
  cases t with
  | pat table =>
      simp only [callback, cbPat]
      split_ifs <;> exact ⟨rfl, rfl, rfl, rfl⟩
  | pmt table =>
      have hcached : Framed ctx { ctx with
          next := cachePmt (table.streams.foldl markStream ctx.next) pid table } :=
        ⟨rfl, rfl, rfl, rfl⟩
      simp only [callback, cbPmt]
      split_ifs
      · exact hcached.trans (framed_romNextComplete _)
      · exact hcached

theorem framed_pushParser (pid : ℕ) (pkt : Packet) (ctx : Context L) (j : ℕ) :
    Framed ctx (pushParser pid pkt ctx j) := by
  cases h : ctx.next.handle pid j with
  | none =>
      rw [pushParser_none h]
      exact .refl ctx
  | some handle =>
      have hdecoded : Framed ctx (decode ctx pid j pkt handle) := ⟨rfl, rfl, rfl, rfl⟩
      rw [pushParser_some h]
      exact hdecoded.trans (framed_foldl (framed_callback pid) _ _)

theorem framed_processPacket (ctx : Context L) (pkt : Packet) :
    Framed ctx (processPacket ctx pkt) := by
  have hattach : Framed ctx (attachPat ctx (Ts.pid pkt)) := by
    rw [attachPat]
    split_ifs <;> exact ⟨rfl, rfl, rfl, rfl⟩
  have hpush : ∀ ctx : Context L, Framed ctx (pushPacket ctx (Ts.pid pkt) pkt) := by
    intro ctx
    rw [pushPacket]
    split_ifs
    · exact framed_foldl (framed_pushParser _ pkt) _ _
    · exact .refl ctx
  exact (hattach.trans (hpush _)).trans ⟨rfl, rfl, rfl, rfl⟩

theorem writeLoop_lastPATCC (pkts : List Packet) (ctx : Context L) :
    (writeLoop ctx pkts).lastPATCC = ctx.lastPATCC := by
  induction pkts generalizing ctx with
  | nil => rfl
  | cons pkt rest ih =>
      have hstep := (framed_processPacket ctx pkt).lastPATCC
      rw [writeLoop]
      split_ifs
      · rfl
      · exact ih ctx
      · exact hstep
      · exact (ih _).trans hstep

/-- A packet of a pid other than 0 that nothing decodes is only counted. -/
theorem processPacket_idle {ctx : Context L} {pkt : Packet} (hpid : Ts.pid pkt ≠ 0)
    (h : Idle ctx.next (Ts.pid pkt)) :
    processPacket ctx pkt = { ctx with next := countPacket ctx.next (Ts.pid pkt) } := by
  have hattach : attachPat ctx (Ts.pid pkt) = ctx := if_neg fun hp ↦ hpid hp.1
  rw [processPacket, hattach, pushPacket_idle h]

/-! ## The program association table -/

theorem attachPrograms_times (programs : List (ℕ × ℕ)) (rom : Rom L) :
    (programs.foldl attachProgram rom).pmtCollectionTimer = rom.pmtCollectionTimer ∧
      (programs.foldl attachProgram rom).allowableWriteTime = rom.allowableWriteTime := by
  induction programs generalizing rom with
  | nil => exact ⟨rfl, rfl⟩
  | cons p rest ih =>
      have hone : (attachProgram rom p).pmtCollectionTimer = rom.pmtCollectionTimer ∧
          (attachProgram rom p).allowableWriteTime = rom.allowableWriteTime := by
        rw [attachProgram]
        split_ifs <;> exact ⟨rfl, rfl⟩
      exact ⟨(ih _).1.trans hone.1, (ih _).2.trans hone.2⟩

theorem acceptPat_times (rom : Rom L) (now : ℕ) (pat : PatContent) :
    (acceptPat rom now pat).pmtCollectionTimer = now + 1000000 ∧
      (acceptPat rom now pat).allowableWriteTime = rom.allowableWriteTime :=
  attachPrograms_times pat.programs _

theorem acceptPat_total (rom : Rom L) (now : ℕ) (pat : PatContent) :
    (acceptPat rom now pat).totalPMTsInPAT = (programsOf pat).length :=
  (attachPrograms_spec pat.programs _).1.trans (Nat.zero_add _)

theorem acceptPat_pat (rom : Rom L) (now : ℕ) (pat : PatContent) :
    ((acceptPat rom now pat).pids 0).pat = some pat := by
  simp [acceptPat, Rom.setPid]

theorem handle_acceptPat {rom : Rom L} {pat : PatContent} {q : ℕ}
    (hq : ∀ p ∈ pat.programs, 0 < p.1 → q ≠ p.2) (now j : ℕ) :
    (acceptPat rom now pat).handle q j = rom.handle q j := by
  rw [acceptPat, Rom.handle, (setPat_pids _ pat q).1]
  exact handle_attachPrograms hq j

/-- The programs of an accepted table wait for their program map tables. -/
theorem waits_acceptPat {rom : Rom L} {pat : PatContent} (now : ℕ)
    (hnodup : (pat.programs.map Prod.snd).Nodup) (hidle : ∀ p ∈ pat.programs, Idle rom p.2)
    {p : ℕ × ℕ} (hp : p ∈ pat.programs) (hpos : 0 < p.1) :
    Waits (acceptPat rom now pat) p.2 (.pmt p.1) := by
  have hidle' : ∀ p ∈ pat.programs,
      Idle { rom with pmtCollectionTimer := now + 1000000, totalPMTsInPAT := 0 } p.2 := hidle
  have hattached := waits_attachPrograms hnodup hidle' hp hpos
  have hpids := setPat_pids (pat.programs.foldl attachProgram
    { rom with pmtCollectionTimer := now + 1000000, totalPMTsInPAT := 0 }) pat p.2
  refine hattached.of_handle (fun h ↦ ?_) fun j ↦ ?_
  · rw [acceptPat, hpids.2]
    exact h
  · rw [acceptPat, Rom.handle, hpids.1]
    rfl

def decodedPat (ctx : Context L) (pkt : Packet) : Rom L :=
  (decode { ctx with next := attachFirst ctx.next 0 .pat } 0 0 pkt (attach L .pat)).next

theorem handle_decodedPat {q : ℕ} (hq : q ≠ 0) (ctx : Context L) (pkt : Packet) (j : ℕ) :
    (decodedPat ctx pkt).handle q j = ctx.next.handle q j := by
  rw [decodedPat, handle_decode, if_neg fun h ↦ hq h.1]
  exact (handle_attachFirst ctx.next 0 .pat q j).trans (if_neg fun h ↦ hq h.1)

theorem sameTables_decodedPat (ctx : Context L) (pkt : Packet) :
    SameTables ctx.next (decodedPat ctx pkt) := by
  have hfirst :
      (({ ctx with next := attachFirst ctx.next 0 .pat } : Context L).next.pids 0 |>.parser
        0).dvbpsi = some (attach L .pat) := by
    have hhandle := handle_attachFirst ctx.next 0 .pat 0 0
    rwa [if_pos ⟨rfl, rfl⟩] at hhandle
  have hkind : ∀ n, DecoderKind.pat ≠ .pmt n := fun n ↦ DecoderKind.noConfusion
  exact (sameTables_attachFirst ctx.next 0 hkind).trans (sameTables_decode _ hfirst)

/-- The first packet of pid 0, with a table that counts no programs yet. -/
theorem processPacket_pat {ctx : Context L} {pkt : Packet} {pat : PatContent}
    (hpid : Ts.pid pkt = 0) (hunread : (ctx.next.pids 0).packetCount = 0) (hidle : Idle ctx.next 0)
    (htotal : ctx.next.totalPMTsInPAT = 0)
    (hpush : (L.push .pat (L.new .pat) pkt).2 = [.pat pat])
    (hapart : ∀ p ∈ pat.programs, 0 < p.1 → 0 ≠ p.2) :
    processPacket ctx pkt =
      { ctx with next := countPacket (acceptPat (decodedPat ctx pkt) ctx.now pat) 0 } := by
  have hattach : attachPat ctx 0 = { ctx with next := attachFirst ctx.next 0 .pat } :=
    if_pos ⟨rfl, hunread⟩
  have hhandle := handle_attachFirst ctx.next 0 .pat
  have hnew : (decode { ctx with next := attachFirst ctx.next 0 .pat } 0 0 pkt
      (attach L .pat)).next.totalPMTsInPAT = 0 :=
    (sameTables_decodedPat ctx pkt).total.trans htotal
  have hfirst : pushParser 0 pkt { ctx with next := attachFirst ctx.next 0 .pat } 0 =
      { ctx with next := acceptPat (decodedPat ctx pkt) ctx.now pat } := by
    rw [pushParser_some ((hhandle 0 0).trans (if_pos ⟨rfl, rfl⟩))]
    refine (congrArg (List.foldl (callback 0) _) hpush).trans ?_
    simp only [List.foldl_cons, List.foldl_nil, callback, cbPat, supersedes, hnew]
    rfl
  have hpushed : pushPacket { ctx with next := attachFirst ctx.next 0 .pat } 0 pkt =
      { ctx with next := acceptPat (decodedPat ctx pkt) ctx.now pat } := by
    rw [pushPacket_first (by simp [attachFirst, Rom.setPid]), hfirst]
    intro j hj
    rw [hfirst]
    refine (handle_acceptPat hapart ctx.now j).trans ?_
    rw [decodedPat, handle_decode, if_neg fun h ↦ hj h.2]
    exact ((hhandle 0 j).trans (if_neg fun h ↦ hj h.2)).trans (hidle j)
  rw [processPacket, hpid, hattach, hpushed]

end LtnTsTools.StreamModel
