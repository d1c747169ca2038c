import LtnTsTools.GeneratedTables

/-!
# The phases of a collection

The stream model on the packets of a generated table.  The next rom is blank in front of the program
association table, gathers program map tables behind it and is full behind the last of them; a
packet moves it from phase to phase, and a packet of another pid leaves it where it is.
-/

namespace LtnTsTools.StreamModel

open Psi

variable {L : Library}

/-! ## Phases of the next rom -/

/-- The first parser of the service descriptions decodes nothing else. -/
def SdtOnly (ctx : Context L) : Prop := ∀ h, ctx.next.handle 0x11 0 = some h → h.kind = .sdt

/-- The pid carries a program map table. -/
def Mapped (pat : Pat) (pid : ℕ) : Prop :=
  ∃ x ∈ pat.programs, 0 < x.programNumber ∧ pid = x.programMapPID

/-- Everything reported is the program map table of a program. -/
def FromPrograms (pat : Pat) (reported : List (ℕ × PmtContent)) : Prop :=
  ∀ r ∈ reported, ∃ x ∈ pat.programs,
    0 < x.programNumber ∧ r = (x.programMapPID, pmtTable x.pmt)

/-- Nothing has been completed, nothing is about to restart, and the next rom takes packets. -/
structure Quiet (t₀ : ℕ) (ctx : Context L) : Prop where
  changed : ctx.modelChanged = false
  running : ctx.restartModel = false
  empty : ctx.current.modelComplete = false
  allowed : ctx.next.allowableWriteTime ≤ t₀
  sdt : SdtOnly ctx

/-- In front of the program association table. -/
structure Blank (pat : Pat) (t₀ : ℕ) (ctx : Context L) (pkts : List Packet) : Prop
    extends Quiet t₀ ctx where
  cycle : Cycle pat pkts
  idle : ∀ pid ≠ 0x11, Idle ctx.next pid
  unread : (ctx.next.pids 0).packetCount = 0
  total : ctx.next.totalPMTsInPAT = 0
  tracked : Tracked ctx.next []
  timer : ctx.next.pmtCollectionTimer < 1000000

/-- Between the program association table and the last program map table. -/
structure Gathering (pat : Pat) (t₀ : ℕ) (ctx : Context L) (pkts : List Packet)
    (reported : List (ℕ × PmtContent)) : Prop extends Quiet t₀ ctx where
  due : Due pat reported pkts
  source : FromPrograms pat reported
  tracked : Tracked ctx.next reported
  table : (ctx.next.pids 0).pat = some (patTable pat)
  waits : ∀ x ∈ pat.programs, 0 < x.programNumber → ¬Seen reported x →
    Waits ctx.next x.programMapPID (.pmt x.programNumber)
  idle : ∀ pid, pid ≠ 0 → pid ≠ 0x11 → ¬Mapped pat pid → Idle ctx.next pid
  incomplete : ctx.next.parsedPMTs < ctx.next.totalPMTsInPAT
  timer : t₀ + 1000000 ≤ ctx.next.pmtCollectionTimer

structure Full (pat : Pat) (ctx : Context L) (pkts : List Packet)
    (reported : List (ℕ × PmtContent)) : Prop where
  changed : ctx.modelChanged = true
  running : ctx.restartModel = false
  sdt : SdtOnly ctx
  rest : ∀ p ∈ pkts, Ts.pid p ≠ 0 ∧ ¬Mapped pat (Ts.pid p)
  source : FromPrograms pat reported
  collected : Collected ctx.next reported
  complete : ctx.next.modelComplete = true
  table : (ctx.next.pids 0).pat = some (patTable pat)
  idle : ∀ pid, pid ≠ 0 → pid ≠ 0x11 → ¬Mapped pat pid → Idle ctx.next pid

/-- Where the stream model stands in a cycle, with the packets still to come. -/
inductive Phase (pat : Pat) (t₀ : ℕ) (ctx : Context L) (pkts : List Packet) : Prop
  | blank (h : Blank pat t₀ ctx pkts)
  | gathering (reported : List (ℕ × PmtContent)) (h : Gathering pat t₀ ctx pkts reported)
  | full (reported : List (ℕ × PmtContent)) (h : Full pat ctx pkts reported)

/-! ## Steps that collect nothing -/

/-- The tables of the next rom stay, and the decoders of all pids but one. -/
structure Apart (pid : ℕ) (ctx ctx' : Context L) : Prop where
  same : SameTables ctx.next ctx'.next
  handle : ∀ q ≠ pid, ∀ j, ctx'.next.handle q j = ctx.next.handle q j
  timer : ctx'.next.pmtCollectionTimer = ctx.next.pmtCollectionTimer
  allowed : ctx'.next.allowableWriteTime = ctx.next.allowableWriteTime
  changed : ctx'.modelChanged = ctx.modelChanged
  running : ctx'.restartModel = ctx.restartModel
  current : ctx'.current = ctx.current

/-- Nothing but the decoder of the service descriptions moves. -/
structure Mild (ctx ctx' : Context L) : Prop extends Apart 0x11 ctx ctx' where
  sdt : SdtOnly ctx → SdtOnly ctx'
  unread : (ctx'.next.pids 0).packetCount = (ctx.next.pids 0).packetCount

theorem Apart.idle {p : ℕ} {ctx ctx' : Context L} (h : Apart p ctx ctx') {pid : ℕ} (hpid : pid ≠ p)
    (hidle : Idle ctx.next pid) : Idle ctx'.next pid :=
  fun j ↦ (h.handle pid hpid j).trans (hidle j)

theorem Mild.trans {ctx ctx' ctx'' : Context L} (h : Mild ctx ctx') (h' : Mild ctx' ctx'') :
    Mild ctx ctx'' where
  same := h.same.trans h'.same
  handle := fun pid hpid j ↦ (h'.handle pid hpid j).trans (h.handle pid hpid j)
  sdt := fun hs ↦ h'.sdt (h.sdt hs)
  unread := h'.unread.trans h.unread
  timer := h'.timer.trans h.timer
  allowed := h'.allowed.trans h.allowed
  changed := h'.changed.trans h.changed
  running := h'.running.trans h.running
  current := h'.current.trans h.current

/-- An assignment outside of the next rom and the flags. -/
theorem Mild.of_next {ctx ctx' : Context L} (hnext : ctx'.next = ctx.next)
    (hchanged : ctx'.modelChanged = ctx.modelChanged)
    (hrunning : ctx'.restartModel = ctx.restartModel) (hcurrent : ctx'.current = ctx.current) :
    Mild ctx ctx' where
  same := hnext ▸ .refl _
  handle := fun _ _ _ ↦ by rw [hnext]
  sdt := fun h ↦ by
    rw [SdtOnly, hnext]
    exact h
  unread := by rw [hnext]
  timer := by rw [hnext]
  allowed := by rw [hnext]
  changed := hchanged
  running := hrunning
  current := hcurrent

theorem Quiet.mild {t₀ : ℕ} {ctx ctx' : Context L} (h : Quiet t₀ ctx) (hm : Mild ctx ctx') :
    Quiet t₀ ctx' where
  changed := hm.changed.trans h.changed
  running := hm.running.trans h.running
  empty := hm.current ▸ h.empty
  allowed := hm.allowed.trans_le h.allowed
  sdt := hm.sdt h.sdt

theorem Phase.mild {pat : Pat} (hpat : Generable pat) {t₀ : ℕ} {ctx ctx' : Context L}
    {pkts : List Packet} (h : Phase pat t₀ ctx pkts) (hm : Mild ctx ctx') :
    Phase pat t₀ ctx' pkts := by
  cases h with
  | blank h =>
      exact .blank
        { h.toQuiet.mild hm with
          cycle := h.cycle
          idle := fun pid hpid ↦ hm.idle hpid (h.idle pid hpid)
          unread := hm.unread.trans h.unread
          total := hm.same.total.trans h.total
          tracked := h.tracked.of_sameTables hm.same
          timer := hm.timer.trans_lt h.timer }
  | gathering reported h =>
      exact .gathering reported
        { h.toQuiet.mild hm with
          due := h.due
          source := h.source
          tracked := h.tracked.of_sameTables hm.same
          table := hm.same.pat.trans h.table
          waits := fun x hx hpos hx' ↦ (h.waits x hx hpos hx').of_handle (hm.same.present _)
            (hm.handle _ (hpat.apart x hx).2)
          idle := fun pid h0 h11 hpid ↦ hm.idle h11 (h.idle pid h0 h11 hpid)
          incomplete := by
            rw [hm.same.parsed, hm.same.total]
            exact h.incomplete
          timer := h.timer.trans_eq hm.timer.symm }
  | full reported h =>
      exact .full reported
        { changed := hm.changed.trans h.changed
          running := hm.running.trans h.running
          sdt := hm.sdt h.sdt
          rest := h.rest
          source := h.source
          collected := h.collected.of_sameTables hm.same
          complete := hm.same.complete.trans h.complete
          table := hm.same.pat.trans h.table
          idle := fun pid h0 h11 hpid ↦ hm.idle h11 (h.idle pid h0 h11 hpid) }

theorem mild_countPacket {ctx : Context L} {pid : ℕ} (hpid : pid ≠ 0) :
    Mild ctx { ctx with next := countPacket ctx.next pid } where
  same := sameTables_countPacket ctx.next pid
  handle := fun q _ j ↦ handle_countPacket ctx.next pid q j
  sdt := by
    intro h handle hhandle
    exact h handle ((handle_countPacket ctx.next pid 0x11 0).symm.trans hhandle)
  unread := by
    rw [countPacket, pids_setPid, if_neg (Ne.symm hpid)]
  timer := rfl
  allowed := rfl
  changed := rfl
  running := rfl
  current := rfl

theorem Blank.skip {pat : Pat} {t₀ : ℕ} {ctx : Context L} {p : Packet} {rest : List Packet}
    (h : Blank pat t₀ ctx (p :: rest)) (hzero : Ts.pid p ≠ 0) : Blank pat t₀ ctx rest := by
  have hcycle := h.cycle
  rw [Cycle, if_neg hzero] at hcycle
  exact { h with cycle := hcycle }

/-- A packet of another pid than 0 and those of the program map tables is not waited for. -/
theorem Phase.skip {pat : Pat} {t₀ : ℕ} {ctx : Context L} {p : Packet} {rest : List Packet}
    (h : Phase pat t₀ ctx (p :: rest)) (hzero : Ts.pid p ≠ 0) (hmapped : ¬Mapped pat (Ts.pid p)) :
    Phase pat t₀ ctx rest := by
  cases h with
  | blank h => exact .blank (h.skip hzero)
  | gathering reported h =>
      have hdue := h.due.skip fun x hx hpos hpid ↦ hmapped ⟨x, hx, hpos, hpid⟩
      exact .gathering reported { h with due := hdue }
  | full reported h =>
      exact .full reported { h with rest := fun q hq ↦ h.rest q (List.mem_cons_of_mem p hq) }

/-! ## The steps of the collection -/

theorem table_apart {pat : Pat} (hpat : Generable pat) {pid : ℕ} (hpid : pid = 0 ∨ pid = 0x11) :
    ∀ program ∈ (patTable pat).programs, 0 < program.1 → pid ≠ program.2 := by
  rintro program hprogram - rfl
  obtain ⟨x, hx, rfl⟩ := List.mem_map.mp hprogram
  rcases hpid with h | h
  · exact (hpat.apart x hx).1 h
  · exact (hpat.apart x hx).2 h

theorem Blank.processPat (hL : L.Reads) {pat : Pat} (hpat : Generable pat) {t₀ : ℕ}
    {ctx : Context L} {p : Packet} {rest : List Packet} (h : Blank pat t₀ ctx (p :: rest))
    (hpid : Ts.pid p = 0) (hnow : t₀ ≤ ctx.now) :
    Gathering pat t₀ (processPacket ctx p) rest [] := by
  have hcycle := h.cycle
  rw [Cycle, if_pos hpid] at hcycle
  obtain ⟨⟨hwhole, hread⟩, hdue⟩ := hcycle
  have hprocess := processPacket_pat hpid h.unread (h.idle 0 (by decide)) h.total
    (hL.readsPat p _ hwhole hread) (table_apart hpat (.inl rfl))
  have hsame := sameTables_decodedPat ctx p
  have hcount := sameTables_countPacket (acceptPat (decodedPat ctx p) ctx.now (patTable pat)) 0
  have hhandle : ∀ q j, (countPacket (acceptPat (decodedPat ctx p) ctx.now (patTable pat)) 0).handle
      q j = (acceptPat (decodedPat ctx p) ctx.now (patTable pat)).handle q j :=
    handle_countPacket _ 0
  have hidle : ∀ program ∈ (patTable pat).programs, Idle (decodedPat ctx p) program.2 := by
    intro program hprogram j
    obtain ⟨z, hz, rfl⟩ := List.mem_map.mp hprogram
    rw [handle_decodedPat (hpat.apart z hz).1]
    exact h.idle _ (hpat.apart z hz).2 j
  have htracked := h.tracked.of_sameTables hsame
  have htimes := acceptPat_times (decodedPat ctx p) ctx.now (patTable pat)
  obtain ⟨x, hx, hpos⟩ := hpat.some_program
  rw [hprocess]
  refine ⟨⟨h.changed, h.running, h.empty, ?_, ?_⟩, hdue, fun r hr ↦ absurd hr List.not_mem_nil,
    (htracked.acceptPat ctx.now (.inl htracked.parsed)).of_sameTables hcount,
    hcount.pat.trans (acceptPat_pat _ _ _), ?_, ?_, ?_, ?_⟩
  · exact htimes.2.trans_le h.allowed
  · intro handle hh
    simp only [hhandle] at hh
    rw [handle_acceptPat (table_apart hpat (.inr rfl)), handle_decodedPat (by decide)] at hh
    exact h.sdt handle hh
  · intro y hy hypos _
    have hlisted : (y.programNumber, y.programMapPID) ∈ (patTable pat).programs :=
      List.mem_map_of_mem hy
    have hwaits := waits_acceptPat ctx.now hpat.table_pids hidle hlisted hypos
    exact hwaits.of_handle (hcount.present _) (hhandle _)
  · intro pid h0 h11 hmapped j
    rw [hhandle, handle_acceptPat, handle_decodedPat h0]
    · exact h.idle pid h11 j
    · rintro program hprogram hprogram' rfl
      obtain ⟨z, hz, rfl⟩ := List.mem_map.mp hprogram
      exact hmapped ⟨z, hz, hprogram', rfl⟩
  · have hzero : (acceptPat (decodedPat ctx p) ctx.now (patTable pat)).parsedPMTs = 0 :=
      (htracked.acceptPat ctx.now (.inl htracked.parsed)).parsed
    rw [hcount.parsed, hcount.total, acceptPat_total, hzero]
    exact List.length_pos_of_mem (mem_programsOf.mpr ⟨x, hx, hpos, rfl⟩)
  · exact (Nat.add_le_add_right hnow _).trans_eq htimes.1.symm

theorem listed_of_table {rom : Rom L} {pat : Pat} (h : (rom.pids 0).pat = some (patTable pat)) :
    listed rom = programsOf (patTable pat) := by
  rw [listed, h]
  rfl

/-- The callback of a program map table: the last one completes the model. -/
theorem Gathering.report {pat : Pat} (hpat : Generable pat) {t₀ : ℕ} {ctx d : Context L}
    {pkts rest : List Packet} {reported : List (ℕ × PmtContent)}
    (h : Gathering pat t₀ ctx pkts reported) {x : PatProgram} (hx : x ∈ pat.programs)
    (hpos : 0 < x.programNumber) (hd : Apart x.programMapPID ctx d)
    (hattached : Attached d.next x.programMapPID x.programNumber) (hnot : ¬Seen reported x)
    (hdue : Due pat ((x.programMapPID, pmtTable x.pmt) :: reported) rest) :
    Phase pat t₀ { cbPmt d x.programMapPID (pmtTable x.pmt) with
      next := countPacket (cbPmt d x.programMapPID (pmtTable x.pmt)).next
        x.programMapPID } rest := by
  have hapart := hpat.apart x hx
  have hnumber : (pmtTable x.pmt).programNumber = x.programNumber := hpat.pmt_number hx hpos
  have hlisted := listed_of_table h.table
  have hfew : (reported.map programOf).count ((pmtTable x.pmt).programNumber, x.programMapPID) <
      (listed d.next).count ((pmtTable x.pmt).programNumber, x.programMapPID) := by
    rw [hnumber, List.count_eq_zero_of_not_mem hnot, listed_of_sameTables hd.same, hlisted]
    exact List.count_pos_iff.mpr (mem_programsOf.mpr ⟨x, hx, hpos, rfl⟩)
  rw [← hnumber] at hattached
  obtain ⟨htracked, hfull⟩ := (h.tracked.of_sameTables hd.same).cbPmt hattached (.inr hfew)
  have hframe := framed_callback x.programMapPID d (.pmt (pmtTable x.pmt))
  have hpmtCounts := cbPmt_counts d x.programMapPID (pmtTable x.pmt)
  have hpmtTimes := cbPmt_times d x.programMapPID (pmtTable x.pmt)
  have hpmtPat := cbPmt_pat d x.programMapPID (pmtTable x.pmt)
  have hpmtHandle := handle_cbPmt d x.programMapPID (pmtTable x.pmt)
  have hcount := sameTables_countPacket (cbPmt d x.programMapPID (pmtTable x.pmt)).next
    x.programMapPID
  have hhandle : ∀ q ≠ x.programMapPID, ∀ j, (countPacket (cbPmt d x.programMapPID
      (pmtTable x.pmt)).next x.programMapPID).handle q j = ctx.next.handle q j := by
    intro q hq j
    rw [handle_countPacket, hpmtHandle, hd.handle q hq]
  have htable : ((countPacket (cbPmt d x.programMapPID (pmtTable x.pmt)).next
      x.programMapPID).pids 0).pat = some (patTable pat) :=
    hcount.pat.trans (hpmtPat.trans (hd.same.pat.trans h.table))
  have hsource : FromPrograms pat ((x.programMapPID, pmtTable x.pmt) :: reported) :=
    List.forall_mem_cons.mpr ⟨⟨x, hx, hpos, rfl⟩, h.source⟩
  have hidle : ∀ pid, pid ≠ 0 → pid ≠ 0x11 → ¬Mapped pat pid → Idle (countPacket (cbPmt d
      x.programMapPID (pmtTable x.pmt)).next x.programMapPID) pid := by
    intro pid h0 h11 hmapped j
    rw [hhandle pid fun heq ↦ hmapped ⟨x, hx, hpos, heq⟩]
    exact h.idle pid h0 h11 hmapped j
  have hsdt : ∀ handle, (countPacket (cbPmt d x.programMapPID (pmtTable x.pmt)).next
      x.programMapPID).handle 0x11 0 = some handle → handle.kind = .sdt := by
    intro handle hh
    rw [hhandle 0x11 hapart.2.symm] at hh
    exact h.sdt handle hh
  cases hc : completes d x.programMapPID (pmtTable x.pmt) with
  | false =>
      obtain ⟨hchanged, hrunning⟩ := cbPmt_of_incomplete hc
      refine .gathering _ ⟨⟨hchanged.trans (hd.changed.trans h.changed),
        hrunning.trans (hd.running.trans h.running), ?_, ?_, hsdt⟩, hdue, hsource,
        htracked.of_sameTables hcount, htable, ?_, hidle, ?_, ?_⟩
      · exact congrArg Rom.modelComplete (hframe.current.trans hd.current) |>.trans h.empty
      · exact (hpmtTimes.2.trans hd.allowed).trans_le h.allowed
      · intro y hy hypos hseen
        have hyx : y.programMapPID ≠ x.programMapPID := by
          intro heq
          obtain rfl := hpat.eq_of_pid hy hx heq
          exact hseen (List.mem_map.mpr ⟨_, List.mem_cons_self, Prod.ext hnumber rfl⟩)
        refine (h.waits y hy hypos fun hold ↦ hseen (List.mem_cons_of_mem _ hold)).of_handle ?_
          (hhandle _ hyx)
        exact fun hpresent ↦ hcount.present _ (cbPmt_present (hd.same.present _ hpresent) _ _)
      · have hne := mt (completes_iff d x.programMapPID (pmtTable x.pmt)).mpr (by simp [hc])
        have hlt := h.incomplete
        rw [hcount.parsed, hcount.total, hpmtCounts.1, hpmtCounts.2]
        rw [← hd.same.parsed, ← hd.same.total] at hlt
        omega
      · exact h.timer.trans_eq (hpmtTimes.1.trans hd.timer).symm
  | true =>
      have hcollected := hfull hc
      have hcomplete : (cbPmt d x.programMapPID (pmtTable x.pmt)).next.modelComplete = true := by
        rw [cbPmt_next]
        simp [hc]
      have hempty : d.current.modelComplete = false := hd.current ▸ h.empty
      obtain ⟨q, hq, -⟩ := queryRom_eq hcollected hcomplete
        (hpmtPat.trans (hd.same.pat.trans h.table)) hpat.patFits
      obtain ⟨hchanged, hrunning⟩ := cbPmt_of_complete hc hempty
        (Option.isSome_iff_exists.mpr ⟨q, hq⟩)
      have hall : ∀ y ∈ pat.programs, 0 < y.programNumber →
          Seen ((x.programMapPID, pmtTable x.pmt) :: reported) y := by
        intro y hy hypos
        refine hcollected.every _ ?_
        rw [listed_of_table (hpmtPat.trans (hd.same.pat.trans h.table))]
        exact mem_programsOf.mpr ⟨y, hy, hypos, rfl⟩
      refine .full _ ⟨hchanged, hrunning.trans (hd.running.trans h.running), hsdt, ?_, hsource,
        hcollected.of_sameTables hcount, hcount.complete.trans hcomplete, htable, hidle⟩
      intro p hp
      refine ⟨hdue.nonzero p hp, ?_⟩
      rintro ⟨y, hy, hypos, hpid⟩
      have hnil := hdue.done y hy hypos (hall y hy hypos)
      exact List.filter_eq_nil_iff.mp hnil p hp (decide_eq_true hpid)

theorem Gathering.processPmt (hL : L.Reads) {pat : Pat} (hpat : Generable pat) {t₀ : ℕ}
    {ctx : Context L} {p : Packet} {rest : List Packet} {reported : List (ℕ × PmtContent)}
    (h : Gathering pat t₀ ctx (p :: rest) reported) {x : PatProgram} (hx : x ∈ pat.programs)
    (hpos : 0 < x.programNumber) (hpid : Ts.pid p = x.programMapPID) :
    Phase pat t₀ (processPacket ctx p) rest := by
  obtain ⟨hnot, ⟨hwhole, hread⟩, hdue⟩ := h.due.take hpat hx hpos hpid
  have hnumber : (pmtTable x.pmt).programNumber = x.programNumber := hpat.pmt_number hx hpos
  have hwaits := h.waits x hx hpos hnot
  have hattach : attachPat ctx x.programMapPID = ctx := if_neg fun hp ↦ (hpat.apart x hx).1 hp.1
  have hpush := hL.readsPmt _ _ p _ hwhole hread hnumber
  have hd : Apart x.programMapPID ctx
      (decode ctx x.programMapPID 0 p (attach L (.pmt x.programNumber))) :=
    { same := sameTables_decode ctx hwaits.first
      handle := fun q hq j ↦ (handle_decode ctx _ 0 p _ q j).trans (if_neg fun h ↦ hq h.1)
      timer := rfl
      allowed := rfl
      changed := rfl
      running := rfl
      current := rfl }
  have hattached : Attached (decode ctx x.programMapPID 0 p
      (attach L (.pmt x.programNumber))).next x.programMapPID x.programNumber :=
    ⟨0, by decide, decoder_decode ctx x.programMapPID 0 p _⟩
  rw [processPacket, hpid, hattach, pushPacket_pmt hwaits hpush]
  exact h.report hpat hx hpos hd hattached hnot hdue

theorem Phase.running {pat : Pat} {t₀ : ℕ} {ctx : Context L} {pkts : List Packet}
    (h : Phase pat t₀ ctx pkts) : ctx.restartModel = false := by
  cases h with
  | blank h => exact h.running
  | gathering reported h => exact h.running
  | full reported h => exact h.running

theorem Phase.process (hL : L.Reads) {pat : Pat} (hpat : Generable pat) {t₀ : ℕ} {ctx : Context L}
    {p : Packet} {rest : List Packet} (h : Phase pat t₀ ctx (p :: rest)) (hpid : Ts.pid p ≠ 0x11)
    (hnow : t₀ ≤ ctx.now) : Phase pat t₀ (processPacket ctx p) rest := by
  cases h with
  | blank h =>
      by_cases hzero : Ts.pid p = 0
      · exact .gathering [] (h.processPat hL hpat hzero hnow)
      · rw [processPacket_idle hzero (h.idle _ hpid)]
        exact (Phase.blank (h.skip hzero)).mild hpat (mild_countPacket hzero)
  | gathering reported h =>
      have hzero := h.due.nonzero p List.mem_cons_self
      by_cases hmapped : Mapped pat (Ts.pid p)
      · obtain ⟨x, hx, hpos, hx'⟩ := hmapped
        exact h.processPmt hL hpat hx hpos hx'
      · rw [processPacket_idle hzero (h.idle _ hzero hpid hmapped)]
        exact ((Phase.gathering reported h).skip hzero hmapped).mild hpat (mild_countPacket hzero)
  | full reported h =>
      obtain ⟨hzero, hmapped⟩ := h.rest p List.mem_cons_self
      rw [processPacket_idle hzero (h.idle _ hzero hpid hmapped)]
      exact ((Phase.full reported h).skip hzero hmapped).mild hpat (mild_countPacket hzero)

theorem Phase.writeLoop (hL : L.Reads) {pat : Pat} (hpat : Generable pat) {t₀ : ℕ}
    {more : List Packet} (pkts : List Packet) {ctx : Context L}
    (h : Phase pat t₀ ctx (pkts ++ more)) (hwrite : ctx.writePackets = true) (hnow : t₀ ≤ ctx.now) :
    Phase pat t₀ (writeLoop ctx pkts) more := by
  induction pkts generalizing ctx with
  | nil => exact h
  | cons p rest ih =>
      rw [StreamModel.writeLoop, if_neg (by simp [hwrite])]
      by_cases hpid : Ts.pid p = 0x11
      · have hmapped : ¬Mapped pat (Ts.pid p) := by
          rintro ⟨x, hx, -, hx'⟩
          exact (hpat.apart x hx).2 (hx'.symm.trans hpid)
        rw [if_pos hpid]
        exact ih (h.skip (by rw [hpid]; decide) hmapped) hwrite hnow
      · have hstep := h.process hL hpat hpid hnow
        have hframe := framed_processPacket ctx p
        rw [if_neg hpid, if_neg (by simp [hstep.running])]
        exact ih hstep (hframe.writePackets.trans hwrite) (hnow.trans_eq hframe.now.symm)

/-! ## The first loop -/

theorem mild_attachSdt (ctx : Context L) : Mild ctx (attachSdt ctx) := by
  have hsame := (attachSdt_frame ctx).1
  rw [attachSdt] at hsame ⊢
  split_ifs at hsame ⊢ with hfirst
  · have hhandle : ∀ q j, (countPacket (attachFirst ctx.next 0x11 .sdt) 0x11).handle q j =
        if q = 0x11 ∧ j = 0 then some (attach L .sdt) else ctx.next.handle q j := by
      intro q j
      rw [handle_countPacket, handle_attachFirst]
    refine ⟨⟨hsame, fun q hq j ↦ (hhandle q j).trans (if_neg fun h ↦ hq h.1), rfl, rfl, rfl, rfl,
      rfl⟩, fun _ handle hh ↦ ?_, rfl⟩
    obtain rfl := Option.some.inj ((hhandle 0x11 0).symm.trans hh)
    rfl
  · exact .of_next rfl rfl rfl rfl

/-- A packet of service descriptions; their decoder reports no table of the model. -/
theorem mild_pushSdt (hL : L.Correct) {ctx : Context L} (hsdt : SdtOnly ctx) (pkt : Packet) :
    Mild ctx (pushParser 0x11 pkt ctx 0) := by
  cases hh : ctx.next.handle 0x11 0 with
  | none =>
      rw [pushParser_none hh]
      exact .of_next rfl rfl rfl rfl
  | some h =>
      have hkind := hsdt h hh
      have hnone : (L.push h.kind h.state pkt).2 = [] := by
        rw [hkind]
        exact hL.sdt h.state pkt
      have hhandle := handle_decode ctx 0x11 0 pkt h
      rw [pushParser_some hh, hnone, List.foldl_nil]
      refine ⟨⟨sameTables_decode ctx hh, fun q hq j ↦ (hhandle q j).trans (if_neg fun h ↦ hq h.1),
        rfl, rfl, rfl, rfl, rfl⟩, fun _ handle hh' ↦ ?_, rfl⟩
      obtain rfl := Option.some.inj ((hhandle 0x11 0).symm.trans hh')
      exact hkind

/-- The check of the continuity counter lets the first packet of pid 0 pass. -/
theorem mild_checkPatCC {ctx : Context L} {pkt : Packet}
    (hcc : Ts.pid pkt = 0 → ctx.lastPATCC = 0xea) :
    Mild ctx (checkPatCC ctx pkt) ∧ (checkPatCC ctx pkt).writePackets = ctx.writePackets ∧
      (checkPatCC ctx pkt).now = ctx.now ∧
      (Ts.pid pkt ≠ 0 → (checkPatCC ctx pkt).lastPATCC = ctx.lastPATCC) := by
  rw [checkPatCC]
  split_ifs with hpid
  · simp only [hcc hpid, bne_self_eq_false, Bool.false_and, Bool.or_false]
    exact ⟨.of_next rfl rfl rfl rfl, trivial, trivial, fun h ↦ absurd hpid h⟩
  · exact ⟨.of_next rfl rfl rfl rfl, rfl, rfl, fun _ ↦ rfl⟩

theorem mild_scanPacket (hL : L.Correct) {ctx : Context L} {pkt : Packet} (hsdt : SdtOnly ctx)
    (hcc : Ts.pid pkt = 0 → ctx.lastPATCC = 0xea) :
    Mild ctx (scanPacket ctx pkt) ∧ (scanPacket ctx pkt).writePackets = ctx.writePackets ∧
      (scanPacket ctx pkt).now = ctx.now ∧
      (Ts.pid pkt ≠ 0 → (scanPacket ctx pkt).lastPATCC = ctx.lastPATCC) := by
  obtain ⟨hmild, hwrite, hnow, hlast⟩ := mild_checkPatCC hcc
  rw [scanPacket]
  split_ifs with hpid
  · have hattach := mild_attachSdt (checkPatCC ctx pkt)
    have hpush := mild_pushSdt hL (hattach.sdt (hmild.sdt hsdt)) pkt
    have hframe := framed_pushParser 0x11 pkt (attachSdt (checkPatCC ctx pkt)) 0
    have hsdtFrame : Framed (checkPatCC ctx pkt) (attachSdt (checkPatCC ctx pkt)) := by
      rw [attachSdt]
      split_ifs <;> exact ⟨rfl, rfl, rfl, rfl⟩
    have hall := hsdtFrame.trans hframe
    exact ⟨(hmild.trans hattach).trans hpush, hall.writePackets.trans hwrite, hall.now.trans hnow,
      fun h ↦ hall.lastPATCC.trans (hlast h)⟩
  · exact ⟨hmild, hwrite, hnow, hlast⟩

/-- The first loop of a write with at most one packet of pid 0. -/
theorem mild_scan (hL : L.Correct) (pkts : List Packet) {ctx : Context L} (hsdt : SdtOnly ctx)
    (hone : (onPid 0 pkts).length ≤ 1) (hcc : onPid 0 pkts ≠ [] → ctx.lastPATCC = 0xea) :
    Mild ctx (pkts.foldl scanPacket ctx) ∧
      (pkts.foldl scanPacket ctx).writePackets = ctx.writePackets ∧
      (pkts.foldl scanPacket ctx).now = ctx.now ∧
      (onPid 0 pkts = [] → (pkts.foldl scanPacket ctx).lastPATCC = ctx.lastPATCC) := by
  induction pkts generalizing ctx with
  | nil => exact ⟨.of_next rfl rfl rfl rfl, rfl, rfl, fun _ ↦ rfl⟩
  | cons p rest ih =>
      rw [onPid_cons] at hone hcc
      have hfirst : Ts.pid p = 0 → ctx.lastPATCC = 0xea := fun hpid ↦ hcc (by simp [hpid])
      obtain ⟨hmild, hwrite, hnow, hlast⟩ := mild_scanPacket hL hsdt hfirst
      have hrest : (onPid 0 rest).length ≤ 1 := by
        split_ifs at hone with hpid
        · exact (Nat.le_succ _).trans hone
        · exact hone
      have hnext : onPid 0 rest ≠ [] → (scanPacket ctx p).lastPATCC = 0xea := by
        intro hmore
        have hpid : Ts.pid p ≠ 0 := by
          intro hpid
          rw [if_pos hpid, List.length_cons] at hone
          exact hmore (List.length_eq_zero_iff.mp (by omega))
        rw [if_neg hpid] at hcc
        exact (hlast hpid).trans (hcc hmore)
      obtain ⟨hmild', hwrite', hnow', hlast'⟩ := ih (hmild.sdt hsdt) hrest hnext
      refine ⟨hmild.trans hmild', hwrite'.trans hwrite, hnow'.trans hnow, fun hnil ↦ ?_⟩
      rw [onPid_cons] at hnil
      split_ifs at hnil with hpid
      exact (hlast' hnil).trans (hlast hpid)

end LtnTsTools.StreamModel
