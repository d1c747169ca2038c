import LtnTsTools.ModelPhases

/-!
# A generated table in the stream model

The tables of `pat.c` are written to packets and the stream model reads them back.  Of a table whose
packets can be decoded, the packets may come in any number of writes, the program maps in any order
and packets of other pids in between: the write with the last of them completes the model, and the
query returns the table that was written.
-/

namespace LtnTsTools.StreamModel

open Psi PartialMachine

variable {L : Library}

/-! ## Writes -/

theorem onPid_append (pid : ℕ) (pkts more : List Packet) :
    onPid pid (pkts ++ more) = onPid pid pkts ++ onPid pid more := List.filter_append pkts more

theorem onPid_eq_nil {pid : ℕ} {pkts : List Packet} (h : ∀ p ∈ pkts, Ts.pid p ≠ pid) :
    onPid pid pkts = [] :=
  List.filter_eq_nil_iff.mpr fun p hp hpid ↦ h p hp (of_decide_eq_true hpid)

theorem Cycle.length_le {pat : Pat} {pkts : List Packet} (h : Cycle pat pkts) :
    (onPid 0 pkts).length ≤ 1 := by
  induction pkts with
  | nil => exact Nat.zero_le 1
  | cons p rest ih =>
      rw [Cycle] at h
      rw [onPid_cons]
      split_ifs at h ⊢ with hpid
      · rw [onPid_eq_nil h.2.nonzero]
        exact le_refl 1
      · exact ih h

theorem Phase.length_le {pat : Pat} {t₀ : ℕ} {ctx : Context L} {pkts : List Packet}
    (h : Phase pat t₀ ctx pkts) : (onPid 0 pkts).length ≤ 1 := by
  cases h with
  | blank h => exact h.cycle.length_le
  | gathering reported h =>
      rw [onPid_eq_nil h.due.nonzero]
      exact Nat.zero_le 1
  | full reported h =>
      rw [onPid_eq_nil fun p hp ↦ (h.rest p hp).1]
      exact Nat.zero_le 1

theorem Phase.sdtOnly {pat : Pat} {t₀ : ℕ} {ctx : Context L} {pkts : List Packet}
    (h : Phase pat t₀ ctx pkts) : SdtOnly ctx := by
  cases h with
  | blank h => exact h.sdt
  | gathering reported h => exact h.sdt
  | full reported h => exact h.sdt

structure Waiting (pat : Pat) (t₀ : ℕ) (ctx : Context L) (pkts : List Packet) : Prop where
  phase : Phase pat t₀ ctx pkts
  unchanged : ctx.modelChanged = false
  first : onPid 0 pkts ≠ [] → ctx.lastPATCC = 0xea

/-- In time nothing expires, and the packets are taken. -/
theorem Waiting.beginWrite {pat : Pat} {t₀ : ℕ} {ctx : Context L} {pkts : List Packet}
    (h : Waiting pat t₀ ctx pkts) {t : ℕ} (hlow : t₀ ≤ t) (hhigh : t < t₀ + 1000000) :
    beginWrite ctx t = { ctx with now := t, writePackets := true } := by
  have hallowed : ctx.next.allowableWriteTime ≤ t₀ ∧
      (ctx.next.pmtCollectionTimer < 1000000 ∨ t₀ + 1000000 ≤ ctx.next.pmtCollectionTimer) := by
    cases h.phase with
    | blank hb => exact ⟨hb.allowed, .inl hb.timer⟩
    | gathering reported hg => exact ⟨hg.allowed, .inr hg.timer⟩
    | full reported hf => exact absurd (h.unchanged.symm.trans hf.changed) Bool.false_ne_true
  have htaken : decide (t ≥ ctx.next.allowableWriteTime) = true :=
    decide_eq_true (hallowed.1.trans hlow)
  have hopen : collectionExpired
      { ctx with now := t, writePackets := true } = false := by
    rw [collectionExpired]
    rcases hallowed.2 with hnew | hlater
    · rw [decide_eq_false (show ¬ctx.next.pmtCollectionTimer ≥ 1000000 by omega)]
      rfl
    · have hbefore : ¬t ≥ ctx.next.pmtCollectionTimer := by omega
      simp [hbefore]
  rw [StreamModel.beginWrite]
  simp only [htaken, hopen]
  exact if_neg Bool.false_ne_true

/-- What a query says besides the programs. -/
def headerOf (pat : Pat) : ℕ × ℕ × ℕ :=
  (pat.transportStreamId, pat.versionNumber, pat.currentNextIndicator)

theorem pat_ext {a b : Pat} (hheader : headerOf a = headerOf b)
    (hprograms : a.programs = b.programs) :
    a = b := by
  obtain ⟨id, version, current, programs, hlen⟩ := a
  obtain ⟨id', version', current', programs', hlen'⟩ := b
  simp only [headerOf, Prod.mk.injEq] at hheader
  obtain ⟨rfl, rfl, rfl⟩ := hheader
  obtain rfl := hprograms
  rfl

theorem headerOf_queryProgram (rom : Rom L) (pat : Pat) (program : PatProgram) :
    headerOf (queryProgram rom pat program) = headerOf pat := by
  have hadd : ∀ (ps : List (PidParser L)) (q : Pat),
      headerOf (ps.foldl (addParser program.programNumber) q) = headerOf q := by
    intro ps
    induction ps with
    | nil => exact fun _ ↦ rfl
    | cons p rest ih =>
        intro q
        rw [List.foldl_cons, ih]
        rw [addParser]
        split
        · split_ifs <;> rfl
        · rfl
  simp only [queryProgram]
  split_ifs
  · rfl
  · rfl
  · exact hadd _ pat

theorem headerOf_foldl (rom : Rom L) (programs : List PatProgram) (pat : Pat) :
    headerOf (programs.foldl (queryProgram rom) pat) = headerOf pat := by
  induction programs generalizing pat with
  | nil => rfl
  | cons p rest ih => rw [List.foldl_cons, ih, headerOf_queryProgram]

theorem Full.query {pat : Pat} (hpat : Generable pat) {ctx : Context L} {pkts : List Packet}
    {reported : List (ℕ × PmtContent)} (h : Full pat ctx pkts reported) :
    queryRom ctx.next = some pat := by
  obtain ⟨q, hq, hprograms⟩ := queryRom_eq h.collected h.complete h.table hpat.patFits
  have hheader : headerOf q = headerOf pat := by
    rw [queryRom, if_pos h.complete, h.table, Option.map_some] at hq
    obtain rfl := Option.some.inj hq
    rw [headerOf_foldl]
    rfl
  rw [hq, pat_ext hheader]
  rw [hprograms, patTable, List.map_map]
  refine (List.map_congr_left fun x hx ↦ ?_).trans (List.map_id _)
  simp only [Function.comp_apply, id_eq, filled]
  split_ifs with hzero
  · rw [← hpat.network x hx hzero]
  · have hpos := Nat.pos_of_ne_zero hzero
    have hlisted : (x.programNumber, x.programMapPID) ∈ listed ctx.next := by
      rw [listed_of_table h.table]
      exact mem_programsOf.mpr ⟨x, hx, hpos, rfl⟩
    obtain ⟨pmt, hpmt⟩ := exists_latest (h.collected.every _ hlisted)
    have htable : pmt = pmtTable x.pmt := by
      obtain ⟨r, hr, rfl⟩ := Option.map_eq_some_iff.mp hpmt
      have hprogram : programOf r = (x.programNumber, x.programMapPID) := by
        simpa using List.find?_some hr
      obtain ⟨y, hy, -, rfl⟩ := h.source r (List.mem_of_find?_eq_some hr)
      rw [hpat.eq_of_pid hx hy (Prod.mk.inj hprogram).2.symm]
    simp only [hpmt]
    rw [htable, fillPmt_pmtTable]

/-- A write completes the model and leaves nothing to wait for, or goes on waiting. -/
theorem Waiting.write (hL : L.Reads) {pat : Pat} (hpat : Generable pat) {t₀ : ℕ} {ctx : Context L}
    {pkts more : List Packet} (h : Waiting pat t₀ ctx (pkts ++ more)) {t : ℕ} (hlow : t₀ ≤ t)
    (hhigh : t < t₀ + 1000000) :
    ∃ ctx' complete, streammodelWrite ctx pkts t = (ctx', complete) ∧
      if complete then streammodelQueryModel ctx' = some pat ∧ ∀ p ∈ more, ¬Mapped pat (Ts.pid p)
      else Waiting pat t₀ ctx' more := by
  by_cases hnil : pkts = []
  · subst hnil
    exact ⟨ctx, false, if_pos rfl, h⟩
  · have hbegin : Mild ctx { ctx with now := t, writePackets := true } := .of_next rfl rfl rfl rfl
    have hphase := h.phase.mild hpat hbegin
    have hall := h.phase.length_le
    have hfirst := h.first
    rw [onPid_append] at hall hfirst
    rw [List.length_append] at hall
    obtain ⟨hmild, hwrite, hnow, hlast⟩ := mild_scan hL.toCorrect pkts hphase.sdtOnly (by omega)
      (fun hone ↦ hfirst (by simp [hone]) :
        _ → ({ ctx with now := t, writePackets := true } : Context L).lastPATCC = 0xea)
    have hloop := (hphase.mild hpat hmild).writeLoop hL hpat pkts hwrite (hlow.trans_eq hnow.symm)
    have hkept := writeLoop_lastPATCC pkts (pkts.foldl scanPacket
      { ctx with now := t, writePackets := true })
    rw [streammodelWrite, if_neg hnil, h.beginWrite hlow hhigh]
    generalize StreamModel.writeLoop (pkts.foldl scanPacket
      { ctx with now := t, writePackets := true }) pkts = s at *
    have hwaiting : s.modelChanged = false → Waiting pat t₀ s more := by
      refine fun hunchanged ↦ ⟨hloop, hunchanged, fun hmore ↦ ?_⟩
      have hnone : onPid 0 pkts = [] := by
        have hpos := List.length_pos_of_ne_nil hmore
        exact List.length_eq_zero_iff.mp (by omega)
      rw [hkept, hlast hnone]
      exact hfirst (by simp [hmore])
    cases hloop with
    | blank hb => exact ⟨s, false, by simp [finishWrite, hb.changed], hwaiting hb.changed⟩
    | gathering reported hg =>
        exact ⟨s, false, by simp [finishWrite, hg.changed], hwaiting hg.changed⟩
    | full reported hf =>
        refine ⟨_, true, by rw [finishWrite, if_pos hf.changed], ?_, fun p hp ↦ (hf.rest p hp).2⟩
        exact (if_pos hf.complete).trans (hf.query hpat)

/-! ## A whole table -/

/-- The packets of a generated table: the program association table, and behind it one packet for
every program, in any order.  Packets of other pids than 0 may stand anywhere. -/
def Sent (pat : Pat) (pkts : List Packet) : Prop :=
  ∃ before first rest, pkts = before ++ first :: rest ∧
    (∀ p ∈ before ++ rest, Ts.pid p ≠ 0) ∧
    (∃ cc base, patCreatePacketTs pat cc base 188 = some (0, first)) ∧
    ∀ x ∈ pat.programs, 0 < x.programNumber → ∃ cc base p,
      pmtCreatePacketTs x.pmt x.programMapPID cc base 188 = some (0, p) ∧
        onPid x.programMapPID rest = [p]

theorem cycle_append {pat : Pat} {before rest : List Packet} (h : ∀ p ∈ before, Ts.pid p ≠ 0) :
    Cycle pat (before ++ rest) ↔ Cycle pat rest := by
  induction before with
  | nil => rfl
  | cons p more ih =>
      rw [List.cons_append, Cycle, if_neg (h p List.mem_cons_self)]
      exact ih fun q hq ↦ h q (List.mem_cons_of_mem p hq)

theorem Sent.cycle {pat : Pat} (hpat : Generable pat) {pkts : List Packet} (h : Sent pat pkts) :
    Cycle pat pkts := by
  obtain ⟨before, first, rest, rfl, hnonzero, ⟨cc, base, hfirst⟩, hmaps⟩ := h
  have hcarries := patCreate_carries hpat.recoverable hpat.length_le hfirst
  obtain ⟨total, hsingle, -⟩ := hcarries.1
  rw [cycle_append fun p hp ↦ hnonzero p (List.mem_append_left rest hp), Cycle,
    if_pos hsingle.pid_eq]
  refine ⟨hcarries, fun p hp ↦ hnonzero p (List.mem_append_right before hp), ?_, ?_⟩
  · intro x _ _ hseen
    exact absurd hseen List.not_mem_nil
  · intro x hx hpos _
    obtain ⟨cc', base', p, hp, hrest⟩ := hmaps x hx hpos
    obtain ⟨hrec, hfits⟩ := hpat.maps x hx hpos
    have hpid := (hpat.recoverable.programs x hx).2
    exact ⟨p, hrest, pmtCreate_carries hrec (by omega) hfits hp⟩

theorem waiting_alloc {pat : Pat} {t₀ : ℕ} (hstart : 500000 ≤ t₀) {pkts : List Packet}
    (h : Cycle pat pkts) : Waiting pat t₀ (streammodelAlloc : Context L) pkts where
  phase := .blank
    { changed := rfl
      running := rfl
      empty := rfl
      allowed := (Nat.zero_add 500000).trans_le hstart
      sdt := fun handle hh ↦ by cases hh
      cycle := h
      idle := fun _ _ _ ↦ rfl
      unread := rfl
      total := rfl
      tracked := tracked_romInitialize _
      timer := Nat.mod_lt _ (by norm_num) }
  unchanged := rfl
  first := fun _ ↦ rfl

/-- With a program still missing there are packets to come. -/
theorem Gathering.ne_nil {pat : Pat} (hpat : Generable pat) {t₀ : ℕ} {ctx : Context L}
    {reported : List (ℕ × PmtContent)} : ¬Gathering pat t₀ ctx [] reported := by
  intro h
  have hall : ∀ program ∈ programsOf (patTable pat), program ∈ reported.map programOf := by
    intro program hprogram
    obtain ⟨x, hx, hpos, rfl⟩ := mem_programsOf.mp hprogram
    by_contra hseen
    obtain ⟨p, hp, -⟩ := h.due.due x hx hpos hseen
    exact List.cons_ne_nil _ _ hp.symm
  have hle := (List.Nodup.subperm (List.Nodup.of_map _ hpat.patFits.2) hall).length_le
  have htotal := (h.tracked.collecting h.incomplete).total
  have hlt := h.incomplete
  rw [htotal, listed_of_table h.table, h.tracked.parsed] at hlt
  rw [List.length_map] at hle
  omega

/-- `ltntstools_streammodel_write` as a step, with `*complete`. -/
def modelWrite (ctx : Context L) (w : List Packet × ℕ) : Option (Context L × Bool) :=
  some (streammodelWrite ctx w.1 w.2)

/-- The write with the last packet completes the model. -/
theorem Waiting.complete (hL : L.Reads) {pat : Pat} (hpat : Generable pat) {t₀ : ℕ}
    {last : List Packet × ℕ} (hlast : ∃ p ∈ last.1, Mapped pat (Ts.pid p))
    (writes : List (List Packet × ℕ)) {ctx : Context L}
    (h : Waiting pat t₀ ctx ((writes ++ [last]).flatMap Prod.fst))
    (htimes : ∀ w ∈ writes ++ [last], t₀ ≤ w.2 ∧ w.2 < t₀ + 1000000) :
    ∃ ctx', trace modelWrite ctx (writes ++ [last]) =
        some (ctx', List.replicate writes.length false ++ [true]) ∧
      streammodelQueryModel ctx' = some pat := by
  induction writes generalizing ctx with
  | nil =>
      obtain ⟨hlow, hhigh⟩ := htimes last List.mem_cons_self
      obtain ⟨ctx', complete, hwrite, hend⟩ := h.write hL hpat hlow hhigh
      cases complete with
      | true => exact ⟨ctx', by simp [trace, modelWrite, hwrite], hend.1⟩
      | false =>
          rw [if_neg Bool.false_ne_true] at hend
          cases hend.phase with
          | blank hb => exact hb.cycle.elim
          | gathering reported hg => exact absurd hg (Gathering.ne_nil hpat)
          | full reported hf =>
              exact absurd (hend.unchanged.symm.trans hf.changed) Bool.false_ne_true
  | cons w more ih =>
      obtain ⟨hlow, hhigh⟩ := htimes w List.mem_cons_self
      rw [List.cons_append, List.flatMap_cons] at h
      obtain ⟨ctx', complete, hwrite, hend⟩ := h.write hL hpat hlow hhigh
      cases complete with
      | true =>
          obtain ⟨p, hp, hmapped⟩ := hlast
          exact absurd hmapped (hend.2 p (by simp [hp]))
      | false =>
          rw [if_neg Bool.false_ne_true] at hend
          obtain ⟨ctx'', htrace, hquery⟩ := ih hend fun v hv ↦ htimes v (List.mem_cons_of_mem w hv)
          refine ⟨ctx'', ?_, hquery⟩
          rw [List.cons_append, trace]
          simp only [modelWrite, hwrite]
          rw [htrace]
          rfl

/-- What the generators write the stream model reads back: over any writes within a second that
bring the packets of a generated table, the last program map completes the model, no write in front
of it does, and the query returns the table. -/
theorem generated_model_queried (hL : L.Reads) {pat : Pat} (hpat : Generable pat)
    {writes : List (List Packet × ℕ)} {last : List Packet × ℕ} {t₀ : ℕ} (hstart : 500000 ≤ t₀)
    (htimes : ∀ w ∈ writes ++ [last], t₀ ≤ w.2 ∧ w.2 < t₀ + 1000000)
    (hsent : Sent pat ((writes ++ [last]).flatMap Prod.fst))
    (hlast : ∃ p ∈ last.1, Mapped pat (Ts.pid p)) :
    ∃ ctx, trace modelWrite (streammodelAlloc : Context L) (writes ++ [last]) =
        some (ctx, List.replicate writes.length false ++ [true]) ∧
      streammodelQueryModel ctx = some pat :=
  (waiting_alloc hstart (hsent.cycle hpat)).complete hL hpat hlast writes htimes

def service (number : ℕ) : PatProgram where
  programNumber := number
  programMapPID := 0x100 * number
  pmt := { barePmt number with
    streams := [⟨0x1b, 0x100 * number + 1, .empty⟩]
    length_streams := by simp }

def twoServices : Pat where
  transportStreamId := 1
  versionNumber := 0
  currentNextIndicator := 1
  programs := [⟨0, 0x10, zeroPmt⟩, service 1, service 2]
  length_programs := by decide

theorem generable_twoServices : Generable twoServices where
  recoverable := ⟨by decide, rfl, rfl, by decide⟩
  length_le := by decide
  maps := by
    intro x hx hpos
    rcases List.mem_cons.mp hx with rfl | hx
    · exact absurd hpos (lt_irrefl 0)
    · have hmaps : ∀ y ∈ [service 1, service 2], y.pmt.programNumber < 65536 ∧
          y.pmt.versionNumber = 0 ∧ y.pmt.currentNextIndicator = 1 ∧ y.pmt.pcrPID < 8192 ∧
          (∀ s ∈ y.pmt.streams, s.streamType < 256 ∧ s.elementaryPID < 8192) ∧
          pmtPacketSize y.pmt ≤ 188 := by decide
      obtain ⟨hprogram, hversion, hcurrent, hpcr, hstreams, hfits⟩ := hmaps x hx
      exact ⟨⟨hprogram, hversion, hcurrent, hpcr, hstreams⟩, hfits⟩
  network := by decide
  numbers := by decide
  pids := by decide
  apart := by decide
  some_program := ⟨service 1, by decide, by decide⟩

/-- The second service first, in a write of its own. -/
theorem generated_model_queried_two : ∃ first one two : Packet,
    patCreatePacketTs twoServices 0 (Packet.filled 0) 188 = some (0, first) ∧
      pmtCreatePacketTs (service 1).pmt 0x100 0 (Packet.filled 0) 188 = some (0, one) ∧
      pmtCreatePacketTs (service 2).pmt 0x200 0 (Packet.filled 0) 188 = some (0, two) ∧
      ∃ ctx, trace modelWrite (streammodelAlloc : Context onePacketLibrary)
          [([first], 500000), ([two], 600000), ([one], 700000)] =
            some (ctx, [false, false, true]) ∧
        streammodelQueryModel ctx = some twoServices := by
  obtain ⟨first, hfirst, hsingle, -⟩ := @pat_created twoServices 0 (Packet.filled 0) (by decide)
  obtain ⟨one, hone, hsingle1, -⟩ :=
    @pmt_created (service 1).pmt 0x100 0 (Packet.filled 0) (by decide) (by decide)
  obtain ⟨two, htwo, hsingle2, -⟩ :=
    @pmt_created (service 2).pmt 0x200 0 (Packet.filled 0) (by decide) (by decide)
  have hsent : Sent twoServices [first, two, one] := by
    refine ⟨[], first, [two, one], rfl, ?_, ⟨0, _, hfirst⟩, fun x hx hpos ↦ ?_⟩
    · simp [hsingle1.pid_eq, hsingle2.pid_eq]
    · rcases List.mem_cons.mp hx with rfl | hx
      · exact absurd hpos (lt_irrefl 0)
      · rcases List.mem_cons.mp hx with rfl | hx
        · exact ⟨0, _, one, hone, by simp [onPid, hsingle1.pid_eq, hsingle2.pid_eq, service]⟩
        · obtain rfl := List.mem_singleton.mp hx
          exact ⟨0, _, two, htwo, by simp [onPid, hsingle1.pid_eq, hsingle2.pid_eq, service]⟩
  have htimes : ∀ w ∈ [([first], 500000), ([two], 600000)] ++ [([one], 700000)],
      500000 ≤ w.2 ∧ w.2 < 500000 + 1000000 := by
    simp
  refine ⟨first, one, two, hfirst, hone, htwo, ?_⟩
  exact generated_model_queried onePacketLibrary_reads generable_twoServices (le_refl 500000)
    htimes hsent ⟨one, List.mem_cons_self, service 1, by decide, by decide, hsingle1.pid_eq⟩

end LtnTsTools.StreamModel
