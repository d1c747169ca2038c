import LtnTsTools.ModelCompleteness

/-!
# Queries of a complete model

A write that sets `*complete` has promoted the next rom.  If the count of its
tables was right, its program association table fits the structures of a query,
and nothing wiped or replaced it between its completion and the end of the write,
the query returns every program with the latest of its program map tables.  A
restart in the same write wipes the rom that is about to be promoted, and the
query fails.
-/

namespace LtnTsTools.StreamModel

open Psi PartialMachine

variable {L : Library}

/-! ## Program map tables -/

def entryTable (e : PmtEntry) : StreamContent :=
  ⟨e.streamType, e.elementaryPID, e.descrList.array.map descriptorContent⟩

def pmtTable (pmt : Pmt) : PmtContent where
  programNumber := pmt.programNumber
  versionNumber := pmt.versionNumber
  currentNextIndicator := pmt.currentNextIndicator
  pcrPID := pmt.pcrPID
  descriptors := pmt.descrList.array.map descriptorContent
  streams := pmt.streams.map entryTable

/-- The descriptors fit `struct ltntstools_descriptor_list_s`. -/
def DescriptorsFit (ds : List DescriptorContent) : Prop :=
  ds.length ≤ 16 ∧ ∀ d ∈ ds, d.2.length ≤ 255

/-- The table fits `struct ltntstools_pmt_s`. -/
def PmtFits (pmt : PmtContent) : Prop :=
  pmt.streams.length ≤ 16 ∧ DescriptorsFit pmt.descriptors ∧
    ∀ stream ∈ pmt.streams, DescriptorsFit stream.descriptors

theorem descriptorListAdd_array {list : DescriptorList} {d : DescriptorContent}
    (hlen : list.array.length < 16) (hd : d.2.length ≤ 255) :
    (descriptorListAdd list d).array.map descriptorContent =
      list.array.map descriptorContent ++ [d] := by
  rw [descriptorListAdd, dif_pos hlen, List.map_append]
  simp [descriptorContent, List.take_of_length_le hd]

theorem descriptorListAdds (ds : List DescriptorContent) (list : DescriptorList)
    (hlen : list.array.length + ds.length ≤ 16) (hd : ∀ d ∈ ds, d.2.length ≤ 255) :
    (ds.foldl descriptorListAdd list).array.map descriptorContent =
      list.array.map descriptorContent ++ ds := by
  induction ds generalizing list with
  | nil => simp
  | cons d rest ih =>
      rw [List.length_cons] at hlen
      have harray := descriptorListAdd_array (d := d) (show list.array.length < 16 by omega)
        (hd d List.mem_cons_self)
      have hgrow : (descriptorListAdd list d).array.length = list.array.length + 1 := by
        simpa using congrArg List.length harray
      rw [List.foldl_cons, ih _ (by omega) fun x hx ↦ hd x (List.mem_cons_of_mem d hx), harray,
        List.append_assoc, List.singleton_append]

/-- Streams that fit are all added, and nothing else changes. -/
theorem addStreams (streams : List StreamContent) (pmt : Pmt)
    (hlen : pmt.streams.length + streams.length ≤ 16)
    (hfits : ∀ stream ∈ streams, DescriptorsFit stream.descriptors) :
    pmtTable (streams.foldl addStream pmt) =
      { pmtTable pmt with streams := (pmtTable pmt).streams ++ streams } := by
  induction streams generalizing pmt with
  | nil => simp
  | cons stream rest ih =>
      rw [List.length_cons] at hlen
      obtain ⟨hds, hd⟩ := hfits stream List.mem_cons_self
      have hadds := descriptorListAdds stream.descriptors .empty
        (by simpa using hds) hd
      have hone : pmtTable (addStream pmt stream) =
          { pmtTable pmt with streams := (pmtTable pmt).streams ++ [stream] } := by
        rw [addStream, dif_pos (by omega)]
        simp only [pmtTable, List.map_append, List.map_cons, List.map_nil, entryTable, hadds,
          DescriptorList.array_empty, List.nil_append]
      have hgrow : (addStream pmt stream).streams.length = pmt.streams.length + 1 := by
        simpa [pmtTable] using congrArg (fun t ↦ t.streams.length) hone
      rw [List.foldl_cons, ih _ (by omega) fun x hx ↦ hfits x (List.mem_cons_of_mem _ hx), hone]
      simp

/-- A table that fits arrives whole in a program that has none. -/
theorem pmtTable_fillPmt {pmt : PmtContent} (h : PmtFits pmt) :
    pmtTable (fillPmt zeroPmt pmt) = pmt := by
  obtain ⟨hstreams, ⟨hlen, hd⟩, hfits⟩ := h
  have hadds := descriptorListAdds pmt.descriptors zeroPmt.descrList
    (by simpa [zeroPmt] using hlen) hd
  rw [fillPmt, addStreams _ _ (by simpa [zeroPmt] using hstreams) hfits]
  simp only [pmtTable, hadds]
  simp [zeroPmt]

/-! ## The programs of a query -/

theorem fillProgram_append {pmt : PmtContent} {p : PatProgram} (done rest : List PatProgram)
    (hdone : ∀ d ∈ done, d.programNumber ≠ pmt.programNumber)
    (hp : p.programNumber = pmt.programNumber) :
    fillProgram pmt (done ++ p :: rest) = done ++ { p with pmt := fillPmt p.pmt pmt } :: rest := by
  induction done with
  | nil => rw [List.nil_append, List.nil_append, fillProgram, if_pos hp]
  | cons d more ih =>
      rw [List.cons_append, fillProgram, if_neg (hdone d List.mem_cons_self),
        ih fun x hx ↦ hdone x (List.mem_cons_of_mem d hx), List.cons_append]

theorem foldl_eq_self {α β : Type*} {f : β → α → β} {l : List α} {b : β}
    (h : ∀ x ∈ l, f b x = b) : l.foldl f b = b := by
  induction l with
  | nil => rfl
  | cons a rest ih =>
      rw [List.foldl_cons, h a List.mem_cons_self]
      exact ih fun x hx ↦ h x (List.mem_cons_of_mem a hx)

theorem foldl_eq_of_single {α β : Type*} {f : β → α → β} {l : List α} (hnodup : l.Nodup) {a : α}
    (ha : a ∈ l) (h : ∀ b, ∀ x ∈ l, x ≠ a → f b x = b) (b : β) : l.foldl f b = f b a := by
  obtain ⟨pre, post, rfl⟩ := List.append_of_mem ha
  have hne := List.nodup_middle.mp hnodup
  have hnot : ∀ x ∈ pre ++ post, x ≠ a := fun x hx hxa ↦ (List.nodup_cons.mp hne).1 (hxa ▸ hx)
  have hfix : ∀ b, ∀ x ∈ pre ++ post, f b x = b := by
    intro b x hx
    refine h b x ?_ (hnot x hx)
    simp only [List.mem_append, List.mem_cons] at hx ⊢
    exact hx.imp_right .inr
  rw [List.foldl_append, List.foldl_cons,
    foldl_eq_self fun x hx ↦ hfix b x (List.mem_append_left post hx),
    foldl_eq_self fun x hx ↦ hfix _ x (List.mem_append_right pre hx)]

def filled (reported : List (ℕ × PmtContent)) (p : PatProgram) : PatProgram :=
  if p.programNumber = 0 then p
  else
    match latest reported (p.programNumber, p.programMapPID) with
    | none => p
    | some pmt => { p with pmt := fillPmt p.pmt pmt }

theorem filled_programNumber (reported : List (ℕ × PmtContent)) (p : PatProgram) :
    (filled reported p).programNumber = p.programNumber := by
  rw [filled]
  split_ifs
  · rfl
  · split <;> rfl

/-- A program of the table gets its table from its own parser and from no other. -/
theorem queryProgram_eq {rom : Rom L} {reported : List (ℕ × PmtContent)}
    (h : Collected rom reported) {p : PatProgram} (hpos : p.programNumber ≠ 0)
    (hlisted : (p.programNumber, p.programMapPID) ∈ listed rom) (q : Pat) :
    ∃ pmt, latest reported (p.programNumber, p.programMapPID) = some pmt ∧
      queryProgram rom q p = patAddFromExisting q pmt := by
  obtain ⟨pmt, hpmt⟩ := exists_latest (h.every _ hlisted)
  refine ⟨pmt, hpmt, ?_⟩
  have hslot := h.cached.latest _ pmt hpmt
  have hnumber : pmt.programNumber = p.programNumber := latest_programNumber hpmt
  have hown := (h.cached.slot _ _ pmt hslot).2.trans hnumber
  have hpresent := h.present _ hlisted
  simp only at hslot hown hpresent
  rw [queryProgram, if_neg hpos]
  simp only [hpresent, Bool.true_eq_false, if_false]
  rw [List.foldl_map, foldl_eq_of_single List.nodup_range
    (List.mem_range.mpr (parserIndex_lt (rom.pids p.programMapPID) p.programNumber))]
  · simp only [addParser, hslot, hown, if_true]
  · intro b j _ hj
    cases hj' : ((rom.pids p.programMapPID).parser j).pmt with
    | none => simp only [addParser, hj']
    | some m =>
        obtain ⟨hidx, hm⟩ := h.cached.slot _ j m hj'
        have hne : ((rom.pids p.programMapPID).parser j).programNumber ≠ p.programNumber := by
          intro heq
          rw [← hm, heq] at hidx
          exact hj hidx
        simp only [addParser, hj', if_neg hne]

/-- The fold of a query fills every program of a table with distinct program numbers. -/
theorem queryPrograms_eq {rom : Rom L} {reported : List (ℕ × PmtContent)}
    (h : Collected rom reported) (rest done : List PatProgram) (q : Pat)
    (hq : q.programs = done.map (filled reported) ++ rest)
    (hlisted : ∀ p ∈ rest, p.programNumber ≠ 0 →
      (p.programNumber, p.programMapPID) ∈ listed rom)
    (hdistinct : (done ++ rest).Pairwise fun a b ↦
      b.programNumber ≠ 0 → a.programNumber ≠ b.programNumber) :
    (rest.foldl (queryProgram rom) q).programs = (done ++ rest).map (filled reported) := by
  induction rest generalizing done q with
  | nil => simpa using hq
  | cons p more ih =>
      have hstep : (queryProgram rom q p).programs = (done ++ [p]).map (filled reported) ++
          more := by
        by_cases hzero : p.programNumber = 0
        · simp [queryProgram, filled, hzero, hq]
        · obtain ⟨pmt, hpmt, heq⟩ := queryProgram_eq h hzero (hlisted p List.mem_cons_self hzero) q
          have hnumber : pmt.programNumber = p.programNumber := latest_programNumber hpmt
          have hdone : ∀ d ∈ done.map (filled reported), d.programNumber ≠ pmt.programNumber := by
            intro d hd
            obtain ⟨d', hd', rfl⟩ := List.mem_map.mp hd
            rw [filled_programNumber, hnumber]
            exact (List.pairwise_append.mp hdistinct).2.2 d' hd' p List.mem_cons_self hzero
          have hprograms : (patAddFromExisting q pmt).programs = fillProgram pmt q.programs := rfl
          rw [heq, hprograms, hq, fillProgram_append _ _ hdone hnumber.symm]
          simp [filled, hzero, hpmt]
      have happend : done ++ p :: more = done ++ [p] ++ more := by simp
      rw [List.foldl_cons, happend]
      refine ih (done ++ [p]) _ hstep (fun x hx ↦ hlisted x (List.mem_cons_of_mem p hx)) ?_
      rwa [← happend]

/-! ## The query -/

/-- The table fits `struct ltntstools_pat_s`, and no two of its programs share a number. -/
def PatFits (pat : PatContent) : Prop :=
  pat.programs.length ≤ 64 ∧ ((programsOf pat).map Prod.fst).Nodup

theorem PatFits.pairwise {pat : PatContent} (h : PatFits pat) :
    pat.programs.Pairwise fun a b ↦ b.1 ≠ 0 → a.1 ≠ b.1 := by
  have hdistinct := h.2
  rw [List.Nodup, List.pairwise_map, programsOf, List.pairwise_filter] at hdistinct
  refine hdistinct.imp fun {a b} hab hb heq ↦ ?_
  have hpos : 0 < b.1 := Nat.pos_of_ne_zero hb
  exact hab (by simpa [heq] using hpos) (by simpa using hpos) heq

theorem patAllocFromExisting_programs {pat : PatContent} (h : PatFits pat) :
    (patAllocFromExisting pat).programs = pat.programs.map fun e ↦ ⟨e.1, e.2, zeroPmt⟩ := by
  have hdef : (patAllocFromExisting pat).programs =
      (pat.programs.take 64).map fun e ↦ ⟨e.1, e.2, zeroPmt⟩ := rfl
  rw [hdef, List.take_of_length_le h.1]

theorem queryRom_eq {rom : Rom L} {reported : List (ℕ × PmtContent)} {pat : PatContent}
    (h : Collected rom reported) (hcomplete : rom.modelComplete = true)
    (hpat : (rom.pids 0).pat = some pat) (hfits : PatFits pat) :
    ∃ q, queryRom rom = some q ∧
      q.programs = pat.programs.map fun e ↦ filled reported ⟨e.1, e.2, zeroPmt⟩ := by
  refine ⟨(patAllocFromExisting pat).programs.foldl (queryProgram rom) (patAllocFromExisting pat),
    by rw [queryRom, if_pos hcomplete, hpat]; rfl, ?_⟩
  have hprograms := patAllocFromExisting_programs hfits
  rw [queryPrograms_eq h (patAllocFromExisting pat).programs [] _ rfl, List.nil_append, hprograms,
    List.map_map]
  · rfl
  · intro p hp hzero
    rw [hprograms] at hp
    obtain ⟨e, he, rfl⟩ := List.mem_map.mp hp
    simp only [listed, hpat, Option.map_some, Option.getD_some, programsOf, List.mem_filter]
    exact ⟨he, decide_eq_true (Nat.pos_of_ne_zero hzero)⟩
  · rw [List.nil_append, hprograms, List.pairwise_map]
    exact hfits.pairwise

/-- The query returns every program of the model that completed, with the latest of its
program map tables. -/
def Queryable (s : Traced L) : Prop :=
  ∃ pat q, s.2.completed = some pat ∧ streammodelQueryModel s.1 = some q ∧
    ∀ program ∈ pat.programs, ∃ e ∈ q.programs,
      (e.programNumber, e.programMapPID) = program ∧
        (0 < program.1 → latest s.2.delivered program = some (pmtTable e.pmt))

theorem Collected.queryable {s : Traced L} {pat : PatContent}
    (h : Collected s.1.current s.2.delivered) (hcomplete : s.1.current.modelComplete = true)
    (hpat : (s.1.current.pids 0).pat = some pat) (hcompleted : s.2.completed = some pat)
    (hfits : PatFits pat) (htables : ∀ r ∈ s.2.delivered, PmtFits r.2) : Queryable s := by
  obtain ⟨q, hq, hprograms⟩ := queryRom_eq h hcomplete hpat hfits
  refine ⟨pat, q, hcompleted, (if_pos hcomplete).trans hq, fun program hprogram ↦ ?_⟩
  refine ⟨filled s.2.delivered ⟨program.1, program.2, zeroPmt⟩, ?_, ?_, fun hpos ↦ ?_⟩
  · rw [hprograms]
    exact List.mem_map_of_mem hprogram
  · rw [filled]
    split_ifs
    · rfl
    · split <;> rfl
  · have hlisted : program ∈ listed s.1.current := by
      simp only [listed, hpat, Option.map_some, Option.getD_some, programsOf, List.mem_filter]
      exact ⟨hprogram, decide_eq_true hpos⟩
    obtain ⟨pmt, hpmt⟩ := exists_latest (h.every program hlisted)
    have hfit : PmtFits pmt := by
      obtain ⟨r, hr, rfl⟩ := Option.map_eq_some_iff.mp hpmt
      exact htables r (List.mem_of_find?_eq_some hr)
    simp only [filled, hpos.ne', if_false, hpmt]
    rw [pmtTable_fillPmt hfit]

/-! ## Writes -/

/-- The condition of a callback, a restart or a promotion: the tables are counted right
and fit a query, and from its completion to the end of the write a changed model is
neither wiped nor given another program association table. -/
def Admitted (s : Traced L) (e : Event) : Prop :=
  Counted s e ∧
    match e with
    | .cbPat pat => supersedes s.1 pat = true ∨ s.1.modelChanged = false ∧ PatFits pat
    | .cbPmt _ pmt => PmtFits pmt
    | .beginWrite _ | .restart => s.1.modelChanged = false
    | _ => True

structure Sound (s : Traced L) : Prop where
  tracked : Tracked s.1.next s.2.reported
  fits : ∀ pat, (s.1.next.pids 0).pat = some pat → PatFits pat
  tables : ∀ r ∈ s.2.reported, PmtFits r.2
  changed : s.1.modelChanged = true →
    Collected s.1.next s.2.reported ∧ s.1.next.modelComplete = true ∧
      s.2.completed = (s.1.next.pids 0).pat ∧ (s.1.next.pids 0).pat.isSome

theorem Collected.of_sameTables {rom rom' : Rom L} {reported : List (ℕ × PmtContent)}
    (h : Collected rom reported) (hsame : SameTables rom rom') : Collected rom' reported where
  every := by
    rw [listed_of_sameTables hsame]
    exact h.every
  present := by
    rw [listed_of_sameTables hsame]
    exact fun program hp ↦ hsame.present _ (h.present program hp)
  cached := h.cached.of_sameTables hsame

theorem Sound.quiet {ctx ctx' : Context L} {history : History} (h : Sound (ctx, history))
    (hsame : SameTables ctx.next ctx'.next) (hchanged : ctx'.modelChanged = ctx.modelChanged) :
    Sound (ctx', history) where
  tracked := h.tracked.of_sameTables hsame
  fits := fun pat hpat ↦ h.fits pat (hsame.pat ▸ hpat)
  tables := h.tables
  changed := by
    intro hc
    obtain ⟨hcollected, hcomplete, hcompleted, hsome⟩ := h.changed (hchanged ▸ hc)
    refine ⟨hcollected.of_sameTables hsame, hsame.complete.trans hcomplete, ?_, ?_⟩
    · rw [hsame.pat]
      exact hcompleted
    · rw [hsame.pat]
      exact hsome

theorem sound_romInitialize {ctx : Context L} {history : History} (rom : Rom L) {time : ℕ}
    (hnext : ctx.next = { romInitialize rom with allowableWriteTime := time })
    (hreported : history.reported = []) (hchanged : ctx.modelChanged = false) :
    Sound (ctx, history) where
  tracked := by
    simp only [hnext, hreported]
    exact tracked_romInitialize rom
  fits := by
    intro pat hpat
    simp only [hnext] at hpat
    cases hpat
  tables := by simp [hreported]
  changed := fun hc ↦ absurd (hchanged.symm.trans hc) Bool.false_ne_true

theorem Sound.cbPat {ctx : Context L} {history : History} (h : Sound (ctx, history))
    {pat : PatContent} (hadmitted : Admitted (ctx, history) (.cbPat pat)) :
    Sound (cbPat ctx pat, history) := by
  have htracked := h.tracked.cbPat hadmitted.1
  by_cases hs : supersedes ctx pat = true
  · have hctx : StreamModel.cbPat ctx pat = { ctx with restartModel := true } := if_pos hs
    rw [hctx]
    exact ⟨h.tracked, h.fits, h.tables, h.changed⟩
  · obtain ⟨hchanged, hfits⟩ := hadmitted.2.resolve_left hs
    have hctx : StreamModel.cbPat ctx pat = { ctx with next := acceptPat ctx.next ctx.now pat } :=
      if_neg hs
    rw [hctx] at htracked ⊢
    refine ⟨htracked, fun pat' hpat' ↦ ?_, h.tables, fun hc ↦ ?_⟩
    · have heq : ((acceptPat ctx.next ctx.now pat).pids 0).pat = some pat := by
        simp [acceptPat, Rom.setPid]
      obtain rfl := Option.some.inj (heq.symm.trans hpat')
      exact hfits
    · exact absurd (hchanged.symm.trans hc) Bool.false_ne_true

theorem Collected.cachePmt {rom : Rom L} {reported : List (ℕ × PmtContent)}
    (h : Collected rom reported) {pid j : ℕ} {pmt : PmtContent} (hj : j < maxPidParsers)
    (hnumber : ((rom.pids pid).parser j).programNumber = pmt.programNumber) :
    Collected (cachePmt rom pid pmt) ((pid, pmt) :: reported) where
  every := by
    rw [listed_cachePmt]
    exact fun program hp ↦ List.mem_cons_of_mem _ (h.every program hp)
  present := by
    rw [listed_cachePmt]
    intro program hp
    rw [(cachePmt_pids rom pid pmt program.2).2]
    exact h.present program hp
  cached := h.cached.cachePmt hj hnumber

/-- A table of a rom that has them all replaces the one before. -/
theorem Collected.cbPmt {ctx : Context L} {reported : List (ℕ × PmtContent)}
    (h : Collected ctx.next reported) (howned : Owned ctx.next) {pid : ℕ} {pmt : PmtContent}
    (hattached : Attached ctx.next pid pmt.programNumber) :
    Collected (cbPmt ctx pid pmt).next ((pid, pmt) :: reported) := by
  have hsame := sameTables_markStreams pmt.streams ctx.next
  obtain ⟨j, hj, hnumber⟩ := howned.parser_of_attached hattached
  rw [cbPmt_next]
  exact ((h.of_sameTables hsame).cachePmt hj
    ((hsame.programNumber pid j).trans hnumber)).setComplete _

theorem cbPmt_pat (ctx : Context L) (pid : ℕ) (pmt : PmtContent) :
    ((cbPmt ctx pid pmt).next.pids 0).pat = (ctx.next.pids 0).pat := by
  rw [cbPmt_next]
  exact (cachePmt_pids _ pid pmt 0).1.trans (sameTables_markStreams pmt.streams ctx.next).pat

theorem completes_iff (ctx : Context L) (pid : ℕ) (pmt : PmtContent) :
    completes ctx pid pmt = true ↔ ctx.next.parsedPMTs + 1 = ctx.next.totalPMTsInPAT := by
  have hsame := sameTables_markStreams pmt.streams ctx.next
  rw [completes, decide_eq_true_iff, ← hsame.parsed, ← hsame.total]
  rfl

/-- The model changes when it is complete, and at no other table. -/
theorem cbPmt_modelChanged {ctx : Context L} {pid : ℕ} {pmt : PmtContent}
    (hchanged : (cbPmt ctx pid pmt).modelChanged = true) :
    ctx.modelChanged = true ∨ completes ctx pid pmt = true := by
  by_cases hc : completes ctx pid pmt = true
  · exact .inr hc
  · left
    have hne := mt decide_eq_true hc
    simp only [cbPmt, hne, if_false] at hchanged
    exact hchanged

theorem Tracked.pat_isSome {rom : Rom L} {reported : List (ℕ × PmtContent)}
    (h : Tracked rom reported) (hlt : rom.parsedPMTs < rom.totalPMTsInPAT) :
    (rom.pids 0).pat.isSome := by
  have htotal := (h.collecting hlt).total
  cases hpat : (rom.pids 0).pat with
  | none =>
      rw [listed, hpat] at htotal
      simp only [Option.map_none, Option.getD_none, List.length_nil] at htotal
      omega
  | some pat => rfl

theorem Sound.cbPmt {ctx : Context L} {history : History} (h : Sound (ctx, history)) {pid : ℕ}
    {pmt : PmtContent} (hattached : Attached ctx.next pid pmt.programNumber)
    (hadmitted : Admitted (ctx, history) (.cbPmt pid pmt)) :
    Sound (cbPmt ctx pid pmt, history.note ctx (.cbPmt pid pmt)) := by
  obtain ⟨htracked, hfull⟩ := h.tracked.cbPmt hattached hadmitted.1
  refine ⟨htracked, ?_, ?_, fun hchanged ↦ ?_⟩
  · intro pat hpat
    exact h.fits pat ((cbPmt_pat ctx pid pmt).symm.trans hpat)
  · exact List.forall_mem_cons.mpr ⟨hadmitted.2, h.tables⟩
  · simp only at hchanged
    by_cases hbefore : ctx.modelChanged = true
    · -- The model has been waiting: the table is a newer one of it.
      obtain ⟨hcollected, hcomplete, hcompleted, hsome⟩ := h.changed hbefore
      refine ⟨hcollected.cbPmt h.tracked.owned hattached, ?_, ?_, ?_⟩
      · rw [cbPmt_next]
        simp only at hcomplete
        simp [hcomplete]
      · simp only [History.note, hbefore, cbPmt_pat]
        exact hcompleted
      · simp only [cbPmt_pat]
        exact hsome
    · have hc := (cbPmt_modelChanged hchanged).resolve_left hbefore
      have hlt : ctx.next.parsedPMTs < ctx.next.totalPMTsInPAT :=
        Nat.lt_of_succ_le ((completes_iff ctx pid pmt).mp hc).le
      refine ⟨hfull hc, ?_, ?_, ?_⟩
      · rw [cbPmt_next]
        simp [hc]
      · simp [History.note, hbefore, hchanged, cbPmt_pat]
      · simp only [cbPmt_pat]
        exact h.tracked.pat_isSome hlt

theorem Sound.step {s s' : Traced L} {e : Event} {complete : Bool} (h : Sound s)
    (hadmitted : Admitted s e) (hs : step s e = some (s', complete)) : Sound s' := by
  cases effect_of_step hs with
  | quiet hsame hchanged => exact h.quiet hsame hchanged
  | @beginWrite ctx history timestamp =>
      have hchanged : ctx.modelChanged = false := hadmitted.2
      have hframe : (beginWrite ctx timestamp).modelChanged = ctx.modelChanged := by
        rw [beginWrite]
        split_ifs <;> rfl
      have htracked := h.tracked.beginWrite timestamp
      refine ⟨htracked, ?_, ?_, fun hc ↦ absurd ((hframe.trans hchanged).symm.trans hc) (by simp)⟩
      · intro pat hpat
        simp only [beginWrite] at hpat
        split_ifs at hpat
        · cases hpat
        · exact h.fits pat hpat
      · intro r hr
        simp only [History.note] at hr
        split_ifs at hr
        · cases hr
        · exact h.tables r hr
  | cbPat pat => exact h.cbPat hadmitted
  | cbPmt hattached => exact h.cbPmt hattached hadmitted
  | restart => exact sound_romInitialize _ rfl rfl hadmitted.2
  | @finishWrite ctx history =>
      by_cases hchanged : ctx.modelChanged = true
      · simp only [finishWrite, History.note, hchanged, if_true]
        exact sound_romInitialize ctx.current rfl rfl rfl
      · simp only [finishWrite, History.note, hchanged]
        exact h

/-- A write, with its record; the flag is `*complete`. -/
def writeStep (s : Traced L) (w : List Packet × ℕ) : Option (Traced L × Bool) :=
  let r := streammodelWrite s.1 w.1 w.2
  some ((r.1, recordAfter eventStep History.note s.1 s.2 (writeTrace s.1 w.1 w.2)), r.2)

def WriteAdmitted (s : Traced L) (w : List Packet × ℕ) : Prop :=
  Meets step Admitted s (writeTrace s.1 w.1 w.2)

/-- The promotion of a model that waits makes it queryable. -/
theorem Sound.finishWrite {ctx : Context L} {history : History} (h : Sound (ctx, history))
    (hchanged : ctx.modelChanged = true) :
    Queryable ((finishWrite ctx).1, history.note ctx .finishWrite) := by
  obtain ⟨hcollected, hcomplete, hcompleted, hsome⟩ := h.changed hchanged
  obtain ⟨pat, hpat⟩ := Option.isSome_iff_exists.mp hsome
  simp only [StreamModel.finishWrite, History.note, hchanged, if_true]
  exact Collected.queryable hcollected hcomplete hpat (hcompleted.trans hpat) (h.fits pat hpat)
    h.tables

section Writes

variable (hL : L.Correct)

include hL

/-- A write with packets ends with the promotion of the state behind its loops. -/
theorem writeStep_eq {s : Traced L} {pkts : List Packet} (timestamp : ℕ) (hpkts : pkts ≠ []) :
    ∃ mid, run step s (bodyTrace s.1 pkts timestamp) = some mid ∧
      writeStep s (pkts, timestamp) =
        some (((finishWrite mid.1).1, mid.2.note mid.1 .finishWrite), (finishWrite mid.1).2) := by
  obtain ⟨ctx, history⟩ := s
  have hmid := run_recorded eventStep History.note (bodyTrace ctx pkts timestamp) ctx history
  have hall := run_recorded eventStep History.note (writeTrace ctx pkts timestamp) ctx history
  rw [run_bodyTrace hL, Option.map_some] at hmid
  rw [run_writeTrace hL, Option.map_some, writeTrace, if_neg hpkts, run_append, hmid] at hall
  refine ⟨_, hmid, ?_⟩
  have hwrite : streammodelWrite ctx pkts timestamp =
      finishWrite (writeLoop (pkts.foldl scanPacket (beginWrite ctx timestamp)) pkts) :=
    if_neg hpkts
  have hrecord := congrArg Prod.snd (Option.some.inj hall)
  simp only at hrecord
  simp only [writeStep, writeTrace, if_neg hpkts]
  rw [← hrecord, hwrite]

theorem writeStep_sound {s s' : Traced L} {w : List Packet × ℕ} {complete : Bool}
    (h : Sound s ∧ s.1.modelChanged = false) (hw : WriteAdmitted s w)
    (hs : writeStep s w = some (s', complete)) :
    (Sound s' ∧ s'.1.modelChanged = false) ∧ (complete = true → Queryable s') := by
  obtain ⟨pkts, timestamp⟩ := w
  by_cases hpkts : pkts = []
  · subst hpkts
    obtain ⟨rfl, rfl⟩ := Prod.mk.inj (Option.some.inj hs)
    exact ⟨h, fun hf ↦ absurd hf Bool.false_ne_true⟩
  · obtain ⟨mid, hrun, heq⟩ := writeStep_eq hL (s := s) timestamp hpkts
    rw [heq] at hs
    obtain ⟨rfl, rfl⟩ := Prod.mk.inj (Option.some.inj hs)
    rw [WriteAdmitted, writeTrace, if_neg hpkts] at hw
    have hmid : Sound mid :=
      run_invariant (fun _ _ _ _ hI hg hstep ↦ hI.step hg hstep) h.1 hw.of_append hrun
    have hfinish : step mid .finishWrite =
        some (((finishWrite mid.1).1, mid.2.note mid.1 .finishWrite), false) := rfl
    have hadmitted : Admitted mid .finishWrite := ⟨trivial, trivial⟩
    refine ⟨⟨hmid.step hadmitted hfinish, ?_⟩, fun hc ↦ ?_⟩
    · by_cases hchanged : mid.1.modelChanged = true
      · simp [finishWrite, hchanged]
      · simp [finishWrite, hchanged]
    · refine hmid.finishWrite ?_
      by_contra hchanged
      simp [finishWrite, hchanged] at hc

/-- In every run of writes whose events are all admitted, a write that sets `*complete`
is followed by a query that returns every program of the model with its table. -/
theorem complete_model_queryable {s s' : Traced L} {w : List Packet × ℕ}
    (hreach : Reachable writeStep WriteAdmitted start s) (hw : WriteAdmitted s w)
    (hs : writeStep s w = some (s', true)) : Queryable s' := by
  have hsound : Sound s ∧ s.1.modelChanged = false := by
    refine hreach.invariant (P := fun s ↦ Sound s ∧ s.1.modelChanged = false) ⟨?_, rfl⟩ ?_
    · exact sound_romInitialize _ rfl rfl rfl
    · exact fun _ _ _ _ h hg hstep ↦ (writeStep_sound hL h hg hstep).1
  exact (writeStep_sound hL hsound hw hs).2 rfl

end Writes

instance PmtFits.decidable (pmt : PmtContent) : Decidable (PmtFits pmt) :=
  inferInstanceAs (Decidable (_ ≤ _ ∧ (_ ≤ _ ∧ ∀ d ∈ pmt.descriptors, d.2.length ≤ 255) ∧
    ∀ stream ∈ pmt.streams, _ ≤ _ ∧ ∀ d ∈ stream.descriptors, d.2.length ≤ 255))

instance PatFits.decidable (pat : PatContent) : Decidable (PatFits pat) :=
  inferInstanceAs (Decidable (_ ≤ _ ∧ List.Nodup _))

instance Admitted.decidable (s : Traced L) : ∀ e, Decidable (Admitted s e)
  | .cbPat _ => inferInstanceAs (Decidable (Counted s _ ∧ (_ ∨ _ = false ∧ PatFits _)))
  | .cbPmt _ _ => inferInstanceAs (Decidable (Counted s _ ∧ PmtFits _))
  | .beginWrite _ | .restart => inferInstanceAs (Decidable (Counted s _ ∧ _ = false))
  | .checkPatCC _ | .attachSdt | .attachPat _ | .decode _ _ _ | .countPacket _ | .finishWrite =>
      inferInstanceAs (Decidable (Counted s _ ∧ True))

instance WriteAdmitted.decidable (s : Traced L) (w : List Packet × ℕ) :
    Decidable (WriteAdmitted s w) :=
  inferInstanceAs (Decidable (Meets step Admitted s _))

def stuffed (bytes : List UInt8) : Packet where
  bytes := (bytes ++ List.replicate 188 0xff).take 188
  length_bytes := by
    rw [List.length_take, List.length_append, List.length_replicate]
    omega

/-- Program 1 on pid 0x100. -/
def patPacket (cc : UInt8) : Packet :=
  stuffed [0x47, 0x40, 0x00, 0x10 + cc, 0x00, 0x00, 0xb0, 0x0d, 0x00, 0x01, 0xc1, 0x00, 0x00,
    0x00, 0x01, 0xe1, 0x00, 0xe8, 0xf9, 0x5e, 0x7d]

/-- Program 1 with a stream on pid 0x101. -/
def pmtPacket : Packet :=
  stuffed [0x47, 0x41, 0x00, 0x10, 0x00, 0x02, 0xb0, 0x12, 0x00, 0x01, 0xc1, 0x00, 0x00,
    0xe1, 0x01, 0xf0, 0x00, 0x1b, 0xe1, 0x01, 0xf0, 0x00, 0x4f, 0xc4, 0x3d, 0x1b]

/-- Program 1 on pid 0x100 and program 2 on pid 0x200. -/
def pairPatPacket : Packet :=
  stuffed [0x47, 0x40, 0x00, 0x10, 0x00, 0x00, 0xb0, 0x11, 0x00, 0x01, 0xc1, 0x00, 0x00, 0x00,
    0x01, 0xe1, 0x00, 0x00, 0x02, 0xe2, 0x00, 0x39, 0x89, 0xa5, 0xa9]

/-- Program 2 with video on pid 0x201 and audio with a language on pid 0x202. -/
def avPmtPacket : Packet :=
  stuffed [0x47, 0x42, 0x00, 0x10, 0x00, 0x02, 0xb0, 0x1d, 0x00, 0x02, 0xc1, 0x00, 0x00, 0xe2,
    0x01, 0xf0, 0x00, 0x1b, 0xe2, 0x01, 0xf0, 0x00, 0x0f, 0xe2, 0x02, 0xf0, 0x06, 0x0a, 0x04,
    0x65, 0x6e, 0x67, 0x00, 0x93, 0xf8, 0xca, 0x11]

/-- The second program arrives first, in a write of its own. -/
theorem two_programs_queryable : ∃ s s' : Traced onePacketLibrary,
    writeStep start ([pairPatPacket, avPmtPacket], 500000) = some (s, false) ∧
      writeStep s ([pmtPacket], 600000) = some (s', true) ∧ Queryable s' := by
  have hfirst : WriteAdmitted (start : Traced onePacketLibrary)
      ([pairPatPacket, avPmtPacket], 500000) := by decide +kernel
  have hwrites : ((writeStep (start : Traced onePacketLibrary)
      ([pairPatPacket, avPmtPacket], 500000)).bind fun r ↦
        (writeStep r.1 ([pmtPacket], 600000)).map fun r' ↦
          (r.2, r'.2, decide (WriteAdmitted r.1 ([pmtPacket], 600000)))) =
            some (false, true, true) := by decide +kernel
  obtain ⟨⟨s, one⟩, hs, hmap⟩ := Option.bind_eq_some_iff.mp hwrites
  obtain ⟨⟨s', two⟩, hs', heq⟩ := Option.map_eq_some_iff.mp hmap
  simp only [Prod.mk.injEq, decide_eq_true_eq] at heq
  obtain ⟨rfl, rfl, hsecond⟩ := heq
  refine ⟨s, s', hs, hs', complete_model_queryable onePacketLibrary_correct ?_ hsecond hs'⟩
  exact .step .init hfirst hs

/-- The model completes with the first packet; the second breaks the continuity of the
program association table, and the restart wipes the model that is then promoted. -/
theorem complete_model_wiped : ∃ s s' : Traced onePacketLibrary,
    writeStep start ([patPacket 0], 500000) = some (s, false) ∧
      writeStep s ([pmtPacket, patPacket 5], 600000) = some (s', true) ∧
      streammodelQueryModel s'.1 = none := by
  have hwrites : ((writeStep (start : Traced onePacketLibrary) ([patPacket 0], 500000)).bind fun r ↦
      (writeStep r.1 ([pmtPacket, patPacket 5], 600000)).map fun r' ↦
        (r.2, r'.2, streammodelQueryModel r'.1.1)) = some (false, true, none) := by decide +kernel
  obtain ⟨⟨s, first⟩, hs, hmap⟩ := Option.bind_eq_some_iff.mp hwrites
  obtain ⟨⟨s', second⟩, hs', heq⟩ := Option.map_eq_some_iff.mp hmap
  simp only [Prod.mk.injEq] at heq
  obtain ⟨rfl, rfl, hquery⟩ := heq
  exact ⟨s, s', hs, hs', hquery⟩

end LtnTsTools.StreamModel
