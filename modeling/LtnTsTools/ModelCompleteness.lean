import LtnTsTools.ModelEvents

/-!
# When the next model is complete

`cb_pmt` counts its callbacks against the programs of the program association
table, and calls `_rom_next_complete` when the two are equal.  As long as no
program is counted more often than it is listed, and the table stays as long as
its programs are being counted, the count is right: every program of the cached
table then has a cached program map table.  A program whose table is reported in
two versions before another one was seen is counted twice, and the model is
complete without the other.
-/

namespace LtnTsTools.StreamModel

open Psi PartialMachine

variable {L : Library}

/-! ## Programs -/

def programsOf (pat : PatContent) : List (ℕ × ℕ) := pat.programs.filter fun p ↦ 0 < p.1

def listed (rom : Rom L) : List (ℕ × ℕ) := ((rom.pids 0).pat.map programsOf).getD []

def programOf (r : ℕ × PmtContent) : ℕ × ℕ := (r.2.programNumber, r.1)

/-- Every program of the cached table has a cached table of its number on its pid. -/
def EveryPmtCached (rom : Rom L) : Prop :=
  ∀ program ∈ listed rom, ∃ j < maxPidParsers,
    ∃ pmt, ((rom.pids program.2).parser j).pmt = some pmt ∧ pmt.programNumber = program.1

instance EveryPmtCached.decidable (rom : Rom L) : Decidable (EveryPmtCached rom) :=
  decidable_of_iff (∀ program ∈ listed rom, ∃ j < maxPidParsers,
    (((rom.pids program.2).parser j).pmt.any fun pmt ↦ pmt.programNumber = program.1) = true)
    (by simp only [EveryPmtCached, Option.any_eq_true, decide_eq_true_eq])

/-- A program association table is accepted before any program map table is counted,
or with so few programs that the count has passed them.  A program map table is
reported no more often than its program is listed, until the count is full. -/
def Counted (s : Traced L) : Event → Prop
  | .cbPat pat => supersedes s.1 pat = true ∨ s.1.next.parsedPMTs = 0 ∨
      (programsOf pat).length ≤ s.1.next.parsedPMTs
  | .cbPmt pid pmt => s.1.next.totalPMTsInPAT ≤ s.1.next.parsedPMTs ∨
      (s.2.reported.map programOf).count (pmt.programNumber, pid) <
        (listed s.1.next).count (pmt.programNumber, pid)
  | _ => True

instance Counted.decidable (s : Traced L) : ∀ e, Decidable (Counted s e)
  | .cbPat _ => inferInstanceAs (Decidable (_ ∨ _ ∨ _))
  | .cbPmt _ _ => inferInstanceAs (Decidable (_ ∨ _))
  | .beginWrite _ | .checkPatCC _ | .attachSdt | .attachPat _ | .decode _ _ _ | .countPacket _
  | .restart | .finishWrite => inferInstanceAs (Decidable True)

/-! ## Parsers -/

theorem foldl_last {p : ℕ → Prop} [DecidablePred p] (l : List ℕ) (i : ℕ) :
    (l.foldl (fun idx j ↦ if p j then j else idx) i = i ∧ ∀ j ∈ l, ¬p j) ∨
      (l.foldl (fun idx j ↦ if p j then j else idx) i ∈ l ∧
        p (l.foldl (fun idx j ↦ if p j then j else idx) i)) := by
  induction l generalizing i with
  | nil => exact .inl ⟨rfl, by simp⟩
  | cons a rest ih =>
      rw [List.foldl_cons]
      rcases ih (if p a then a else i) with ⟨heq, hno⟩ | ⟨hmem, hp⟩
      · rw [heq]
        by_cases ha : p a
        · right
          simp [ha]
        · left
          simp only [ha, if_false, List.forall_mem_cons]
          exact ⟨trivial, not_false, hno⟩
      · exact .inr ⟨List.mem_cons_of_mem a hmem, hp⟩

theorem parserIndex_spec {ps : PidState L} {n j : ℕ} (hj : j < maxPidParsers)
    (hn : (ps.parser j).programNumber = n) :
    parserIndex ps n < maxPidParsers ∧ (ps.parser (parserIndex ps n)).programNumber = n := by
  rcases foldl_last (p := fun j ↦ (ps.parser j).programNumber = n) (List.range maxPidParsers) 0
    with ⟨_, hno⟩ | ⟨hmem, hp⟩
  · exact absurd hn (hno j (List.mem_range.mpr hj))
  · exact ⟨List.mem_range.mp hmem, hp⟩

theorem parserIndex_lt (ps : PidState L) (n : ℕ) : parserIndex ps n < maxPidParsers := by
  rcases foldl_last (p := fun j ↦ (ps.parser j).programNumber = n) (List.range maxPidParsers) 0
    with ⟨heq, _⟩ | ⟨hmem, _⟩
  · rw [parserIndex, heq]
    exact Nat.zero_lt_succ _
  · exact List.mem_range.mp hmem

theorem parserIndex_congr {ps ps' : PidState L}
    (h : ∀ j, (ps'.parser j).programNumber = (ps.parser j).programNumber) (n : ℕ) :
    parserIndex ps' n = parserIndex ps n := by
  simp only [parserIndex, h]

/-! ## Cached tables -/

def latest (reported : List (ℕ × PmtContent)) (program : ℕ × ℕ) : Option PmtContent :=
  (reported.find? fun r ↦ programOf r = program).map Prod.snd

theorem latest_cons (r : ℕ × PmtContent) (reported : List (ℕ × PmtContent)) (program : ℕ × ℕ) :
    latest (r :: reported) program =
      if programOf r = program then some r.2 else latest reported program := by
  rw [latest, List.find?_cons]
  split_ifs with h
  · simp [h]
  · simp [h, latest]

theorem latest_programNumber {reported : List (ℕ × PmtContent)} {program : ℕ × ℕ}
    {pmt : PmtContent} (h : latest reported program = some pmt) :
    pmt.programNumber = program.1 := by
  obtain ⟨r, hr, rfl⟩ := Option.map_eq_some_iff.mp h
  have hprogram : programOf r = program := by simpa using List.find?_some hr
  exact congrArg Prod.fst hprogram

theorem exists_latest {reported : List (ℕ × PmtContent)} {program : ℕ × ℕ}
    (h : program ∈ reported.map programOf) : ∃ pmt, latest reported program = some pmt := by
  obtain ⟨r, hr, hprogram⟩ := List.mem_map.mp h
  cases hfind : reported.find? fun r ↦ programOf r = program with
  | none => exact absurd hprogram (by simpa using List.find?_eq_none.mp hfind r hr)
  | some r' => exact ⟨r'.2, by rw [latest, hfind]; rfl⟩

/-- The parsers hold the latest table of every program, each in the parser that
`cb_pmt` finds for it. -/
structure Cached (rom : Rom L) (reported : List (ℕ × PmtContent)) : Prop where
  slot : ∀ pid j pmt, ((rom.pids pid).parser j).pmt = some pmt →
    j = parserIndex (rom.pids pid) pmt.programNumber ∧
      ((rom.pids pid).parser j).programNumber = pmt.programNumber
  latest : ∀ program pmt, latest reported program = some pmt →
    ((rom.pids program.2).parser (parserIndex (rom.pids program.2) program.1)).pmt = some pmt

theorem Cached.of_sameTables {rom rom' : Rom L} {reported : List (ℕ × PmtContent)}
    (h : Cached rom reported) (hsame : SameTables rom rom') : Cached rom' reported where
  slot := by
    intro pid j pmt hpmt
    rw [hsame.pmt] at hpmt
    rw [parserIndex_congr (hsame.programNumber pid), hsame.programNumber]
    exact h.slot pid j pmt hpmt
  latest := by
    intro program pmt hlatest
    rw [parserIndex_congr (hsame.programNumber program.2), hsame.pmt]
    exact h.latest program pmt hlatest

theorem cachePmt_programNumber (rom : Rom L) (pid : ℕ) (pmt : PmtContent) (q j : ℕ) :
    (((cachePmt rom pid pmt).pids q).parser j).programNumber =
      ((rom.pids q).parser j).programNumber := by
  rw [parser_cachePmt]
  split_ifs <;> rfl

theorem cachePmt_pmt (rom : Rom L) (pid : ℕ) (pmt : PmtContent) (q j : ℕ) :
    (((cachePmt rom pid pmt).pids q).parser j).pmt =
      if q = pid ∧ j = parserIndex (rom.pids pid) pmt.programNumber then some pmt
      else ((rom.pids q).parser j).pmt := by
  rw [parser_cachePmt]
  split_ifs <;> rfl

/-- A reported table is cached in a parser of its own, if there is one. -/
theorem Cached.cachePmt {rom : Rom L} {reported : List (ℕ × PmtContent)}
    (h : Cached rom reported) {pid j : ℕ} {pmt : PmtContent} (hj : j < maxPidParsers)
    (hnumber : ((rom.pids pid).parser j).programNumber = pmt.programNumber) :
    Cached (cachePmt rom pid pmt) ((pid, pmt) :: reported) where
  slot := by
    intro q i m hm
    rw [parserIndex_congr (cachePmt_programNumber rom pid pmt q), cachePmt_programNumber]
    rw [cachePmt_pmt] at hm
    split_ifs at hm with hqi
    · obtain ⟨rfl, rfl⟩ := hqi
      obtain rfl := Option.some.inj hm
      exact ⟨rfl, (parserIndex_spec hj hnumber).2⟩
    · exact h.slot q i m hm
  latest := by
    intro program m hm
    rw [parserIndex_congr (cachePmt_programNumber rom pid pmt program.2), cachePmt_pmt]
    rw [latest_cons] at hm
    split_ifs at hm with hprogram
    · obtain rfl := Option.some.inj hm
      subst hprogram
      simp [programOf]
    · -- The parser of another program that has a table is another parser.
      have hslot := h.latest program m hm
      have hm' : m.programNumber = program.1 := latest_programNumber hm
      rw [if_neg, hslot]
      rintro ⟨hpid, hidx⟩
      have hown := (h.slot _ _ m hslot).2
      rw [hidx, hpid, (parserIndex_spec hj hnumber).2, hm'] at hown
      exact hprogram (Prod.ext hown hpid.symm)

/-! ## The program association table -/

def Owned (rom : Rom L) : Prop :=
  ∀ pid j n, rom.decoder pid j = some (.pmt n) → ((rom.pids pid).parser j).programNumber = n

/-- `cb_pat` writes to a single parser for a program. -/
theorem parser_attachProgram (rom : Rom L) (program : ℕ × ℕ) (q j : ℕ) :
    ((attachProgram rom program).pids q).parser j =
      if 0 < program.1 ∧ q = program.2 ∧ j = freeParser (rom.pids program.2) then
        { (rom.pids q).parser j with
          dvbpsi := some (attach L (.pmt program.1)), programNumber := program.1 }
      else (rom.pids q).parser j := by
  rw [attachProgram]
  by_cases hpos : 0 < program.1
  · simp only [hpos, if_true, true_and]
    refine (parser_setPid rom program.2 _ q j).trans ?_
    by_cases hq : q = program.2
    · subst hq
      simp only [if_true, true_and]
      refine (parser_setParser (rom.pids program.2) _ _ j).trans ?_
      split_ifs with hj
      · rw [hj]
      · rfl
    · simp [hq]
  · simp [hpos]

theorem attachProgram_pmt (rom : Rom L) (program : ℕ × ℕ) (q j : ℕ) :
    (((attachProgram rom program).pids q).parser j).pmt = ((rom.pids q).parser j).pmt := by
  rw [parser_attachProgram]
  split_ifs <;> rfl

theorem attachProgram_total (rom : Rom L) (program : ℕ × ℕ) :
    (attachProgram rom program).totalPMTsInPAT =
      rom.totalPMTsInPAT + if 0 < program.1 then 1 else 0 := by
  rw [attachProgram]
  split_ifs <;> rfl

theorem attachProgram_parsed (rom : Rom L) (program : ℕ × ℕ) :
    (attachProgram rom program).parsedPMTs = rom.parsedPMTs := by
  rw [attachProgram]
  split_ifs <;> rfl

theorem attachProgram_present {rom : Rom L} {program : ℕ × ℕ} {pid : ℕ}
    (h : (rom.pids pid).present = true ∨ 0 < program.1 ∧ pid = program.2) :
    ((attachProgram rom program).pids pid).present = true := by
  rw [attachProgram]
  split_ifs with hpos
  · by_cases hpid : pid = program.2
    · subst hpid
      simp [Rom.setPid]
    · simpa [Rom.setPid, hpid] using h
  · exact h.resolve_right fun h ↦ hpos h.1

theorem Owned.attachProgram {rom : Rom L} (h : Owned rom) (program : ℕ × ℕ) :
    Owned (attachProgram rom program) := by
  intro q j n hkind
  rw [Rom.decoder, parser_attachProgram] at hkind
  rw [parser_attachProgram]
  split_ifs at hkind ⊢ with hnew
  · exact DecoderKind.pmt.inj (Option.some.inj hkind)
  · exact h q j n hkind

theorem attachPrograms_spec (programs : List (ℕ × ℕ)) (rom : Rom L) :
    (programs.foldl attachProgram rom).totalPMTsInPAT =
        rom.totalPMTsInPAT + (programs.filter fun p ↦ 0 < p.1).length ∧
      (programs.foldl attachProgram rom).parsedPMTs = rom.parsedPMTs ∧
      (∀ q j, (((programs.foldl attachProgram rom).pids q).parser j).pmt =
        ((rom.pids q).parser j).pmt) ∧
      (Owned rom → Owned (programs.foldl attachProgram rom)) ∧
      ∀ pid, ((rom.pids pid).present = true ∨ ∃ p ∈ programs, 0 < p.1 ∧ pid = p.2) →
        ((programs.foldl attachProgram rom).pids pid).present = true := by
  induction programs generalizing rom with
  | nil => exact ⟨rfl, rfl, fun _ _ ↦ rfl, fun h ↦ h, fun _ h ↦ by simpa using h⟩
  | cons program rest ih =>
      obtain ⟨htotal, hparsed, hpmt, howned, hpresent⟩ := ih (attachProgram rom program)
      rw [attachProgram_total] at htotal
      refine ⟨?_, hparsed.trans (attachProgram_parsed rom program),
        fun q j ↦ (hpmt q j).trans (attachProgram_pmt rom program q j),
        fun h ↦ howned (h.attachProgram program), fun pid h ↦ hpresent pid ?_⟩
      · rw [List.foldl_cons, htotal, List.filter_cons]
        by_cases hpos : 0 < program.1
        · simp only [hpos, if_true, decide_true, List.length_cons]
          omega
        · simp [hpos]
      · rcases h with h | ⟨p, hp, hpos⟩
        · exact .inl (attachProgram_present (.inl h))
        · rcases List.mem_cons.mp hp with rfl | hrest
          · exact .inl (attachProgram_present (.inr hpos))
          · exact .inr ⟨p, hrest, hpos⟩

theorem setPat_pids (rom : Rom L) (pat : PatContent) (q : ℕ) :
    ((rom.setPid 0 { rom.pids 0 with pat := some pat }).pids q).parser = (rom.pids q).parser ∧
      ((rom.setPid 0 { rom.pids 0 with pat := some pat }).pids q).present =
        (rom.pids q).present := by
  rw [pids_setPid]
  split_ifs with hq
  · rw [hq]
    exact ⟨rfl, rfl⟩
  · exact ⟨rfl, rfl⟩

/-! ## The count -/

structure Consistent (rom : Rom L) (reported : List (ℕ × PmtContent)) : Prop where
  parsed : rom.parsedPMTs = reported.length
  owned : Owned rom
  fresh : rom.parsedPMTs = 0 → ∀ pid j, ((rom.pids pid).parser j).pmt = none

/-- What holds while the count of the next rom is not full. -/
structure Collecting (rom : Rom L) (reported : List (ℕ × PmtContent)) : Prop where
  total : rom.totalPMTsInPAT = (listed rom).length
  counted : (reported.map programOf).Subperm (listed rom)
  present : ∀ program ∈ listed rom, (rom.pids program.2).present = true
  cached : Cached rom reported

structure Tracked (rom : Rom L) (reported : List (ℕ × PmtContent)) : Prop
    extends Consistent rom reported where
  collecting : rom.parsedPMTs < rom.totalPMTsInPAT → Collecting rom reported

theorem listed_of_sameTables {rom rom' : Rom L} (h : SameTables rom rom') :
    listed rom' = listed rom := by
  rw [listed, listed, h.pat]

theorem Tracked.of_sameTables {rom rom' : Rom L} {reported : List (ℕ × PmtContent)}
    (h : Tracked rom reported) (hsame : SameTables rom rom') : Tracked rom' reported where
  parsed := hsame.parsed.trans h.parsed
  owned := fun pid j n hkind ↦
    (hsame.programNumber pid j).trans (h.owned pid j n (hsame.decoder pid j n hkind))
  fresh := fun hzero pid j ↦ (hsame.pmt pid j).trans (h.fresh (hsame.parsed ▸ hzero) pid j)
  collecting := by
    intro hlt
    rw [hsame.parsed, hsame.total] at hlt
    obtain ⟨htotal, hcounted, hpresent, hcached⟩ := h.collecting hlt
    refine ⟨?_, ?_, ?_, hcached.of_sameTables hsame⟩
    · rw [hsame.total, listed_of_sameTables hsame, htotal]
    · rwa [listed_of_sameTables hsame]
    · rw [listed_of_sameTables hsame]
      exact fun program hp ↦ hsame.present _ (hpresent program hp)

theorem tracked_romInitialize (rom : Rom L) {time : ℕ} :
    Tracked { romInitialize rom with allowableWriteTime := time } [] where
  parsed := rfl
  owned := by
    intro pid j n h
    cases h
  fresh := fun _ _ _ ↦ rfl
  collecting := fun h ↦ absurd h (Nat.lt_irrefl 0)

/-- An accepted table starts the count, or is behind it. -/
theorem Tracked.acceptPat {rom : Rom L} {reported : List (ℕ × PmtContent)}
    (h : Tracked rom reported) (now : ℕ) {pat : PatContent}
    (hcount : rom.parsedPMTs = 0 ∨ (programsOf pat).length ≤ rom.parsedPMTs) :
    Tracked (acceptPat rom now pat) reported := by
  obtain ⟨htotal, hparsed, hpmt, howned, hpresent⟩ := attachPrograms_spec pat.programs
    { rom with pmtCollectionTimer := now + 1000000, totalPMTsInPAT := 0 }
  have hlisted : listed (StreamModel.acceptPat rom now pat) = programsOf pat := by
    simp [listed, StreamModel.acceptPat, Rom.setPid]
  have hpids := setPat_pids (pat.programs.foldl attachProgram
    { rom with pmtCollectionTimer := now + 1000000, totalPMTsInPAT := 0 }) pat
  rw [← StreamModel.acceptPat] at hpids
  have hnone : rom.parsedPMTs = 0 →
      ∀ pid j, (((StreamModel.acceptPat rom now pat).pids pid).parser j).pmt = none := by
    intro hzero pid j
    rw [(hpids pid).1, hpmt]
    exact h.fresh hzero pid j
  refine ⟨⟨hparsed.trans h.parsed, ?_, fun hzero ↦ hnone (hparsed.symm.trans hzero)⟩, fun hlt ↦ ?_⟩
  · intro pid j n hkind
    rw [(hpids pid).1]
    rw [Rom.decoder, (hpids pid).1] at hkind
    exact howned h.owned pid j n hkind
  · have htotal' : (StreamModel.acceptPat rom now pat).totalPMTsInPAT = (programsOf pat).length :=
      htotal.trans (Nat.zero_add _)
    have hzero : rom.parsedPMTs = 0 := by
      refine hcount.resolve_right fun hle ↦ ?_
      rw [htotal'] at hlt
      exact absurd hlt (not_lt.mpr (hle.trans_eq hparsed.symm))
    have hnil : reported = [] := List.length_eq_zero_iff.mp (h.parsed.symm.trans hzero)
    subst hnil
    refine ⟨htotal'.trans (congrArg List.length hlisted.symm), List.nil_subperm, ?_, ⟨?_, ?_⟩⟩
    · intro program hprogram
      rw [hlisted, programsOf, List.mem_filter] at hprogram
      rw [(hpids program.2).2]
      exact hpresent _ (.inr ⟨program, hprogram.1, of_decide_eq_true hprogram.2, rfl⟩)
    · intro pid j pmt hsome
      rw [hnone hzero] at hsome
      cases hsome
    · intro program pmt hsome
      cases hsome

structure Collected (rom : Rom L) (reported : List (ℕ × PmtContent)) : Prop where
  every : ∀ program ∈ listed rom, program ∈ reported.map programOf
  present : ∀ program ∈ listed rom, (rom.pids program.2).present = true
  cached : Cached rom reported

theorem Collecting.collected {rom : Rom L} {reported : List (ℕ × PmtContent)}
    (h : Collecting rom reported) (hfull : reported.length = rom.totalPMTsInPAT) :
    Collected rom reported where
  every := by
    have hle : (listed rom).length ≤ (reported.map programOf).length := by
      rw [List.length_map, hfull, h.total]
    exact fun program hp ↦ (h.counted.perm_of_length_le hle).mem_iff.mpr hp
  present := h.present
  cached := h.cached

theorem Collected.everyPmtCached {rom : Rom L} {reported : List (ℕ × PmtContent)}
    (h : Collected rom reported) : EveryPmtCached rom := by
  intro program hprogram
  obtain ⟨pmt, hpmt⟩ := exists_latest (h.every program hprogram)
  exact ⟨_, parserIndex_lt _ _, pmt, h.cached.latest program pmt hpmt, latest_programNumber hpmt⟩

theorem subperm_cons_of_count {l l' : List (ℕ × ℕ)} {a : ℕ × ℕ} (h : l.Subperm l')
    (hlt : l.count a < l'.count a) : (a :: l).Subperm l' := by
  rw [List.subperm_ext_iff]
  intro x _
  have hx := h.count_le x
  rw [List.count_cons]
  by_cases hxa : x = a
  · subst hxa
    simpa using hlt
  · simpa [Ne.symm hxa] using hx

theorem cachePmt_pids (rom : Rom L) (pid : ℕ) (pmt : PmtContent) (q : ℕ) :
    ((cachePmt rom pid pmt).pids q).pat = (rom.pids q).pat ∧
      ((cachePmt rom pid pmt).pids q).present = (rom.pids q).present := by
  have hpids : (cachePmt rom pid pmt).pids q = if q = pid then _ else rom.pids q :=
    pids_setPid rom pid _ q
  rw [hpids]
  split_ifs with hq
  · rw [hq]
    exact ⟨rfl, rfl⟩
  · exact ⟨rfl, rfl⟩

theorem listed_cachePmt (rom : Rom L) (pid : ℕ) (pmt : PmtContent) :
    listed (cachePmt rom pid pmt) = listed rom := by
  rw [listed, listed, (cachePmt_pids rom pid pmt 0).1]

theorem Collecting.cachePmt {rom : Rom L} {reported : List (ℕ × PmtContent)}
    (h : Collecting rom reported) {pid j : ℕ} {pmt : PmtContent} (hj : j < maxPidParsers)
    (hnumber : ((rom.pids pid).parser j).programNumber = pmt.programNumber)
    (hcount : (reported.map programOf).count (pmt.programNumber, pid) <
      (listed rom).count (pmt.programNumber, pid)) :
    Collecting (cachePmt rom pid pmt) ((pid, pmt) :: reported) := by
  have hlisted := listed_cachePmt rom pid pmt
  refine ⟨?_, ?_, fun program hp ↦ ?_, h.cached.cachePmt hj hnumber⟩
  · rw [hlisted]
    exact h.total
  · rw [hlisted]
    exact subperm_cons_of_count h.counted hcount
  · rw [(cachePmt_pids rom pid pmt program.2).2]
    exact h.present program (hlisted ▸ hp)

theorem Owned.parser_of_attached {rom : Rom L} (h : Owned rom) {pid n : ℕ}
    (hattached : Attached rom pid n) :
    ∃ j < maxPidParsers, ((rom.pids pid).parser j).programNumber = n := by
  obtain ⟨j, hj, hkind⟩ := hattached
  exact ⟨j, hj, h pid j n hkind⟩

theorem Tracked.cachePmt {rom : Rom L} {reported : List (ℕ × PmtContent)}
    (h : Tracked rom reported) {pid : ℕ} {pmt : PmtContent}
    (hattached : Attached rom pid pmt.programNumber)
    (hcount : rom.totalPMTsInPAT ≤ rom.parsedPMTs ∨
      (reported.map programOf).count (pmt.programNumber, pid) <
        (listed rom).count (pmt.programNumber, pid)) :
    Tracked (cachePmt rom pid pmt) ((pid, pmt) :: reported) ∧
      ((StreamModel.cachePmt rom pid pmt).parsedPMTs =
          (StreamModel.cachePmt rom pid pmt).totalPMTsInPAT →
        Collected (StreamModel.cachePmt rom pid pmt) ((pid, pmt) :: reported)) := by
  obtain ⟨j, hj, hnumber⟩ := h.owned.parser_of_attached hattached
  have hparsed : (StreamModel.cachePmt rom pid pmt).parsedPMTs = rom.parsedPMTs + 1 := rfl
  have htotal : (StreamModel.cachePmt rom pid pmt).totalPMTsInPAT = rom.totalPMTsInPAT := rfl
  have hcollecting : rom.parsedPMTs < rom.totalPMTsInPAT →
      Collecting (StreamModel.cachePmt rom pid pmt) ((pid, pmt) :: reported) := by
    intro hlt
    exact (h.collecting hlt).cachePmt hj hnumber (hcount.resolve_left (not_le.mpr hlt))
  refine ⟨⟨⟨?_, ?_, ?_⟩, ?_⟩, ?_⟩
  · rw [hparsed, h.parsed, List.length_cons]
  · intro q i n hkind
    rw [decoder_cachePmt] at hkind
    rw [cachePmt_programNumber]
    exact h.owned q i n hkind
  · intro hzero
    exact absurd (hparsed.symm.trans hzero) (Nat.succ_ne_zero _)
  · intro hlt
    rw [hparsed, htotal] at hlt
    exact hcollecting (by omega)
  · intro hfull
    have hlt : rom.parsedPMTs < rom.totalPMTsInPAT := by
      rw [hparsed, htotal] at hfull
      omega
    exact (hcollecting hlt).collected (by rw [List.length_cons, ← h.parsed, ← hparsed, hfull])

theorem Tracked.setComplete {rom : Rom L} {reported : List (ℕ × PmtContent)}
    (h : Tracked rom reported) (complete : Bool) :
    Tracked { rom with modelComplete := complete } reported :=
  ⟨⟨h.parsed, h.owned, h.fresh⟩, fun hlt ↦
    have hc := h.collecting hlt
    ⟨hc.total, hc.counted, hc.present, ⟨hc.cached.slot, hc.cached.latest⟩⟩⟩

theorem Collected.setComplete {rom : Rom L} {reported : List (ℕ × PmtContent)}
    (h : Collected rom reported) (complete : Bool) :
    Collected { rom with modelComplete := complete } reported :=
  ⟨h.every, h.present, ⟨h.cached.slot, h.cached.latest⟩⟩

/-- `cb_pmt` keeps the count, and calls `_rom_next_complete` with every table. -/
theorem Tracked.cbPmt {ctx : Context L} {reported : List (ℕ × PmtContent)}
    (h : Tracked ctx.next reported) {pid : ℕ} {pmt : PmtContent}
    (hattached : Attached ctx.next pid pmt.programNumber)
    (hcount : ctx.next.totalPMTsInPAT ≤ ctx.next.parsedPMTs ∨
      (reported.map programOf).count (pmt.programNumber, pid) <
        (listed ctx.next).count (pmt.programNumber, pid)) :
    Tracked (cbPmt ctx pid pmt).next ((pid, pmt) :: reported) ∧
      (completes ctx pid pmt = true →
        Collected (StreamModel.cbPmt ctx pid pmt).next ((pid, pmt) :: reported)) := by
  have hsame := sameTables_markStreams pmt.streams ctx.next
  have hattached' : Attached (pmt.streams.foldl markStream ctx.next) pid pmt.programNumber := by
    obtain ⟨j, hj, hkind⟩ := hattached
    exact ⟨j, hj, (decoder_markStreams pmt.streams ctx.next pid j).trans hkind⟩
  obtain ⟨htracked, hfull⟩ := (h.of_sameTables hsame).cachePmt hattached'
    (by rwa [hsame.total, hsame.parsed, listed_of_sameTables hsame])
  rw [cbPmt_next]
  exact ⟨htracked.setComplete _, fun hc ↦ (hfull (of_decide_eq_true hc)).setComplete _⟩

/-! ## Runs -/

theorem Tracked.cbPat {ctx : Context L} {reported : List (ℕ × PmtContent)}
    (h : Tracked ctx.next reported) {pat : PatContent}
    (hcount : supersedes ctx pat = true ∨ ctx.next.parsedPMTs = 0 ∨
      (programsOf pat).length ≤ ctx.next.parsedPMTs) : Tracked (cbPat ctx pat).next reported := by
  rw [StreamModel.cbPat]
  split_ifs with hs
  · exact h
  · exact h.acceptPat ctx.now (hcount.resolve_left hs)

theorem Tracked.beginWrite {ctx : Context L} {reported : List (ℕ × PmtContent)}
    (h : Tracked ctx.next reported) (timestamp : ℕ) :
    Tracked (beginWrite ctx timestamp).next
      (if collectionExpired { ctx with now := timestamp } then [] else reported) := by
  have hexpired : ∀ b, collectionExpired { ctx with now := timestamp, writePackets := b } =
      collectionExpired { ctx with now := timestamp } := fun _ ↦ rfl
  rw [StreamModel.beginWrite]
  simp only [hexpired]
  split_ifs
  · exact tracked_romInitialize ctx.next
  · exact h

theorem Tracked.finishWrite {ctx : Context L} {history : History}
    (h : Tracked ctx.next history.reported) :
    Tracked (finishWrite ctx).1.next (history.note ctx .finishWrite).reported := by
  by_cases hchanged : ctx.modelChanged = true
  · simp only [StreamModel.finishWrite, History.note, hchanged, if_true]
    exact tracked_romInitialize ctx.current
  · simp only [StreamModel.finishWrite, History.note, hchanged]
    exact h

/-- An event that meets its condition keeps the invariant, and completes the rom with
every table only. -/
theorem Tracked.step {s s' : Traced L} {e : Event} {complete : Bool}
    (h : Tracked s.1.next s.2.reported) (hcount : Counted s e)
    (hs : step s e = some (s', complete)) :
    Tracked s'.1.next s'.2.reported ∧
      (complete = true → Collected s'.1.next s'.2.reported) := by
  cases effect_of_step hs with
  | quiet hsame hchanged => exact ⟨h.of_sameTables hsame, fun hf ↦ absurd hf Bool.false_ne_true⟩
  | beginWrite timestamp => exact ⟨h.beginWrite timestamp, fun hf ↦ absurd hf Bool.false_ne_true⟩
  | cbPat pat => exact ⟨h.cbPat hcount, fun hf ↦ absurd hf Bool.false_ne_true⟩
  | cbPmt hattached => exact h.cbPmt hattached hcount
  | restart => exact ⟨tracked_romInitialize _, fun hf ↦ absurd hf Bool.false_ne_true⟩
  | finishWrite => exact ⟨h.finishWrite, fun hf ↦ absurd hf Bool.false_ne_true⟩

theorem tracked_start : Tracked (start : Traced L).1.next (start : Traced L).2.reported :=
  tracked_romInitialize _

/-- In every run whose events meet the condition, `_rom_next_complete` is called with
the table of every program cached. -/
theorem complete_has_every_pmt {s s' : Traced L} {e : Event}
    (hreach : Reachable step Counted start s) (hcount : Counted s e)
    (hs : step s e = some (s', true)) : EveryPmtCached s'.1.next := by
  have htracked : Tracked s.1.next s.2.reported := by
    refine hreach.invariant (P := fun s ↦ Tracked s.1.next s.2.reported) tracked_start ?_
    exact fun _ _ _ _ h hc hs ↦ (h.step hc hs).1
  exact ((htracked.step hcount hs).2 rfl).everyPmtCached

def twoPrograms : PatContent := ⟨1, 0, 1, [(1, 0x100), (2, 0x200)]⟩

def emptyProgram (programNumber versionNumber : ℕ) : PmtContent :=
  ⟨programNumber, versionNumber, 1, 0x1fff, [], []⟩

theorem complete_has_two_pmts : ∃ s s' : Traced onePacketLibrary,
    Reachable step Counted start s ∧
      step s (.cbPmt 0x200 (emptyProgram 2 0)) = some (s', true) ∧ EveryPmtCached s'.1.next := by
  have hmeets : Meets step Counted (start : Traced onePacketLibrary)
      [.cbPat twoPrograms, .cbPmt 0x100 (emptyProgram 1 0)] := by decide
  obtain ⟨s, hs⟩ : ∃ s, s = Option.get
      (run step (start : Traced onePacketLibrary)
        [.cbPat twoPrograms, .cbPmt 0x100 (emptyProgram 1 0)]) (by decide) := ⟨_, rfl⟩
  have hreach : Reachable step Counted start s := .of_meets hmeets (by rw [hs]; rfl)
  have hcount : Counted s (.cbPmt 0x200 (emptyProgram 2 0)) := by
    subst hs
    decide
  have hstep : (step s (.cbPmt 0x200 (emptyProgram 2 0))).map Prod.snd = some true := by
    subst hs
    decide
  obtain ⟨⟨s', complete⟩, hs', rfl⟩ := Option.map_eq_some_iff.mp hstep
  exact ⟨s, s', hreach, hs', complete_has_every_pmt hreach hcount hs'⟩

/-- The table of the first program in two versions completes the model without the
second program. -/
theorem complete_without_second_program : ∃ s s' : Traced onePacketLibrary,
    run step start [.cbPat twoPrograms, .cbPmt 0x100 (emptyProgram 1 0)] = some s ∧
      step s (.cbPmt 0x100 (emptyProgram 1 1)) = some (s', true) ∧ ¬EveryPmtCached s'.1.next := by
  refine ⟨_, _, rfl, rfl, ?_⟩
  decide

end LtnTsTools.StreamModel
