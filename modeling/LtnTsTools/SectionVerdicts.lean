import LtnTsTools.PsiExtraction
import LtnTsTools.SectionChecks

/-!
# Which sections are checked

A section extractor that has completed a section waits for a query.  The section checks never
query, so the next packet of the pid only makes the extractor idle again, whatever it carries:
of tables that fit one packet every other one is checked at most.
-/

namespace LtnTsTools.SectionChecks

open SectionExtractor Psi MachineBank PartialMachine

def OneSection (pid : ℕ) (p : Packet) : Prop := ∃ tableID total, SingleSection pid tableID total p

def passes (p : Packet) : Bool := Crc32.checkCRC32 ((p.bytes.drop 5).take (announcedLength p))

/-- The packets whose section is checked: behind each of them one packet is passed over. -/
def checkedFrom (tableID : ℕ) : Bool → List Packet → List Packet
  | _, [] => []
  | true, _ :: rest => checkedFrom tableID false rest
  | false, p :: rest =>
      if p.byte 5 = tableID then p :: checkedFrom tableID true rest
      else checkedFrom tableID false rest

/-- An extractor between two sections: it waits for a start, or for the query that never
comes. -/
structure Between (pid tableID : ℕ) (waiting : Bool) (ctx : Ctx) : Prop where
  wanted_eq : wanted ctx = (pid, tableID)
  appending : ctx.appending = false
  complete : ctx.complete = waiting
  inv : Inv ctx

variable {pid tableID : ℕ} {ctx : Ctx} {p : Packet}

theorem Between.pid_eq {waiting : Bool} (h : Between pid tableID waiting ctx) : ctx.pid = pid :=
  congrArg Prod.fst h.wanted_eq

theorem Between.table_eq {waiting : Bool} (h : Between pid tableID waiting ctx) :
    ctx.tableID = tableID :=
  congrArg Prod.snd h.wanted_eq

theorem sectionOffset_single {total : ℕ} (h : SingleSection pid tableID total p) :
    sectionOffset p.bytes p = some 5 := by
  rw [sectionOffset_eq fun _ ↦ by rw [h.payloadOffset]; norm_num, h.startOf]

/-- A packet that only resets the extractor. -/
theorem write_resets (hp : OneSection pid p) (hpid : ctx.pid = pid)
    (hreset : writePacket p.bytes (callEntry ctx false) p =
      some (resetSection (callEntry ctx false))) :
    sectionextractorWrite ctx [p] false = some (resetSection (callEntry ctx false)) := by
  obtain ⟨t, n, hsingle⟩ := hp
  have hown : ¬Ts.pid p ≠ (callEntry ctx false).ctx.pid :=
    not_not.mpr (hsingle.pid_eq.trans hpid.symm)
  rw [sectionextractorWrite, writeLoop, writeTurn, if_neg hown, hreset]
  rfl

/-- Behind a complete section a packet is passed over. -/
theorem Between.passedOver (h : Between pid tableID true ctx) (hp : OneSection pid p) :
    ∃ s, sectionextractorWrite ctx [p] false = some s ∧ s.complete = false ∧
      Between pid tableID false s.ctx := by
  refine ⟨_, write_resets hp h.pid_eq ?_, rfl,
    ⟨h.wanted_eq, rfl, rfl, ⟨h.inv.length_buf, h.inv.current_le⟩⟩⟩
  obtain ⟨t, n, hsingle⟩ := hp
  have hoff : sectionOffset p.bytes p = some 5 := sectionOffset_single hsingle
  unfold writePacket
  rw [if_neg (by simp [hsingle.sync]), hoff, Option.bind_some, if_neg (by simp),
    if_neg (by simp [callEntry, h.complete]), if_neg (by simp [callEntry, h.appending])]

/-- A section of another table is passed over too. -/
theorem Between.otherTable (h : Between pid tableID false ctx) (hp : OneSection pid p)
    (htable : p.byte 5 ≠ tableID) :
    ∃ s, sectionextractorWrite ctx [p] false = some s ∧ s.complete = false ∧
      Between pid tableID false s.ctx := by
  refine ⟨_, write_resets hp h.pid_eq ?_, rfl,
    ⟨h.wanted_eq, rfl, rfl, ⟨h.inv.length_buf, h.inv.current_le⟩⟩⟩
  obtain ⟨t, n, hsingle⟩ := hp
  have hoff : sectionOffset p.bytes p = some 5 := sectionOffset_single hsingle
  unfold writePacket
  rw [if_neg (by simp [hsingle.sync]), hoff, Option.bind_some, if_neg (by simp),
    if_pos (by simp [callEntry, h.complete, h.appending]), readByte_of_lt (by norm_num),
    Option.bind_some, if_neg (by simpa [callEntry, h.table_eq] using htable)]

/-- A packet that completes a section leaves the extractor waiting. -/
theorem waiting_of_complete {s : WriteState} (hpid : Ts.pid p = ctx.pid)
    (hs : sectionextractorWrite ctx [p] false = some s) (hcomplete : s.complete = true) :
    s.ctx.appending = false ∧ s.ctx.complete = true := by
  obtain ⟨s', hloop, rfl⟩ := Option.map_eq_some_iff.mp hs
  have hwrite : writePacket p.bytes (callEntry ctx false) p = some s' := by
    have hturn : writeTurn (callEntry ctx false) p =
        (writePacket p.bytes (callEntry ctx false) p).map fun s' ↦ (s', ()) :=
      if_neg (not_not.mpr hpid)
    rw [writeLoop, hturn] at hloop
    cases hp : writePacket p.bytes (callEntry ctx false) p with
    | none => simp [hp] at hloop
    | some r => simpa [hp, writeLoop] using hloop
  have hdone : s'.complete = true := by
    unfold latchComplete at hcomplete
    split_ifs at hcomplete <;> assumption
  have hcopied : ∀ {ctx' : Ctx} {off n : ℕ},
      appendSection (callEntry ctx false) ctx' p.bytes off n = some s' →
        s'.ctx.appending = false := by
    intro ctx' off n happ
    obtain ⟨bytes, -, happ⟩ := Option.bind_eq_some_iff.mp happ
    obtain ⟨buf, -, rfl⟩ := Option.map_eq_some_iff.mp happ
    unfold afterCopy at hdone ⊢
    simp only at hdone ⊢
    split_ifs at hdone ⊢
    · rfl
    · simp [callEntry] at hdone
  have happending : s'.ctx.appending = false := by
    rcases writePacket_cases hwrite with rfl | rfl | ⟨-, -, happ⟩ | ⟨-, -, happ⟩
    · simp [callEntry] at hdone
    · simp [callEntry, resetSection] at hdone
    · exact hcopied happ
    · exact hcopied happ
  simp [latchComplete, hdone, happending]

/-- A section of the own table is checked. -/
theorem Between.ownTable (h : Between pid tableID false ctx) (hp : OneSection pid p)
    (htable : p.byte 5 = tableID) :
    ∃ s, sectionextractorWrite ctx [p] false = some s ∧ s.complete = true ∧
      s.crcValid = passes p ∧ Between pid tableID true s.ctx := by
  obtain ⟨t, n, hsingle⟩ := hp
  obtain rfl : t = tableID := hsingle.table.symm.trans htable
  obtain ⟨s, hs, hcomplete, -, -, hcrc⟩ := hsingle.extracted h.pid_eq h.table_eq
    ⟨h.appending, h.complete⟩ h.inv.length_buf false
  obtain ⟨happending, hwaiting⟩ :=
    waiting_of_complete (hsingle.pid_eq.trans h.pid_eq.symm) hs hcomplete
  have hinv : Inv s.ctx := @inv_callStep ctx (.write [p] false)
    (s.ctx, .written s.complete s.crcValid s.ret) h.inv (by rw [callStep, hs]; rfl)
  refine ⟨s, hs, hcomplete, ?_, ⟨?_, happending, hwaiting, hinv⟩⟩
  · rw [hcrc, passes, hsingle.length]
  · have hone := @sectionextractorWriteOne_of_write ctx ⟨p, []⟩ false s hs
    rw [wanted_sectionextractorWriteOne hone, h.wanted_eq]

/-- An extractor alone with packets of one section each: every section of its table is checked
that does not come right behind a checked one. -/
theorem Between.feed {ws : List Window}
    (hws : ∀ w ∈ ws, OneSection pid w.packet) (context : CbContext) :
    ∀ {ctx waiting}, Between pid tableID waiting ctx → ∃ ctx' reports,
      feedWindows ctx ws = some (ctx', reports) ∧
        verdicts context reports =
          (checkedFrom tableID waiting (ws.map Window.packet)).map fun p ↦
            ⟨cbCrcStatus, context, passes p⟩ := by
  induction ws with
  | nil =>
      intro ctx waiting _
      exact ⟨ctx, [], rfl, by cases waiting <;> rfl⟩
  | cons w rest ih =>
      intro ctx waiting h
      obtain ⟨hp, hrest⟩ := List.forall_mem_cons.mp hws
      have hstep : ∃ s waiting', sectionextractorWrite ctx [w.packet] false = some s ∧
          Between pid tableID waiting' s.ctx ∧
            (checkedFrom tableID waiting (w.packet :: rest.map Window.packet)).map
                (fun p ↦ (⟨cbCrcStatus, context, passes p⟩ : CallbackArgs)) =
              verdicts context [(s.complete, s.crcValid)] ++
                (checkedFrom tableID waiting' (rest.map Window.packet)).map fun p ↦
                  ⟨cbCrcStatus, context, passes p⟩ := by
        cases waiting with
        | true =>
            obtain ⟨s, hs, hnone, hidle⟩ := h.passedOver hp
            exact ⟨s, false, hs, hidle, by simp [checkedFrom, verdicts, hnone]⟩
        | false =>
            by_cases htable : w.packet.byte 5 = tableID
            · obtain ⟨s, hs, hdone, hcrc, hwaiting⟩ := h.ownTable hp htable
              exact ⟨s, true, hs, hwaiting, by simp [checkedFrom, verdicts, hdone, hcrc, htable]⟩
            · obtain ⟨s, hs, hnone, hidle⟩ := h.otherTable hp htable
              exact ⟨s, false, hs, hidle, by simp [checkedFrom, verdicts, hnone, htable]⟩
      obtain ⟨s, waiting', hs, hnext, hverdicts⟩ := hstep
      obtain ⟨ctx', reports, hfeed, hlater⟩ := ih hrest hnext
      refine ⟨ctx', (s.complete, s.crcValid) :: reports, ?_, ?_⟩
      · rw [feedWindows, sectionextractorWriteOne_of_write hs, Option.bind_some, hfeed,
          Option.map_some]
      · rw [List.map_cons, hverdicts, ← hlater, ← verdicts_append]
        rfl

end LtnTsTools.SectionChecks
