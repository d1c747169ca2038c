import LtnTsTools.ModelDecoders

/-!
# Generated tables in packets

What a program table must be for the generators of `pat.c` to write it to packets that a decoder can
read, and the packets that are still to come of such a table.
-/

namespace LtnTsTools.StreamModel

open Psi

variable {L : Library}

/-! ## Packets with a whole section -/

/-- The packet holds a section from its first byte to its checksum, which is right. -/
def Whole (pid tableID : ℕ) (p : Packet) : Prop :=
  ∃ total, SingleSection pid tableID total p ∧
    Crc32.checkCRC32 ((p.bytes.drop 5).take total) = true

structure Library.Reads (L : Library) : Prop extends L.Correct where
  readsPat : ∀ p table, Whole 0 0x00 p → readPat (sectionBytes p) = some table →
    (L.push .pat (L.new .pat) p).2 = [.pat table]
  readsPmt : ∀ n pid p table, Whole pid 0x02 p → readPmt (sectionBytes p) = some table →
    table.programNumber = n → (L.push (.pmt n) (L.new (.pmt n)) p).2 = [.pmt table]

theorem onePacketLibrary_reads : onePacketLibrary.Reads where
  toCorrect := onePacketLibrary_correct
  readsPat := by
    intro p table _ hread
    simp [onePacketLibrary, report, hread]
  readsPmt := by
    rintro n pid p table _ hread rfl
    simp [onePacketLibrary, report, hread, Option.filter]

def patTable (pat : Pat) : PatContent where
  transportStreamId := pat.transportStreamId
  versionNumber := pat.versionNumber
  currentNextIndicator := pat.currentNextIndicator
  programs := pat.programs.map fun x ↦ (x.programNumber, x.programMapPID)

theorem whole_of_single {pid tableID lengthField : ℕ} {bytes : List UInt8} {p : Packet}
    (hsingle : SingleSection pid tableID (lengthField + 3) p)
    (hlength : bytes.length + 1 = lengthField)
    (hdrop : p.bytes.drop 5 = sealed bytes ++ List.replicate (188 - (bytes.length + 9)) 0xff) :
    Whole pid tableID p := by
  refine ⟨lengthField + 3, hsingle, ?_⟩
  rw [hdrop, List.take_left' (by rw [length_sealed]; omega)]
  exact Crc32.checkCRC32_append bytes

/-- The packet of a program association table that can be recovered. -/
theorem patCreate_carries {pat : Pat} {cc : ℕ} {base p : Packet} (hrec : PatRecoverable pat)
    (hfits : pat.programs.length ≤ 42) (hp : patCreatePacketTs pat cc base 188 = some (0, p)) :
    Whole 0 0x00 p ∧ readPat (sectionBytes p) = some (patTable pat) := by
  obtain ⟨q, hq, hsingle, hdrop⟩ := pat_created cc base hfits
  obtain ⟨r, hr, hread⟩ := (patDecodesBack_iff hfits).mpr hrec
  have hlen := length_patSection pat
  rw [hp] at hq
  obtain rfl : p = q := (Prod.mk.inj (Option.some.inj hq)).2
  rw [hp] at hr
  obtain rfl : p = r := (Prod.mk.inj (Option.some.inj hr)).2
  exact ⟨whole_of_single hsingle (by omega) hdrop, hread⟩

/-- The packet of a program map table that can be recovered. -/
theorem pmtCreate_carries {pmt : Pmt} {pid cc : ℕ} {base p : Packet} (hrec : PmtRecoverable pmt)
    (hpid : pid ≤ 0x1fff) (hfits : pmtPacketSize pmt ≤ 188)
    (hp : pmtCreatePacketTs pmt pid cc base 188 = some (0, p)) :
    Whole pid 0x02 p ∧ readPmt (sectionBytes p) = some (pmtTable pmt) := by
  obtain ⟨q, hq, hsingle, hdrop⟩ := pmt_created cc base hpid hfits
  obtain ⟨r, hr, hread⟩ := (pmtDecodesBack_iff hfits).mpr hrec
  rw [hp] at hq
  obtain rfl : p = q := (Prod.mk.inj (Option.some.inj hq)).2
  rw [hp] at hr
  obtain rfl : p = r := (Prod.mk.inj (Option.some.inj hr)).2
  exact ⟨whole_of_single hsingle (length_pmtSection_eq pmt) hdrop, hread⟩

/-! ## Tables -/

theorem descriptorContent_injective : Function.Injective descriptorContent := by
  rintro ⟨tag, data, hdata⟩ ⟨tag', data', hdata'⟩ h
  obtain ⟨rfl, rfl⟩ := Prod.mk.inj h
  rfl

theorem descriptorArray_injective {a b : DescriptorList}
    (h : a.array.map descriptorContent = b.array.map descriptorContent) : a = b := by
  obtain ⟨as, ha⟩ := a
  obtain ⟨bs, hb⟩ := b
  obtain rfl : as = bs := descriptorContent_injective.list_map h
  rfl

theorem entryTable_injective : Function.Injective entryTable := by
  rintro ⟨type, pid, list⟩ ⟨type', pid', list'⟩ h
  obtain ⟨rfl, rfl, hlist⟩ := StreamContent.mk.inj h
  obtain rfl := descriptorArray_injective hlist
  rfl

theorem pmtTable_injective : Function.Injective pmtTable := by
  rintro ⟨version, number, current, pcr, streams, list, hlen⟩
    ⟨version', number', current', pcr', streams', list', hlen'⟩ h
  obtain ⟨rfl, rfl, rfl, rfl, hlist, hstreams⟩ := PmtContent.mk.inj h
  obtain rfl := descriptorArray_injective hlist
  obtain rfl := entryTable_injective.list_map hstreams
  rfl

theorem pmtFits_pmtTable (pmt : Pmt) : PmtFits (pmtTable pmt) := by
  have hlist : ∀ list : DescriptorList, DescriptorsFit (list.array.map descriptorContent) := by
    intro list
    refine ⟨(List.length_map _).trans_le list.length_array, fun d hd ↦ ?_⟩
    obtain ⟨x, -, rfl⟩ := List.mem_map.mp hd
    exact x.length_data
  refine ⟨(List.length_map _).trans_le pmt.length_streams, hlist pmt.descrList, fun s hs ↦ ?_⟩
  obtain ⟨e, -, rfl⟩ := List.mem_map.mp hs
  exact hlist e.descrList

theorem fillPmt_pmtTable (pmt : Pmt) : fillPmt zeroPmt (pmtTable pmt) = pmt :=
  pmtTable_injective (pmtTable_fillPmt (pmtFits_pmtTable pmt))

/-- A table that the generators can write and the stream model can take up: it fits its packets,
its values fit their fields, and its programs have numbers and pids of their own. -/
structure Generable (pat : Pat) : Prop where
  recoverable : PatRecoverable pat
  length_le : pat.programs.length ≤ 42
  maps : ∀ x ∈ pat.programs, 0 < x.programNumber →
    PmtRecoverable x.pmt ∧ pmtPacketSize x.pmt ≤ 188
  /-- The network pid has no program map table. -/
  network : ∀ x ∈ pat.programs, x.programNumber = 0 → x.pmt = zeroPmt
  numbers : (pat.programs.map PatProgram.programNumber).Nodup
  pids : (pat.programs.map PatProgram.programMapPID).Nodup
  apart : ∀ x ∈ pat.programs, x.programMapPID ≠ 0 ∧ x.programMapPID ≠ 0x11
  some_program : ∃ x ∈ pat.programs, 0 < x.programNumber

namespace Generable

variable {pat : Pat} (h : Generable pat)

include h

theorem pmt_number {x : PatProgram} (hx : x ∈ pat.programs) (hpos : 0 < x.programNumber) :
    x.pmt.programNumber = x.programNumber := by
  have hmod := (h.recoverable.programs x hx).1
  rwa [Nat.mod_eq_of_lt (h.maps x hx hpos).1.program] at hmod

theorem eq_of_pid {x y : PatProgram} (hx : x ∈ pat.programs) (hy : y ∈ pat.programs)
    (hpid : x.programMapPID = y.programMapPID) : x = y :=
  List.inj_on_of_nodup_map h.pids hx hy hpid

theorem patFits : PatFits (patTable pat) := by
  refine ⟨?_, ?_⟩
  · rw [patTable, List.length_map]
    exact pat.length_programs
  · have hall : ((patTable pat).programs.map Prod.fst).Nodup := by
      rw [patTable, List.map_map]
      exact h.numbers
    exact hall.sublist (List.filter_sublist.map Prod.fst)

theorem table_pids : ((patTable pat).programs.map Prod.snd).Nodup := by
  rw [patTable, List.map_map]
  exact h.pids

end Generable

theorem mem_programsOf {pat : Pat} {program : ℕ × ℕ} :
    program ∈ programsOf (patTable pat) ↔ ∃ x ∈ pat.programs,
      0 < x.programNumber ∧ (x.programNumber, x.programMapPID) = program := by
  rw [programsOf, List.mem_filter, patTable, List.mem_map]
  constructor
  · rintro ⟨⟨x, hx, rfl⟩, hpos⟩
    exact ⟨x, hx, of_decide_eq_true hpos, rfl⟩
  · rintro ⟨x, hx, hpos, rfl⟩
    exact ⟨⟨x, hx, rfl⟩, decide_eq_true hpos⟩

/-! ## Packets to come -/

def onPid (pid : ℕ) (pkts : List Packet) : List Packet := pkts.filter fun p ↦ Ts.pid p = pid

def BringsMap (x : PatProgram) (p : Packet) : Prop :=
  Whole x.programMapPID 0x02 p ∧ readPmt (sectionBytes p) = some (pmtTable x.pmt)

def Seen (reported : List (ℕ × PmtContent)) (x : PatProgram) : Prop :=
  (x.programNumber, x.programMapPID) ∈ reported.map programOf

/-- Behind the program association table there is a packet for every program that has not been
reported, and none for the others. -/
structure Due (pat : Pat) (reported : List (ℕ × PmtContent)) (pkts : List Packet) : Prop where
  nonzero : ∀ p ∈ pkts, Ts.pid p ≠ 0
  done : ∀ x ∈ pat.programs, 0 < x.programNumber → Seen reported x → onPid x.programMapPID pkts = []
  due : ∀ x ∈ pat.programs, 0 < x.programNumber → ¬Seen reported x →
    ∃ p, onPid x.programMapPID pkts = [p] ∧ BringsMap x p

/-- The packets of a whole table: packets of other pids than 0, the program association table, and
what is due behind it. -/
def Cycle (pat : Pat) : List Packet → Prop
  | [] => False
  | p :: rest =>
      if Ts.pid p = 0 then
        (Whole 0 0x00 p ∧ readPat (sectionBytes p) = some (patTable pat)) ∧ Due pat [] rest
      else Cycle pat rest

theorem onPid_cons (pid : ℕ) (p : Packet) (rest : List Packet) :
    onPid pid (p :: rest) = if Ts.pid p = pid then p :: onPid pid rest else onPid pid rest := by
  rw [onPid, List.filter_cons]
  split_ifs with h h' h'
  · rfl
  · exact absurd (of_decide_eq_true h) h'
  · exact absurd (decide_eq_true h') h
  · rfl

theorem Due.skip {pat : Pat} {reported : List (ℕ × PmtContent)} {p : Packet} {rest : List Packet}
    (h : Due pat reported (p :: rest))
    (hp : ∀ x ∈ pat.programs, 0 < x.programNumber → Ts.pid p ≠ x.programMapPID) :
    Due pat reported rest where
  nonzero := fun q hq ↦ h.nonzero q (List.mem_cons_of_mem p hq)
  done := by
    intro x hx hpos hseen
    have hall := h.done x hx hpos hseen
    rwa [onPid_cons, if_neg (hp x hx hpos)] at hall
  due := by
    intro x hx hpos hseen
    have hall := h.due x hx hpos hseen
    rwa [onPid_cons, if_neg (hp x hx hpos)] at hall

theorem Due.take {pat : Pat} (hpat : Generable pat) {reported : List (ℕ × PmtContent)} {p : Packet}
    {rest : List Packet} (h : Due pat reported (p :: rest)) {x : PatProgram} (hx : x ∈ pat.programs)
    (hpos : 0 < x.programNumber) (hp : Ts.pid p = x.programMapPID) :
    ¬Seen reported x ∧ BringsMap x p ∧
      Due pat ((x.programMapPID, pmtTable x.pmt) :: reported) rest := by
  have hnot : ¬Seen reported x := by
    intro hseen
    have hnil := h.done x hx hpos hseen
    rw [onPid_cons, if_pos hp] at hnil
    exact List.cons_ne_nil _ _ hnil
  obtain ⟨q, hq, hbrings⟩ := h.due x hx hpos hnot
  rw [onPid_cons, if_pos hp, List.cons.injEq] at hq
  obtain ⟨rfl, hnil⟩ := hq
  have hnumber : programOf (x.programMapPID, pmtTable x.pmt) = (x.programNumber, x.programMapPID) :=
    Prod.ext (hpat.pmt_number hx hpos) rfl
  have hother : ∀ y ∈ pat.programs, y ≠ x → Ts.pid p ≠ y.programMapPID :=
    fun y hy hne hpid ↦ hne (hpat.eq_of_pid hy hx (hpid.symm.trans hp))
  have hseen : ∀ y, Seen ((x.programMapPID, pmtTable x.pmt) :: reported) y ↔
      (y.programNumber, y.programMapPID) = (x.programNumber, x.programMapPID) ∨
        Seen reported y := by
    intro y
    rw [Seen, List.map_cons, List.mem_cons, hnumber]
    rfl
  refine ⟨hnot, hbrings, fun r hr ↦ h.nonzero r (List.mem_cons_of_mem p hr), ?_, ?_⟩
  · intro y hy hypos hyseen
    by_cases hyx : y = x
    · rw [hyx]
      exact hnil
    · have hold : Seen reported y := by
        refine ((hseen y).mp hyseen).resolve_left fun heq ↦ hyx ?_
        exact hpat.eq_of_pid hy hx (Prod.mk.inj heq).2
      have hall := h.done y hy hypos hold
      rwa [onPid_cons, if_neg (hother y hy hyx)] at hall
  · intro y hy hypos hyseen
    have hyx : y ≠ x := by
      rintro rfl
      exact hyseen ((hseen y).mpr (.inl rfl))
    have hall := h.due y hy hypos fun hold ↦ hyseen ((hseen y).mpr (.inr hold))
    rwa [onPid_cons, if_neg (hother y hy hyx)] at hall

end LtnTsTools.StreamModel
