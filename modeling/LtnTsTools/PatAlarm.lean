import LtnTsTools.AlarmHysteresis
import LtnTsTools.PriorityOne
import LtnTsTools.SectionCarriage

/-!
# The PAT alarm

P1.3 on a stream with enough packets of pid 0.  The check for the time since the last PAT is
right; the check for the table id takes a byte of every packet of pid 0, whether a section
starts in it or not and wherever its pointer field leads.
-/

namespace LtnTsTools.PriorityOne

open AlarmReporting Ts

/-- A call of `p1_write`, with the stream time of each packet. -/
structure StreamCall where
  stamped : List (Timeval × Packet)
  behind : ℕ → UInt8
  timeNow : Timeval

namespace StreamCall

def packets (c : StreamCall) : List Packet := c.stamped.map Prod.snd

def call (c : StreamCall) : WriteCall := ⟨c.packets, c.behind, c.timeNow⟩

def HasPat (c : StreamCall) : Prop := ∃ p ∈ c.packets, pid p = 0

end StreamCall

/-- The packets come in time, those of pid 0 are not scrambled, and from the first one on the
last one is at most 499 ms old. -/
structure PatStream (calls : List StreamCall) : Prop where
  normal : ∀ c ∈ calls, c.timeNow.Normal
  ordered : calls.Pairwise fun c d ↦ c.timeNow.micros ≤ d.timeNow.micros
  arrived : ∀ c ∈ calls, ∀ x ∈ c.stamped, x.1.micros ≤ c.timeNow.micros
  unscrambled : ∀ c ∈ calls, ∀ p ∈ c.packets, pid p = 0 → transportScramblingControl p = 0
  dense : ∀ before c after, calls = before ++ c :: after →
    (∃ d ∈ before ++ [c], d.HasPat) →
      ∃ d ∈ before ++ [c], ∃ x ∈ d.stamped, pid x.2 = 0 ∧
        c.timeNow.micros ≤ x.1.micros + 499000

def Quiet (actions : List Action) : Prop :=
  ∀ t, ⟨.patError, .alarmRaise t⟩ ∉ actions ∧ ⟨.patError2, .alarmRaise t⟩ ∉ actions

/-- No call raises the events once a PAT has been seen. -/
def NeverRaises (s : Tr101290) (calls : List StreamCall) : Prop :=
  ∀ before c after, calls = before ++ c :: after → (∃ d ∈ before ++ [c], d.HasPat) →
    Quiet (p1Write (p1Writes s (before.map StreamCall.call)) c.call).2

/-- The byte that is taken for the table id is zero in every packet of pid 0. -/
def TableIdsZero (calls : List StreamCall) : Prop :=
  ∀ c ∈ calls, ∀ p rest, p :: rest <:+ c.packets → pid p = 0 →
    getSectionTableid c.behind p rest = 0

instance (calls : List StreamCall) : Decidable (TableIdsZero calls) :=
  decidable_of_iff (∀ c ∈ calls, ∀ packets ∈ c.packets.tails, ∀ p ∈ packets.head?, pid p = 0 →
    getSectionTableid c.behind p packets.tail = 0) <| by
  refine forall₂_congr fun c _ ↦ ⟨fun h p rest hp ↦ ?_, fun h packets hpackets p hhead ↦ ?_⟩
  · exact h (p :: rest) ((List.mem_tails _ _).mpr hp) p rfl
  · have hcons : packets = p :: packets.tail := (List.cons_head?_tail hhead).symm
    rw [hcons] at hpackets
    exact h p packets.tail ((List.mem_tails _ _).mp hpackets)

theorem quiet_patActions_iff (patIssue : ℕ) (timeNow : Timeval) :
    Quiet (patActions patIssue timeNow) ↔ patIssue = 0 := by
  unfold Quiet patActions
  by_cases hissue : patIssue = 0
  · simp [hissue]
  · simp only [if_pos hissue, hissue, iff_false]
    exact fun h ↦ (h timeNow).1 List.mem_cons_self

theorem exists_scanPat_cons {p : Packet} (hpid : pid p = 0) (behind : ℕ → UInt8)
    (rest : List Packet) (r : ℕ × Bool) :
    ∃ issues, scanPat behind r (p :: rest) = scanPat behind (r.1 + issues, true) rest ∧
      (issues = 0 ↔
        getSectionTableid behind p rest = 0 ∧ transportScramblingControl p = 0) := by
  refine ⟨(if getSectionTableid behind p rest ≠ 0 then 1 else 0) +
    if transportScramblingControl p ≠ 0 then 1 else 0, ?_, ?_⟩
  · rw [scanPat, if_pos hpid]
    split_ifs <;> rfl
  · split_ifs with htable hscrambled <;> simp_all

theorem scanPat_cons_of_ne {p : Packet} (hpid : pid p ≠ 0) (behind : ℕ → UInt8)
    (rest : List Packet) (r : ℕ × Bool) :
    scanPat behind r (p :: rest) = scanPat behind r rest := by
  rw [scanPat, if_neg hpid]

theorem scanPat_snd (behind : ℕ → UInt8) (packets : List Packet) :
    ∀ r, (scanPat behind r packets).2 = true ↔ r.2 = true ∨ ∃ p ∈ packets, pid p = 0 := by
  induction packets with
  | nil => simp [scanPat]
  | cons p rest ih =>
      intro r
      rw [List.exists_mem_cons_iff]
      by_cases hpid : pid p = 0
      · obtain ⟨issues, hscan, -⟩ := exists_scanPat_cons hpid behind rest r
        rw [hscan, ih]
        simp [hpid]
      · rw [scanPat_cons_of_ne hpid, ih, or_iff_right hpid]

/-- No issue is found exactly when every packet of pid 0 passes both checks. -/
theorem scanPat_fst (behind : ℕ → UInt8) (packets : List Packet) :
    ∀ r, (scanPat behind r packets).1 = 0 ↔ r.1 = 0 ∧
      ∀ p rest, p :: rest <:+ packets → pid p = 0 →
        getSectionTableid behind p rest = 0 ∧ transportScramblingControl p = 0 := by
  induction packets with
  | nil => simp [scanPat]
  | cons q tail ih =>
      intro r
      have hsuffix : (∀ p rest, p :: rest <:+ q :: tail → pid p = 0 →
            getSectionTableid behind p rest = 0 ∧ transportScramblingControl p = 0) ↔
          (pid q = 0 → getSectionTableid behind q tail = 0 ∧ transportScramblingControl q = 0) ∧
            ∀ p rest, p :: rest <:+ tail → pid p = 0 →
              getSectionTableid behind p rest = 0 ∧ transportScramblingControl p = 0 := by
        constructor
        · intro h
          exact ⟨h q tail List.suffix_rfl,
            fun p rest hp ↦ h p rest (hp.trans (List.suffix_cons q tail))⟩
        · rintro ⟨hq, htail⟩ p rest hp
          rcases List.suffix_cons_iff.mp hp with heq | hp
          · obtain ⟨rfl, rfl⟩ := List.cons.inj heq
            exact hq
          · exact htail p rest hp
      rw [hsuffix]
      by_cases hpid : pid q = 0
      · obtain ⟨issues, hscan, hissues⟩ := exists_scanPat_cons hpid behind tail r
        rw [hscan, ih, Nat.add_eq_zero_iff, hissues, and_assoc, imp_iff_right hpid]
      · rw [scanPat_cons_of_ne hpid, ih, and_iff_right fun h ↦ absurd h hpid]

/-! ## Calls -/

theorem StreamCall.scanPat_snd_iff (c : StreamCall) :
    (scanPat c.behind (0, false) c.packets).2 = true ↔ c.HasPat := by
  rw [scanPat_snd, StreamCall.HasPat]
  simp

theorem p1Write_lastPAT (s : Tr101290) (c : StreamCall) :
    (p1Write s c.call).1.lastPAT =
      if (scanPat c.behind (0, false) c.packets).2 then c.timeNow else s.lastPAT := by
  have hloop := foldl_syncPacket_lastPAT c.timeNow c.packets { s with now := c.timeNow }
  simp only [p1Write, p1ProcessP13, Tr101290.alarms, StreamCall.call, hloop]

/-- A call is quiet when its packets pass the checks and the last PAT is recent. -/
theorem quiet_p1Write_iff (s : Tr101290) (c : StreamCall) :
    Quiet (p1Write s c.call).2 ↔
      (∀ p rest, p :: rest <:+ c.packets → pid p = 0 →
        getSectionTableid c.behind p rest = 0 ∧ transportScramblingControl p = 0) ∧
      (¬c.HasPat → timerGe c.timeNow (timeradd s.lastPAT ⟨0, 500 * 1000⟩) = false) := by
  have hloop := foldl_syncPacket_lastPAT c.timeNow c.packets { s with now := c.timeNow }
  have hissues := scanPat_fst c.behind c.packets (0, false)
  simp only [true_and] at hissues
  simp only [p1Write, p1ProcessP13, StreamCall.call, hloop, quiet_patActions_iff]
  rw [← c.scanPat_snd_iff, ← hissues]
  cases hgot : (scanPat c.behind (0, false) c.packets).2 with
  | true => simp
  | false =>
      cases hlate : timerGe c.timeNow (timeradd s.lastPAT ⟨0, 500 * 1000⟩) <;> simp

/-- Behind calls in order of time, `lastPAT` is the time of the last call with a PAT. -/
theorem exists_lastPAT (s : Tr101290) {calls : List StreamCall}
    (hordered : calls.Pairwise fun c d ↦ c.timeNow.micros ≤ d.timeNow.micros)
    (hpat : ∃ c ∈ calls, c.HasPat) :
    ∃ c ∈ calls, (p1Writes s (calls.map StreamCall.call)).lastPAT = c.timeNow ∧
      ∀ d ∈ calls, d.HasPat → d.timeNow.micros ≤ c.timeNow.micros := by
  induction calls using List.reverseRecOn with
  | nil => simp at hpat
  | append_singleton calls last ih =>
      obtain ⟨hbefore, -, hlast⟩ := List.pairwise_append.mp hordered
      have hstate : (p1Writes s ((calls ++ [last]).map StreamCall.call)).lastPAT =
          if (scanPat last.behind (0, false) last.packets).2 then last.timeNow
          else (p1Writes s (calls.map StreamCall.call)).lastPAT := by
        rw [← p1Write_lastPAT, p1Writes, List.map_append, List.foldl_append]
        rfl
      by_cases hhas : last.HasPat
      · refine ⟨last, by simp, ?_, ?_⟩
        · rw [hstate, if_pos (last.scanPat_snd_iff.mpr hhas)]
        · intro d hd _
          rcases List.mem_append.mp hd with hd | hd
          · exact hlast d hd last List.mem_cons_self
          · rw [List.mem_singleton.mp hd]
      · have hpat' : ∃ c ∈ calls, c.HasPat := by
          obtain ⟨c, hc, hcpat⟩ := hpat
          rcases List.mem_append.mp hc with hc | hc
          · exact ⟨c, hc, hcpat⟩
          · exact absurd (List.mem_singleton.mp hc ▸ hcpat) hhas
        obtain ⟨c, hc, htime, hlatest⟩ := ih hbefore hpat'
        refine ⟨c, List.mem_append_left _ hc, ?_, ?_⟩
        · rw [hstate, if_neg (fun h ↦ hhas (last.scanPat_snd_iff.mp h)), htime]
        · intro d hd hdpat
          rcases List.mem_append.mp hd with hd | hd
          · exact hlatest d hd hdpat
          · exact absurd (List.mem_singleton.mp hd ▸ hdpat) hhas

/-- Half a second has not passed since the last PAT of such a stream. -/
theorem PatStream.timerGe_eq_false {before after : List StreamCall} {c : StreamCall}
    (h : PatStream (before ++ c :: after)) (hpat : ∃ d ∈ before ++ [c], d.HasPat)
    (hno : ¬c.HasPat) (s : Tr101290) :
    timerGe c.timeNow
      (timeradd (p1Writes s (before.map StreamCall.call)).lastPAT ⟨0, 500 * 1000⟩) = false := by
  have hbefore : before.Pairwise fun c d ↦ c.timeNow.micros ≤ d.timeNow.micros :=
    (List.pairwise_append.mp h.ordered).1
  have hinside : ∀ d ∈ before ++ [c], d.HasPat → d ∈ before := by
    intro d hd hdpat
    rcases List.mem_append.mp hd with hd | hd
    · exact hd
    · exact absurd (List.mem_singleton.mp hd ▸ hdpat) hno
  have hpat' : ∃ d ∈ before, d.HasPat := by
    obtain ⟨d, hd, hdpat⟩ := hpat
    exact ⟨d, hinside d hd hdpat, hdpat⟩
  obtain ⟨last, hlast, htime, hlatest⟩ := exists_lastPAT s hbefore hpat'
  obtain ⟨d, hd, x, hx, hpid, hage⟩ := h.dense before c after rfl hpat
  have hdpat : d.HasPat := ⟨x.2, List.mem_map_of_mem hx, hpid⟩
  have hmem := List.mem_append_left (c :: after) (hinside d hd hdpat)
  have harrived := h.arrived d hmem x hx
  have hle := hlatest d (hinside d hd hdpat) hdpat
  have hnormal := h.normal last (List.mem_append_left _ hlast)
  have hnow := h.normal c (by simp)
  have hhalf : (⟨0, 500 * 1000⟩ : Timeval).Normal := by decide
  rw [htime, Bool.eq_false_iff, ne_eq, timerGe_iff hnow (normal_timeradd hnormal hhalf),
    micros_timeradd]
  have hmicros : (⟨0, 500 * 1000⟩ : Timeval).micros = 500000 := by decide
  omega

/-- On a stream with enough packets of pid 0, P1.3 never raises its events exactly when the
byte taken for the table id is always zero. -/
theorem pat_alarms_iff (s : Tr101290) (calls : List StreamCall) (hstream : PatStream calls) :
    NeverRaises s calls ↔ TableIdsZero calls := by
  constructor
  · intro h c hc p rest hp hpid
    obtain ⟨before, after, rfl⟩ := List.append_of_mem hc
    have hpat : ∃ d ∈ before ++ [c], d.HasPat :=
      ⟨c, by simp, p, hp.subset List.mem_cons_self, hpid⟩
    have hquiet := h before c after rfl hpat
    exact (((quiet_p1Write_iff _ c).mp hquiet).1 p rest hp hpid).1
  · rintro h before c after rfl hpat
    have hc : c ∈ before ++ c :: after := by simp
    refine (quiet_p1Write_iff _ c).mpr ⟨fun p rest hp hpid ↦ ⟨h c hc p rest hp hpid, ?_⟩, ?_⟩
    · exact hstream.unscrambled c hc p (hp.subset List.mem_cons_self) hpid
    · exact fun hno ↦ hstream.timerGe_eq_false hpat hno s

/-- The byte that is taken for the table id is the second one of the payload. -/
theorem getSectionTableid_eq (behind : ℕ → UInt8) {p : Packet} (h : payloadOffset p + 1 < 188)
    (rest : List Packet) : getSectionTableid behind p rest = p.byte (payloadOffset p + 1) := by
  have hoffset : (if hasAdaption p then 5 + 1 + adaptionFieldLength p else 5) =
      payloadOffset p + 1 := by
    unfold payloadOffset
    split_ifs <;> omega
  simp only [getSectionTableid, hoffset, bufferByte, Nat.div_eq_of_lt h, Nat.mod_eq_of_lt h,
    List.getElem?_cons_zero]

/-- The check is right for a packet in which a section begins behind a pointer field of zero. -/
theorem getSectionTableid_of_start (behind : ℕ → UInt8) (x : SectionExtractor.Part 0 0)
    (hstarts : x.load.starts ≠ []) (hpointer : x.packet.byte (payloadOffset x.packet) = 0)
    (rest : List Packet) : getSectionTableid behind x.packet rest = 0 := by
  have hstart : SectionExtractor.startOf x.packet = payloadOffset x.packet + 1 := by
    have hindicator : payloadUnitStartIndicator x.packet = true := by simp [x.start_iff, hstarts]
    rw [SectionExtractor.startOf, if_pos hindicator, hpointer]
  obtain ⟨y, later, hcons⟩ := List.exists_cons_of_ne_nil hstarts
  have hpos : y.pos = 0 := x.load.starts_pos y (by simp [hcons])
  have hy : y ∈ x.load.front := by simp [SectionExtractor.Load.front, hcons]
  have hbyte := x.byte_eq hy y.carried_pos
  rw [hpos, Nat.add_zero, Nat.add_zero, y.source.tableID_eq] at hbyte
  have hcarried := y.carried_pos
  have hin := x.carried_le hy
  rw [getSectionTableid_eq behind (by omega), ← hstart, hbyte]

/-! ## A section in two packets -/

def spannedPat : SectionExtractor.TableSection 0 where
  bytes := [0x00, 0xb0, 0x0d, 0x00, 0x01, 0xc1, 0x00, 0x00, 0x00, 0x01, 0xf0, 0x00, 0x2a, 0xb1,
    0x04, 0xb2]
  tableID_eq := by decide
  length_eq := by decide
  length_le := by decide

def spannedHead : SectionExtractor.Part 0 0 where
  packet := ⟨[0x47, 0x40, 0x00, 0x30, 174, 0x00] ++ List.replicate 173 0xff ++
    0x00 :: spannedPat.bytes.take 8, rfl⟩
  load := ⟨none, [⟨spannedPat, 0, 8, by decide, by decide⟩], by decide, by decide⟩
  sync := by decide +kernel
  pid_eq := by decide +kernel
  start_iff := by decide +kernel
  pointer_eq := by decide +kernel
  fits := by decide +kernel
  payload_eq := by decide +kernel
  full := by decide +kernel

def spannedTail : SectionExtractor.Part 0 0 where
  packet := ⟨[0x47, 0x00, 0x00, 0x11] ++ spannedPat.bytes.drop 8 ++ List.replicate 176 0xff, rfl⟩
  load := ⟨some ⟨spannedPat, 8, 8, by decide, by decide⟩, [], by decide, by decide⟩
  sync := by decide +kernel
  pid_eq := by decide +kernel
  start_iff := by decide +kernel
  pointer_eq := by decide +kernel
  fits := by decide +kernel
  payload_eq := by decide +kernel
  full := by decide +kernel

/-- A call for each half, 100 ms apart. -/
def spannedCalls : List StreamCall :=
  [⟨[(⟨1000, 0⟩, spannedHead.packet)], fun _ ↦ 0, ⟨1000, 0⟩⟩,
    ⟨[(⟨1000, 100000⟩, spannedTail.packet)], fun _ ↦ 0, ⟨1000, 100000⟩⟩]

theorem patStream_spannedCalls : PatStream spannedCalls where
  normal := by decide
  ordered := by decide
  arrived := by decide
  unscrambled := by decide +kernel
  dense := by
    intro before c after hcalls _
    have hc : c ∈ spannedCalls := by simp [hcalls]
    have hfresh : ∀ c ∈ spannedCalls, ∃ x ∈ c.stamped, pid x.2 = 0 ∧
        c.timeNow.micros ≤ x.1.micros + 499000 := by decide +kernel
    exact ⟨c, by simp, hfresh c hc⟩

def wholePat : Packet :=
  ⟨[0x47, 0x40, 0x00, 0x10, 0x00] ++ spannedPat.bytes ++ List.replicate 167 0xff, rfl⟩

/-- The PAT behind a packet of another pid, and once more 400 ms later. -/
def wholeCalls : List StreamCall :=
  [⟨[(⟨1000, 0⟩, ((Packet.filled 0).set 0 0x47).set 2 0x31), (⟨1000, 0⟩, wholePat)], fun _ ↦ 0,
      ⟨1000, 0⟩⟩,
    ⟨[(⟨1000, 400000⟩, wholePat)], fun _ ↦ 0, ⟨1000, 400000⟩⟩]

theorem pat_alarms_iff_whole : NeverRaises tr101290Alloc wholeCalls := by
  have hstream : PatStream wholeCalls :=
    { normal := by decide
      ordered := by decide
      arrived := by decide
      unscrambled := by decide +kernel
      dense := by
        intro before c after hcalls _
        have hc : c ∈ wholeCalls := by simp [hcalls]
        have hfresh : ∀ c ∈ wholeCalls, ∃ x ∈ c.stamped, pid x.2 = 0 ∧
            c.timeNow.micros ≤ x.1.micros + 499000 := by decide +kernel
        exact ⟨c, by simp, hfresh c hc⟩ }
  exact (pat_alarms_iff tr101290Alloc wholeCalls hstream).mpr (by decide +kernel)

/-- The second half of a PAT raises the alarms. -/
theorem pat_alarm_spurious :
    SectionExtractor.Conforming [spannedHead, spannedTail] ∧
      Crc32.checkCRC32 spannedPat.bytes = true ∧
        spannedCalls.flatMap StreamCall.packets = [spannedHead, spannedTail].map (·.packet) ∧
          PatStream spannedCalls ∧ ¬NeverRaises tr101290Alloc spannedCalls := by
  refine ⟨by decide +kernel, by decide +kernel, rfl, patStream_spannedCalls, fun h ↦ ?_⟩
  have hquiet := h (spannedCalls.take 1) _ [] rfl ⟨_, List.mem_cons_self, spannedHead.packet,
    List.mem_cons_self, by decide +kernel⟩
  have hzero := ((quiet_p1Write_iff _ _).mp hquiet).1 spannedTail.packet [] List.suffix_rfl
    (by decide +kernel)
  exact absurd hzero.1 (by decide +kernel)

end LtnTsTools.PriorityOne
