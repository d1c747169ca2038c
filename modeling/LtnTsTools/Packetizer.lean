import LtnTsTools.CTypes
import LtnTsTools.TransportPacket

/-!
# The packetizer

The model of `ltntstools_ts_packetizer_with_pcr`.  Each turn of its loop clears
one row of the output array, writes the header, chooses one of six shapes for
the adaption field and copies as much of the buffer as that shape leaves room
for.  The rows left in the array are an argument of the loop: running out of
them is a store outside the allocation, and the result is then `none`, as it is
for rejected arguments.
-/

namespace LtnTsTools.Packetizer

/-- The arguments of one call that every packet of it shares. -/
structure Request where
  pid : ℕ
  pcr : ℤ
  randomAccessIndicator : Bool
  elementaryStreamPriorityIndicator : Bool
  /-- `pcr` is an `int64_t`. -/
  pcr_range : -2 ^ 63 ≤ pcr ∧ pcr < 2 ^ 63

def needPCR (r : Request) (firstPacket : Bool) : Bool := r.pcr != -1 && firstPacket

def needIndicators (r : Request) (firstPacket : Bool) : Bool :=
  firstPacket && (r.randomAccessIndicator || r.elementaryStreamPriorityIndicator)

def afFlags (r : Request) (firstPacket : Bool) : ℕ :=
  (if needPCR r firstPacket then 0x10 else 0) |||
    (if firstPacket && r.randomAccessIndicator then 0x40 else 0) |||
      if firstPacket && r.elementaryStreamPriorityIndicator then 0x20 else 0

/-- The cleared row with its first four bytes. -/
def packetHeader (r : Request) (cc : ℕ) (firstPacket : Bool) : Packet :=
  let p := ((((Packet.filled 0xff).set 0 0x47).set 1 ((r.pid >>> 8) &&& 0x1f)).set 2
    (r.pid &&& 0xff)).set 3 (cc &&& 0x0f)
  if firstPacket then p.set 1 (p.byte 1 ||| 0x40) else p

/-- The clock reference at offset 6. -/
def writePcr (p : Packet) (pcr : ℤ) : Packet :=
  let base := uint64 (pcr.tdiv 300)
  let ext := uint64 (pcr.tmod 300)
  (((((p.set 6 ((base >>> 25) &&& 0xff)).set 7 ((base >>> 17) &&& 0xff)).set 8
    ((base >>> 9) &&& 0xff)).set 9 ((base >>> 1) &&& 0xff)).set 10
      (((base &&& 0x1) <<< 7) ||| 0x7e ||| ((ext >>> 8) &&& 0x01))).set 11 (ext &&& 0xff)

/-- The adaption field in front of `rem` remaining bytes: the packet, the offset
of its payload and the number of bytes it takes. -/
def packetShape (r : Request) (firstPacket : Bool) (p : Packet) (rem : ℕ) : Packet × ℕ × ℕ :=
  if needPCR r firstPacket then
    let p := p.set 3 (p.byte 3 ||| 0x30)
    if rem ≥ 176 then
      (writePcr ((p.set 4 7).set 5 (afFlags r firstPacket)) r.pcr, 12, 176)
    else
      let adaptationFieldLength := 183 - rem
      let off := 4 + 1 + adaptationFieldLength
      (writePcr (((p.set 4 adaptationFieldLength).set 5 (afFlags r firstPacket)).setRange
        12 off 0xff) r.pcr, off, rem)
  else if needIndicators r firstPacket then
    let p := p.set 3 (p.byte 3 ||| 0x30)
    if rem ≥ 182 then
      ((p.set 4 1).set 5 (afFlags r firstPacket), 6, 182)
    else
      let adaptationFieldLength := 183 - rem
      let off := 4 + 1 + adaptationFieldLength
      (((p.set 4 adaptationFieldLength).set 5 (afFlags r firstPacket)).setRange 6 off 0xff,
        off, rem)
  else if rem ≥ 184 then
    (p.set 3 (p.byte 3 ||| 0x10), 4, 184)
  else
    let adaptationFieldLength := 183 - rem
    let off := 4 + 1 + adaptationFieldLength
    let p := (p.set 3 (p.byte 3 ||| 0x30)).set 4 adaptationFieldLength
    (if adaptationFieldLength > 0 then (p.set 5 0x00).setRange 6 off 0xff else p, off, rem)

/-- The loop, with the rows still free in the output array.  The row address
`cnt * packetSize` is an `unsigned int`; a count at which it would wrap is left
undefined. -/
def packetizeLoop (r : Request) : ℕ → ℕ → ℕ → List UInt8 → Option (List Packet × ℕ)
  | _, _, cc, [] => some ([], cc)
  | 0, _, _, _ :: _ => none
  | rows + 1, cnt, cc, b :: bs =>
      let rest := b :: bs
      let firstPacket := cnt == 0
      let shape := packetShape r firstPacket (packetHeader r cc firstPacket) rest.length
      if 2 ^ 32 ≤ cnt * 188 then none
      else (shape.1.copyIn shape.2.1 (rest.take shape.2.2)).bind fun pkt ↦
        (packetizeLoop r rows (cnt + 1) ((cc + 1) &&& 0x0f) (rest.drop shape.2.2)).map fun out ↦
          (pkt :: out.1, out.2)

/-- Rows allocated for the output, in `unsigned int` arithmetic. -/
def maxPackets (byteCount : ℕ) : ℕ := ((byteCount + 175) % 2 ^ 32 / 176 + 2) % 2 ^ 32

def tsPacketizerWithPcr (buf : List UInt8) (packetSize : ℤ) (cc : ℕ) (r : Request) :
    Option (List Packet × ℕ) :=
  if buf.length = 0 ∨ packetSize ≠ 188 ∨ r.pid > 0x1fff then none
  else packetizeLoop r (maxPackets buf.length) 0 cc buf

/-! ## One packet -/

theorem packetHeader_bytes (r : Request) (cc : ℕ) (first : Bool) :
    (packetHeader r cc first).byte 0 = 0x47 ∧
    (packetHeader r cc first).byte 1 = r.pid / 256 % 32 + (if first then 64 else 0) ∧
    (packetHeader r cc first).byte 2 = r.pid % 256 ∧
    (packetHeader r cc first).byte 3 = cc % 16 := by
  have hhigh : (r.pid >>> 8) &&& 0x1f = r.pid / 256 % 32 := by
    rw [Nat.shiftRight_eq_div_pow, and_1f]
  have hor : ∀ b < 32, b ||| 0x40 = b + 64 := by decide
  have hmod : r.pid / 256 % 32 % 256 = r.pid / 256 % 32 := by omega
  unfold packetHeader
  simp only [hhigh, and_ff, and_f]
  cases first with
  | false => simp [hmod]; omega
  | true =>
      simp [hmod, hor (r.pid / 256 % 32) (Nat.mod_lt _ (by norm_num))]
      omega

theorem byte_writePcr_of_lt {p : Packet} {pcr : ℤ} {j : ℕ} (h : j < 6) :
    (writePcr p pcr).byte j = p.byte j := by
  unfold writePcr
  simp only
  rw [Packet.byte_set_ne (by omega), Packet.byte_set_ne (by omega),
    Packet.byte_set_ne (by omega), Packet.byte_set_ne (by omega),
    Packet.byte_set_ne (by omega), Packet.byte_set_ne (by omega)]

/-- A clock value below `2^33` ticks of the base is read back as written. -/
theorem pcrToScr_writePcr (p : Packet) {pcr : ℤ} (hpcr : 0 ≤ pcr) (hmax : pcr < 2 ^ 63) :
    (Ts.pcrToScr (writePcr p pcr) 6 : ℤ) = pcr % (300 * 2 ^ 33) := by
  obtain ⟨t, rfl⟩ := Int.eq_ofNat_of_zero_le hpcr
  have hbase : uint64 ((t : ℤ).tdiv 300) = t / 300 := by
    rw [uint64, Int.tdiv_eq_ediv_of_nonneg hpcr]
    omega
  have hext : uint64 ((t : ℤ).tmod 300) = t % 300 := by
    rw [uint64, Int.tmod_eq_emod_of_nonneg hpcr]
    omega
  have hmark : ∀ b < 2, ∀ e < 2, (b <<< 7 ||| 0x7e ||| e) % 256 / 128 = b ∧
      (b <<< 7 ||| 0x7e ||| e) % 2 = e := by
    decide
  obtain ⟨hlast, hnine⟩ := hmark (t / 300 % 2) (by omega) (t % 300 / 256) (by omega)
  have hbit : t % 300 / 256 % 2 = t % 300 / 256 := by omega
  have hfield : Ts.HoldsPcr (writePcr p t) 6 (t / 300) (t % 300) := by
    refine ⟨?_, ?_, ?_, ?_, ?_, ?_, ?_⟩ <;> simp only [writePcr, hbase, hext] <;>
      simp [and_ff, Nat.shiftRight_eq_div_pow, hbit, hlast, hnine]
  rw [hfield.pcrToScr_eq_mod]
  norm_num

theorem afFlags_pcr (r : Request) (first : Bool) :
    afFlags r first % 256 &&& 0x10 = 0 ↔ needPCR r first = false := by
  unfold afFlags
  rcases r with ⟨pid, pcr, rai, espi, hrange⟩
  cases hn : needPCR ⟨pid, pcr, rai, espi, hrange⟩ first <;> cases first <;> cases rai <;>
    cases espi <;>
    simp

/-- What every shape keeps of the header, how it places the payload and what a
reader finds in the adaption field. -/
structure Shaped (r : Request) (first : Bool) (h : Packet) (rem : ℕ) (p : Packet) (off cpy : ℕ) :
    Prop where
  to_end : off + cpy = 188
  progress : 0 < cpy
  cpy_le : cpy ≤ rem
  le_cpy : min rem 176 ≤ cpy
  header : ∀ j < 3, p.byte j = h.byte j
  control : (p.byte 3 = h.byte 3 + 16 ∧ off = 4) ∨
    (p.byte 3 = h.byte 3 + 48 ∧ off = 5 + p.byte 4)
  pcr : needPCR r first = true →
    p.byte 3 = h.byte 3 + 48 ∧ 7 ≤ p.byte 4 ∧ p.byte 5 &&& 0x10 ≠ 0 ∧
      ∃ q, p = writePcr q r.pcr
  no_pcr : needPCR r first = false →
    off ≤ 5 ∨ p.byte 5 &&& 0x10 = 0

/-- The row of `h` with an adaption field of `len` bytes. -/
structure HasField (h : Packet) (len flags : ℕ) (p : Packet) : Prop where
  header : ∀ j < 3, p.byte j = h.byte j
  control : p.byte 3 = h.byte 3 + 48
  length : p.byte 4 = len
  flags : p.byte 5 = flags

theorem hasField_empty {h : Packet} (hcc : h.byte 3 < 16) {len : ℕ} (hlen : len < 256) :
    HasField h len (h.byte 5) ((h.set 3 (h.byte 3 ||| 0x30)).set 4 len) := by
  have hor : ∀ b < 16, (b ||| 0x30) % 256 = b + 48 := by decide
  have hne : ∀ j < 3, 3 ≠ j ∧ 4 ≠ j := by omega
  constructor
  · intro j hj
    simp [hne j hj]
  · simp [hor _ hcc]
  · simp [Nat.mod_eq_of_lt hlen]
  · simp

theorem HasField.setFlags {h p : Packet} {len flags : ℕ} (hf : HasField h len flags p) (v : ℕ) :
    HasField h len (v % 256) (p.set 5 v) := by
  have hne : ∀ j < 3, 5 ≠ j := by omega
  constructor
  · intro j hj
    rw [Packet.byte_set_ne (hne j hj), hf.header j hj]
  · rw [Packet.byte_set_ne (by norm_num), hf.control]
  · rw [Packet.byte_set_ne (by norm_num), hf.length]
  · exact Packet.byte_set_self (by norm_num)

theorem hasField_flags {h : Packet} (hcc : h.byte 3 < 16) {len : ℕ} (hlen : len < 256) (v : ℕ) :
    HasField h len (v % 256) (((h.set 3 (h.byte 3 ||| 0x30)).set 4 len).set 5 v) :=
  (hasField_empty hcc hlen).setFlags v

/-- The field does not change with the bytes behind its flags. -/
theorem HasField.congr {h p q : Packet} {len flags : ℕ} (hf : HasField h len flags p)
    (hq : ∀ j < 6, q.byte j = p.byte j) : HasField h len flags q := by
  constructor
  · intro j hj
    rw [hq j (by omega), hf.header j hj]
  · rw [hq 3 (by norm_num), hf.control]
  · rw [hq 4 (by norm_num), hf.length]
  · rw [hq 5 (by norm_num), hf.flags]

theorem HasField.writePcr {h p : Packet} {len flags : ℕ} (hf : HasField h len flags p) (pcr : ℤ) :
    HasField h len flags (writePcr p pcr) := by
  apply hf.congr
  intro j hj
  exact byte_writePcr_of_lt hj

theorem HasField.setRange {h p : Packet} {len flags : ℕ} (hf : HasField h len flags p) {lo : ℕ}
    (hlo : 6 ≤ lo) (hi v : ℕ) : HasField h len flags (p.setRange lo hi v) := by
  apply hf.congr
  intro j hj
  exact Packet.byte_setRange_of_lt (by omega)

/-- A row whose payload follows the field up to the end. -/
theorem HasField.shaped {r : Request} {first : Bool} {h p : Packet} {rem len flags off cpy : ℕ}
    (hf : HasField h len flags p) (hoff : off = 5 + len) (hend : off + cpy = 188)
    (hcpy : 0 < cpy ∧ cpy ≤ rem ∧ min rem 176 ≤ cpy)
    (hpcr : needPCR r first = true →
      7 ≤ len ∧ flags &&& 0x10 ≠ 0 ∧ ∃ q, p = Packetizer.writePcr q r.pcr)
    (hno : needPCR r first = false → len = 0 ∨ flags &&& 0x10 = 0) :
    Shaped r first h rem p off cpy := by
  refine ⟨hend, hcpy.1, hcpy.2.1, hcpy.2.2, hf.header, .inr ⟨hf.control, ?_⟩, ?_, ?_⟩
  · rw [hf.length, hoff]
  · intro hneed
    rw [hf.length, hf.flags]
    exact ⟨hf.control, hpcr hneed⟩
  · intro hneed
    rw [hf.flags]
    exact (hno hneed).imp_left (by omega)

theorem packetShape_spec (r : Request) (first : Bool) (h : Packet) (rem : ℕ)
    (hrem : 0 < rem) (hcc : h.byte 3 < 16) :
    ∃ p off cpy, packetShape r first h rem = (p, off, cpy) ∧
      Shaped r first h rem p off cpy := by
  have hflags := afFlags_pcr r first
  have hlen : 183 - rem < 256 := by omega
  have hseven : 7 < 256 := by norm_num
  have hone : 1 < 256 := by norm_num
  have hsix : 6 ≤ 6 := le_rfl
  have htwelve : 6 ≤ 12 := by norm_num
  unfold packetShape
  simp only
  split_ifs with hp h1 h2 h3 h4 h5
  all_goals refine ⟨_, _, _, rfl, ?_⟩
  · -- with a clock reference, a full packet
    have hfield := (hasField_flags hcc hseven (afFlags r first)).writePcr r.pcr
    apply hfield.shaped (by norm_num) (by norm_num) (by omega)
    · exact fun _ ↦ ⟨le_rfl, by simp [hflags, hp], _, rfl⟩
    · simp [hp]
  · -- with a clock reference, stuffed
    have hfield := ((hasField_flags hcc hlen (afFlags r first)).setRange htwelve
      (4 + 1 + (183 - rem)) 0xff).writePcr r.pcr
    apply hfield.shaped (by omega) (by omega) (by omega)
    · exact fun _ ↦ ⟨by omega, by simp [hflags, hp], _, rfl⟩
    · simp [hp]
  · -- with indicators only, a full packet
    have hfield := hasField_flags hcc hone (afFlags r first)
    apply hfield.shaped (by norm_num) (by norm_num) (by omega)
    · simp [hp]
    · exact fun _ ↦ .inr (by simp [hflags, hp])
  · -- with indicators only, stuffed
    have hfield := (hasField_flags hcc hlen (afFlags r first)).setRange hsix
      (4 + 1 + (183 - rem)) 0xff
    apply hfield.shaped (by omega) (by omega) (by omega)
    · simp [hp]
    · exact fun _ ↦ .inr (by simp [hflags, hp])
  · -- payload only
    have hor : ∀ b < 16, (b ||| 0x10) % 256 = b + 16 := by decide
    have hne : ∀ j < 3, 3 ≠ j := by omega
    refine ⟨by norm_num, by norm_num, by omega, by omega, ?_, .inl ⟨?_, rfl⟩, by simp [hp],
      fun _ ↦ .inl (by norm_num)⟩
    · intro j hj
      rw [Packet.byte_set_ne (hne j hj)]
    · simp [hor _ hcc]
  · -- stuffing only, with a flags byte
    have hfield := (hasField_flags hcc hlen 0x00).setRange hsix (4 + 1 + (183 - rem)) 0xff
    apply hfield.shaped (by omega) (by omega) (by omega)
    · simp [hp]
    · exact fun _ ↦ .inr (by simp)
  · -- an empty adaption field
    apply (hasField_empty hcc hlen).shaped (by omega) (by omega) (by omega)
    · simp [hp]
    · exact fun _ ↦ .inl (by omega)

def expectedScr (r : Request) (first : Bool) : Option ℕ :=
  if needPCR r first then some (r.pcr.toNat % (300 * 2 ^ 33)) else none

/-- A packet of request `r` whose payload is `chunk`. -/
structure Carries (r : Request) (first : Bool) (cc : ℕ) (chunk : List UInt8) (p : Packet) :
    Prop where
  sync : Ts.syncPresent p = true
  pid_eq : Ts.pid p = r.pid
  pusi : Ts.payloadUnitStartIndicator p = first
  cc_eq : Ts.continuityCounter p = cc % 16
  control : Ts.adaptionFieldControl p = 1 ∨ Ts.adaptionFieldControl p = 3
  fits : Ts.payloadOffset p ≤ 188
  payload_eq : Ts.payload p = chunk
  scr_eq : Ts.scr p = expectedScr r first

theorem pcrToScr_congr {p q : Packet} {pos : ℕ} (h : ∀ j < pos + 6, p.byte j = q.byte j) :
    Ts.pcrToScr p pos = Ts.pcrToScr q pos := by
  rw [Ts.pcrToScr_eq, Ts.pcrToScr_eq, h pos (by omega), h (pos + 1) (by omega),
    h (pos + 2) (by omega), h (pos + 3) (by omega), h (pos + 4) (by omega),
    h (pos + 5) (by omega)]

/-- The clock reference a reader finds in a shaped packet. -/
theorem scr_of_shaped {r : Request} {first : Bool} {h p q : Packet} {rem off cpy : ℕ}
    (hpcr : r.pcr = -1 ∨ 0 ≤ r.pcr) (hs : Shaped r first h rem p off cpy)
    (hh : h.byte 3 < 16) (hsync : Ts.syncPresent q = true)
    (hq : ∀ j < off, q.byte j = p.byte j) :
    Ts.scr q = expectedScr r first := by
  have hoff : 4 ≤ off := by
    rcases hs.control with ⟨_, h4⟩ | ⟨_, h5⟩ <;> omega
  have hcontrol : Ts.adaptionFieldControl q = p.byte 3 / 16 % 4 := by
    rw [Ts.adaptionFieldControl_eq, hq 3 (by omega)]
  cases hn : needPCR r first with
  | true =>
      obtain ⟨h3, h4, h5, clean, hwrite⟩ := hs.pcr hn
      have hoff12 : 12 ≤ off := by
        rcases hs.control with ⟨h3', _⟩ | ⟨_, h5⟩ <;> omega
      have hpos : 0 ≤ r.pcr := by
        rcases hpcr with hneg | hpos
        · simp [needPCR, hneg] at hn
        · exact hpos
      have hread := pcrToScr_writePcr clean hpos r.pcr_range.2
      rw [← hwrite, ← pcrToScr_congr fun j hj ↦ hq j (by omega)] at hread
      have hvalue : Ts.pcrToScr q 6 = r.pcr.toNat % (300 * 2 ^ 33) := by omega
      rw [Ts.scr, hcontrol, hq 4 (by omega), hq 5 (by omega), hsync, if_neg (by simp),
        if_neg (by omega), if_neg (by omega), if_neg h5, hvalue]
      simp [expectedScr, hn]
  | false =>
      have hnone : expectedScr r first = none := by simp [expectedScr, hn]
      rw [hnone, Ts.scr, hcontrol]
      rcases hs.control with ⟨h3, _⟩ | ⟨h3, h5⟩
      · rw [hsync, if_neg (by simp), if_pos (by omega)]
      · rw [hq 4 (by omega), hsync, if_neg (by simp), if_neg (by omega)]
        -- an empty field has no flags byte, any other one has no clock flag
        by_cases hempty : p.byte 4 = 0
        · rw [if_pos hempty]
        · have hflag : p.byte 5 &&& 0x10 = 0 := by
            rcases hs.no_pcr hn with hle | hflag
            · omega
            · exact hflag
          rw [if_neg hempty, hq 5 (by omega), if_pos hflag]

structure Headed (pid : ℕ) (first : Bool) (cc : ℕ) (p : Packet) : Prop where
  sync : Ts.syncPresent p = true
  pid_eq : Ts.pid p = pid
  pusi : Ts.payloadUnitStartIndicator p = first
  cc_eq : Ts.continuityCounter p = cc % 16
  control : Ts.adaptionFieldControl p = 1 ∨ Ts.adaptionFieldControl p = 3

/-- What four bytes say of the header of a packet. -/
theorem headed_of_bytes {pid cc : ℕ} {first : Bool} {p : Packet} (hpid : pid ≤ 0x1fff)
    (h0 : p.byte 0 = 0x47) (h1 : p.byte 1 = pid / 256 % 32 + (if first then 64 else 0))
    (h2 : p.byte 2 = pid % 256) (h3 : p.byte 3 = cc % 16 + 16 ∨ p.byte 3 = cc % 16 + 48) :
    Headed pid first cc p := by
  refine ⟨by simp [Ts.syncPresent, h0], ?_, ?_, ?_, ?_⟩
  · rw [Ts.pid_eq, h1, h2]
    cases first <;> simp <;> omega
  · rw [Bool.eq_iff_iff, Ts.payloadUnitStartIndicator_iff, h1]
    cases first <;> simp <;> omega
  · rw [Ts.continuityCounter_eq]
    omega
  · rw [Ts.adaptionFieldControl_eq]
    omega

/-- One turn of the loop: the shaped header is kept and the payload stands behind
it. -/
theorem packet_placed {r : Request} {buf : List UInt8} (first : Bool) (cc : ℕ)
    (hbuf : buf ≠ []) (hpid : r.pid ≤ 0x1fff) :
    ∃ h off cpy p, packetShape r first (packetHeader r cc first) buf.length = (h, off, cpy) ∧
      h.copyIn off (buf.take cpy) = some p ∧
      Shaped r first (packetHeader r cc first) buf.length h off cpy ∧
      Headed r.pid first cc p ∧ (∀ j < off, p.byte j = h.byte j) ∧
      Ts.payloadOffset p = off ∧ p.bytes.drop off = buf.take cpy := by
  obtain ⟨h0, h1, h2, h3⟩ := packetHeader_bytes r cc first
  have hcc : (packetHeader r cc first).byte 3 < 16 := by omega
  have hlen : 0 < buf.length := List.length_pos_iff.mpr hbuf
  obtain ⟨h, off, cpy, heq, hs⟩ := packetShape_spec r first (packetHeader r cc first) _ hlen hcc
  have htake : (buf.take cpy).length = cpy := by
    rw [List.length_take, min_eq_left hs.cpy_le]
  obtain ⟨p, hcopy, hdrop, hkeep⟩ := @Packet.copyIn_to_end h off
    (buf.take cpy) (by rw [htake]; exact hs.to_end)
  have hoff : 4 ≤ off := by
    rcases hs.control with ⟨_, h4⟩ | ⟨_, h5⟩ <;> omega
  have hbyte : ∀ j < 3, p.byte j = (packetHeader r cc first).byte j := fun j hj ↦ by
    rw [hkeep j (by omega), hs.header j hj]
  have hb3 : p.byte 3 = h.byte 3 := hkeep 3 (by omega)
  have hoffset : Ts.payloadOffset p = off := by
    rcases hs.control with ⟨hc, h4⟩ | ⟨hc, h5⟩
    · have hno : Ts.adaptionFieldControl p = 1 := by
        rw [Ts.adaptionFieldControl_eq]
        omega
      simp [Ts.payloadOffset, Ts.hasAdaption, hno, h4]
    · have hyes : Ts.adaptionFieldControl p = 3 := by
        rw [Ts.adaptionFieldControl_eq]
        omega
      simp [Ts.payloadOffset, Ts.hasAdaption, hyes, Ts.adaptionFieldLength,
        hkeep 4 (by omega), h5]
  have hheaded : Headed r.pid first cc p := by
    apply headed_of_bytes hpid
    · rw [hbyte 0 (by omega), h0]
    · rw [hbyte 1 (by omega), h1]
    · rw [hbyte 2 (by omega), h2]
    · rcases hs.control with ⟨hc, _⟩ | ⟨hc, _⟩ <;> omega
  exact ⟨h, off, cpy, p, heq, hcopy, hs, hheaded, hkeep, hoffset, hdrop⟩

theorem packet_carries {r : Request} {buf : List UInt8} {first : Bool} {cc : ℕ}
    (hbuf : buf ≠ []) (hpid : r.pid ≤ 0x1fff) (hpcr : r.pcr = -1 ∨ 0 ≤ r.pcr) :
    ∃ h off cpy p, packetShape r first (packetHeader r cc first) buf.length = (h, off, cpy) ∧
      h.copyIn off (buf.take cpy) = some p ∧ 0 < cpy ∧ cpy ≤ buf.length ∧
      min buf.length 176 ≤ cpy ∧ Carries r first cc (buf.take cpy) p := by
  obtain ⟨h, off, cpy, p, heq, hcopy, hs, hp, hkeep, hoffset, hdrop⟩ :=
    packet_placed first cc hbuf hpid
  obtain ⟨-, -, -, h3⟩ := packetHeader_bytes r cc first
  have hend := hs.to_end
  refine ⟨h, off, cpy, p, heq, hcopy, hs.progress, hs.cpy_le, hs.le_cpy, hp.sync, hp.pid_eq,
    hp.pusi, hp.cc_eq, hp.control, by omega, ?_,
    scr_of_shaped hpcr hs (by omega) hp.sync hkeep⟩
  rw [Ts.payload, hoffset, hdrop]

/-! ## The whole buffer -/

/-- The packets of a buffer: each carries the next non-empty part of it, and
only the first is marked as a start. -/
inductive Packetized (r : Request) : Bool → ℕ → List UInt8 → List Packet → ℕ → Prop where
  | nil (first : Bool) (cc : ℕ) : Packetized r first cc [] [] cc
  | cons {first : Bool} {cc cc' : ℕ} {chunk rest : List UInt8} {p : Packet} {ps : List Packet} :
      chunk ≠ [] → Carries r first cc chunk p →
      Packetized r false ((cc + 1) % 16) rest ps cc' →
      Packetized r first cc (chunk ++ rest) (p :: ps) cc'

/-- With a row left for every 176 bytes the loop runs to its end. -/
theorem packetizeLoop_spec {r : Request} (hpid : r.pid ≤ 0x1fff)
    (hpcr : r.pcr = -1 ∨ 0 ≤ r.pcr) :
    ∀ (rows cnt cc : ℕ) (buf : List UInt8), (buf.length + 175) / 176 ≤ rows →
      (cnt + (buf.length + 175) / 176) * 188 < 2 ^ 32 →
      ∃ pkts cc', packetizeLoop r rows cnt cc buf = some (pkts, cc') ∧
        pkts.length ≤ rows ∧ Packetized r (cnt == 0) cc buf pkts cc' := by
  intro rows
  induction rows with
  | zero =>
      intro cnt cc buf hrows _
      have hempty : buf = [] := List.eq_nil_of_length_eq_zero (by omega)
      subst hempty
      exact ⟨[], cc, rfl, le_rfl, .nil _ _⟩
  | succ rows ih =>
      intro cnt cc buf hrows hcnt
      match buf with
      | [] => exact ⟨[], cc, rfl, Nat.zero_le _, .nil _ _⟩
      | b :: bs =>
          obtain ⟨h, off, cpy, p, heq, hcopy, hpos, hle, hmin, hcarries⟩ :=
            @packet_carries _ _ (cnt == 0) cc (List.cons_ne_nil b bs) hpid hpcr
          have hlen : 0 < (b :: bs).length := Nat.succ_pos _
          -- each turn takes 176 bytes or all that are left
          have hdrop : ((b :: bs).drop cpy).length = (b :: bs).length - cpy := List.length_drop
          obtain ⟨pkts, cc', hloop, hcount, hrest⟩ := ih (cnt + 1) ((cc + 1) % 16)
            ((b :: bs).drop cpy) (by omega) (by omega)
          refine ⟨p :: pkts, cc', ?_, by simpa using hcount, ?_⟩
          · rw [packetizeLoop]
            simp only [heq, hcopy, and_f, hloop, Option.bind_some, Option.map_some]
            rw [if_neg (by omega)]
          · have hne : (b :: bs).take cpy ≠ [] := by
              rw [← List.length_pos_iff, List.length_take]
              omega
            have hcons := Packetized.cons hne hcarries (by simpa using hrest)
            rwa [List.take_append_drop] at hcons

theorem tsPacketizerWithPcr_spec {buf : List UInt8} {r : Request} (cc : ℕ) (hbuf : buf ≠ [])
    (hlen : buf.length < 2 ^ 31) (hpid : r.pid ≤ 0x1fff) (hpcr : r.pcr = -1 ∨ 0 ≤ r.pcr) :
    ∃ pkts cc', tsPacketizerWithPcr buf 188 cc r = some (pkts, cc') ∧
      pkts.length ≤ maxPackets buf.length ∧ Packetized r true cc buf pkts cc' := by
  have hpos : 0 < buf.length := List.length_pos_iff.mpr hbuf
  have hrows : maxPackets buf.length = (buf.length + 175) / 176 + 2 := by
    unfold maxPackets
    omega
  obtain ⟨pkts, cc', hloop, hcount, hspec⟩ := packetizeLoop_spec hpid hpcr
    (maxPackets buf.length) 0 cc buf (by omega) (by omega)
  refine ⟨pkts, cc', ?_, hcount, hspec⟩
  rw [tsPacketizerWithPcr, if_neg (by omega), hloop]

theorem Packetized.payload_flatten {r : Request} {first : Bool} {cc cc' : ℕ} {buf : List UInt8}
    {pkts : List Packet} (h : Packetized r first cc buf pkts cc') :
    (pkts.map Ts.payload).flatten = buf := by
  induction h with
  | nil => rfl
  | cons _ hcarries _ ih => rw [List.map_cons, List.flatten_cons, ih, hcarries.payload_eq]

/-- Every packet carries its request; only the one at the head is a start. -/
theorem Packetized.getElem? {r : Request} {first : Bool} {cc cc' : ℕ} {buf : List UInt8}
    {pkts : List Packet} (h : Packetized r first cc buf pkts cc') :
    ∀ {k : ℕ} {p : Packet}, pkts[k]? = some p →
      ∃ chunk, chunk ≠ [] ∧ Carries r (first && k == 0) (cc + k) chunk p := by
  induction h with
  | nil => simp
  | @cons first cc cc' chunk rest p ps hne hcarries _ ih =>
      intro k q hk
      match k with
      | 0 =>
          obtain rfl : p = q := by simpa using hk
          exact ⟨chunk, hne, by simpa using hcarries⟩
      | k + 1 =>
          obtain ⟨chunk', hne', hq⟩ := ih (by simpa using hk)
          refine ⟨chunk', hne', { hq with pusi := ?_, cc_eq := ?_, scr_eq := ?_ }⟩
          · simpa using hq.pusi
          · rw [hq.cc_eq]
            omega
          · simpa using hq.scr_eq

/-- Packetizing succeeds, and the packets are well formed and carry the buffer:
stripping headers and adaption fields gives it back, and the clock reference is
in the first packet and nowhere else. -/
theorem tsPacketizerWithPcr_round_trip (buf : List UInt8) (cc : ℕ) (r : Request)
    (hbuf : buf ≠ []) (hlen : buf.length < 2 ^ 31) (hpid : r.pid ≤ 0x1fff)
    (hpcr : r.pcr = -1 ∨ 0 ≤ r.pcr) :
    ∃ pkts cc', tsPacketizerWithPcr buf 188 cc r = some (pkts, cc') ∧
      pkts.length ≤ maxPackets buf.length ∧
      (pkts.map Ts.payload).flatten = buf ∧
      ∀ k p, pkts[k]? = some p →
        p.bytes.length = 188 ∧ Ts.syncPresent p = true ∧ Ts.pid p = r.pid ∧
        Ts.payloadUnitStartIndicator p = (k == 0) ∧
        (Ts.hasAdaption p = true → 5 + Ts.adaptionFieldLength p ≤ 188) ∧
        Ts.scr p = if r.pcr ≠ -1 ∧ k = 0 then some (r.pcr.toNat % (300 * 2 ^ 33)) else none := by
  obtain ⟨pkts, cc', hout, hcount, hspec⟩ := tsPacketizerWithPcr_spec cc hbuf hlen hpid hpcr
  refine ⟨pkts, cc', hout, hcount, hspec.payload_flatten, ?_⟩
  intro k p hk
  obtain ⟨chunk, -, hp⟩ := hspec.getElem? hk
  rw [Bool.true_and] at hp
  refine ⟨p.length_bytes, hp.sync, hp.pid_eq, hp.pusi, ?_, ?_⟩
  · intro hadapt
    have hfits := hp.fits
    rwa [Ts.payloadOffset, if_pos hadapt] at hfits
  · rw [hp.scr_eq]
    simp [expectedScr, needPCR]

/-- Bytes for two full packets and a part of a third. -/
def ramp : List UInt8 := (List.range 400).map UInt8.ofNat

theorem tsPacketizerWithPcr_round_trip_ramp :
    ∃ pkts cc', tsPacketizerWithPcr ramp 188 15 ⟨0x100, 301, true, false, by decide⟩ =
        some (pkts, cc') ∧
      pkts.length = 3 ∧ (pkts.map Ts.payload).flatten = ramp ∧
      ∀ k p, pkts[k]? = some p → Ts.payloadUnitStartIndicator p = (k == 0) ∧
        Ts.scr p = if k = 0 then some 301 else none := by
  obtain ⟨pkts, cc', hout, -, hflat, hall⟩ := tsPacketizerWithPcr_round_trip ramp 15
    ⟨0x100, 301, true, false, by decide⟩ (by decide) (by simp [ramp]) (by simp) (by simp)
  have hcount : (tsPacketizerWithPcr ramp 188 15 ⟨0x100, 301, true, false, by decide⟩).map
      (fun out ↦ out.1.length) = some 3 := by decide +kernel
  rw [hout] at hcount
  refine ⟨pkts, cc', hout, Option.some.inj hcount, hflat, fun k p hk ↦ ?_⟩
  obtain ⟨-, -, -, hpusi, -, hscr⟩ := hall k p hk
  exact ⟨hpusi, by simpa using hscr⟩

end LtnTsTools.Packetizer
