import LtnTsTools.PesPacket

/-!
# Where the PES parser reads

The bit reader notes an overrun and reads on, so the parser stays in its buffer
only where it checks first, or where the fields that the flags announce end in
time.  The bytes are taken one after the other: those that have been read are
the ones below `buflen_used`.
-/

namespace LtnTsTools.Pes

open BitReader

/-- Behind a time stamp, of which a missing marker bit ends the reading. -/
def stampEnd (buf : List UInt8) (p : ℕ) : ℕ :=
  if bitAt buf (8 * p + 7) ≠ 1 then p + 1
  else if bitAt buf (8 * p + 23) ≠ 1 then p + 3
  else p + 5

def stampsEnd (buf : List UInt8) : ℕ :=
  if fieldAt buf 56 2 = 2 then stampEnd buf 9
  else if fieldAt buf 56 2 = 3 then stampEnd buf (stampEnd buf 9)
  else 9

def fieldsEnd (buf : List UInt8) : ℕ :=
  stampsEnd buf + 6 * bitAt buf 58 + 3 * bitAt buf 59 + bitAt buf 60 + bitAt buf 61 +
    2 * bitAt buf 62

/-- Behind the part of an extension at byte `p` that is read without a check: the
private data and the pack header are checked for, though not the length byte of
the latter, and the extension field is cut to the buffer. -/
def extensionEnd (buf : List UInt8) (p : ℕ) : ℕ :=
  let q := p + 1 + 16 * bitAt buf (8 * p)
  if bitAt buf (8 * p) = 1 ∧ buf.length < q then p + 1
  else if bitAt buf (8 * p + 1) = 1 ∧ buf.length < q + 1 + (buf.getD q 0).toNat then q + 1
  else q + bitAt buf (8 * p + 1) * (1 + (buf.getD q 0).toNat) + 2 * bitAt buf (8 * p + 2) +
    2 * bitAt buf (8 * p + 3) + bitAt buf (8 * p + 7)

def uncheckedEnd (buf : List UInt8) : ℕ :=
  if bitAt buf 63 = 1 then extensionEnd buf (fieldsEnd buf) else fieldsEnd buf

def FieldsInside (buf : List UInt8) : Prop :=
  hasOptionalHeader (buf.getD 3 0).toNat = true → uncheckedEnd buf ≤ buf.length

instance (buf : List UInt8) : Decidable (FieldsInside buf) :=
  inferInstanceAs (Decidable (_ → _))

section Positions

variable {st : ParseState} {buf : List UInt8} {p : ℕ}

theorem bitAt_cases (buf : List UInt8) (i : ℕ) : bitAt buf i = 0 ∨ bitAt buf i = 1 := by
  have h := bitAt_lt buf i
  omega

theorem parseTs_stands (h : Stands st.bs buf (8 * p)) (set : PesPacket → ℤ → PesPacket) :
    Stands (parseTs st set).bs buf (8 * stampEnd buf p) ∧
      ∃ v, (parseTs st set).pkt = set st.pkt v := by
  obtain ⟨-, h0⟩ := h.readBits 4
  obtain ⟨-, h1⟩ := h0.readBits 3
  obtain ⟨v2, h2⟩ := h1.readBits 1
  obtain ⟨-, h3⟩ := h2.readBits 15
  obtain ⟨v4, h4⟩ := h3.readBits 1
  obtain ⟨-, h5⟩ := h4.readBits 15
  obtain ⟨v6, h6⟩ := h5.readBits 1
  simp only [fieldAt_one, Nat.add_assoc, Nat.reduceAdd] at v2 v4 v6 h2 h4 h6
  refine ⟨?_, _, rfl⟩
  unfold parseTs
  simp only [bs_count, bs_skip]
  unfold read33bitTs stampEnd
  simp only [v2, v4, v6]
  split_ifs
  · rw [show 8 * (p + 1) = 8 * p + 8 by ring]
    exact h2
  · rw [show 8 * (p + 3) = 8 * p + 24 by ring]
    exact h4
  · rw [show 8 * (p + 5) = 8 * p + 40 by ring]
    exact h6
  · rw [show 8 * (p + 5) = 8 * p + 40 by ring]
    exact h6

theorem parseTimestamps_stands (h : Stands st.bs buf 72)
    (hflags : st.pkt.ptsDtsFlags = fieldAt buf 56 2) :
    Stands (parseTimestamps st).bs buf (8 * stampsEnd buf) ∧
      ∃ pts dts, (parseTimestamps st).pkt = { st.pkt with pts := pts, dts := dts } := by
  unfold parseTimestamps stampsEnd
  rw [hflags]
  split_ifs
  · obtain ⟨hone, v, hv⟩ := @parseTs_stands st buf 9 h fun p v ↦ { p with pts := v }
    exact ⟨hone, v, st.pkt.dts, hv⟩
  · obtain ⟨hone, v, hv⟩ := @parseTs_stands st buf 9 h fun p v ↦ { p with pts := v }
    obtain ⟨htwo, w, hw⟩ := parseTs_stands hone fun p v ↦ { p with dts := v }
    exact ⟨htwo, v, w, by rw [hw, hv]⟩
  · exact ⟨h, st.pkt.pts, st.pkt.dts, rfl⟩

theorem bitAt_ne_zero_iff {i : ℕ} : bitAt buf i ≠ 0 ↔ bitAt buf i = 1 := by
  have h := bitAt_lt buf i
  omega

/-- A part of `n` bytes that is read exactly if its flag, a bit of the buffer, is set. -/
theorem optional_stands {c : Prop} [Decidable c] {st' : ParseState} {i n : ℕ}
    (h : Stands st.bs buf (8 * p)) (hc : c ↔ bitAt buf i = 1)
    (hread : Stands st'.bs buf (8 * p + 8 * n)) :
    Stands (if c then st' else st).bs buf (8 * (p + n * bitAt buf i)) := by
  rcases bitAt_cases buf i with hbit | hbit
  · rw [if_neg (by simp [hc, hbit]), hbit]
    exact h
  · rw [if_pos (hc.mpr hbit), hbit, Nat.mul_one, Nat.mul_add]
    exact hread

theorem parseEscr_stands (h : Stands st.bs buf (8 * p)) {i : ℕ}
    (hflag : st.pkt.escrFlag = bitAt buf i) :
    Stands (parseEscr st).bs buf (8 * (p + 6 * bitAt buf i)) ∧ (parseEscr st).pkt = st.pkt := by
  have hset : st.pkt.escrFlag ≠ 0 ↔ bitAt buf i = 1 := by rw [hflag, bitAt_ne_zero_iff]
  refine ⟨optional_stands h hset (h.readBits 48).2, ?_⟩
  unfold parseEscr
  split_ifs <;> rfl

theorem parseEsRate_stands (h : Stands st.bs buf (8 * p)) {i : ℕ}
    (hflag : st.pkt.esRateFlag = bitAt buf i) :
    Stands (parseEsRate st).bs buf (8 * (p + 3 * bitAt buf i)) ∧
      ∃ v, (parseEsRate st).pkt = { st.pkt with esRateFlag := v } := by
  have hset : st.pkt.esRateFlag ≠ 0 ↔ bitAt buf i = 1 := by rw [hflag, bitAt_ne_zero_iff]
  refine ⟨optional_stands h hset (((h.readBits 1).2.readBits 22).2.readBits 1).2, ?_⟩
  unfold parseEsRate
  split_ifs
  · exact ⟨_, rfl⟩
  · exact ⟨st.pkt.esRateFlag, rfl⟩

theorem parseTrickMode_stands (h : Stands st.bs buf (8 * p)) {i : ℕ}
    (hflag : st.pkt.dsmTrickModeFlag = bitAt buf i) :
    Stands (parseTrickMode st).bs buf (8 * (p + bitAt buf i)) ∧
      (parseTrickMode st).pkt = st.pkt := by
  have hset : st.pkt.dsmTrickModeFlag ≠ 0 ↔ bitAt buf i = 1 := by rw [hflag, bitAt_ne_zero_iff]
  have hread : Stands (parseTrickMode st).bs buf (8 * (p + 1 * bitAt buf i)) :=
    optional_stands h hset (h.readBits 8).2
  rw [Nat.one_mul] at hread
  refine ⟨hread, ?_⟩
  unfold parseTrickMode
  split_ifs <;> rfl

theorem parseCopyInfo_stands (h : Stands st.bs buf (8 * p)) {i : ℕ}
    (hflag : st.pkt.additionalCopyInfoFlag = bitAt buf i) :
    Stands (parseCopyInfo st).bs buf (8 * (p + bitAt buf i)) ∧
      ∃ v, (parseCopyInfo st).pkt = { st.pkt with additionalCopyInfo := v } := by
  have hset : st.pkt.additionalCopyInfoFlag ≠ 0 ↔ bitAt buf i = 1 := by
    rw [hflag, bitAt_ne_zero_iff]
  have hread : Stands (parseCopyInfo st).bs buf (8 * (p + 1 * bitAt buf i)) :=
    optional_stands h hset ((h.readBits 1).2.readBits 7).2
  rw [Nat.one_mul] at hread
  refine ⟨hread, ?_⟩
  unfold parseCopyInfo
  split_ifs
  · exact ⟨_, rfl⟩
  · exact ⟨st.pkt.additionalCopyInfo, rfl⟩

theorem parseCrc_stands (h : Stands st.bs buf (8 * p)) {i : ℕ}
    (hflag : st.pkt.pesCrcFlag = bitAt buf i) :
    Stands (parseCrc st).bs buf (8 * (p + 2 * bitAt buf i)) ∧
      ∃ v, (parseCrc st).pkt = { st.pkt with previousPesPacketCrc := v } := by
  have hset : st.pkt.pesCrcFlag ≠ 0 ↔ bitAt buf i = 1 := by rw [hflag, bitAt_ne_zero_iff]
  refine ⟨optional_stands h hset (h.readBits 16).2, ?_⟩
  unfold parseCrc
  split_ifs
  · exact ⟨_, rfl⟩
  · exact ⟨st.pkt.previousPesPacketCrc, rfl⟩

/-! ### Checked reads -/

theorem Stands.advance {bs : Klbs} (h : Stands bs buf (8 * p)) (n : ℕ) :
    Stands { bs with buflenUsed := bs.buflenUsed + n } buf (8 * (p + n)) := by
  have hreg := h.regUsed_eq_zero (by omega)
  have hused := h.used_eq
  refine ⟨h.buf_eq, ?_, h.reg_lt, fun hsome ↦ absurd hsome (by simp [hreg])⟩
  simp only
  omega

/-- Inside the buffer the free bytes are those left. -/
theorem free_inside {bs : Klbs} (h : Stands bs buf (8 * p)) (hp : p ≤ buf.length)
    (hlen : buf.length < 2 ^ 32) : klbsGetByteCountFree bs = buf.length - p := by
  rw [h.byteCountFree (by omega) (by omega) hlen]
  omega

/-- Behind the buffer the difference wraps around. -/
theorem free_behind {bs : Klbs} (h : Stands bs buf (8 * p)) (hp : buf.length < p)
    (hnear : p ≤ buf.length + 2 ^ 31) : 2 ^ 31 ≤ klbsGetByteCountFree bs := by
  rw [klbsGetByteCountFree, h.buf_eq, h.buflenUsed_eq (by omega)]
  omega

theorem byteCountFree_le {bs : Klbs} (h : Stands bs buf (8 * p))
    (hnear : p ≤ buf.length + 2 ^ 31) (hlen : buf.length < 2 ^ 32) :
    byteCountFree bs ≤ buf.length - p ∧ byteCountFree bs ≤ klbsGetByteCountFree bs := by
  unfold byteCountFree
  by_cases hp : p ≤ buf.length
  · have hfree := free_inside h hp hlen
    split_ifs <;> omega
  · have hfree := free_behind h (by omega) hnear
    split_ifs <;> omega

theorem readBytes_stands (n : ℕ) : ∀ {bs : Klbs} {p : ℕ}, Stands bs buf (8 * p) →
    Stands (readBytes n bs).2 buf (8 * (p + n)) := by
  induction n with
  | zero =>
      intro bs p h
      exact h
  | succ n ih =>
      intro bs p h
      have hnext := (h.readBits 8).2
      rw [show 8 * p + 8 = 8 * (p + 1) by ring] at hnext
      rw [show p + (n + 1) = p + 1 + n by ring]
      exact ih hnext

theorem skipBytes_stands (h : Stands st.bs buf (8 * p)) (n : ℕ) :
    Stands (skipBytes st n).bs buf (8 * (p + n)) :=
  readBytes_stands n h

theorem parsePrivateData_stands (h : Stands st.bs buf (8 * p)) {i : ℕ}
    (hflag : st.pkt.pesPrivateDataFlag = bitAt buf i) (hnear : p ≤ buf.length + 2 ^ 31)
    (hlen : buf.length < 2 ^ 32) :
    (parsePrivateData st = .error st ∧ bitAt buf i = 1 ∧ p ≤ buf.length ∧ buf.length < p + 16) ∨
      ∃ st', parsePrivateData st = .ok st' ∧ st'.pkt = st.pkt ∧
        Stands st'.bs buf (8 * (p + 16 * bitAt buf i)) ∧
        (bitAt buf i = 1 → buf.length < p ∨ p + 16 ≤ buf.length) := by
  unfold parsePrivateData
  rw [hflag]
  rcases bitAt_cases buf i with hbit | hbit
  · rw [hbit]
    exact Or.inr ⟨st, rfl, rfl, h, by norm_num⟩
  · rw [hbit, if_pos rfl]
    have hread : Stands (((((st.skip 32).skip 32).skip 32).skip 32).count 128).bs buf
        (8 * (p + 16 * 1)) := by
      rw [show 8 * (p + 16 * 1) = 8 * p + 32 + 32 + 32 + 32 by ring]
      exact ((((h.readBits 32).2.readBits 32).2.readBits 32).2.readBits 32).2
    by_cases hp : p ≤ buf.length
    · rw [free_inside h hp hlen]
      split_ifs with hfree
      · exact Or.inl ⟨rfl, by trivial, hp, by omega⟩
      · exact Or.inr ⟨_, rfl, rfl, hread, fun _ ↦ Or.inr (by omega)⟩
    · have hfree := free_behind h (by omega) hnear
      rw [if_neg (by omega)]
      exact Or.inr ⟨_, rfl, rfl, hread, fun _ ↦ Or.inl (by omega)⟩

theorem parsePackHeader_stands (h : Stands st.bs buf (8 * p)) {i : ℕ}
    (hflag : st.pkt.packHeaderFieldFlag = bitAt buf i) (hnear : p + 1 ≤ buf.length + 2 ^ 31)
    (hlen : buf.length < 2 ^ 32) :
    (∃ st', parsePackHeader st = .error st' ∧ st'.pkt = st.pkt ∧
        Stands st'.bs buf (8 * (p + 1)) ∧ bitAt buf i = 1 ∧ p + 1 ≤ buf.length ∧
        buf.length < p + 1 + (buf.getD p 0).toNat) ∨
      ∃ st', parsePackHeader st = .ok st' ∧ st'.pkt = st.pkt ∧
        Stands st'.bs buf (8 * (p + bitAt buf i * (1 + (buf.getD p 0).toNat))) ∧
        (bitAt buf i = 1 → buf.length < p + 1 ∨ p + 1 + (buf.getD p 0).toNat ≤ buf.length) := by
  unfold parsePackHeader
  rw [hflag]
  rcases bitAt_cases buf i with hbit | hbit
  · rw [hbit, Nat.zero_mul]
    exact Or.inr ⟨st, rfl, rfl, h, by norm_num⟩
  · obtain ⟨hvalue, hnext⟩ := h.readBits 8
    rw [fieldAt_byte buf (by omega), Nat.mul_div_cancel_left _ (by norm_num)] at hvalue
    rw [show 8 * p + 8 = 8 * (p + 1) by ring] at hnext
    have hread := @skipBytes_stands ((st.skip 8).count 8) buf (p + 1) hnext (buf.getD p 0).toNat
    rw [hbit, if_pos rfl, Nat.one_mul, ← Nat.add_assoc]
    simp only [hvalue, bs_count, bs_skip]
    by_cases hp : p + 1 ≤ buf.length
    · rw [free_inside hnext hp hlen]
      split_ifs with hfree
      · exact Or.inl ⟨_, rfl, rfl, hnext, by trivial, hp, by omega⟩
      · exact Or.inr ⟨_, rfl, rfl, hread, fun _ ↦ Or.inr (by omega)⟩
    · have hfree := free_behind hnext (by omega) hnear
      have hbyte : (buf.getD p 0).toNat < 2 ^ 8 := UInt8.toNat_lt _
      rw [if_neg (by omega)]
      exact Or.inr ⟨_, rfl, rfl, hread, fun _ ↦ Or.inl (by omega)⟩

theorem parseSequenceCounter_stands (h : Stands st.bs buf (8 * p)) {i : ℕ}
    (hflag : st.pkt.programPacketSequenceCounterFlag = bitAt buf i) :
    Stands (parseSequenceCounter st).bs buf (8 * (p + 2 * bitAt buf i)) ∧
      (parseSequenceCounter st).pkt = st.pkt := by
  refine ⟨optional_stands h (by rw [hflag]) (h.readBits 16).2, ?_⟩
  unfold parseSequenceCounter
  split_ifs <;> rfl

theorem parsePstd_stands (h : Stands st.bs buf (8 * p)) {i : ℕ}
    (hflag : st.pkt.pstdBufferFlag = bitAt buf i) :
    Stands (parsePstd st).bs buf (8 * (p + 2 * bitAt buf i)) ∧
      ∃ v w, (parsePstd st).pkt = { st.pkt with pstdBufferScale := v, pstdBufferSize := w } := by
  refine ⟨optional_stands h (by rw [hflag]) (((h.readBits 2).2.readBits 1).2.readBits 13).2, ?_⟩
  unfold parsePstd
  split_ifs
  · exact ⟨_, _, rfl⟩
  · exact ⟨st.pkt.pstdBufferScale, st.pkt.pstdBufferSize, rfl⟩

/-- The extension field ends in the buffer, if its length byte lies there. -/
theorem parseExtension2_stands (h : Stands st.bs buf (8 * p)) {i : ℕ}
    (hflag : st.pkt.pesExtensionFlag2 = bitAt buf i) (hnear : p + 1 ≤ buf.length + 2 ^ 31)
    (hlen : buf.length < 2 ^ 32) :
    ∃ p', Stands (parseExtension2 st).bs buf (8 * p') ∧ p' ≤ max buf.length (p + 1) ∧
      (p' ≤ buf.length ↔ p + bitAt buf i ≤ buf.length) ∧
      (parseExtension2 st).pkt.dataLengthBytes = st.pkt.dataLengthBytes := by
  unfold parseExtension2
  rw [hflag]
  rcases bitAt_cases buf i with hbit | hbit
  · rw [hbit]
    exact ⟨p, h, by omega, by simp, rfl⟩
  · have hnext : Stands (((st.skip 1).field 7
        fun p v ↦ { p with pesExtensionFieldLength := v }).count 8).bs buf (8 * (p + 1)) := by
      rw [show 8 * (p + 1) = 8 * p + 1 + 7 by ring]
      exact ((h.readBits 1).2.readBits 7).2
    have hfree := (byteCountFree_le hnext hnear hlen).1
    rw [hbit, if_pos rfl]
    simp only
    split_ifs with hcut
    · refine ⟨_, skipBytes_stands (hnext.withFlags _ true) _, ?_, ?_, rfl⟩ <;> simp only <;> omega
    · refine ⟨_, skipBytes_stands hnext _, ?_, ?_, rfl⟩ <;> omega

/-- The parser behind the byte of flags that an extension starts with. -/
def extensionFlags (st : ParseState) : ParseState :=
  ((((((st.field 1 fun p v ↦ { p with pesPrivateDataFlag := v }).field 1
    fun p v ↦ { p with packHeaderFieldFlag := v }).field 1
    fun p v ↦ { p with programPacketSequenceCounterFlag := v }).field 1
    fun p v ↦ { p with pstdBufferFlag := v }).skip 3).field 1
    fun p v ↦ { p with pesExtensionFlag2 := v }).count 8

theorem extensionFlags_stands (h : Stands st.bs buf (8 * p)) :
    Stands (extensionFlags st).bs buf (8 * (p + 1)) ∧
      (extensionFlags st).pkt = { st.pkt with
        pesPrivateDataFlag := bitAt buf (8 * p)
        packHeaderFieldFlag := bitAt buf (8 * p + 1)
        programPacketSequenceCounterFlag := bitAt buf (8 * p + 2)
        pstdBufferFlag := bitAt buf (8 * p + 3)
        pesExtensionFlag2 := bitAt buf (8 * p + 7) } := by
  obtain ⟨v1, h1⟩ := h.readBits 1
  obtain ⟨v2, h2⟩ := h1.readBits 1
  obtain ⟨v3, h3⟩ := h2.readBits 1
  obtain ⟨v4, h4⟩ := h3.readBits 1
  obtain ⟨-, h5⟩ := h4.readBits 3
  obtain ⟨v6, h6⟩ := h5.readBits 1
  simp only [fieldAt_one, Nat.add_assoc, Nat.reduceAdd] at v1 v2 v3 v4 v6
  rw [show 8 * p + 1 + 1 + 1 + 1 + 3 + 1 = 8 * (p + 1) by ring] at h6
  refine ⟨h6, ?_⟩
  simp only [extensionFlags, pkt_count, pkt_field, pkt_skip, bs_field, bs_skip, v1, v2, v3, v4, v6]

theorem parseExtension_eq (h : st.pkt.pesExtensionFlag = 1) :
    parseExtension st = (parsePrivateData (extensionFlags st)).bind fun st ↦
      (parsePackHeader st).map fun st ↦ parseExtension2 (parsePstd (parseSequenceCounter st)) := by
  unfold parseExtension
  rw [if_pos (by rw [h]; norm_num)]
  rfl

/-- A pack header has at most 256 bytes. -/
theorem packHeaderBytes_le (buf : List UInt8) (i q : ℕ) :
    bitAt buf i * (1 + (buf.getD q 0).toNat) ≤ 256 := by
  have hbyte : (buf.getD q 0).toNat < 2 ^ 8 := UInt8.toNat_lt _
  rcases bitAt_cases buf i with hzero | hone
  · rw [hzero, Nat.zero_mul]
    norm_num
  · rw [hone, Nat.one_mul]
    omega

/-- An extension that no check stops is read to its end. -/
theorem extensionEnd_le_iff {q : ℕ} (hq : q = p + 1 + 16 * bitAt buf (8 * p))
    (hprivate : bitAt buf (8 * p) = 1 → buf.length < p + 1 ∨ p + 1 + 16 ≤ buf.length)
    (hpack : bitAt buf (8 * p + 1) = 1 →
      buf.length < q + 1 ∨ q + 1 + (buf.getD q 0).toNat ≤ buf.length) :
    extensionEnd buf p ≤ buf.length ↔
      q + bitAt buf (8 * p + 1) * (1 + (buf.getD q 0).toNat) + 2 * bitAt buf (8 * p + 2) +
        2 * bitAt buf (8 * p + 3) + bitAt buf (8 * p + 7) ≤ buf.length := by
  unfold extensionEnd
  simp only [← hq]
  by_cases hshort : bitAt buf (8 * p) = 1 ∧ buf.length < q
  · -- already behind the buffer
    have hbehind := hprivate hshort.1
    rw [if_pos hshort]
    omega
  · rw [if_neg hshort]
    by_cases hlong : bitAt buf (8 * p + 1) = 1 ∧ buf.length < q + 1 + (buf.getD q 0).toNat
    · have hbehind := hpack hlong.1
      rw [if_pos hlong, hlong.1, Nat.one_mul]
      omega
    · rw [if_neg hlong]

/-- The extension, up to its end or to the check that stops the parser. -/
theorem parseExtension_stands (h : Stands st.bs buf (8 * p)) {i : ℕ}
    (hflag : st.pkt.pesExtensionFlag = bitAt buf i) (hp : p ≤ 100)
    (hlen : buf.length < 2 ^ 32) :
    ∃ st' p', (parseExtension st = .error st' ∨ parseExtension st = .ok st') ∧
      Stands st'.bs buf (8 * p') ∧ p' ≤ buf.length + 1000 ∧
      (p' ≤ buf.length ↔
        (if bitAt buf i = 1 then extensionEnd buf p else p) ≤ buf.length) ∧
      st'.pkt.dataLengthBytes = st.pkt.dataLengthBytes := by
  rcases bitAt_cases buf i with hbit | hbit
  · unfold parseExtension
    rw [hflag, hbit]
    exact ⟨st, p, Or.inr rfl, h, by omega, by simp, rfl⟩
  · rw [parseExtension_eq (hflag.trans hbit), hbit, if_pos rfl]
    obtain ⟨hstands, hpkt⟩ := extensionFlags_stands h
    have hdata : (extensionFlags st).pkt.dataLengthBytes = st.pkt.dataLengthBytes := by rw [hpkt]
    have hbit0 := bitAt_lt buf (8 * p)
    have hbit2 := bitAt_lt buf (8 * p + 2)
    have hbit3 := bitAt_lt buf (8 * p + 3)
    rcases parsePrivateData_stands hstands (by rw [hpkt]) (by omega) hlen with
      ⟨herror, hone, hinside, hshort⟩ | ⟨st₁, hok, hpkt₁, hstands₁, hroom₁⟩
    · -- stopped at the private data
      refine ⟨_, p + 1, Or.inl (by rw [herror]; rfl), hstands, by omega, ?_, hdata⟩
      rw [extensionEnd, hone, if_pos ⟨rfl, by omega⟩]
    · rcases parsePackHeader_stands hstands₁ (by rw [hpkt₁, hpkt]) (by omega) hlen with
        ⟨st₂, herror, hpkt₂, hstands₂, hone, hinside, hlong⟩ |
          ⟨st₂, hok₂, hpkt₂, hstands₂, hroom₂⟩
      · -- stopped at the pack header
        refine ⟨st₂, _, Or.inl (by rw [hok, Except.bind, herror]; rfl), hstands₂, by omega, ?_,
          by rw [hpkt₂, hpkt₁, hdata]⟩
        unfold extensionEnd
        rw [if_neg (by omega), if_pos ⟨hone, hlong⟩]
      · obtain ⟨hstands₃, hpkt₃⟩ := parseSequenceCounter_stands hstands₂
          (by rw [hpkt₂, hpkt₁, hpkt])
        obtain ⟨hstands₄, v, w, hpkt₄⟩ := parsePstd_stands hstands₃ (by
          rw [hpkt₃, hpkt₂, hpkt₁, hpkt])
        have hsmall := packHeaderBytes_le buf (8 * p + 1) (p + 1 + 16 * bitAt buf (8 * p))
        obtain ⟨p', hstands₅, hbound, hinside, hdata₅⟩ := parseExtension2_stands hstands₄
          (by rw [hpkt₄, hpkt₃, hpkt₂, hpkt₁, hpkt]) (by omega) hlen
        refine ⟨_, p', Or.inr (by rw [hok, Except.bind, hok₂]; rfl), hstands₅, by omega, ?_, ?_⟩
        · rw [hinside, extensionEnd_le_iff rfl hroom₁ hroom₂]
        · rw [hdata₅, hpkt₄]
          simp only
          rw [hpkt₃, hpkt₂, hpkt₁, hdata]

theorem parseData_stands (h : Stands st.bs buf (8 * p)) (hnear : p ≤ buf.length + 2 ^ 31)
    (hlen : buf.length < 2 ^ 32) (skipData : Bool) :
    ∃ p', Stands (parseData st skipData).bs buf (8 * p') ∧ (p' ≤ buf.length ↔ p ≤ buf.length) ∧
      (parseData st skipData).pkt.dataLengthBytes ≤ buf.length := by
  cases skipData with
  | true => exact ⟨p, h, Iff.rfl, Nat.zero_le _⟩
  | false =>
      have hreg := h.regUsed_eq_zero (by omega)
      obtain ⟨hleft, hfree⟩ := byteCountFree_le h hnear hlen
      have htake : ∀ (st' : ParseState) (n : ℕ), Stands st'.bs buf (8 * p) →
          klbsGetByteCountFree st'.bs = klbsGetByteCountFree st.bs → n ≤ byteCountFree st.bs →
          st'.pkt.dataLengthBytes = n →
          ∃ p', Stands (takeData st' n).bs buf (8 * p') ∧ (p' ≤ buf.length ↔ p ≤ buf.length) ∧
            (takeData st' n).pkt.dataLengthBytes ≤ buf.length := by
        intro st' n h' hsame hn hlength
        rw [takeData, if_pos ⟨h'.regUsed_eq_zero (by omega), by rw [hsame]; omega⟩]
        refine ⟨p + n, Stands.advance h' n, by omega, ?_⟩
        simp only [pkt_count, hlength]
        omega
      rw [parseData, if_neg (by simp)]
      simp only
      split_ifs
      all_goals
        first
        | exact htake _ _ (h.withFlags st.bs.overrun true) rfl (Nat.min_le_right _ _) rfl
        | exact htake _ _ h rfl (Nat.min_le_right _ _) rfl

theorem parseStart_stands (h : Stands st.bs buf 0) :
    Stands (parseStart st).bs buf (8 * 6) ∧
      (parseStart st).pkt.streamId = (buf.getD 3 0).toNat ∧
      (parseStart st).pkt.dataLengthBytes = st.pkt.dataLengthBytes := by
  obtain ⟨-, h1⟩ := h.readBits 24
  obtain ⟨v2, h2⟩ := h1.readBits 8
  obtain ⟨-, h3⟩ := h2.readBits 16
  rw [fieldAt_byte buf (by norm_num)] at v2
  unfold parseStart
  simp only
  split_ifs <;> exact ⟨h3, v2, rfl⟩

theorem stampEnd_le (buf : List UInt8) (p : ℕ) : p ≤ stampEnd buf p ∧ stampEnd buf p ≤ p + 5 := by
  unfold stampEnd
  split_ifs <;> omega

theorem fieldsEnd_le (buf : List UInt8) : fieldsEnd buf ≤ 100 := by
  have h1 := stampEnd_le buf 9
  have h2 := stampEnd_le buf (stampEnd buf 9)
  have hstamps : stampsEnd buf ≤ 19 := by
    unfold stampsEnd
    split_ifs <;> omega
  have h58 := bitAt_lt buf 58
  have h59 := bitAt_lt buf 59
  have h60 := bitAt_lt buf 60
  have h61 := bitAt_lt buf 61
  have h62 := bitAt_lt buf 62
  unfold fieldsEnd
  omega

theorem parseFields_stands (h : Stands st.bs buf (8 * 6)) (hsixteen : 16 ≤ buf.length)
    (hlen : buf.length < 2 ^ 32) :
    ∃ st', parseOptionalFields (parseFlags st) = parseExtension st' ∧
      Stands st'.bs buf (8 * fieldsEnd buf) ∧ st'.pkt.pesExtensionFlag = bitAt buf 63 ∧
      st'.pkt.dataLengthBytes = st.pkt.dataLengthBytes := by
  obtain ⟨h1, hpkt₁⟩ := parseFlags_stands h
  have hfree : ¬klbsGetByteCountFree (parseFlags st).bs < 1 := by
    rw [@free_inside buf 8 _ h1 (by omega) hlen]
    omega
  generalize hst :
    ((parseFlags st).field 8 fun p v ↦ { p with pesHeaderDataLength := v }).count 72 = st₂
  have h2 : Stands st₂.bs buf 72 := by
    rw [← hst]
    exact (h1.readBits 8).2
  obtain ⟨v₂, hpkt₂⟩ : ∃ v, st₂.pkt = { (parseFlags st).pkt with pesHeaderDataLength := v } := by
    rw [← hst]
    exact ⟨_, rfl⟩
  obtain ⟨h3, pts, dts, hpkt₃⟩ := parseTimestamps_stands h2 (by rw [hpkt₂, hpkt₁])
  obtain ⟨h4, hpkt₄⟩ := @parseEscr_stands _ _ _ h3 58 (by rw [hpkt₃, hpkt₂, hpkt₁])
  obtain ⟨h5, v₅, hpkt₅⟩ := @parseEsRate_stands _ _ _ h4 59 (by rw [hpkt₄, hpkt₃, hpkt₂, hpkt₁])
  obtain ⟨h6, hpkt₆⟩ := @parseTrickMode_stands _ _ _ h5 60 (by
    rw [hpkt₅, hpkt₄, hpkt₃, hpkt₂, hpkt₁])
  obtain ⟨h7, v₇, hpkt₇⟩ := @parseCopyInfo_stands _ _ _ h6 61 (by
    rw [hpkt₆, hpkt₅, hpkt₄, hpkt₃, hpkt₂, hpkt₁])
  obtain ⟨h8, v₈, hpkt₈⟩ := @parseCrc_stands _ _ _ h7 62 (by
    rw [hpkt₇, hpkt₆, hpkt₅, hpkt₄, hpkt₃, hpkt₂, hpkt₁])
  have hpkt : (parseCrc (parseCopyInfo (parseTrickMode (parseEsRate (parseEscr
      (parseTimestamps st₂)))))).pkt.pesExtensionFlag = bitAt buf 63 ∧
      (parseCrc (parseCopyInfo (parseTrickMode (parseEsRate (parseEscr
        (parseTimestamps st₂)))))).pkt.dataLengthBytes = st.pkt.dataLengthBytes := by
    rw [hpkt₈, hpkt₇, hpkt₆, hpkt₅, hpkt₄, hpkt₃, hpkt₂, hpkt₁]
    exact ⟨rfl, rfl⟩
  refine ⟨_, ?_, h8, hpkt.1, hpkt.2⟩
  rw [parseOptionalFields, parseHeaderDataLength, if_neg hfree, hst]
  simp only [Except.bind]

theorem parseOptional_stands (h : Stands st.bs buf (8 * 6)) (hsixteen : 16 ≤ buf.length)
    (hlen : buf.length < 2 ^ 32) (hdata : st.pkt.dataLengthBytes ≤ buf.length) (skipData : Bool) :
    ∃ p, Stands (stopped ((parseOptionalFields (parseFlags st)).map fun st ↦
        parseData st skipData)).bs buf (8 * p) ∧
      (p ≤ buf.length ↔ uncheckedEnd buf ≤ buf.length) ∧
      (stopped ((parseOptionalFields (parseFlags st)).map fun st ↦
        parseData st skipData)).pkt.dataLengthBytes ≤ buf.length := by
  obtain ⟨st₁, hst₁, h1, hflag, hdata₁⟩ := parseFields_stands h hsixteen hlen
  obtain ⟨st₂, p, hst₂, h2, hnear, hinside, hdata₂⟩ := parseExtension_stands h1 hflag
    (fieldsEnd_le buf) hlen
  rw [hst₁]
  rcases hst₂ with herror | hok
  · rw [herror]
    refine ⟨p, h2, hinside, ?_⟩
    simp only [Except.map, stopped]
    omega
  · rw [hok]
    obtain ⟨p', h3, hinside', hdata₃⟩ := parseData_stands h2 (by omega) hlen skipData
    exact ⟨p', h3, hinside'.trans hinside, hdata₃⟩

/-- A packet without it is cut to the buffer. -/
theorem truncateLength_stands (h : Stands st.bs buf (8 * p)) (hp : p ≤ buf.length)
    (hlen : buf.length < 2 ^ 32) :
    Stands (truncateLength st).bs buf (8 * p) ∧
      p + (truncateLength st).pkt.pesPacketLength ≤ buf.length ∧
      (truncateLength st).pkt.pesPacketLength ≤ klbsGetByteCountFree (truncateLength st).bs ∧
      (truncateLength st).pkt.dataLengthBytes = st.pkt.dataLengthBytes := by
  obtain ⟨hleft, hfree⟩ := byteCountFree_le h (by omega) hlen
  unfold truncateLength
  split_ifs with hcut
  · exact ⟨h.withFlags st.bs.overrun true, by simp only; omega, hfree, rfl⟩
  · exact ⟨h, by omega, by omega, rfl⟩

end Positions

/-- The parser stays in a buffer of sixteen bytes or more exactly when what it
reads without a check lies there; the data it allocates always fit. -/
theorem parse_in_bounds_iff {buf : List UInt8} (hsixteen : 16 ≤ buf.length)
    (hlen : buf.length < 2 ^ 32) (skipData : Bool) :
    ((pesPacketParse pesPacketAlloc (klbsReadSetBuffer buf) skipData).bs.buflenUsed ≤ buf.length ∧
      (pesPacketParse pesPacketAlloc (klbsReadSetBuffer buf) skipData).pkt.dataLengthBytes ≤
        buf.length) ↔ FieldsInside buf := by
  have hfree : ¬klbsGetByteCountFree (klbsReadSetBuffer buf) < 8 := by
    rw [byteCountFree_start hlen]
    omega
  generalize hentry : (⟨{ pesPacketAlloc with skipPayloadParsing := skipData },
    klbsReadSetBuffer buf, 0⟩ : ParseState) = entry
  have hstart : Stands entry.bs buf 0 := by
    rw [← hentry]
    exact stands_start buf
  have hzero : entry.pkt.dataLengthBytes = 0 := by
    rw [← hentry]
    rfl
  obtain ⟨h1, hid, hdata⟩ := parseStart_stands hstart
  rw [pesPacketParse, if_neg hfree, hentry]
  generalize parseStart entry = st at h1 hid hdata
  simp only [hid]
  unfold FieldsInside
  by_cases hoptional : hasOptionalHeader (buf.getD 3 0).toNat = true
  · obtain ⟨p, h2, hinside, hlength⟩ := parseOptional_stands h1 hsixteen hlen (by omega) skipData
    have hused := h2.buflenUsed_eq (by omega)
    rw [if_pos hoptional, hused, Nat.mul_div_cancel_left _ (by norm_num)]
    simp only [hoptional, true_implies, hlength, and_true]
    exact hinside
  · -- whatever else is read has been cut to the buffer
    rw [if_neg hoptional]
    simp only [hoptional, Bool.false_eq_true, false_implies, iff_true]
    obtain ⟨h2, hcut, hleft, hdata₂⟩ := truncateLength_stands h1 (by omega) hlen
    split_ifs
    · rw [takeData, if_pos ⟨h2.regUsed_eq_zero (by omega), hleft⟩]
      have hused := h2.buflenUsed_eq (by omega)
      exact ⟨by simp only [bs_count]; omega, by simp only [pkt_count]; omega⟩
    · have h3 := skipBytes_stands h2 (truncateLength st).pkt.pesPacketLength
      have hused := h3.buflenUsed_eq (by omega)
      refine ⟨by rw [hused]; omega, ?_⟩
      exact le_trans (le_of_eq hdata₂) (by omega)
    · have hused := h1.buflenUsed_eq (by omega)
      exact ⟨by omega, by omega⟩

theorem stamped_buffer_in_bounds :
    (pesPacketParse pesPacketAlloc (klbsReadSetBuffer
        [0, 0, 1, 0xE0, 0, 0, 0x80, 0x80, 5, 0x21, 0, 1, 0, 1, 7, 7]) false).bs.buflenUsed ≤ 16 ∧
      (pesPacketParse pesPacketAlloc (klbsReadSetBuffer
        [0, 0, 1, 0xE0, 0, 0, 0x80, 0x80, 5, 0x21, 0, 1, 0, 1, 7, 7]) false).pkt.dataLengthBytes ≤
        16 :=
  (parse_in_bounds_iff (by decide) (by decide) false).mpr (by decide +kernel)

/-- A time stamp and a clock reference are announced in sixteen bytes; the last
four bytes of the reference are read from behind the buffer. -/
theorem reads_behind_buffer :
    [0, 0, 1, 0xE0, 0, 0, 0x80, 0xA0, 11, 0x21, 0, 1, 0, 1, 7, 7].length = 16 ∧
      (pesPacketParse pesPacketAlloc (klbsReadSetBuffer
        [0, 0, 1, 0xE0, 0, 0, 0x80, 0xA0, 11, 0x21, 0, 1, 0, 1, 7, 7]) true).bs.buflenUsed =
          20 := by
  decide +kernel

end LtnTsTools.Pes
