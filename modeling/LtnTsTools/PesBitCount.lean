import LtnTsTools.PesBounds

/-!
# The bits the PES parser accounts for

`ltn_pes_packet_parse` returns a count of bits that its caller keeps in an `int`.
For a packet with time stamps only the count follows from the flags, the marker
bits and two lengths, and the few packets whose count is lost in an `int` can be
named.
-/

namespace LtnTsTools.Pes

open BitReader

section Counting

variable {st : ParseState} {buf : List UInt8} {p : ℕ}

/-- The announced length does not reach behind the time stamps, and the bytes
accounted for are a multiple of `2^29`: their bits are zero in an `int`. -/
def CountWraps (buf : List UInt8) : Prop :=
  fieldAt buf 32 16 < 3 + timestampBytes buf ∧
    (9 + timestampBytes buf + (buf.length - stampsEnd buf)) % 2 ^ 29 = 0

instance (buf : List UInt8) : Decidable (CountWraps buf) := inferInstanceAs (Decidable (_ ∧ _))

theorem stampsEnd_le (h : (buf.getD 7 0).toNat % 64 = 0) :
    9 ≤ stampsEnd buf ∧ stampsEnd buf ≤ 9 + timestampBytes buf := by
  obtain ⟨hvalue, -⟩ := flags_of_timestamps h
  have h1 := stampEnd_le buf 9
  have h2 := stampEnd_le buf (stampEnd buf 9)
  unfold stampsEnd timestampBytes
  rw [hvalue]
  split_ifs <;> omega

theorem timestampBytes_le (buf : List UInt8) : timestampBytes buf ≤ 10 := by
  unfold timestampBytes
  split_ifs <;> omega

theorem bits_parseTimestamps (h : (buf.getD 7 0).toNat % 64 = 0)
    (hflags : st.pkt.ptsDtsFlags = fieldAt buf 56 2) :
    (parseTimestamps st).bits = st.bits + 8 * timestampBytes buf := by
  obtain ⟨hvalue, -⟩ := flags_of_timestamps h
  unfold parseTimestamps timestampBytes
  rw [hflags, hvalue]
  split_ifs <;> rfl

theorem length_parseStart (h : Stands st.bs buf 0) (hsixteen : 16 ≤ buf.length)
    (hlen : buf.length < 2 ^ 32) :
    (parseStart st).pkt.pesPacketLength = min (fieldAt buf 32 16) (buf.length - 6) ∧
      (parseStart st).bits = st.bits := by
  obtain ⟨-, h1⟩ := h.readBits 24
  obtain ⟨-, h2⟩ := h1.readBits 8
  obtain ⟨v3, h3⟩ := h2.readBits 16
  have hfree := @free_inside buf 6 _ h3 (by omega) hlen
  have hannounced : (klbsReadBits (klbsReadBits (klbsReadBits st.bs 24).2 8).2 16).1 =
      fieldAt buf 32 16 := v3
  unfold parseStart
  simp only [bs_field, pkt_field, hannounced, hfree]
  split_ifs with hcut
  · rw [min_eq_right hcut.le]
    exact ⟨rfl, rfl⟩
  · rw [min_eq_left (Nat.le_of_not_lt hcut), pkt_field, bits_field, bits_field, bits_field]
    exact ⟨hannounced, rfl⟩

/-- The parser stands behind the time stamps and has counted up to there. -/
theorem parseOptionalFields_counts (h : Stands st.bs buf (8 * 6)) (hbuf : WithTimestamps buf)
    (hlen : buf.length < 2 ^ 32) :
    ∃ st', parseOptionalFields (parseFlags st) = .ok st' ∧
      Stands st'.bs buf (8 * stampsEnd buf) ∧
      st'.bits = st.bits + 72 + 8 * timestampBytes buf ∧
      st'.pkt.pesPacketLength = st.pkt.pesPacketLength := by
  have hsixteen := hbuf.sixteen_le
  obtain ⟨h1, hpkt₁⟩ := parseFlags_stands h
  obtain ⟨-, hzero⟩ := flags_of_timestamps hbuf.no_other_field
  have hfree : ¬klbsGetByteCountFree (parseFlags st).bs < 1 := by
    rw [@free_inside buf 8 _ h1 (by omega) hlen]
    omega
  generalize hst :
    ((parseFlags st).field 8 fun p v ↦ { p with pesHeaderDataLength := v }).count 72 = st₂
  have h2 : Stands st₂.bs buf 72 := by
    rw [← hst]
    exact (h1.readBits 8).2
  obtain ⟨v₂, hpkt₂⟩ : ∃ v, st₂.pkt = { (parseFlags st).pkt with pesHeaderDataLength := v } := by
    rw [← hst]
    exact ⟨_, rfl⟩
  have hbits₂ : st₂.bits = st.bits + 72 := by
    rw [← hst]
    rfl
  have hflags : st₂.pkt.ptsDtsFlags = fieldAt buf 56 2 := by rw [hpkt₂, hpkt₁]
  obtain ⟨h3, pts, dts, hpkt₃⟩ := parseTimestamps_stands h2 hflags
  have hbits₃ := bits_parseTimestamps hbuf.no_other_field hflags
  refine ⟨parseTimestamps st₂, ?_, h3, by omega, by rw [hpkt₃, hpkt₂, hpkt₁]⟩
  -- none of the other fields is there
  have hothers : (parseTimestamps st₂).pkt.escrFlag = 0 ∧
      (parseTimestamps st₂).pkt.esRateFlag = 0 ∧ (parseTimestamps st₂).pkt.dsmTrickModeFlag = 0 ∧
      (parseTimestamps st₂).pkt.additionalCopyInfoFlag = 0 ∧
      (parseTimestamps st₂).pkt.pesCrcFlag = 0 ∧
      (parseTimestamps st₂).pkt.pesExtensionFlag = 0 := by
    rw [hpkt₃, hpkt₂, hpkt₁]
    exact ⟨hzero 58 (by omega) (by omega), hzero 59 (by omega) (by omega),
      hzero 60 (by omega) (by omega), hzero 61 (by omega) (by omega),
      hzero 62 (by omega) (by omega), hzero 63 (by omega) (by omega)⟩
  obtain ⟨e1, e2, e3, e4, e5, e6⟩ := hothers
  rw [parseOptionalFields, parseHeaderDataLength, if_neg hfree, hst]
  simp [Except.bind, parseEscr, parseEsRate, parseTrickMode, parseCopyInfo, parseCrc,
    parseExtension, e1, e2, e3, e4, e5, e6]

/-- The data that are taken, in bits of an `int`. -/
theorem bits_parseData (h : Stands st.bs buf (8 * p)) (hp : p ≤ buf.length)
    (hlen : buf.length < 2 ^ 31) :
    (parseData st false).bits % 2 ^ 32 = (st.bits + 8 * min
      (if (st.bits - 48) / 8 ≤ st.pkt.pesPacketLength then
        st.pkt.pesPacketLength - (st.bits - 48) / 8 else buf.length - p) (buf.length - p)) %
          2 ^ 32 := by
  have hfree := free_inside h hp (by omega)
  have hint : byteCountFree st.bs = buf.length - p := by
    rw [byteCountFree, hfree, if_pos (by omega)]
  have htake : ∀ (st' : ParseState) (n : ℕ),
      (takeData st' n).bits % 2 ^ 32 = (st'.bits + 8 * n) % 2 ^ 32 := by
    intro st' n
    unfold takeData
    split_ifs
    · change (st'.bits + n * 8 % 2 ^ 32) % 2 ^ 32 = _
      omega
    · rfl
  rw [parseData, if_neg (by simp)]
  simp only [hint, htake, ge_iff_le]
  split_ifs <;> rfl

/-- Only a count that takes all that is left can reach `2^32`. -/
theorem countWraps_iff {announced ts len stamps : ℕ} (hts : ts ≤ 10)
    (hannounced : announced < 2 ^ 16) (hlen : 9 + ts < len) (hstamps : stamps ≤ 9 + ts)
    (hmax : len < 2 ^ 31) :
    (0 + 72 + 8 * ts + 8 * min (if 3 + ts ≤ min announced (len - 6) then
        min announced (len - 6) - (3 + ts) else len - stamps) (len - stamps)) % 2 ^ 32 = 0 ↔
      announced < 3 + ts ∧ (9 + ts + (len - stamps)) % 2 ^ 29 = 0 := by
  split_ifs with hshort
  · constructor
    · intro hwrap
      omega
    · rintro ⟨hless, -⟩
      omega
  · rw [min_self]
    omega

end Counting

/-- The count of bits is zero in an `int` exactly for the named packets. -/
theorem pesPacketParse_bits {buf : List UInt8} (hbuf : WithTimestamps buf)
    (hlen : buf.length < 2 ^ 31) :
    (pesPacketParse pesPacketAlloc (klbsReadSetBuffer buf) false).bits % 2 ^ 32 = 0 ↔
      CountWraps buf := by
  have hsixteen := hbuf.sixteen_le
  have hpayload := hbuf.payload
  have hts := timestampBytes_le buf
  obtain ⟨hnine, hstamps⟩ := stampsEnd_le hbuf.no_other_field
  have hannounced := fieldAt_lt buf 32 16
  have hfree : ¬klbsGetByteCountFree (klbsReadSetBuffer buf) < 8 := by
    rw [byteCountFree_start (by omega)]
    omega
  generalize hentry : (⟨{ pesPacketAlloc with skipPayloadParsing := false },
    klbsReadSetBuffer buf, 0⟩ : ParseState) = entry
  have hstart : Stands entry.bs buf 0 := by
    rw [← hentry]
    exact stands_start buf
  have hzero : entry.bits = 0 := by rw [← hentry]
  obtain ⟨h6, hid, -⟩ := parseStart_stands hstart
  obtain ⟨hlength, hbits⟩ := length_parseStart hstart hsixteen (by omega)
  obtain ⟨st, hok, hst, hbits', hlength'⟩ := parseOptionalFields_counts h6 hbuf (by omega)
  have hdata := bits_parseData hst (by omega) hlen
  have hparse : pesPacketParse pesPacketAlloc (klbsReadSetBuffer buf) false =
      parseData st false := by
    rw [pesPacketParse, if_neg hfree, hentry]
    simp only [hid, hbuf.optional_header, if_true, hok, Except.map, stopped]
  have hcounted : (0 + 72 + 8 * timestampBytes buf - 48) / 8 = 3 + timestampBytes buf := by omega
  rw [hparse, hdata, hbits', hlength', hlength, hbits, hzero, hcounted]
  exact countWraps_iff (by omega) hannounced (by omega) (by omega) (by omega)

end LtnTsTools.Pes
