import LtnTsTools.BitReader

/-!
# PES packets

The model of `ltn_pes_packet_parse`.  The parser reads field after field from a
bit reader and counts the bits it accounts for; several checks end it early, and
those are the errors of the stages below.
-/

namespace LtnTsTools.Pes

open BitReader

/-- `struct ltn_pes_packet_s`, less the arrival time. -/
structure PesPacket where
  packetStartCodePrefix : ℕ
  streamId : ℕ
  pesPacketLength : ℕ
  pesScramblingControl : ℕ
  pesPriority : ℕ
  dataAlignmentIndicator : ℕ
  copyright : ℕ
  originalOrCopy : ℕ
  ptsDtsFlags : ℕ
  escrFlag : ℕ
  esRateFlag : ℕ
  dsmTrickModeFlag : ℕ
  additionalCopyInfoFlag : ℕ
  pesCrcFlag : ℕ
  pesExtensionFlag : ℕ
  pesHeaderDataLength : ℕ
  pts : ℤ
  dts : ℤ
  esRate : ℕ
  additionalCopyInfo : ℕ
  previousPesPacketCrc : ℕ
  pesPrivateDataFlag : ℕ
  packHeaderFieldFlag : ℕ
  programPacketSequenceCounterFlag : ℕ
  pstdBufferFlag : ℕ
  pstdBufferScale : ℕ
  pstdBufferSize : ℕ
  pesExtensionFlag2 : ℕ
  pesExtensionFieldLength : ℕ
  data : Option (List UInt8)
  dataLengthBytes : ℕ
  skipPayloadParsing : Bool
  rawBuffer : List UInt8
  pcr : ℤ
deriving DecidableEq

/-- `ltn_pes_packet_alloc`. -/
def pesPacketAlloc : PesPacket where
  packetStartCodePrefix := 0
  streamId := 0
  pesPacketLength := 0
  pesScramblingControl := 0
  pesPriority := 0
  dataAlignmentIndicator := 0
  copyright := 0
  originalOrCopy := 0
  ptsDtsFlags := 0
  escrFlag := 0
  esRateFlag := 0
  dsmTrickModeFlag := 0
  additionalCopyInfoFlag := 0
  pesCrcFlag := 0
  pesExtensionFlag := 0
  pesHeaderDataLength := 0
  pts := 0
  dts := 0
  esRate := 0
  additionalCopyInfo := 0
  previousPesPacketCrc := 0
  pesPrivateDataFlag := 0
  packHeaderFieldFlag := 0
  programPacketSequenceCounterFlag := 0
  pstdBufferFlag := 0
  pstdBufferScale := 0
  pstdBufferSize := 0
  pesExtensionFlag2 := 0
  pesExtensionFieldLength := 0
  data := none
  dataLengthBytes := 0
  skipPayloadParsing := false
  rawBuffer := []
  pcr := 0

structure ParseState where
  pkt : PesPacket
  bs : Klbs
  bits : ℕ

namespace ParseState

def field (st : ParseState) (n : ℕ) (set : PesPacket → ℕ → PesPacket) : ParseState :=
  { st with pkt := set st.pkt (klbsReadBits st.bs n).1, bs := (klbsReadBits st.bs n).2 }

def skip (st : ParseState) (n : ℕ) : ParseState := { st with bs := (klbsReadBits st.bs n).2 }

/-- `bits += n`. -/
def count (st : ParseState) (n : ℕ) : ParseState := { st with bits := st.bits + n }

end ParseState

/-- Stream ids whose packets have the optional header. -/
def hasOptionalHeader (streamId : ℕ) : Bool :=
  !(streamId ∈ [0xBC, 0xBE, 0xBF, 0xF0, 0xF1, 0xFF, 0xF2, 0xF8])

/-- Stream ids whose packets are data bytes only. -/
def hasDataBytes (streamId : ℕ) : Bool := streamId ∈ [0xBF, 0xF0, 0xF1, 0xFF, 0xF2, 0xF8]

/-- `byte_count_free` as an `int` that is not left negative. -/
def byteCountFree (bs : Klbs) : ℕ :=
  if klbsGetByteCountFree bs < 2 ^ 31 then klbsGetByteCountFree bs else 0

/-- `read33bit_ts`; a missing marker bit ends it early. -/
def read33bitTs (bs : Klbs) : ℤ × Klbs :=
  let a := klbsReadBits bs 3
  let m1 := klbsReadBits a.2 1
  if m1.1 ≠ 1 then (-1, m1.2)
  else
    let b := klbsReadBits m1.2 15
    let m2 := klbsReadBits b.2 1
    if m2.1 ≠ 1 then (-1, m2.2)
    else
      let c := klbsReadBits m2.2 15
      let m3 := klbsReadBits c.2 1
      if m3.1 ≠ 1 then (-1, m3.2)
      else ((a.1 <<< 30 ||| b.1 <<< 15 ||| c.1 : ℕ), m3.2)

/-- Start code, stream id and length; the length is cut to what is there. -/
def parseStart (st : ParseState) : ParseState :=
  let st := ((st.field 24 fun p v ↦ { p with packetStartCodePrefix := v }).field 8
    fun p v ↦ { p with streamId := v }).field 16 fun p v ↦ { p with pesPacketLength := v }
  if klbsGetByteCountFree st.bs < st.pkt.pesPacketLength then
    { st with pkt := { st.pkt with pesPacketLength := klbsGetByteCountFree st.bs } }
  else st

/-- The two bytes of flags, two reserved bits first. -/
def parseFlags (st : ParseState) : ParseState :=
  let reserved := klbsReadBits st.bs 2
  let scrambling := klbsReadBits reserved.2 2
  let priority := klbsReadBits scrambling.2 1
  let alignment := klbsReadBits priority.2 1
  let copyright := klbsReadBits alignment.2 1
  let original := klbsReadBits copyright.2 1
  let ptsDts := klbsReadBits original.2 2
  let escr := klbsReadBits ptsDts.2 1
  let esRate := klbsReadBits escr.2 1
  let trickMode := klbsReadBits esRate.2 1
  let copyInfo := klbsReadBits trickMode.2 1
  let crc := klbsReadBits copyInfo.2 1
  let extension := klbsReadBits crc.2 1
  { st with
    pkt := { st.pkt with
      pesScramblingControl := scrambling.1
      pesPriority := priority.1
      dataAlignmentIndicator := alignment.1
      copyright := copyright.1
      originalOrCopy := original.1
      ptsDtsFlags := ptsDts.1
      escrFlag := escr.1
      esRateFlag := esRate.1
      dsmTrickModeFlag := trickMode.1
      additionalCopyInfoFlag := copyInfo.1
      pesCrcFlag := crc.1
      pesExtensionFlag := extension.1 }
    bs := extension.2 }

def parseHeaderDataLength (st : ParseState) : Except ParseState ParseState :=
  if klbsGetByteCountFree st.bs < 1 then .error st
  else .ok ((st.field 8 fun p v ↦ { p with pesHeaderDataLength := v }).count 72)

def parseTs (st : ParseState) (set : PesPacket → ℤ → PesPacket) : ParseState :=
  let st := st.skip 4
  let ts := read33bitTs st.bs
  ({ st with pkt := set st.pkt ts.1, bs := ts.2 }).count 40

def parseTimestamps (st : ParseState) : ParseState :=
  if st.pkt.ptsDtsFlags = 2 then parseTs st fun p v ↦ { p with pts := v }
  else if st.pkt.ptsDtsFlags = 3 then
    parseTs (parseTs st fun p v ↦ { p with pts := v }) fun p v ↦ { p with dts := v }
  else st

def parseEscr (st : ParseState) : ParseState :=
  if st.pkt.escrFlag ≠ 0 then (st.skip 48).count 48 else st

/-- The rate overwrites its own flag. -/
def parseEsRate (st : ParseState) : ParseState :=
  if st.pkt.esRateFlag ≠ 0 then
    (((st.skip 1).field 22 fun p v ↦ { p with esRateFlag := v }).skip 1).count 24
  else st

def parseTrickMode (st : ParseState) : ParseState :=
  if st.pkt.dsmTrickModeFlag ≠ 0 then (st.skip 8).count 8 else st

def parseCopyInfo (st : ParseState) : ParseState :=
  if st.pkt.additionalCopyInfoFlag ≠ 0 then
    ((st.skip 1).field 7 fun p v ↦ { p with additionalCopyInfo := v }).count 8
  else st

def parseCrc (st : ParseState) : ParseState :=
  if st.pkt.pesCrcFlag ≠ 0 then
    (st.field 16 fun p v ↦ { p with previousPesPacketCrc := v }).count 16
  else st

/-- Reads and drops `n` bytes. -/
def skipBytes (st : ParseState) (n : ℕ) : ParseState :=
  ({ st with bs := (readBytes n st.bs).2 }).count (8 * n)

def parsePrivateData (st : ParseState) : Except ParseState ParseState :=
  if st.pkt.pesPrivateDataFlag = 1 then
    if klbsGetByteCountFree st.bs < 16 then .error st
    else .ok (((((st.skip 32).skip 32).skip 32).skip 32).count 128)
  else .ok st

def parsePackHeader (st : ParseState) : Except ParseState ParseState :=
  if st.pkt.packHeaderFieldFlag = 1 then
    let len := (klbsReadBits st.bs 8).1
    let st := (st.skip 8).count 8
    if klbsGetByteCountFree st.bs < len then .error st else .ok (skipBytes st len)
  else .ok st

def parseSequenceCounter (st : ParseState) : ParseState :=
  if st.pkt.programPacketSequenceCounterFlag = 1 then (st.skip 16).count 16 else st

def parsePstd (st : ParseState) : ParseState :=
  if st.pkt.pstdBufferFlag = 1 then
    (((st.skip 2).field 1 fun p v ↦ { p with pstdBufferScale := v }).field 13
      fun p v ↦ { p with pstdBufferSize := v }).count 16
  else st

/-- The extension field, cut to what is there. -/
def parseExtension2 (st : ParseState) : ParseState :=
  if st.pkt.pesExtensionFlag2 = 1 then
    let st := ((st.skip 1).field 7 fun p v ↦ { p with pesExtensionFieldLength := v }).count 8
    let free := byteCountFree st.bs
    let st := if free < st.pkt.pesExtensionFieldLength then
        { st with
          pkt := { st.pkt with
            pesExtensionFieldLength := free
            pesPacketLength := (st.bits - 48) / 8 + free }
          bs := { st.bs with truncated := true } }
      else st
    skipBytes st st.pkt.pesExtensionFieldLength
  else st

def parseExtension (st : ParseState) : Except ParseState ParseState :=
  if st.pkt.pesExtensionFlag ≠ 0 then
    let st := st.field 1 fun p v ↦ { p with pesPrivateDataFlag := v }
    let st := st.field 1 fun p v ↦ { p with packHeaderFieldFlag := v }
    let st := st.field 1 fun p v ↦ { p with programPacketSequenceCounterFlag := v }
    let st := st.field 1 fun p v ↦ { p with pstdBufferFlag := v }
    let st := st.skip 3
    let st := (st.field 1 fun p v ↦ { p with pesExtensionFlag2 := v }).count 8
    (parsePrivateData st).bind fun st ↦ (parsePackHeader st).map fun st ↦
      parseExtension2 (parsePstd (parseSequenceCounter st))
  else .ok st

/-- Copies `n` bytes into the data of the packet: at once from a byte boundary,
else one by one. -/
def takeData (st : ParseState) (n : ℕ) : ParseState :=
  if st.bs.regUsed = 0 ∧ n ≤ klbsGetByteCountFree st.bs then
    ({ st with
      pkt := { st.pkt with data := some ((st.bs.buf.drop st.bs.buflenUsed).take n) }
      bs := { st.bs with buflenUsed := st.bs.buflenUsed + n } }).count (n * 8 % 2 ^ 32)
  else
    ({ st with
      pkt := { st.pkt with data := some (readBytes n st.bs).1 }
      bs := (readBytes n st.bs).2 }).count (8 * n)

def parseData (st : ParseState) (skipData : Bool) : ParseState :=
  let st := { st with pkt := { st.pkt with dataLengthBytes := 0, data := none } }
  if skipData then st
  else
    let free := byteCountFree st.bs
    let wanted := if st.pkt.pesPacketLength ≥ (st.bits - 48) / 8 then
      st.pkt.pesPacketLength - (st.bits - 48) / 8 else free
    let st := if wanted > free then { st with bs := { st.bs with truncated := true } } else st
    let dataLengthBytes := min wanted free
    takeData { st with pkt := { st.pkt with dataLengthBytes := dataLengthBytes } } dataLengthBytes

/-- The length of a packet without optional header, cut to what is there. -/
def truncateLength (st : ParseState) : ParseState :=
  if byteCountFree st.bs < st.pkt.pesPacketLength then
    { st with
      pkt := { st.pkt with pesPacketLength := byteCountFree st.bs }
      bs := { st.bs with truncated := true } }
  else st

def parseOptionalFields (st : ParseState) : Except ParseState ParseState :=
  (parseHeaderDataLength st).bind fun st ↦
    parseExtension (parseCrc (parseCopyInfo (parseTrickMode (parseEsRate (parseEscr
      (parseTimestamps st))))))

/-- What an early return and a regular one have in common. -/
def stopped : Except ParseState ParseState → ParseState
  | .error st => st
  | .ok st => st

/-- `ltn_pes_packet_parse`. -/
def pesPacketParse (pkt : PesPacket) (bs : Klbs) (skipData : Bool) : ParseState :=
  if klbsGetByteCountFree bs < 8 then { pkt := pkt, bs := bs, bits := 0 }
  else
    let st := parseStart
      { pkt := { pkt with skipPayloadParsing := skipData }, bs := bs, bits := 0 }
    if hasOptionalHeader st.pkt.streamId then
      stopped ((parseOptionalFields (parseFlags st)).map fun st ↦ parseData st skipData)
    else if hasDataBytes st.pkt.streamId then
      let st := truncateLength st
      takeData st st.pkt.pesPacketLength
    else if st.pkt.streamId = 0xBE then
      let st := truncateLength st
      skipBytes st st.pkt.pesPacketLength
    else st

/-! ## Packets with time stamps only -/

@[simp] theorem bs_field (st : ParseState) (n : ℕ) (set : PesPacket → ℕ → PesPacket) :
    (st.field n set).bs = (klbsReadBits st.bs n).2 := rfl

@[simp] theorem pkt_field (st : ParseState) (n : ℕ) (set : PesPacket → ℕ → PesPacket) :
    (st.field n set).pkt = set st.pkt (klbsReadBits st.bs n).1 := rfl

@[simp] theorem bits_field (st : ParseState) (n : ℕ) (set : PesPacket → ℕ → PesPacket) :
    (st.field n set).bits = st.bits := rfl

@[simp] theorem bs_skip (st : ParseState) (n : ℕ) :
    (st.skip n).bs = (klbsReadBits st.bs n).2 := rfl

@[simp] theorem pkt_skip (st : ParseState) (n : ℕ) : (st.skip n).pkt = st.pkt := rfl

@[simp] theorem bits_skip (st : ParseState) (n : ℕ) : (st.skip n).bits = st.bits := rfl

@[simp] theorem bs_count (st : ParseState) (n : ℕ) : (st.count n).bs = st.bs := rfl

@[simp] theorem pkt_count (st : ParseState) (n : ℕ) : (st.count n).pkt = st.pkt := rfl

@[simp] theorem bits_count (st : ParseState) (n : ℕ) : (st.count n).bits = st.bits + n := rfl

/-- Bytes of the optional fields that the flags announce, for a packet with time
stamps only. -/
def timestampBytes (buf : List UInt8) : ℕ :=
  if (buf.getD 7 0).toNat / 64 = 2 then 5 else if (buf.getD 7 0).toNat / 64 = 3 then 10 else 0

/-- A PES packet with the optional header, no optional field but time stamps and
at least one byte behind them. -/
structure WithTimestamps (buf : List UInt8) : Prop where
  sixteen_le : 16 ≤ buf.length
  start_code : buf.take 3 = [0, 0, 1]
  optional_header : hasOptionalHeader (buf.getD 3 0).toNat = true
  no_other_field : (buf.getD 7 0).toNat % 64 = 0
  payload : 9 + timestampBytes buf < buf.length

instance (buf : List UInt8) : Decidable (WithTimestamps buf) :=
  decidable_of_iff (16 ≤ buf.length ∧ buf.take 3 = [0, 0, 1] ∧
      hasOptionalHeader (buf.getD 3 0).toNat = true ∧ (buf.getD 7 0).toNat % 64 = 0 ∧
      9 + timestampBytes buf < buf.length)
    ⟨fun ⟨h1, h2, h3, h4, h5⟩ ↦ ⟨h1, h2, h3, h4, h5⟩,
      fun h ↦ ⟨h.sixteen_le, h.start_code, h.optional_header, h.no_other_field, h.payload⟩⟩

theorem fieldAt_one (buf : List UInt8) (pos : ℕ) : fieldAt buf pos 1 = bitAt buf pos := by
  simp [fieldAt]

theorem parseStart_at {st : ParseState} {buf : List UInt8} (h : At st.bs buf 0)
    (hlen : 16 ≤ buf.length) :
    At (parseStart st).bs buf 48 ∧ (parseStart st).bits = st.bits ∧
      (parseStart st).pkt.streamId = (buf.getD 3 0).toNat := by
  have h1 := h.readBits (n := 24) (by omega)
  have h2 := h1.readBits (n := 8) (by omega)
  have h3 := h2.readBits (n := 16) (by omega)
  have hid := h1.readBits_byte (by norm_num)
  unfold parseStart
  simp only
  split_ifs <;> exact ⟨h3, rfl, hid⟩

theorem parseFlags_stands {st : ParseState} {buf : List UInt8} (h : Stands st.bs buf 48) :
    Stands (parseFlags st).bs buf 64 ∧ (parseFlags st).pkt = { st.pkt with
      pesScramblingControl := fieldAt buf 50 2
      pesPriority := bitAt buf 52
      dataAlignmentIndicator := bitAt buf 53
      copyright := bitAt buf 54
      originalOrCopy := bitAt buf 55
      ptsDtsFlags := fieldAt buf 56 2
      escrFlag := bitAt buf 58
      esRateFlag := bitAt buf 59
      dsmTrickModeFlag := bitAt buf 60
      additionalCopyInfoFlag := bitAt buf 61
      pesCrcFlag := bitAt buf 62
      pesExtensionFlag := bitAt buf 63 } := by
  obtain ⟨-, h1⟩ := h.readBits 2
  obtain ⟨v1, h2⟩ := h1.readBits 2
  obtain ⟨v2, h3⟩ := h2.readBits 1
  obtain ⟨v3, h4⟩ := h3.readBits 1
  obtain ⟨v4, h5⟩ := h4.readBits 1
  obtain ⟨v5, h6⟩ := h5.readBits 1
  obtain ⟨v6, h7⟩ := h6.readBits 2
  obtain ⟨v7, h8⟩ := h7.readBits 1
  obtain ⟨v8, h9⟩ := h8.readBits 1
  obtain ⟨v9, h10⟩ := h9.readBits 1
  obtain ⟨v10, h11⟩ := h10.readBits 1
  obtain ⟨v11, h12⟩ := h11.readBits 1
  obtain ⟨v12, h13⟩ := h12.readBits 1
  refine ⟨h13, ?_⟩
  simp only [parseFlags, v1, v2, v3, v4, v5, v6, v7, v8, v9, v10, v11, v12, fieldAt_one]

theorem parseFlags_at {st : ParseState} {buf : List UInt8} (h : At st.bs buf 48)
    (hlen : 16 ≤ buf.length) :
    At (parseFlags st).bs buf 64 ∧ (parseFlags st).bits = st.bits ∧
      (parseFlags st).pkt.ptsDtsFlags = fieldAt buf 56 2 ∧
      (parseFlags st).pkt.escrFlag = bitAt buf 58 ∧
      (parseFlags st).pkt.esRateFlag = bitAt buf 59 ∧
      (parseFlags st).pkt.dsmTrickModeFlag = bitAt buf 60 ∧
      (parseFlags st).pkt.additionalCopyInfoFlag = bitAt buf 61 ∧
      (parseFlags st).pkt.pesCrcFlag = bitAt buf 62 ∧
      (parseFlags st).pkt.pesExtensionFlag = bitAt buf 63 := by
  have h1 := h.readBits (n := 2) (by omega)
  have h2 := h1.readBits (n := 2) (by omega)
  have h3 := h2.readBits (n := 1) (by omega)
  have h4 := h3.readBits (n := 1) (by omega)
  have h5 := h4.readBits (n := 1) (by omega)
  have h6 := h5.readBits (n := 1) (by omega)
  have h7 := h6.readBits (n := 2) (by omega)
  have h8 := h7.readBits (n := 1) (by omega)
  have h9 := h8.readBits (n := 1) (by omega)
  have h10 := h9.readBits (n := 1) (by omega)
  have h11 := h10.readBits (n := 1) (by omega)
  have h12 := h11.readBits (n := 1) (by omega)
  have h13 := h12.readBits (n := 1) (by omega)
  have hpkt := (parseFlags_stands h.stands).2
  refine ⟨h13, rfl, ?_⟩
  rw [hpkt]
  exact ⟨rfl, rfl, rfl, rfl, rfl, rfl, rfl⟩

/-- A time stamp behind its tag takes four bits, two or four bytes more: a missing
marker ends it, but always at the end of a byte. -/
theorem read33bitTs_at {bs : Klbs} {buf : List UInt8} {pos : ℕ} (h : At bs buf (pos + 4))
    (hend : pos + 40 ≤ 8 * (buf.length - 1)) :
    ∃ k ∈ [8, 24, 40], At (read33bitTs bs).2 buf (pos + k) := by
  have h1 := h.readBits (n := 3) (by omega)
  have h2 := h1.readBits (n := 1) (by omega)
  have h3 := h2.readBits (n := 15) (by omega)
  have h4 := h3.readBits (n := 1) (by omega)
  have h5 := h4.readBits (n := 15) (by omega)
  have h6 := h5.readBits (n := 1) (by omega)
  unfold read33bitTs
  simp only
  split_ifs
  · exact ⟨8, by simp, h2⟩
  · exact ⟨24, by simp, h4⟩
  · exact ⟨40, by simp, h6⟩
  · exact ⟨40, by simp, h6⟩

theorem parseTs_at {st : ParseState} {buf : List UInt8} {pos : ℕ}
    {set : PesPacket → ℤ → PesPacket} (h : At st.bs buf pos) (hpos : pos % 8 = 0)
    (hend : pos + 40 ≤ 8 * (buf.length - 1)) :
    ∃ pos', pos' % 8 = 0 ∧ pos' ≤ pos + 40 ∧ At (parseTs st set).bs buf pos' ∧
      (parseTs st set).bits = st.bits + 40 ∧ ∃ v, (parseTs st set).pkt = set st.pkt v := by
  have h0 := h.readBits (n := 4) (by omega)
  obtain ⟨k, hk, hat⟩ := read33bitTs_at h0 hend
  have hcases : k = 8 ∨ k = 24 ∨ k = 40 := by simpa using hk
  exact ⟨pos + k, by omega, by omega, hat, rfl, _, rfl⟩

theorem flags_of_timestamps {buf : List UInt8} (h : (buf.getD 7 0).toNat % 64 = 0) :
    fieldAt buf 56 2 = (buf.getD 7 0).toNat / 64 ∧
      ∀ i, 58 ≤ i → i < 64 → bitAt buf i = 0 := by
  have hlt : (buf.getD 7 0).toNat < 256 := UInt8.toNat_lt _
  refine ⟨?_, ?_⟩
  · simp only [fieldAt, bitAt, Nat.reduceDiv, Nat.reduceAdd, Nat.reduceMod, Nat.reduceSub,
      Nat.reducePow]
    omega
  · intro i hlo hhi
    have hbits : ∀ b < 256, b % 64 = 0 → ∀ k < 6, b / 2 ^ k % 2 = 0 := by decide +kernel
    rw [bitAt, show i / 8 = 7 by omega]
    exact hbits _ hlt h _ (by omega)

/-- The time stamps end at a byte that is not the last. -/
theorem parseTimestamps_at {st : ParseState} {buf : List UInt8} (h : At st.bs buf 72)
    (hflags : st.pkt.ptsDtsFlags = (buf.getD 7 0).toNat / 64)
    (hend : 9 + timestampBytes buf < buf.length) :
    ∃ pos, pos % 8 = 0 ∧ pos ≤ 8 * (buf.length - 1) ∧ At (parseTimestamps st).bs buf pos ∧
      st.bits ≤ (parseTimestamps st).bits ∧
      ∃ pts dts, (parseTimestamps st).pkt = { st.pkt with pts := pts, dts := dts } := by
  unfold timestampBytes at hend
  unfold parseTimestamps
  rw [hflags]
  split_ifs at hend ⊢ with h2 h3
  · obtain ⟨pos, hmod, hle, hat, hbits, v, hpkt⟩ := @parseTs_at st buf 72
      (fun p v ↦ { p with pts := v }) h (by norm_num) (by omega)
    exact ⟨pos, hmod, by omega, hat, by omega, v, st.pkt.dts, hpkt⟩
  · obtain ⟨pos, hmod, hle, hat, hbits, v, hpkt⟩ := @parseTs_at st buf 72
      (fun p v ↦ { p with pts := v }) h (by norm_num) (by omega)
    obtain ⟨pos', hmod', hle', hat', hbits', v', hpkt'⟩ := @parseTs_at _ buf pos
      (fun p v ↦ { p with dts := v }) hat hmod (by omega)
    refine ⟨pos', hmod', by omega, hat', by omega, v, v', ?_⟩
    rw [hpkt', hpkt]
  · exact ⟨72, by norm_num, by omega, h, le_rfl, st.pkt.pts, st.pkt.dts, rfl⟩

/-- A packet with time stamps only is read to the payload without an overrun. -/
theorem parseOptionalFields_at {st : ParseState} {buf : List UInt8} (h : At st.bs buf 48)
    (hbuf : WithTimestamps buf) (hmax : buf.length < 2 ^ 31) :
    ∃ st' pos, parseOptionalFields (parseFlags st) = .ok st' ∧ pos % 8 = 0 ∧
      pos ≤ 8 * (buf.length - 1) ∧ At st'.bs buf pos ∧ 72 ≤ st'.bits := by
  have hlen := hbuf.sixteen_le
  obtain ⟨hat, hbits, hpts, h58, h59, h60, h61, h62, h63⟩ := parseFlags_at h hlen
  obtain ⟨hvalue, hzero⟩ := flags_of_timestamps hbuf.no_other_field
  rw [hvalue] at hpts
  rw [hzero 58 (by omega) (by omega)] at h58
  rw [hzero 59 (by omega) (by omega)] at h59
  rw [hzero 60 (by omega) (by omega)] at h60
  rw [hzero 61 (by omega) (by omega)] at h61
  rw [hzero 62 (by omega) (by omega)] at h62
  rw [hzero 63 (by omega) (by omega)] at h63
  have hfree : ¬klbsGetByteCountFree (parseFlags st).bs < 1 := by
    rw [hat.byteCountFree (by norm_num) (by omega) (by omega)]
    omega
  generalize hst : (((parseFlags st).field 8
    fun p v ↦ { p with pesHeaderDataLength := v }).count 72) = st₁
  have hat₁ : At st₁.bs buf 72 := by
    rw [← hst]
    exact hat.readBits (n := 8) (by omega)
  have hflags₁ : st₁.pkt.ptsDtsFlags = (buf.getD 7 0).toNat / 64 := by
    rw [← hst]
    exact hpts
  obtain ⟨pos, hmod, hle, hat₂, hbits₂, pts, dts, hpkt⟩ :=
    parseTimestamps_at hat₁ hflags₁ hbuf.payload
  have hbits₁ : st₁.bits = st.bits + 72 := by
    rw [← hst, bits_count, bits_field, hbits]
  refine ⟨parseTimestamps st₁, pos, ?_, hmod, hle, hat₂, by omega⟩
  -- none of the other fields is there
  have hfields : (parseTimestamps st₁).pkt.escrFlag = 0 ∧
      (parseTimestamps st₁).pkt.esRateFlag = 0 ∧ (parseTimestamps st₁).pkt.dsmTrickModeFlag = 0 ∧
      (parseTimestamps st₁).pkt.additionalCopyInfoFlag = 0 ∧
      (parseTimestamps st₁).pkt.pesCrcFlag = 0 ∧
      (parseTimestamps st₁).pkt.pesExtensionFlag = 0 := by
    rw [hpkt, ← hst]
    exact ⟨h58, h59, h60, h61, h62, h63⟩
  obtain ⟨e1, e2, e3, e4, e5, e6⟩ := hfields
  rw [parseOptionalFields, parseHeaderDataLength, if_neg hfree, hst]
  simp [Except.bind, parseEscr, parseEsRate, parseTrickMode, parseCopyInfo, parseCrc,
    parseExtension, e1, e2, e3, e4, e5, e6]

/-- From a byte boundary, data that is there is copied without an overrun. -/
theorem takeData_clean {st : ParseState} {n : ℕ} (hreg : st.bs.regUsed = 0)
    (hn : n ≤ klbsGetByteCountFree st.bs) :
    (takeData st n).bs.overrun = st.bs.overrun ∧ st.bits ≤ (takeData st n).bits := by
  rw [takeData, if_pos ⟨hreg, hn⟩]
  exact ⟨rfl, Nat.le_add_right _ _⟩

theorem parseData_clean {st : ParseState} {buf : List UInt8} {pos : ℕ} (skipData : Bool)
    (h : At st.bs buf pos) (hmod : pos % 8 = 0) (hpos : pos ≤ 8 * (buf.length - 1))
    (hmax : buf.length < 2 ^ 31) :
    (parseData st skipData).bs.overrun = false ∧ st.bits ≤ (parseData st skipData).bits := by
  cases skipData with
  | true => exact ⟨h.clean, le_rfl⟩
  | false =>
      have hreg := h.regUsed_eq_zero hmod
      have hfree := h.byteCountFree hmod (by omega) (by omega)
      have hint : byteCountFree st.bs = klbsGetByteCountFree st.bs := by
        rw [byteCountFree, if_pos (by omega)]
      have hle : ∀ wanted, min wanted (byteCountFree st.bs) ≤ klbsGetByteCountFree st.bs := by
        intro wanted
        rw [hint]
        exact Nat.min_le_right _ _
      have hkeep : (parseData st false).bs.overrun = st.bs.overrun ∧
          st.bits ≤ (parseData st false).bits := by
        rw [parseData, if_neg (by simp)]
        simp only
        split_ifs
        · exact @takeData_clean ⟨_, { st.bs with truncated := true }, st.bits⟩ _ hreg (hle _)
        · exact @takeData_clean ⟨_, st.bs, st.bits⟩ _ hreg (hle _)
        · exact @takeData_clean ⟨_, { st.bs with truncated := true }, st.bits⟩ _ hreg (hle _)
        · exact @takeData_clean ⟨_, st.bs, st.bits⟩ _ hreg (hle _)
      exact ⟨hkeep.1.trans h.clean, hkeep.2⟩

/-- A packet with time stamps only is parsed without an overrun, and bits are
accounted for. -/
theorem pesPacketParse_clean {buf : List UInt8} (skipData : Bool) (hbuf : WithTimestamps buf)
    (hmax : buf.length < 2 ^ 31) :
    (pesPacketParse pesPacketAlloc (klbsReadSetBuffer buf) skipData).bs.overrun = false ∧
      0 < (pesPacketParse pesPacketAlloc (klbsReadSetBuffer buf) skipData).bits := by
  have hlen := hbuf.sixteen_le
  have hstart := at_start buf
  have hfree : ¬klbsGetByteCountFree (klbsReadSetBuffer buf) < 8 := by
    rw [byteCountFree_start (by omega)]
    omega
  generalize hentry : (⟨{ pesPacketAlloc with skipPayloadParsing := skipData },
    klbsReadSetBuffer buf, 0⟩ : ParseState) = entry
  have hbs : entry.bs = klbsReadSetBuffer buf := by rw [← hentry]
  obtain ⟨hat, -, hid⟩ := @parseStart_at entry _ (hbs ▸ hstart) hlen
  generalize hst : parseStart entry = st at hat hid
  obtain ⟨st', pos, hok, hmod, hpos, hat', hbits⟩ := parseOptionalFields_at hat hbuf hmax
  obtain ⟨hclean, hmore⟩ := parseData_clean skipData hat' hmod hpos hmax
  rw [pesPacketParse, if_neg hfree, hentry, hst]
  simp only [hid, hbuf.optional_header, if_true, hok, Except.map, stopped]
  exact ⟨hclean, by omega⟩

end LtnTsTools.Pes
