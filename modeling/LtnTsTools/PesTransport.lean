import LtnTsTools.PesPack
import LtnTsTools.PesReassembly

/-!
# PES packets through a multiplex

A PES packet that is packed, cut into transport packets and put together by an extractor comes out
with the fields it went in with.  Of the packets on one pid exactly those arrive whose transport
packets all arrive with the first one of the next PES.
-/

namespace LtnTsTools.PesExtractor

open BitReader BitString BitWriter RingBuffer Stats Pes Packetizer

/-! ## Callbacks are parsed -/

def wireBytes (pkt : PesPacket) (buf : List UInt8) : List UInt8 :=
  packedBytes (pesPacketPack pkt (klbsWriteSetBuffer buf))

/-- A packet with a time stamp header and some data, shorter than `2^29` bytes. -/
structure StampedPacket (pkt : PesPacket) : Prop extends PlainPacket pkt where
  start_code : pkt.packetStartCodePrefix = 1
  no_copyInfo : pkt.additionalCopyInfoFlag = 0
  some_data : 0 < pkt.dataLengthBytes
  sixteen_le : 16 ≤ 6 + headerBytes pkt + pkt.dataLengthBytes
  short : 6 + headerBytes pkt + pkt.dataLengthBytes < 2 ^ 29

namespace StampedPacket

variable {pkt : PesPacket} {buf : List UInt8}

/-- Without an extension nothing is left of the data for a pack header. -/
theorem spelled (h : StampedPacket pkt)
    (hroom : 6 + headerBytes pkt + pkt.dataLengthBytes ≤ buf.length) :
    bytesToBits (wireBytes pkt buf) =
        (headerOf pkt none).bits ++ bytesToBits (dataBytes pkt pkt.dataLengthBytes) ∧
      (wireBytes pkt buf).length = 6 + headerBytes pkt + pkt.dataLengthBytes := by
  have hcount := h.writesWhatItCounts
  have hpresent : (dataBytes pkt pkt.dataLengthBytes).length = pkt.dataLengthBytes :=
    List.length_take_of_le h.data_present
  have hbits : (Packed.bits pkt).length ≤ 8 * buf.length := by
    have hwritten := length_written hcount
    simp only [Packed.bits, if_pos h.optional_header, List.length_append, Packed.length_startBits,
      Packed.length_flagBits, length_bytesToBits, hpresent] at hwritten ⊢
    omega
  obtain ⟨hspelled, hlength, -⟩ := packed_spelled h.optional_header h.flagsFit hcount hbits
    (fun hext ↦ absurd h.no_extension hext) (fun _ ↦ rfl) (List.nil_append _).symm
  rw [hpresent] at hlength
  exact ⟨hspelled, hlength⟩

/-- The header up to the flags of its optional fields, all but those of the time stamps zero. -/
theorem spelled_head (h : StampedPacket pkt)
    (hroom : 6 + headerBytes pkt + pkt.dataLengthBytes ≤ buf.length) :
    ∃ middle rest, middle.length = 24 ∧ bytesToBits (wireBytes pkt buf) =
      bitsOf 24 1 ++ (bitsOf 8 pkt.streamId ++ (middle ++
        (bitsOf 8 (64 * pkt.ptsDtsFlags) ++ rest))) := by
  have hflags : bitsOf 8 (64 * pkt.ptsDtsFlags) = bitsOf 2 pkt.ptsDtsFlags ++ (bitsOf 1 0 ++
      (bitsOf 1 0 ++ (bitsOf 1 0 ++ (bitsOf 1 0 ++ (bitsOf 1 0 ++ bitsOf 1 0))))) := by
    have hfour := h.ptsDtsFlags
    interval_cases pkt.ptsDtsFlags <;> decide
  refine ⟨bitsOf 16 (pkt.pesPacketLength % 2 ^ 16) ++ (bitsOf 2 2 ++
    (bitsOf 2 (pkt.pesScramblingControl % 2 ^ 2) ++ (bitsOf 1 (pkt.pesPriority % 2 ^ 1) ++
      (bitsOf 1 (pkt.dataAlignmentIndicator % 2 ^ 1) ++ (bitsOf 1 (pkt.copyright % 2 ^ 1) ++
        bitsOf 1 (pkt.originalOrCopy % 2 ^ 1)))))), bitsOf 8 (pkt.pesHeaderDataLength % 2 ^ 8) ++
    ((headerOf pkt none).optionalBits ++ bytesToBits (dataBytes pkt pkt.dataLengthBytes)), by simp,
    ?_⟩
  rw [(h.spelled hroom).1, hflags]
  have hoptional : (headerOf pkt none).flagBits = bitsOf 2 2 ++
      (bitsOf 2 (pkt.pesScramblingControl % 2 ^ 2) ++ (bitsOf 1 (pkt.pesPriority % 2 ^ 1) ++
        (bitsOf 1 (pkt.dataAlignmentIndicator % 2 ^ 1) ++ (bitsOf 1 (pkt.copyright % 2 ^ 1) ++
          (bitsOf 1 (pkt.originalOrCopy % 2 ^ 1) ++ (bitsOf 2 pkt.ptsDtsFlags ++ (bitsOf 1 0 ++
            (bitsOf 1 0 ++ (bitsOf 1 0 ++ (bitsOf 1 0 ++ (bitsOf 1 0 ++ bitsOf 1 0))))))))))) := by
    simp only [Header.flagBits, headerOf, announced, h.no_esRate, h.no_trickMode, h.no_copyInfo,
      h.no_crc, h.no_extension, ne_eq, not_true_eq_false, if_false, flagOf_none]
  have hstart : (headerOf pkt none).startBits =
      bitsOf 24 1 ++ (bitsOf 8 pkt.streamId ++ bitsOf 16 (pkt.pesPacketLength % 2 ^ 16)) := by
    simp only [Header.startBits, headerOf, h.start_code]
    rfl
  rw [Header.bits, hstart, hoptional]
  simp only [List.append_assoc]
  rfl

/-- The first bytes of the header, as far as they are checked. -/
theorem head (h : StampedPacket pkt)
    (hroom : 6 + headerBytes pkt + pkt.dataLengthBytes ≤ buf.length) :
    (wireBytes pkt buf).take 3 = [0, 0, 1] ∧ ((wireBytes pkt buf).getD 3 0).toNat = pkt.streamId ∧
      ((wireBytes pkt buf).getD 7 0).toNat = 64 * pkt.ptsDtsFlags := by
  obtain ⟨-, hlength⟩ := h.spelled hroom
  obtain ⟨middle, rest, hmiddle, hspelled⟩ := h.spelled_head hroom
  have hfour := h.ptsDtsFlags
  refine ⟨?_, ?_, ?_⟩
  · apply bytesToBits_inj
    have hthree : ((wireBytes pkt buf).take 3).length = 3 := List.length_take_of_le (by omega)
    have htake : bytesToBits ((wireBytes pkt buf).take 3) =
        (bytesToBits (wireBytes pkt buf)).take 24 := by
      conv_rhs => rw [← List.take_append_drop 3 (wireBytes pkt buf), bytesToBits_append]
      rw [List.take_left' (by rw [length_bytesToBits, hthree])]
    rw [htake, hspelled, List.take_left' (length_bitsOf _ _)]
    decide
  · have hdrop := congrArg (List.drop 24) hspelled
    rw [List.drop_left' (length_bitsOf _ _)] at hdrop
    have hfield := fieldAt_of_drop hdrop
    rw [fieldAt_byte _ (by norm_num), Nat.mod_eq_of_lt h.streamId] at hfield
    exact hfield
  · have hdrop := congrArg (List.drop 56) hspelled
    rw [← List.append_assoc, ← List.append_assoc, List.drop_left' (by simp [hmiddle])] at hdrop
    have hfield := fieldAt_of_drop hdrop
    rw [fieldAt_byte _ (by norm_num)] at hfield
    exact hfield.trans (Nat.mod_eq_of_lt (by omega))

theorem headerBytes_eq (h : StampedPacket pkt) : headerBytes pkt =
    3 + if pkt.ptsDtsFlags = 2 then 5 else if pkt.ptsDtsFlags = 3 then 10 else 0 := by
  simp only [headerBytes, h.no_esRate, h.no_trickMode, h.no_copyInfo, h.no_crc, h.no_extension,
    ne_eq, not_true_eq_false, if_false, Nat.add_zero]

theorem withTimestamps (h : StampedPacket pkt)
    (hroom : 6 + headerBytes pkt + pkt.dataLengthBytes ≤ buf.length) :
    WithTimestamps (wireBytes pkt buf) := by
  obtain ⟨hcode, hid, hflags⟩ := h.head hroom
  obtain ⟨-, hlength⟩ := h.spelled hroom
  have hheader := h.headerBytes_eq
  have hstamps : timestampBytes (wireBytes pkt buf) =
      if pkt.ptsDtsFlags = 2 then 5 else if pkt.ptsDtsFlags = 3 then 10 else 0 := by
    rw [timestampBytes, hflags, Nat.mul_div_cancel_left _ (by norm_num)]
  have hdata := h.some_data
  constructor
  · rw [hlength]
    exact h.sixteen_le
  · exact hcode
  · rw [hid]
    exact h.optional_header
  · rw [hflags]
    exact Nat.mul_mod_right _ _
  · rw [hstamps, hlength, hheader]
    omega

/-- What the extractor makes of the bytes: the fields that went in, and a count of bits that fits an
`int`. -/
theorem parsed (h : StampedPacket pkt)
    (hroom : 6 + headerBytes pkt + pkt.dataLengthBytes ≤ buf.length) :
    (pesPacketParse pesPacketAlloc (klbsReadSetBuffer (wireBytes pkt buf)) false).pkt =
        recovered pkt pesPacketAlloc ∧
      ¬CountWraps (wireBytes pkt buf) := by
  obtain ⟨hspelled, hlength⟩ := h.spelled hroom
  have hshort := h.short
  have hpresent : (dataBytes pkt pkt.dataLengthBytes).length = pkt.dataLengthBytes :=
    List.length_take_of_le h.data_present
  have hbehind : (headerOf pkt none).behind = headerBytes pkt := by
    have hbytes := @behind_headerOf pkt h.flagsFit h.writesWhatItCounts none
      (fun hext ↦ absurd h.no_extension hext) fun _ ↦ rfl
    rw [whenThere_none, List.length_nil] at hbytes
    omega
  have hsize : (headerOf pkt none).pesPacketLength = pkt.pesPacketLength := by
    refine Nat.mod_eq_of_lt ?_
    rcases h.packet_length with hzero | ⟨-, hle⟩ <;> omega
  have hdeclared : (headerOf pkt none).declared pkt.dataLengthBytes = pkt.dataLengthBytes := by
    have hthree := h.headerBytes_eq
    rw [Header.declared, hbehind, hsize]
    rcases h.packet_length with hzero | ⟨hexact, -⟩
    · rw [if_neg (by omega)]
    · rw [if_pos (by omega)]
      omega
  have hmin : min pkt.pesPacketLength (headerBytes pkt + pkt.dataLengthBytes) =
      pkt.pesPacketLength := by
    rcases h.packet_length with hzero | ⟨hexact, -⟩ <;> omega
  have hparse := parse_spelled hspelled (headerOf_inRange h.flagsFit (by simp)) h.optional_header
    (by omega) pesPacketAlloc false
  simp only [Bool.false_eq_true, if_false, hpresent, hdeclared, hbehind, hsize, hmin] at hparse
  obtain ⟨hpkt, hbits, -⟩ := hparse
  constructor
  · have hall : (dataBytes pkt pkt.dataLengthBytes).take pkt.dataLengthBytes =
        dataBytes pkt pkt.dataLengthBytes := List.take_of_length_le hpresent.le
    rw [hpkt, ← h.toPlainPacket.store_eq pesPacketAlloc, hall]
    rw [show (headerOf pkt none).packetStartCodePrefix = pkt.packetStartCodePrefix from
      Nat.mod_eq_of_lt h.packetStartCodePrefix]
    rfl
  · rw [← pesPacketParse_bits (h.withTimestamps hroom) (by omega), hbits]
    omega

end StampedPacket

/-! ## From packet to packet -/

/-- A packet to be sent, with the buffer it is packed into and the request for the packetizer. -/
structure Sending where
  pkt : PesPacket
  buf : List UInt8
  request : Request

def Sending.bytes (s : Sending) : List UInt8 := wireBytes s.pkt s.buf

def Sending.job (s : Sending) : Job := ⟨s.bytes, s.request⟩

/-- The packets are packed, packetized and sent, some transport packets are lost, and the others
arrive in a multiplex without other errors, cut into calls. -/
structure Carriage (pid cc : ℕ) (bufferMin : ℤ) (sends : List Sending) (groups : List (List Slot))
    (calls : List (List Packet)) : Prop where
  stamped : ∀ s ∈ sends, StampedPacket s.pkt
  room : ∀ s ∈ sends, 6 + headerBytes s.pkt + s.pkt.dataLengthBytes ≤ s.buf.length
  fits : ∀ s ∈ sends,
    6 + headerBytes s.pkt + s.pkt.dataLengthBytes ≤ orDefault bufferMin (4 * 1048576)
  pcr : ∀ s ∈ sends, s.request.pcr = -1 ∨ 0 ≤ s.request.pcr
  packets : packetizeAll pid cc (sends.map Sending.job) =
    some (groups.map fun slots ↦ slots.map Slot.packet)
  runs : ∀ k ∈ removedRuns groups.flatten, k % 16 ≠ 0
  own : onPid pid calls.flatten = survivors groups.flatten
  synced : ∀ pkt ∈ calls.flatten, Ts.syncPresent pkt = true
  clean : ∀ p, p ≠ pid → ((onPid p calls.flatten).foldl updatePid PidStatistics.zero).ccErrors = 0

/-- The packets whose transport packets all arrive, with the first one of the next. -/
def arrived : List (Sending × List Slot) → List Sending
  | x :: y :: rest =>
      (if x.2.all Slot.kept && headKept y.2 then [x.1] else []) ++ arrived (y :: rest)
  | _ => []

end LtnTsTools.PesExtractor
