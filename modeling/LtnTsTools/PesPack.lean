import LtnTsTools.BitWriter
import LtnTsTools.CTypes
import LtnTsTools.PesSyntax

/-!
# Packing PES packets

The model of `ltn_pes_packet_pack`: the fields are written one after the other,
and the bits are counted beside the writes.  What a stage writes and what it
counts are kept apart, because they are not always the same.
-/

namespace LtnTsTools.Pes

open BitReader BitWriter BitString

/-- The writer and the bits accounted for. -/
structure PackState where
  bs : Klbs
  bits : ℕ

namespace PackState

/-- Writes the low `n` bits of a value. -/
def put (st : PackState) (v n : ℕ) : PackState := { st with bs := klbsWriteBits st.bs v n }

/-- `bits += n`. -/
def count (st : PackState) (n : ℕ) : PackState := { st with bits := st.bits + n }

def putBytes : PackState → List UInt8 → PackState
  | st, [] => st
  | st, b :: rest => putBytes ((st.put b.toNat 8).count 8) rest

end PackState

/-- `write33bit_ts`. -/
def write33bitTs (st : PackState) (value : ℤ) : PackState :=
  (((((st.put (uint64 (value >>> (30 : ℕ))) 3).put 1 1).put
    (uint64 (value >>> (15 : ℕ))) 15).put 1 1).put (uint64 value) 15).put 1 1

def packStart (pkt : PesPacket) (st : PackState) : PackState :=
  ((st.put pkt.packetStartCodePrefix 24).put pkt.streamId 8).put pkt.pesPacketLength 16

def packFlags (pkt : PesPacket) (st : PackState) : PackState :=
  let st := st.put 0x02 2
  let st := st.put pkt.pesScramblingControl 2
  let st := st.put pkt.pesPriority 1
  let st := st.put pkt.dataAlignmentIndicator 1
  let st := st.put pkt.copyright 1
  let st := st.put pkt.originalOrCopy 1
  let st := st.put pkt.ptsDtsFlags 2
  let st := st.put pkt.escrFlag 1
  let st := st.put pkt.esRateFlag 1
  let st := st.put pkt.dsmTrickModeFlag 1
  let st := st.put pkt.additionalCopyInfoFlag 1
  let st := st.put pkt.pesCrcFlag 1
  let st := st.put pkt.pesExtensionFlag 1
  (st.put pkt.pesHeaderDataLength 8).count 72

def packTimestamps (pkt : PesPacket) (st : PackState) : PackState :=
  if pkt.ptsDtsFlags = 2 then (write33bitTs (st.put 0x2 4) pkt.pts).count 40
  else if pkt.ptsDtsFlags = 3 then
    (write33bitTs (((write33bitTs (st.put 0x3 4) pkt.pts).count 40).put 0x1 4) pkt.dts).count 40
  else st

/-- Forty bits are written, forty-eight counted. -/
def packEscr (pkt : PesPacket) (st : PackState) : PackState :=
  if pkt.escrFlag ≠ 0 then (st.put 0 40).count 48 else st

/-- The flag is written in place of the rate. -/
def packEsRate (pkt : PesPacket) (st : PackState) : PackState :=
  if pkt.esRateFlag ≠ 0 then (((st.put 1 1).put pkt.esRateFlag 22).put 1 1).count 24 else st

def packTrickMode (pkt : PesPacket) (st : PackState) : PackState :=
  if pkt.dsmTrickModeFlag ≠ 0 then (st.put 0 8).count 8 else st

def packCopyInfo (pkt : PesPacket) (st : PackState) : PackState :=
  if pkt.additionalCopyInfoFlag ≠ 0 then ((st.put 1 1).put pkt.additionalCopyInfo 7).count 8
  else st

def packCrc (pkt : PesPacket) (st : PackState) : PackState :=
  if pkt.pesCrcFlag ≠ 0 then (st.put 0 16).count 16 else st

def packExtensionFlags (pkt : PesPacket) (st : PackState) : PackState :=
  let st := st.put pkt.pesPrivateDataFlag 1
  let st := st.put pkt.packHeaderFieldFlag 1
  let st := st.put pkt.programPacketSequenceCounterFlag 1
  let st := st.put pkt.pstdBufferFlag 1
  let st := st.put 0xff 3
  (st.put pkt.pesExtensionFlag2 1).count 8

def packPrivateData (pkt : PesPacket) (st : PackState) : PackState :=
  if pkt.pesPrivateDataFlag = 1 then
    ((((st.put 0xffffffff 32).put 0xffffffff 32).put 0xffffffff 32).put 0xffffffff 32).count 128
  else st

/-- Counted, but not written. -/
def packSequenceCounter (pkt : PesPacket) (st : PackState) : PackState :=
  if pkt.programPacketSequenceCounterFlag = 1 then st.count 16 else st

/-- Counted, but not written. -/
def packPstd (pkt : PesPacket) (st : PackState) : PackState :=
  if pkt.pstdBufferFlag = 1 then st.count 16 else st

/-- The length byte is counted, but not written. -/
def packExtension2 (pkt : PesPacket) (st : PackState) : PackState :=
  if pkt.pesExtensionFlag2 = 1 then
    (st.count 8).putBytes (List.replicate pkt.pesExtensionFieldLength 0xff)
  else st

/-- A pack header, whatever its flag says, is neither written nor counted. -/
def packExtension (pkt : PesPacket) (st : PackState) : PackState :=
  if pkt.pesExtensionFlag ≠ 0 then
    packExtension2 pkt (packPstd pkt (packSequenceCounter pkt (packPrivateData pkt
      (packExtensionFlags pkt st))))
  else st

/-- The first `n` bytes of the data. -/
def dataBytes (pkt : PesPacket) (n : ℕ) : List UInt8 := (pkt.data.getD []).take n

/-- `ltn_pes_packet_pack`. -/
def pesPacketPack (pkt : PesPacket) (bs : Klbs) : PackState :=
  let st := packStart pkt { bs := bs, bits := 0 }
  if hasOptionalHeader pkt.streamId then
    let st := packEscr pkt (packTimestamps pkt (packFlags pkt st))
    let st := packCrc pkt (packCopyInfo pkt (packTrickMode pkt (packEsRate pkt st)))
    (packExtension pkt st).putBytes (dataBytes pkt pkt.dataLengthBytes)
  else if hasDataBytes pkt.streamId then
    if pkt.data.isSome then st.putBytes (dataBytes pkt pkt.pesPacketLength)
    else if pkt.streamId = 0xBE then st.putBytes (List.replicate pkt.pesPacketLength 0xff)
    else st
  else st

/-! ## What is written and what is counted -/

/-- A stage appends a string of bits to what is written, as long as there is
room, and adds to the count. -/
def Appends (f : PackState → PackState) (bits : List Bool) (n : ℕ) : Prop :=
  ∀ (st : PackState) (size : ℕ) (done : List Bool), Written st.bs size done →
    done.length + bits.length ≤ 8 * size →
    Written (f st).bs size (done ++ bits) ∧ (f st).bits = st.bits + n

theorem appends_put (v n : ℕ) : Appends (fun st ↦ st.put v n) (bitsOf n v) 0 := by
  intro st size done h hroom
  rw [length_bitsOf] at hroom
  exact ⟨h.writeBits n hroom, rfl⟩

theorem appends_count (n : ℕ) : Appends (fun st ↦ st.count n) [] n := by
  intro st size done h _
  rw [List.append_nil]
  exact ⟨h, rfl⟩

theorem appends_id : Appends (fun st ↦ st) [] 0 := by
  intro st size done h _
  rw [List.append_nil]
  exact ⟨h, rfl⟩

theorem Appends.comp {f g : PackState → PackState} {a b : List Bool} {m n : ℕ} (hf : Appends f a m)
    (hg : Appends g b n) : Appends (fun st ↦ g (f st)) (a ++ b) (m + n) := by
  intro st size done h hroom
  rw [List.length_append] at hroom
  obtain ⟨hfirst, hcount⟩ := hf st size done h (by omega)
  obtain ⟨hsecond, hcount'⟩ := hg (f st) size _ hfirst (by rw [List.length_append]; omega)
  rw [List.append_assoc] at hsecond
  exact ⟨hsecond, by rw [hcount', hcount, Nat.add_assoc]⟩

theorem Appends.put {f : PackState → PackState} {a : List Bool} {m : ℕ} (hf : Appends f a m)
    (v n : ℕ) : Appends (fun st ↦ (f st).put v n) (a ++ bitsOf n v) m :=
  hf.comp (appends_put v n)

theorem Appends.count {f : PackState → PackState} {a : List Bool} {m : ℕ} (hf : Appends f a m)
    (n : ℕ) : Appends (fun st ↦ (f st).count n) a (m + n) := by
  have hboth := hf.comp (appends_count n)
  rw [List.append_nil] at hboth
  exact hboth

theorem appends_putBytes (bytes : List UInt8) :
    Appends (fun st ↦ st.putBytes bytes) (bytesToBits bytes) (8 * bytes.length) := by
  induction bytes with
  | nil => exact appends_id
  | cons b rest ih =>
      have hboth := ((appends_put b.toNat 8).count 8).comp ih
      rw [bytesToBits_cons, List.length_cons,
        show 8 * (rest.length + 1) = 0 + 8 + 8 * rest.length by omega]
      exact hboth

theorem Appends.ite {f g : PackState → PackState} {a b : List Bool} {m n : ℕ} {c : Prop}
    [Decidable c] (hf : Appends f a m) (hg : Appends g b n) :
    Appends (fun st ↦ if c then f st else g st) (if c then a else b) (if c then m else n) := by
  split_ifs
  · exact hf
  · exact hg

theorem Appends.cast {f : PackState → PackState} {a b : List Bool} {m n : ℕ} (hf : Appends f a m)
    (hbits : a = b) (hcount : m = n) : Appends f b n := by
  rw [← hbits, ← hcount]
  exact hf

def stampBits (tag : ℕ) (value : ℤ) : List Bool :=
  bitsOf 4 tag ++ (bitsOf 3 (uint64 (value >>> (30 : ℕ))) ++ (bitsOf 1 1 ++
    (bitsOf 15 (uint64 (value >>> (15 : ℕ))) ++ (bitsOf 1 1 ++
      (bitsOf 15 (uint64 value) ++ bitsOf 1 1)))))

theorem Appends.stamp {f : PackState → PackState} {a : List Bool} {m : ℕ} (hf : Appends f a m)
    (tag : ℕ) (value : ℤ) :
    Appends (fun st ↦ (write33bitTs ((f st).put tag 4) value).count 40)
      (a ++ stampBits tag value) (m + 40) := by
  refine (((((((((hf.put tag 4).put (uint64 (value >>> (30 : ℕ))) 3).put 1 1).put
    (uint64 (value >>> (15 : ℕ))) 15).put 1 1).put (uint64 value) 15).put 1 1).count 40)).cast
    ?_ rfl
  simp only [stampBits, List.append_assoc]

namespace Packed

variable (pkt : PesPacket)

def startBits : List Bool :=
  bitsOf 24 pkt.packetStartCodePrefix ++ (bitsOf 8 pkt.streamId ++ bitsOf 16 pkt.pesPacketLength)

def flagBits : List Bool :=
  bitsOf 2 2 ++ (bitsOf 2 pkt.pesScramblingControl ++ (bitsOf 1 pkt.pesPriority ++
    (bitsOf 1 pkt.dataAlignmentIndicator ++ (bitsOf 1 pkt.copyright ++
      (bitsOf 1 pkt.originalOrCopy ++ (bitsOf 2 pkt.ptsDtsFlags ++ (bitsOf 1 pkt.escrFlag ++
        (bitsOf 1 pkt.esRateFlag ++ (bitsOf 1 pkt.dsmTrickModeFlag ++
          (bitsOf 1 pkt.additionalCopyInfoFlag ++ (bitsOf 1 pkt.pesCrcFlag ++
            (bitsOf 1 pkt.pesExtensionFlag ++ bitsOf 8 pkt.pesHeaderDataLength))))))))))))

def timestampBits : List Bool :=
  if pkt.ptsDtsFlags = 2 then stampBits 2 pkt.pts
  else if pkt.ptsDtsFlags = 3 then stampBits 3 pkt.pts ++ stampBits 1 pkt.dts
  else []

def fieldBits : List Bool :=
  (if pkt.escrFlag ≠ 0 then bitsOf 40 0 else []) ++
    ((if pkt.esRateFlag ≠ 0 then Header.esRateBits pkt.esRateFlag else []) ++
      ((if pkt.dsmTrickModeFlag ≠ 0 then bitsOf 8 0 else []) ++
        ((if pkt.additionalCopyInfoFlag ≠ 0 then Header.copyInfoBits pkt.additionalCopyInfo
          else []) ++ (if pkt.pesCrcFlag ≠ 0 then bitsOf 16 0 else []))))

def extensionFlagBits : List Bool :=
  bitsOf 1 pkt.pesPrivateDataFlag ++ (bitsOf 1 pkt.packHeaderFieldFlag ++
    (bitsOf 1 pkt.programPacketSequenceCounterFlag ++ (bitsOf 1 pkt.pstdBufferFlag ++
      (bitsOf 3 0xff ++ bitsOf 1 pkt.pesExtensionFlag2))))

def privateBits : List Bool :=
  if pkt.pesPrivateDataFlag = 1 then bytesToBits (List.replicate 16 0xff) else []

def extension2Bits : List Bool :=
  if pkt.pesExtensionFlag2 = 1 then
    bytesToBits (List.replicate pkt.pesExtensionFieldLength 0xff) else []

def extensionBits : List Bool :=
  if pkt.pesExtensionFlag ≠ 0 then
    extensionFlagBits pkt ++ (privateBits pkt ++ extension2Bits pkt) else []

def bits : List Bool :=
  startBits pkt ++ (if hasOptionalHeader pkt.streamId then
      flagBits pkt ++ (timestampBits pkt ++ (fieldBits pkt ++ (extensionBits pkt ++
        bytesToBits (dataBytes pkt pkt.dataLengthBytes))))
    else if hasDataBytes pkt.streamId then
      if pkt.data.isSome then bytesToBits (dataBytes pkt pkt.pesPacketLength)
      else if pkt.streamId = 0xBE then bytesToBits (List.replicate pkt.pesPacketLength 0xff)
      else []
    else [])

/-- Bits that are counted in the extension without being written. -/
def extensionExcess : ℕ :=
  if pkt.pesExtensionFlag ≠ 0 then
    (if pkt.programPacketSequenceCounterFlag = 1 then 16 else 0) +
      ((if pkt.pstdBufferFlag = 1 then 16 else 0) + (if pkt.pesExtensionFlag2 = 1 then 8 else 0))
  else 0

theorem appends_packStart : Appends (packStart pkt) (startBits pkt) 0 := by
  refine (((appends_put pkt.packetStartCodePrefix 24).put pkt.streamId 8).put
    pkt.pesPacketLength 16).cast ?_ rfl
  simp only [startBits, List.append_assoc]

theorem appends_packFlags : Appends (packFlags pkt) (flagBits pkt) 72 := by
  have h1 := (((appends_put 0x02 2).put pkt.pesScramblingControl 2).put pkt.pesPriority 1).put
    pkt.dataAlignmentIndicator 1
  have h2 := ((h1.put pkt.copyright 1).put pkt.originalOrCopy 1).put pkt.ptsDtsFlags 2
  have h3 := ((h2.put pkt.escrFlag 1).put pkt.esRateFlag 1).put pkt.dsmTrickModeFlag 1
  have h4 := ((h3.put pkt.additionalCopyInfoFlag 1).put pkt.pesCrcFlag 1).put pkt.pesExtensionFlag 1
  refine ((h4.put pkt.pesHeaderDataLength 8).count 72).cast ?_ rfl
  simp only [flagBits, List.append_assoc]

theorem length_stampBits (tag : ℕ) (value : ℤ) : (stampBits tag value).length = 40 := by
  simp [stampBits]

theorem appends_packTimestamps :
    Appends (packTimestamps pkt) (timestampBits pkt) (timestampBits pkt).length := by
  unfold packTimestamps timestampBits
  split_ifs
  · rw [length_stampBits]
    exact appends_id.stamp 2 pkt.pts
  · rw [List.length_append, length_stampBits, length_stampBits]
    exact (appends_id.stamp 3 pkt.pts).stamp 1 pkt.dts
  · exact appends_id

theorem appends_fields :
    Appends (fun st ↦ packCrc pkt (packCopyInfo pkt (packTrickMode pkt (packEsRate pkt
        (packEscr pkt st))))) (fieldBits pkt)
      ((fieldBits pkt).length + if pkt.escrFlag ≠ 0 then 8 else 0) := by
  have hescr : Appends (packEscr pkt) (if pkt.escrFlag ≠ 0 then bitsOf 40 0 else [])
      (if pkt.escrFlag ≠ 0 then 48 else 0) := ((appends_put 0 40).count 48).ite appends_id
  have hrate : Appends (packEsRate pkt)
      (if pkt.esRateFlag ≠ 0 then Header.esRateBits pkt.esRateFlag else [])
      (if pkt.esRateFlag ≠ 0 then 24 else 0) := by
    refine Appends.ite ?_ appends_id
    refine ((((appends_put 1 1).put pkt.esRateFlag 22).put 1 1).count 24).cast ?_ rfl
    simp only [Header.esRateBits, List.append_assoc]
  have htrick : Appends (packTrickMode pkt) (if pkt.dsmTrickModeFlag ≠ 0 then bitsOf 8 0 else [])
      (if pkt.dsmTrickModeFlag ≠ 0 then 8 else 0) := ((appends_put 0 8).count 8).ite appends_id
  have hinfo : Appends (packCopyInfo pkt)
      (if pkt.additionalCopyInfoFlag ≠ 0 then Header.copyInfoBits pkt.additionalCopyInfo else [])
      (if pkt.additionalCopyInfoFlag ≠ 0 then 8 else 0) :=
    (((appends_put 1 1).put pkt.additionalCopyInfo 7).count 8).ite appends_id
  have hcrc : Appends (packCrc pkt) (if pkt.pesCrcFlag ≠ 0 then bitsOf 16 0 else [])
      (if pkt.pesCrcFlag ≠ 0 then 16 else 0) := ((appends_put 0 16).count 16).ite appends_id
  refine ((((hescr.comp hrate).comp htrick).comp hinfo).comp hcrc).cast ?_ ?_
  · simp only [fieldBits, List.append_assoc]
  · simp only [fieldBits, List.length_append]
    split_ifs <;> simp [Header.esRateBits, Header.copyInfoBits]

theorem bytesToBits_ones : bytesToBits (List.replicate 16 0xff) =
    bitsOf 32 0xffffffff ++ (bitsOf 32 0xffffffff ++ (bitsOf 32 0xffffffff ++
      bitsOf 32 0xffffffff)) := by
  decide +kernel

theorem appends_packExtension :
    Appends (packExtension pkt) (extensionBits pkt)
      ((extensionBits pkt).length + extensionExcess pkt) := by
  have hflags : Appends (packExtensionFlags pkt) (extensionFlagBits pkt) 8 := by
    have h1 := (((appends_put pkt.pesPrivateDataFlag 1).put pkt.packHeaderFieldFlag 1).put
      pkt.programPacketSequenceCounterFlag 1).put pkt.pstdBufferFlag 1
    refine (((h1.put 0xff 3).put pkt.pesExtensionFlag2 1).count 8).cast ?_ rfl
    simp only [extensionFlagBits, List.append_assoc]
  have hprivate : Appends (packPrivateData pkt) (privateBits pkt)
      (if pkt.pesPrivateDataFlag = 1 then 128 else 0) := by
    refine Appends.ite ?_ appends_id
    refine (((((appends_put 0xffffffff 32).put 0xffffffff 32).put 0xffffffff 32).put
      0xffffffff 32).count 128).cast ?_ rfl
    rw [bytesToBits_ones, List.append_assoc, List.append_assoc]
  have hsequence : Appends (packSequenceCounter pkt) (if pkt.programPacketSequenceCounterFlag = 1
      then [] else []) (if pkt.programPacketSequenceCounterFlag = 1 then 16 else 0) :=
    (appends_count 16).ite appends_id
  have hpstd : Appends (packPstd pkt) (if pkt.pstdBufferFlag = 1 then [] else [])
      (if pkt.pstdBufferFlag = 1 then 16 else 0) := (appends_count 16).ite appends_id
  have hfield : Appends (packExtension2 pkt) (extension2Bits pkt)
      (if pkt.pesExtensionFlag2 = 1 then 8 + 8 * pkt.pesExtensionFieldLength else 0) := by
    refine Appends.ite ?_ appends_id
    refine ((appends_count 8).comp (appends_putBytes
      (List.replicate pkt.pesExtensionFieldLength 0xff))).cast (List.nil_append _) ?_
    rw [List.length_replicate]
  refine (Appends.ite ((((hflags.comp hprivate).comp hsequence).comp hpstd).comp hfield)
    appends_id).cast ?_ ?_
  · simp only [extensionBits, ite_self, List.append_nil, List.append_assoc]
  · unfold extensionBits extensionExcess
    by_cases hext : pkt.pesExtensionFlag ≠ 0
    · simp only [if_pos hext, List.length_append, extensionFlagBits, privateBits, extension2Bits,
        length_bitsOf]
      split_ifs <;> simp [length_bytesToBits] <;> omega
    · simp only [if_neg hext, List.length_nil]

/-- Bits that are counted without being written. -/
def excess : ℕ := (if pkt.escrFlag ≠ 0 then 8 else 0) + extensionExcess pkt

theorem length_startBits : (startBits pkt).length = 48 := by
  simp [startBits]

theorem length_flagBits : (flagBits pkt).length = 24 := by
  simp [flagBits]

theorem pack_optional {pkt : PesPacket} (hid : hasOptionalHeader pkt.streamId = true)
    {buf : List UInt8} (hroom : (bits pkt).length ≤ 8 * buf.length) :
    Written (pesPacketPack pkt (klbsWriteSetBuffer buf)).bs buf.length (bits pkt) ∧
      (pesPacketPack pkt (klbsWriteSetBuffer buf)).bits = (bits pkt).length + excess pkt := by
  have hbody := (((((appends_packStart pkt).comp (appends_packFlags pkt)).comp
    (appends_packTimestamps pkt)).comp (appends_fields pkt)).comp (appends_packExtension pkt)).comp
      (appends_putBytes (dataBytes pkt pkt.dataLengthBytes))
  have hbits : bits pkt = ((((startBits pkt ++ flagBits pkt) ++ timestampBits pkt) ++
      fieldBits pkt) ++ extensionBits pkt) ++ bytesToBits (dataBytes pkt pkt.dataLengthBytes) := by
    simp only [bits, if_pos hid, List.append_assoc]
  obtain ⟨hwritten, hcount⟩ := hbody ⟨klbsWriteSetBuffer buf, 0⟩ buf.length [] (written_start buf)
    (by rw [← hbits]; simpa using hroom)
  rw [List.nil_append, ← hbits] at hwritten
  have hpack : pesPacketPack pkt (klbsWriteSetBuffer buf) = (packExtension pkt (packCrc pkt
      (packCopyInfo pkt (packTrickMode pkt (packEsRate pkt (packEscr pkt (packTimestamps pkt
        (packFlags pkt (packStart pkt ⟨klbsWriteSetBuffer buf, 0⟩))))))))).putBytes
      (dataBytes pkt pkt.dataLengthBytes) := by
    unfold pesPacketPack
    simp only [if_pos hid]
  rw [hpack]
  refine ⟨hwritten, hcount.trans ?_⟩
  rw [hbits]
  simp only [List.length_append, length_startBits, length_flagBits, length_bytesToBits, excess]
  omega

/-- A packet without it: the first six bytes are written, but not counted. -/
theorem pack_other {pkt : PesPacket} (hid : hasOptionalHeader pkt.streamId = false)
    {buf : List UInt8} (hroom : (bits pkt).length ≤ 8 * buf.length) :
    Written (pesPacketPack pkt (klbsWriteSetBuffer buf)).bs buf.length (bits pkt) ∧
      (pesPacketPack pkt (klbsWriteSetBuffer buf)).bits + 48 = (bits pkt).length := by
  have hbody : ∃ f rest, Appends f rest rest.length ∧ bits pkt = startBits pkt ++ rest ∧
      pesPacketPack pkt (klbsWriteSetBuffer buf) =
        f (packStart pkt ⟨klbsWriteSetBuffer buf, 0⟩) := by
    unfold pesPacketPack bits
    simp only [hid, Bool.false_eq_true, if_false]
    split_ifs
    · exact ⟨_, _, by simpa using appends_putBytes (dataBytes pkt pkt.pesPacketLength), rfl, rfl⟩
    · exact ⟨_, _, by
        simpa using appends_putBytes (List.replicate pkt.pesPacketLength 0xff), rfl, rfl⟩
    · exact ⟨_, _, appends_id, rfl, rfl⟩
    · exact ⟨_, _, appends_id, rfl, rfl⟩
  obtain ⟨f, rest, happends, hbits, hpack⟩ := hbody
  obtain ⟨hwritten, hcount⟩ := ((appends_packStart pkt).comp happends) ⟨klbsWriteSetBuffer buf, 0⟩
    buf.length [] (written_start buf) (by rw [← hbits]; simpa using hroom)
  rw [List.nil_append, ← hbits] at hwritten
  rw [hpack]
  refine ⟨hwritten, ?_⟩
  rw [hbits, List.length_append, length_startBits]
  have hzero : (f (packStart pkt ⟨klbsWriteSetBuffer buf, 0⟩)).bits = 0 + (0 + rest.length) :=
    hcount
  omega

end Packed

/-! ## A packed packet in the syntax of PES packets -/

/-- The stream id and the flags have the widths they are written with. -/
structure FlagsFit (pkt : PesPacket) : Prop where
  streamId : pkt.streamId < 2 ^ 8
  ptsDtsFlags : pkt.ptsDtsFlags < 2 ^ 2
  escrFlag : pkt.escrFlag < 2 ^ 1
  esRateFlag : pkt.esRateFlag < 2 ^ 1
  dsmTrickModeFlag : pkt.dsmTrickModeFlag < 2 ^ 1
  additionalCopyInfoFlag : pkt.additionalCopyInfoFlag < 2 ^ 1
  pesCrcFlag : pkt.pesCrcFlag < 2 ^ 1
  pesExtensionFlag : pkt.pesExtensionFlag < 2 ^ 1
  pesPrivateDataFlag : pkt.pesExtensionFlag ≠ 0 → pkt.pesPrivateDataFlag < 2 ^ 1
  packHeaderFieldFlag : pkt.pesExtensionFlag ≠ 0 → pkt.packHeaderFieldFlag < 2 ^ 1
  programPacketSequenceCounterFlag : pkt.pesExtensionFlag ≠ 0 →
    pkt.programPacketSequenceCounterFlag < 2 ^ 1
  pstdBufferFlag : pkt.pesExtensionFlag ≠ 0 → pkt.pstdBufferFlag < 2 ^ 1
  pesExtensionFlag2 : pkt.pesExtensionFlag ≠ 0 → pkt.pesExtensionFlag2 < 2 ^ 1

/-- No field is announced that is counted without being written. -/
structure WritesWhatItCounts (pkt : PesPacket) : Prop where
  no_escr : pkt.escrFlag = 0
  no_sequenceCounter : pkt.pesExtensionFlag ≠ 0 → pkt.programPacketSequenceCounterFlag = 0
  no_pstdBuffer : pkt.pesExtensionFlag ≠ 0 → pkt.pstdBufferFlag = 0
  no_extensionField : pkt.pesExtensionFlag ≠ 0 → pkt.pesExtensionFlag2 = 0

def announced {α : Type*} (flag : ℕ) (a : α) : Option α := if flag ≠ 0 then some a else none

/-- The header that is written, with the bytes behind it that a parser takes for
the pack header. -/
def headerOf (pkt : PesPacket) (packHeader : Option (List UInt8)) : Header where
  packetStartCodePrefix := pkt.packetStartCodePrefix % 2 ^ 24
  streamId := pkt.streamId
  pesPacketLength := pkt.pesPacketLength % 2 ^ 16
  pesScramblingControl := pkt.pesScramblingControl % 2 ^ 2
  pesPriority := pkt.pesPriority % 2 ^ 1
  dataAlignmentIndicator := pkt.dataAlignmentIndicator % 2 ^ 1
  copyright := pkt.copyright % 2 ^ 1
  originalOrCopy := pkt.originalOrCopy % 2 ^ 1
  ptsDtsFlags := pkt.ptsDtsFlags
  pesHeaderDataLength := pkt.pesHeaderDataLength % 2 ^ 8
  pts := uint64 pkt.pts % 2 ^ 33
  dts := uint64 pkt.dts % 2 ^ 33
  escr := none
  esRate := announced pkt.esRateFlag (pkt.esRateFlag % 2 ^ 22)
  trickMode := announced pkt.dsmTrickModeFlag 0
  copyInfo := announced pkt.additionalCopyInfoFlag (pkt.additionalCopyInfo % 2 ^ 7)
  previousCrc := announced pkt.pesCrcFlag 0
  extension := announced pkt.pesExtensionFlag
    { privateData := announced pkt.pesPrivateDataFlag (List.replicate 16 0xff)
      packHeader := packHeader
      sequenceCounter := none
      pstdBuffer := none
      extensionField := none }

@[simp] theorem flagOf_none {α : Type*} : flagOf (none : Option α) = 0 := rfl

@[simp] theorem whenThere_none {α : Type*} (f : α → List Bool) : whenThere none f = [] := rfl

theorem flagOf_announced {α : Type*} {flag : ℕ} (a : α) (hflag : flag < 2 ^ 1) :
    flagOf (announced flag a) = flag := by
  unfold announced
  split_ifs with h
  · have hone : flag = 1 := by omega
    rw [hone]
    rfl
  · exact (not_not.mp h).symm

theorem whenThere_announced {α : Type*} (flag : ℕ) (a : α) (f : α → List Bool) :
    whenThere (announced flag a) f = if flag ≠ 0 then f a else [] := by
  unfold announced
  split_ifs <;> rfl

theorem mem_announced {α : Type*} {flag : ℕ} {a x : α} (h : x ∈ announced flag a) : x = a := by
  unfold announced at h
  split_ifs at h
  · exact (Option.some.inj h).symm
  · cases h

theorem headerOf_inRange {pkt : PesPacket} (hfit : FlagsFit pkt) {packHeader : Option (List UInt8)}
    (hpack : ∀ d ∈ packHeader, d.length < 2 ^ 8) : (headerOf pkt packHeader).InRange where
  packetStartCodePrefix := Nat.mod_lt _ (by norm_num)
  streamId := hfit.streamId
  pesPacketLength := Nat.mod_lt _ (by norm_num)
  pesScramblingControl := Nat.mod_lt _ (by norm_num)
  pesPriority := Nat.mod_lt _ (by norm_num)
  dataAlignmentIndicator := Nat.mod_lt _ (by norm_num)
  copyright := Nat.mod_lt _ (by norm_num)
  originalOrCopy := Nat.mod_lt _ (by norm_num)
  ptsDtsFlags := hfit.ptsDtsFlags
  pesHeaderDataLength := Nat.mod_lt _ (by norm_num)
  pts := Nat.mod_lt _ (by norm_num)
  dts := Nat.mod_lt _ (by norm_num)
  esRate := fun v hv ↦ by
    rw [mem_announced hv]
    exact Nat.mod_lt _ (by norm_num)
  copyInfo := fun v hv ↦ by
    rw [mem_announced hv]
    exact Nat.mod_lt _ (by norm_num)
  previousCrc := fun v hv ↦ by
    rw [mem_announced hv]
    norm_num
  extension := fun e he ↦ by
    rw [mem_announced he]
    refine ⟨fun d hd ↦ ?_, hpack, by simp, by simp, by simp⟩
    rw [mem_announced hd, List.length_replicate]

theorem stampBits_eq (tag : ℕ) (value : ℤ) :
    stampBits tag value = tsBits tag (uint64 value % 2 ^ 33) := by
  have hhigh : bitsOf 3 (uint64 (value >>> (30 : ℕ))) =
      bitsOf 3 ((uint64 value % 2 ^ 33) >>> 30) := by
    rw [← bitsOf_mod (uint64 (value >>> (30 : ℕ))) le_rfl,
      ← bitsOf_mod ((uint64 value % 2 ^ 33) >>> 30) le_rfl]
    congr 1
    rw [uint64, uint64, Int.shiftRight_eq_div_pow, Nat.shiftRight_eq_div_pow]
    omega
  have hmid : bitsOf 15 (uint64 (value >>> (15 : ℕ))) =
      bitsOf 15 ((uint64 value % 2 ^ 33) >>> 15) := by
    rw [← bitsOf_mod (uint64 (value >>> (15 : ℕ))) le_rfl,
      ← bitsOf_mod ((uint64 value % 2 ^ 33) >>> 15) le_rfl]
    congr 1
    rw [uint64, uint64, Int.shiftRight_eq_div_pow, Nat.shiftRight_eq_div_pow]
    omega
  have hlow : bitsOf 15 (uint64 value) = bitsOf 15 (uint64 value % 2 ^ 33) :=
    (bitsOf_mod _ (by norm_num)).symm
  rw [stampBits, tsBits, hhigh, hmid, hlow]

/-- What is written is the header followed by the data. -/
theorem headerOf_bits {pkt : PesPacket} (hfit : FlagsFit pkt) (hcount : WritesWhatItCounts pkt)
    {packHeader : Option (List UInt8)}
    (hflag : pkt.pesExtensionFlag ≠ 0 → flagOf packHeader = pkt.packHeaderFieldFlag)
    (hnone : pkt.pesExtensionFlag = 0 → packHeader = none) :
    (headerOf pkt packHeader).bits = Packed.startBits pkt ++ (Packed.flagBits pkt ++
      (Packed.timestampBits pkt ++ (Packed.fieldBits pkt ++ (Packed.extensionBits pkt ++
        whenThere packHeader Extension.packHeaderBits)))) := by
  have hstart : (headerOf pkt packHeader).startBits = Packed.startBits pkt := by
    simp only [Header.startBits, Packed.startBits, headerOf, bitsOf_mod _ (le_refl _)]
  have hflags : (headerOf pkt packHeader).flagBits ++ bitsOf 8 (pkt.pesHeaderDataLength % 2 ^ 8) =
      Packed.flagBits pkt := by
    simp only [Header.flagBits, Packed.flagBits, headerOf, bitsOf_mod _ (le_refl _),
      flagOf_announced _ hfit.esRateFlag, flagOf_announced _ hfit.dsmTrickModeFlag,
      flagOf_announced _ hfit.additionalCopyInfoFlag, flagOf_announced _ hfit.pesCrcFlag,
      flagOf_announced _ hfit.pesExtensionFlag, hcount.no_escr, List.append_assoc]
    rfl
  have hstamps : (headerOf pkt packHeader).timestampBits = Packed.timestampBits pkt := by
    simp only [Header.timestampBits, Packed.timestampBits, headerOf, stampBits_eq]
    rfl
  have hfields : (headerOf pkt packHeader).fieldBits =
      Packed.timestampBits pkt ++ Packed.fieldBits pkt := by
    rw [Header.fieldBits, hstamps, Packed.fieldBits]
    simp only [headerOf, whenThere_announced, hcount.no_escr, Header.esRateBits,
      Header.copyInfoBits, bitsOf_mod _ (le_refl _)]
    rfl
  have hextension : whenThere (headerOf pkt packHeader).extension Extension.bits =
      Packed.extensionBits pkt ++ whenThere packHeader Extension.packHeaderBits := by
    simp only [headerOf, whenThere_announced, Packed.extensionBits]
    by_cases hext : pkt.pesExtensionFlag = 0
    · rw [if_neg (by simp [hext]), if_neg (by simp [hext]), hnone hext]
      rfl
    · have hseq := hcount.no_sequenceCounter hext
      have hpstd := hcount.no_pstdBuffer hext
      have hfield := hcount.no_extensionField hext
      have hprivate : Packed.privateBits pkt =
          if pkt.pesPrivateDataFlag ≠ 0 then bytesToBits (List.replicate 16 0xff) else [] := by
        have hlt := hfit.pesPrivateDataFlag hext
        unfold Packed.privateBits
        split_ifs <;> first | rfl | omega
      rw [if_pos hext, if_pos hext]
      simp only [Extension.bits, Extension.flagBits, Packed.extensionFlagBits, hprivate,
        whenThere_announced, flagOf_announced _ (hfit.pesPrivateDataFlag hext), hflag hext,
        hseq, hpstd, hfield, Packed.extension2Bits, List.append_assoc, flagOf_none, whenThere_none,
        if_neg zero_ne_one, List.append_nil, show bitsOf 3 0xff = bitsOf 3 7 by
          decide]
  rw [Header.bits, hstart, Header.optionalBits, hfields, hextension, ← hflags]
  simp only [List.append_assoc]
  rfl

/-- Bytes of the header behind `PES_packet_length` that are written. -/
def headerBytes (pkt : PesPacket) : ℕ :=
  3 + (if pkt.ptsDtsFlags = 2 then 5 else if pkt.ptsDtsFlags = 3 then 10 else 0) +
    (if pkt.esRateFlag ≠ 0 then 3 else 0) + (if pkt.dsmTrickModeFlag ≠ 0 then 1 else 0) +
    (if pkt.additionalCopyInfoFlag ≠ 0 then 1 else 0) + (if pkt.pesCrcFlag ≠ 0 then 2 else 0) +
    (if pkt.pesExtensionFlag ≠ 0 then if pkt.pesPrivateDataFlag = 1 then 17 else 1 else 0)

theorem length_written {pkt : PesPacket} (hcount : WritesWhatItCounts pkt) :
    (Packed.timestampBits pkt ++ (Packed.fieldBits pkt ++ Packed.extensionBits pkt)).length + 24 =
      8 * headerBytes pkt := by
  have hstamps : (Packed.timestampBits pkt).length =
      8 * (if pkt.ptsDtsFlags = 2 then 5 else if pkt.ptsDtsFlags = 3 then 10 else 0) := by
    unfold Packed.timestampBits
    split_ifs <;> simp [Packed.length_stampBits]
  have hfields : (Packed.fieldBits pkt).length = 8 * ((if pkt.esRateFlag ≠ 0 then 3 else 0) +
      (if pkt.dsmTrickModeFlag ≠ 0 then 1 else 0) +
      (if pkt.additionalCopyInfoFlag ≠ 0 then 1 else 0) +
      (if pkt.pesCrcFlag ≠ 0 then 2 else 0)) := by
    simp only [Packed.fieldBits, hcount.no_escr, if_neg (not_not.mpr (rfl : (0 : ℕ) = 0)),
      List.nil_append, List.length_append]
    split_ifs <;> simp [Header.esRateBits, Header.copyInfoBits]
  have hextension : (Packed.extensionBits pkt).length = 8 *
      (if pkt.pesExtensionFlag ≠ 0 then if pkt.pesPrivateDataFlag = 1 then 17 else 1 else 0) := by
    unfold Packed.extensionBits
    split_ifs with hext hprivate
    · simp [Packed.extensionFlagBits, Packed.privateBits, Packed.extension2Bits, hprivate,
        hcount.no_extensionField hext, length_bytesToBits]
    · simp [Packed.extensionFlagBits, Packed.privateBits, Packed.extension2Bits, hprivate,
        hcount.no_extensionField hext]
    · rfl
  rw [List.length_append, List.length_append, hstamps, hfields, hextension, headerBytes]
  ring

theorem behind_headerOf {pkt : PesPacket} (hfit : FlagsFit pkt) (hcount : WritesWhatItCounts pkt)
    {packHeader : Option (List UInt8)}
    (hflag : pkt.pesExtensionFlag ≠ 0 → flagOf packHeader = pkt.packHeaderFieldFlag)
    (hnone : pkt.pesExtensionFlag = 0 → packHeader = none) :
    8 * (headerOf pkt packHeader).behind =
      8 * headerBytes pkt + (whenThere packHeader Extension.packHeaderBits).length := by
  have hbits := congrArg List.length (headerOf_bits hfit hcount hflag hnone)
  have hwritten := length_written hcount
  rw [Header.length_bits] at hbits
  simp only [List.length_append, Packed.length_startBits, Packed.length_flagBits] at hbits hwritten
  omega

def packedBytes (w : PackState) : List UInt8 := w.bs.buf.take w.bs.buflenUsed

theorem bytes_of_written {w : PackState} {size : ℕ} {bits : List Bool}
    (h : Written w.bs size bits) (hbits : bits.length % 8 = 0) :
    bytesToBits (packedBytes w) = bits ∧ 8 * (packedBytes w).length = bits.length := by
  have hlength := h.length_eq
  have hreg := h.reg_lt
  unfold bitsWritten at hlength
  have hzero : w.bs.regUsed = 0 := by omega
  have heq := h.bits_eq
  rw [hzero, bitsOf, List.append_nil] at heq
  refine ⟨heq, ?_⟩
  rw [← length_bytesToBits]
  exact congrArg List.length heq

/-- A packet that writes what it counts, in the syntax of PES packets. -/
theorem packed_spelled {pkt : PesPacket} (hid : hasOptionalHeader pkt.streamId = true)
    (hfit : FlagsFit pkt) (hcount : WritesWhatItCounts pkt) {buf : List UInt8}
    (hroom : (Packed.bits pkt).length ≤ 8 * buf.length) {packHeader : Option (List UInt8)}
    {rest : List UInt8}
    (hflag : pkt.pesExtensionFlag ≠ 0 → flagOf packHeader = pkt.packHeaderFieldFlag)
    (hnone : pkt.pesExtensionFlag = 0 → packHeader = none)
    (hdata : bytesToBits (dataBytes pkt pkt.dataLengthBytes) =
      whenThere packHeader Extension.packHeaderBits ++ bytesToBits rest) :
    bytesToBits (packedBytes (pesPacketPack pkt (klbsWriteSetBuffer buf))) =
        (headerOf pkt packHeader).bits ++ bytesToBits rest ∧
      (packedBytes (pesPacketPack pkt (klbsWriteSetBuffer buf))).length =
        6 + headerBytes pkt + (dataBytes pkt pkt.dataLengthBytes).length ∧
      8 * (packedBytes (pesPacketPack pkt (klbsWriteSetBuffer buf))).length =
        (Packed.bits pkt).length := by
  have hbits : Packed.bits pkt = (headerOf pkt packHeader).bits ++ bytesToBits rest := by
    rw [headerOf_bits hfit hcount hflag hnone, Packed.bits, if_pos hid, hdata]
    simp only [List.append_assoc]
  have hlength : (Packed.bits pkt).length =
      8 * (6 + headerBytes pkt + (dataBytes pkt pkt.dataLengthBytes).length) := by
    have hwritten := length_written hcount
    simp only [Packed.bits, if_pos hid, List.length_append, Packed.length_startBits,
      Packed.length_flagBits, length_bytesToBits] at hwritten ⊢
    omega
  obtain ⟨hwritten, -⟩ := Packed.pack_optional hid hroom
  obtain ⟨hspelled, hsize⟩ := bytes_of_written hwritten (by omega)
  exact ⟨hspelled.trans hbits, by omega, hsize⟩

/-! ## The round trip -/

/-- A packet with the optional header and no optional field but time stamps and
the copy info, with fields of their widths, its data, and a length that is zero or
counts the bytes behind it. -/
structure PlainPacket (pkt : PesPacket) : Prop where
  optional_header : hasOptionalHeader pkt.streamId = true
  packetStartCodePrefix : pkt.packetStartCodePrefix < 2 ^ 24
  streamId : pkt.streamId < 2 ^ 8
  pesScramblingControl : pkt.pesScramblingControl < 2 ^ 2
  pesPriority : pkt.pesPriority < 2 ^ 1
  dataAlignmentIndicator : pkt.dataAlignmentIndicator < 2 ^ 1
  copyright : pkt.copyright < 2 ^ 1
  originalOrCopy : pkt.originalOrCopy < 2 ^ 1
  ptsDtsFlags : pkt.ptsDtsFlags < 2 ^ 2
  no_escr : pkt.escrFlag = 0
  no_esRate : pkt.esRateFlag = 0
  no_trickMode : pkt.dsmTrickModeFlag = 0
  additionalCopyInfoFlag : pkt.additionalCopyInfoFlag < 2 ^ 1
  no_crc : pkt.pesCrcFlag = 0
  no_extension : pkt.pesExtensionFlag = 0
  pesHeaderDataLength : pkt.pesHeaderDataLength < 2 ^ 8
  pts_nonneg : 0 ≤ pkt.pts
  pts_lt : pkt.pts < 2 ^ 33
  dts_nonneg : 0 ≤ pkt.dts
  dts_lt : pkt.dts < 2 ^ 33
  additionalCopyInfo : pkt.additionalCopyInfo < 2 ^ 7
  data_present : pkt.dataLengthBytes ≤ (pkt.data.getD []).length
  packet_length : pkt.pesPacketLength = 0 ∨
    pkt.pesPacketLength = headerBytes pkt + pkt.dataLengthBytes ∧ pkt.pesPacketLength ≤ 65535

/-- What a parser can know of a packed packet: the fields that are written
replace those of the target. -/
def recovered (pkt target : PesPacket) : PesPacket :=
  { target with
    packetStartCodePrefix := pkt.packetStartCodePrefix
    streamId := pkt.streamId
    pesPacketLength := pkt.pesPacketLength
    pesScramblingControl := pkt.pesScramblingControl
    pesPriority := pkt.pesPriority
    dataAlignmentIndicator := pkt.dataAlignmentIndicator
    copyright := pkt.copyright
    originalOrCopy := pkt.originalOrCopy
    ptsDtsFlags := pkt.ptsDtsFlags
    escrFlag := pkt.escrFlag
    esRateFlag := pkt.esRateFlag
    dsmTrickModeFlag := pkt.dsmTrickModeFlag
    additionalCopyInfoFlag := pkt.additionalCopyInfoFlag
    pesCrcFlag := pkt.pesCrcFlag
    pesExtensionFlag := pkt.pesExtensionFlag
    pesHeaderDataLength := pkt.pesHeaderDataLength
    pts := if pkt.ptsDtsFlags = 2 ∨ pkt.ptsDtsFlags = 3 then pkt.pts else target.pts
    dts := if pkt.ptsDtsFlags = 3 then pkt.dts else target.dts
    additionalCopyInfo :=
      if pkt.additionalCopyInfoFlag ≠ 0 then pkt.additionalCopyInfo else target.additionalCopyInfo
    skipPayloadParsing := false
    dataLengthBytes := pkt.dataLengthBytes
    data := some (dataBytes pkt pkt.dataLengthBytes) }

theorem uint64_of_lt {v : ℤ} (hpos : 0 ≤ v) (hlt : v < 2 ^ 33) :
    ((uint64 v % 2 ^ 33 : ℕ) : ℤ) = v := by
  unfold uint64
  omega

theorem getD_announced {α : Type*} (flag : ℕ) (a b : α) :
    (announced flag a).getD b = if flag ≠ 0 then a else b := by
  unfold announced
  split_ifs <;> rfl

theorem PlainPacket.flagsFit {pkt : PesPacket} (h : PlainPacket pkt) : FlagsFit pkt :=
  ⟨h.streamId, h.ptsDtsFlags, by rw [h.no_escr]; norm_num, by rw [h.no_esRate]; norm_num,
    by rw [h.no_trickMode]; norm_num, h.additionalCopyInfoFlag, by rw [h.no_crc]; norm_num,
    by rw [h.no_extension]; norm_num, fun hext ↦ absurd h.no_extension hext,
    fun hext ↦ absurd h.no_extension hext, fun hext ↦ absurd h.no_extension hext,
    fun hext ↦ absurd h.no_extension hext, fun hext ↦ absurd h.no_extension hext⟩

theorem PlainPacket.writesWhatItCounts {pkt : PesPacket} (h : PlainPacket pkt) :
    WritesWhatItCounts pkt :=
  ⟨h.no_escr, fun hext ↦ absurd h.no_extension hext, fun hext ↦ absurd h.no_extension hext,
    fun hext ↦ absurd h.no_extension hext⟩

/-- The fields of a plain packet that the parser stores. -/
theorem PlainPacket.store_eq {pkt : PesPacket} (h : PlainPacket pkt) (target : PesPacket) :
    ((headerOf pkt none).store { target with
        skipPayloadParsing := false
        packetStartCodePrefix := pkt.packetStartCodePrefix
        streamId := pkt.streamId
        pesPacketLength := pkt.pesPacketLength }).withData pkt.dataLengthBytes
      (some (dataBytes pkt pkt.dataLengthBytes)) = recovered pkt target := by
  have hextension : (headerOf pkt none).extension = none := by
    simp only [headerOf, announced, h.no_extension, ne_eq, not_true_eq_false, if_false]
  have hpts := uint64_of_lt h.pts_nonneg h.pts_lt
  have hdts := uint64_of_lt h.dts_nonneg h.dts_lt
  rw [Header.store, hextension]
  simp only [Option.elim, PesPacket.withData, Header.storeFields, Header.storeTimestamps,
    Header.storeFlags, headerOf, hpts, hdts, getD_announced,
    flagOf_announced _ h.additionalCopyInfoFlag, flagOf_announced _ h.flagsFit.dsmTrickModeFlag,
    flagOf_announced _ h.flagsFit.pesExtensionFlag, flagOf_none, h.no_escr, h.no_esRate, h.no_crc,
    Nat.mod_eq_of_lt h.pesScramblingControl,
    Nat.mod_eq_of_lt h.pesPriority, Nat.mod_eq_of_lt h.dataAlignmentIndicator,
    Nat.mod_eq_of_lt h.copyright, Nat.mod_eq_of_lt h.originalOrCopy,
    Nat.mod_eq_of_lt h.pesHeaderDataLength, Nat.mod_eq_of_lt h.additionalCopyInfo, recovered]
  rfl

/-- What is written of a plain packet is read back: every field of the header,
the time stamps and the copy info that the flags announce, and the data. -/
theorem parse_pack {pkt : PesPacket} (h : PlainPacket pkt) {buf : List UInt8}
    (hroom : (Packed.bits pkt).length ≤ 8 * buf.length)
    (hsize : (Packed.bits pkt).length < 8 * 2 ^ 31) (target : PesPacket) :
    (pesPacketParse target (klbsReadSetBuffer
      (packedBytes (pesPacketPack pkt (klbsWriteSetBuffer buf)))) false).pkt =
        recovered pkt target := by
  have hfit := h.flagsFit
  have hcount := h.writesWhatItCounts
  have hpresent : (dataBytes pkt pkt.dataLengthBytes).length = pkt.dataLengthBytes :=
    List.length_take_of_le h.data_present
  have hnoext : pkt.pesExtensionFlag ≠ 0 → flagOf (none : Option (List UInt8)) =
      pkt.packHeaderFieldFlag := fun hext ↦ absurd h.no_extension hext
  obtain ⟨hspelled, -, hlength⟩ := packed_spelled h.optional_header hfit hcount hroom hnoext
    (fun _ ↦ rfl) (List.nil_append _).symm
  have hbehind : (headerOf pkt none).behind = headerBytes pkt := by
    have hbytes := behind_headerOf hfit hcount hnoext fun _ ↦ rfl
    rw [whenThere_none, List.length_nil] at hbytes
    omega
  have hthree : 3 ≤ headerBytes pkt := by
    unfold headerBytes
    omega
  have hpacketLength : pkt.pesPacketLength % 2 ^ 16 = pkt.pesPacketLength := by
    rcases h.packet_length with hzero | ⟨-, hle⟩ <;> omega
  have hmin : min pkt.pesPacketLength (headerBytes pkt + pkt.dataLengthBytes) =
      pkt.pesPacketLength := by
    rcases h.packet_length with hzero | ⟨hexact, -⟩ <;> omega
  have hdeclared : (headerOf pkt none).declared pkt.dataLengthBytes = pkt.dataLengthBytes := by
    rw [Header.declared, hbehind,
      show (headerOf pkt none).pesPacketLength = pkt.pesPacketLength from hpacketLength]
    rcases h.packet_length with hzero | ⟨hexact, -⟩
    · rw [if_neg (by omega)]
    · rw [if_pos (by omega)]
      omega
  have hparse := (parse_spelled hspelled (headerOf_inRange hfit (by simp)) h.optional_header
    (by omega) target false).1
  rw [hparse, ← h.store_eq target]
  simp only [Bool.false_eq_true, if_false, hpresent, hdeclared, hbehind]
  rw [show (headerOf pkt none).packetStartCodePrefix = pkt.packetStartCodePrefix from
      Nat.mod_eq_of_lt h.packetStartCodePrefix,
    show (headerOf pkt none).pesPacketLength = pkt.pesPacketLength from hpacketLength, hmin,
    List.take_of_length_le (by rw [hpresent])]
  rfl

/-- A video packet with four bytes of data and one time stamp. -/
def samplePacket : PesPacket :=
  { pesPacketAlloc with
    packetStartCodePrefix := 1
    streamId := 0xE0
    pesPacketLength := 12
    ptsDtsFlags := 2
    pesHeaderDataLength := 5
    pts := 90000
    data := some [1, 2, 3, 4]
    dataLengthBytes := 4 }

theorem samplePacket_recovered :
    PlainPacket samplePacket ∧
      (pesPacketParse pesPacketAlloc (klbsReadSetBuffer (packedBytes
        (pesPacketPack samplePacket (klbsWriteSetBuffer (List.replicate 32 0))))) false).pkt =
        recovered samplePacket pesPacketAlloc := by
  have hplain : PlainPacket samplePacket := by
    constructor <;> decide
  exact ⟨hplain, parse_pack hplain (by decide +kernel) (by decide +kernel) pesPacketAlloc⟩

/-- Without its flag a time stamp is not written, and so not recovered. -/
theorem pts_without_flag_lost :
    ∃ pkt, PlainPacket pkt ∧
      pkt.pts ≠ (pesPacketParse pesPacketAlloc (klbsReadSetBuffer (packedBytes
        (pesPacketPack pkt (klbsWriteSetBuffer (List.replicate 32 0))))) false).pkt.pts := by
  refine ⟨{ samplePacket with pesPacketLength := 0, ptsDtsFlags := 0 }, ?_, ?_⟩
  · constructor <;> decide
  · decide +kernel

/-! ## Sizes -/

def bitsRead (bs : Klbs) : ℕ := 8 * bs.buflenUsed - bs.regUsed

/-- The packer returns what it wrote, the parser returns what it read of it, and
the two are the same. -/
structure SizesAgree (pkt : PesPacket) (buf : List UInt8) : Prop where
  packed : (pesPacketPack pkt (klbsWriteSetBuffer buf)).bits =
    bitsWritten (pesPacketPack pkt (klbsWriteSetBuffer buf)).bs
  parsed : ∀ target, (pesPacketParse target (klbsReadSetBuffer
      (packedBytes (pesPacketPack pkt (klbsWriteSetBuffer buf)))) false).bits =
    bitsRead (pesPacketParse target (klbsReadSetBuffer
      (packedBytes (pesPacketPack pkt (klbsWriteSetBuffer buf)))) false).bs
  same : ∀ target, bitsRead (pesPacketParse target (klbsReadSetBuffer
      (packedBytes (pesPacketPack pkt (klbsWriteSetBuffer buf)))) false).bs =
    bitsWritten (pesPacketPack pkt (klbsWriteSetBuffer buf)).bs

/-- The length ends in the header, so that the parser takes all bytes, whose bits
a `uint32_t` has to hold, or it covers all that is written.  Where a pack header is
announced, which is never written, the data are taken for it: they must hold one,
or be its length byte only. -/
def LengthFits (pkt : PesPacket) : Prop :=
  if pkt.pesExtensionFlag ≠ 0 ∧ pkt.packHeaderFieldFlag = 1 then
    match dataBytes pkt pkt.dataLengthBytes with
    | [] => False
    | d :: rest => rest = [] ∨ d.toNat ≤ rest.length ∧
        (pkt.pesPacketLength % 2 ^ 16 < headerBytes pkt + 1 + d.toNat ∧
            rest.length - d.toNat < 2 ^ 29 ∨
          headerBytes pkt + 1 + rest.length ≤ pkt.pesPacketLength % 2 ^ 16)
  else
    pkt.pesPacketLength % 2 ^ 16 < headerBytes pkt ∧
        (dataBytes pkt pkt.dataLengthBytes).length < 2 ^ 29 ∨
      headerBytes pkt + (dataBytes pkt pkt.dataLengthBytes).length ≤ pkt.pesPacketLength % 2 ^ 16

theorem excess_eq_zero_iff {pkt : PesPacket} (hfit : FlagsFit pkt) :
    Packed.excess pkt = 0 ↔ WritesWhatItCounts pkt := by
  have hsequence := hfit.programPacketSequenceCounterFlag
  have hpstd := hfit.pstdBufferFlag
  have hfield := hfit.pesExtensionFlag2
  unfold Packed.excess Packed.extensionExcess
  constructor
  · intro h
    split_ifs at h <;> constructor <;> omega
  · rintro ⟨h1, h2, h3, h4⟩
    split_ifs <;> omega

/-- Where the bytes behind the header are all that the header leaves, the sizes
agree when the parser takes all of them and can count their bits. -/
theorem sizesAgree_iff_declared {pkt : PesPacket} (hid : hasOptionalHeader pkt.streamId = true)
    (hfit : FlagsFit pkt) (hcount : WritesWhatItCounts pkt) {buf : List UInt8}
    (hroom : (Packed.bits pkt).length ≤ 8 * buf.length)
    (hsize : (Packed.bits pkt).length < 8 * 2 ^ 31) {packHeader : Option (List UInt8)}
    {rest : List UInt8} (hpack : ∀ d ∈ packHeader, d.length < 2 ^ 8)
    (hflag : pkt.pesExtensionFlag ≠ 0 → flagOf packHeader = pkt.packHeaderFieldFlag)
    (hnone : pkt.pesExtensionFlag = 0 → packHeader = none)
    (hdata : bytesToBits (dataBytes pkt pkt.dataLengthBytes) =
      whenThere packHeader Extension.packHeaderBits ++ bytesToBits rest) :
    SizesAgree pkt buf ↔
      pkt.pesPacketLength % 2 ^ 16 < (headerOf pkt packHeader).behind ∧ rest.length < 2 ^ 29 ∨
        (headerOf pkt packHeader).behind + rest.length ≤ pkt.pesPacketLength % 2 ^ 16 := by
  obtain ⟨hspelled, -, hlength⟩ := packed_spelled hid hfit hcount hroom hflag hnone hdata
  obtain ⟨hwritten, hpacked⟩ := Packed.pack_optional hid hroom
  rw [(excess_eq_zero_iff hfit).mpr hcount, Nat.add_zero, hwritten.length_eq] at hpacked
  have hbytes := length_of_spelled hspelled
  have hwrote := hwritten.length_eq
  have hparse := fun target ↦ (parse_spelled hspelled (headerOf_inRange hfit hpack) hid
    (by omega) target false).2
  simp only [Bool.false_eq_true, if_false] at hparse
  have hdeclared : (headerOf pkt packHeader).declared rest.length = rest.length ∧
      rest.length < 2 ^ 29 ↔
      pkt.pesPacketLength % 2 ^ 16 < (headerOf pkt packHeader).behind ∧ rest.length < 2 ^ 29 ∨
        (headerOf pkt packHeader).behind + rest.length ≤ pkt.pesPacketLength % 2 ^ 16 := by
    unfold Header.declared
    rw [show (headerOf pkt packHeader).pesPacketLength = pkt.pesPacketLength % 2 ^ 16 from rfl]
    split_ifs <;> omega
  rw [← hdeclared]
  constructor
  · intro hagree
    obtain ⟨hcounted, hreg, hused⟩ := hparse pesPacketAlloc
    have hsame := hagree.same pesPacketAlloc
    rw [bitsRead, hreg, hused] at hsame
    refine ⟨by omega, ?_⟩
    have hparsed := hagree.parsed pesPacketAlloc
    rw [hcounted, bitsRead, hreg, hused] at hparsed
    omega
  · rintro ⟨hall, hsmall⟩
    refine ⟨hpacked, fun target ↦ ?_, fun target ↦ ?_⟩
    · obtain ⟨hbits, hreg, hused⟩ := hparse target
      rw [bitsRead, hbits, hreg, hused]
      omega
    · obtain ⟨hbits, hreg, hused⟩ := hparse target
      rw [bitsRead, hreg, hused]
      omega

/-- The parser in front of the place of the pack header. -/
theorem parse_to_packHeader {buf rest : List UInt8} {h : Header} {e : Extension}
    (he : h.extension = some e)
    (hbuf : bytesToBits buf = h.startBits ++ (h.flagBits ++ (bitsOf 8 h.pesHeaderDataLength ++
      (h.fieldBits ++ (e.flagBits ++ (whenThere e.privateData bytesToBits ++
        bytesToBits rest))))))
    (hr : h.InRange) (hid : hasOptionalHeader h.streamId = true) (hlen : buf.length < 2 ^ 31)
    (target : PesPacket) :
    ∃ st pkt, Parsing st buf (bytesToBits rest) (e.storeFlags pkt)
        (8 * (buf.length - rest.length)) ∧
      pesPacketParse target (klbsReadSetBuffer buf) false =
        stopped (((parsePackHeader st).map fun st ↦
          parseExtension2 (parsePstd (parseSequenceCounter st))).map fun st ↦
            parseData st false) := by
  have hfields := h.length_fieldBits
  have hprivate := e.length_fields.1
  have hrest : (bytesToBits rest).length % 8 = 0 := by
    rw [length_bytesToBits]
    omega
  have hsize := congrArg List.length hbuf
  simp only [List.length_append, length_bytesToBits, Header.startBits, Header.flagBits,
    Extension.flagBits, length_bitsOf] at hsize
  have hfree : ¬klbsGetByteCountFree (klbsReadSetBuffer buf) < 8 := by
    rw [byteCountFree_start (by omega)]
    omega
  have hstart : Parsing ⟨{ target with skipPayloadParsing := false }, klbsReadSetBuffer buf, 0⟩ buf
      (h.startBits ++ (h.flagBits ++ (bitsOf 8 h.pesHeaderDataLength ++ (h.fieldBits ++
        (e.flagBits ++ (whenThere e.privateData bytesToBits ++ bytesToBits rest))))))
      { target with skipPayloadParsing := false } 0 :=
    ⟨hbuf ▸ faces_start buf, rfl, rfl⟩
  have h1 := hstart.start hr (by
    simp only [List.length_append, length_bytesToBits, Header.flagBits, Extension.flagBits,
      length_bitsOf]
    omega) (by omega)
  obtain ⟨st₁, hst₁, h2⟩ := h1.fields hr (by
    simp only [List.length_append, length_bytesToBits, Extension.flagBits, length_bitsOf]
    omega) (by omega)
  have hflag : ∀ p, (h.storeFields p).pesExtensionFlag = 1 := by
    intro p
    simp only [Header.storeFields, Header.storeTimestamps, Header.storeFlags, he]
    rfl
  obtain ⟨st₂, hst₂, h3⟩ := h2.extensionFlags (hflag _) (hr.extension e he) hrest (by omega)
  refine ⟨st₂, _, ⟨h3.faces, h3.pkt_eq, ?_⟩, ?_⟩
  · rw [h3.bits_eq]
    omega
  · rw [pesPacketParse, if_neg hfree]
    simp only [h1.pkt_eq, hid, if_true, hst₁, hst₂]

/-- A length byte that announces more than there is ends the parser. -/
theorem parse_packHeader_long {buf : List UInt8} {st : ParseState} {pkt : PesPacket} {d : UInt8}
    {rest : List UInt8} {bits : ℕ} (hp : Parsing st buf (bytesToBits (d :: rest)) pkt bits)
    (hflag : pkt.packHeaderFieldFlag = 1) (hlong : rest.length < d.toNat)
    (hlen : buf.length < 2 ^ 31) :
    ∃ st', parsePackHeader st = .error st' ∧ st'.bits = bits + 8 ∧ st'.bs.regUsed = 0 ∧
      st'.bs.buflenUsed + rest.length = buf.length := by
  rw [bytesToBits_cons] at hp
  have h1 := (hp.skip (length_bitsOf 8 d.toNat)).count 8
  have hfree := h1.free (by rw [length_bytesToBits]; omega) (by omega)
  rw [length_bytesToBits, Nat.mul_div_cancel_left _ (by norm_num)] at hfree
  obtain ⟨hreg, -, hused⟩ := h1.faces.bytes
  refine ⟨_, ?_, h1.bits_eq, hreg, hused⟩
  rw [parsePackHeader, if_pos (by rw [hp.pkt_eq, hflag])]
  simp only [hp.faces.value (UInt8.toNat_lt d)]
  rw [if_pos (by omega)]

/-- Without data the length byte is read from behind the packet. -/
theorem parse_packHeader_empty {buf : List UInt8} {st : ParseState} {pkt : PesPacket}
    {e : Extension}
    {bits : ℕ} (hp : Parsing st buf [] (e.storeFlags pkt) bits) (hpack : flagOf e.packHeader = 1)
    (hsequence : e.sequenceCounter = none) (hpstd : e.pstdBuffer = none)
    (hfield : e.extensionField = none) (hlen : buf.length < 2 ^ 31) :
    bitsRead (stopped (((parsePackHeader st).map fun st ↦
      parseExtension2 (parsePstd (parseSequenceCounter st))).map fun st ↦
        parseData st false)).bs = 8 * (buf.length + 1) := by
  obtain ⟨pos, hstands, -, hpos⟩ := hp.faces
  rw [List.length_nil, Nat.add_zero] at hpos
  obtain ⟨hvalue, hnext⟩ := hstands.readBits 8
  have hzero : (klbsReadBits st.bs 8).1 = 0 := by
    rw [hvalue, fieldAt_byte buf (by omega), List.getD_eq_getElem?_getD,
      List.getElem?_eq_none (by omega)]
    rfl
  have hreg := hnext.regUsed_eq_zero (by omega)
  have hused := hnext.buflenUsed_eq (by omega)
  have hfree : klbsGetByteCountFree (klbsReadBits st.bs 8).2 = 2 ^ 32 - 1 := by
    rw [klbsGetByteCountFree, hnext.buf_eq, hused]
    omega
  have hint : byteCountFree (klbsReadBits st.bs 8).2 = 0 := by
    rw [byteCountFree, if_neg (by omega)]
  -- a length of zero, behind which the parser goes on
  have hheader : parsePackHeader st = .ok (skipBytes ((st.skip 8).count 8) 0) := by
    rw [parsePackHeader, if_pos (by rw [hp.pkt_eq]; exact hpack)]
    simp only [hzero, Nat.not_lt_zero, if_false]
  have hpkt : (skipBytes ((st.skip 8).count 8) 0).pkt = e.storeFlags pkt := hp.pkt_eq
  have hskip : parseExtension2 (parsePstd (parseSequenceCounter
      (skipBytes ((st.skip 8).count 8) 0))) = skipBytes ((st.skip 8).count 8) 0 := by
    have hflags : (e.storeFlags pkt).programPacketSequenceCounterFlag = 0 ∧
        (e.storeFlags pkt).pstdBufferFlag = 0 ∧ (e.storeFlags pkt).pesExtensionFlag2 = 0 := by
      simp only [Extension.storeFlags, hsequence, hpstd, hfield, flagOf_none, and_self]
    rw [parseSequenceCounter, if_neg (by rw [hpkt, hflags.1]; norm_num), parsePstd,
      if_neg (by rw [hpkt, hflags.2.1]; norm_num), parseExtension2,
      if_neg (by rw [hpkt, hflags.2.2]; norm_num)]
  rw [hheader]
  simp only [Except.map, stopped, hskip]
  have hbs : (skipBytes ((st.skip 8).count 8) 0).bs = (klbsReadBits st.bs 8).2 := rfl
  have htake : ∀ (st' : ParseState), st'.bs.regUsed = 0 →
      st'.bs.buflenUsed = buf.length + 1 → bitsRead (takeData st' 0).bs = 8 * (buf.length + 1) := by
    intro st' hreg' hused'
    rw [takeData, if_pos ⟨hreg', Nat.zero_le _⟩]
    simp only [bs_count, bitsRead, hreg', hused']
    omega
  simp only [parseData, Bool.false_eq_true, if_false, hbs, hint, Nat.min_zero]
  split_ifs <;> exact htake _ hreg (by simp only; omega)

/-- What is written for a packet with the optional header are whole bytes. -/
theorem length_bits_mod_eight {pkt : PesPacket} (hid : hasOptionalHeader pkt.streamId = true)
    (hcount : WritesWhatItCounts pkt) : (Packed.bits pkt).length % 8 = 0 := by
  have hheader := length_written hcount
  simp only [Packed.bits, if_pos hid, List.length_append, Packed.length_startBits,
    Packed.length_flagBits, length_bytesToBits] at hheader ⊢
  omega

/-- What is written of a packet that announces a pack header is the header with an
empty pack header, without the length byte of the pack header, and the data. -/
theorem bits_of_packHeader {pkt : PesPacket} (hid : hasOptionalHeader pkt.streamId = true)
    (hfit : FlagsFit pkt) (hcount : WritesWhatItCounts pkt) (hext : pkt.pesExtensionFlag ≠ 0)
    (hpack : pkt.packHeaderFieldFlag = 1) {e : Extension}
    (he : (headerOf pkt (some [])).extension = some e)
    (hsome : e = { privateData := announced pkt.pesPrivateDataFlag (List.replicate 16 0xff)
                   packHeader := some []
                   sequenceCounter := none
                   pstdBuffer := none
                   extensionField := none }) :
    Packed.bits pkt = (headerOf pkt (some [])).startBits ++
      ((headerOf pkt (some [])).flagBits ++
        (bitsOf 8 (headerOf pkt (some [])).pesHeaderDataLength ++
          ((headerOf pkt (some [])).fieldBits ++
            (e.flagBits ++ (whenThere e.privateData bytesToBits ++
              bytesToBits (dataBytes pkt pkt.dataLengthBytes)))))) := by
  have hflag : pkt.pesExtensionFlag ≠ 0 → flagOf (some ([] : List UInt8)) =
      pkt.packHeaderFieldFlag := fun _ ↦ hpack.symm
  have hnone : pkt.pesExtensionFlag = 0 → some ([] : List UInt8) = none :=
    fun h ↦ absurd h hext
  have hbits := headerOf_bits hfit hcount hflag hnone
  have hcut : Packed.startBits pkt ++ (Packed.flagBits pkt ++ (Packed.timestampBits pkt ++
      (Packed.fieldBits pkt ++ Packed.extensionBits pkt))) =
      (headerOf pkt (some [])).startBits ++ ((headerOf pkt (some [])).flagBits ++
        (bitsOf 8 (headerOf pkt (some [])).pesHeaderDataLength ++
          ((headerOf pkt (some [])).fieldBits ++ (e.flagBits ++
            whenThere e.privateData bytesToBits)))) := by
    rw [Header.bits, Header.optionalBits, he] at hbits
    simp only [whenThere, Option.elim_some, Extension.bits, hsome, Option.elim_none,
      List.append_nil] at hbits
    simp only [← List.append_assoc] at hbits
    have hshort := (List.append_cancel_right hbits).symm
    simp only [List.append_assoc] at hshort
    rw [hshort, hsome]
    rfl
  have happend := congrArg (· ++ bytesToBits (dataBytes pkt pkt.dataLengthBytes)) hcut
  simp only [List.append_assoc] at happend
  rw [← happend, Packed.bits, if_pos hid]

/-- A packet that announces a pack header, in front of the data that are read in
its place. -/
theorem packed_to_packHeader {pkt : PesPacket} (hid : hasOptionalHeader pkt.streamId = true)
    (hfit : FlagsFit pkt) (hcount : WritesWhatItCounts pkt) (hext : pkt.pesExtensionFlag ≠ 0)
    (hpack : pkt.packHeaderFieldFlag = 1) {buf : List UInt8}
    (hroom : (Packed.bits pkt).length ≤ 8 * buf.length)
    (hsize : (Packed.bits pkt).length < 8 * 2 ^ 31) (target : PesPacket) :
    ∃ st p, ∃ e : Extension, flagOf e.packHeader = 1 ∧ e.sequenceCounter = none ∧
      e.pstdBuffer = none ∧ e.extensionField = none ∧
      Parsing st (packedBytes (pesPacketPack pkt (klbsWriteSetBuffer buf)))
        (bytesToBits (dataBytes pkt pkt.dataLengthBytes)) (e.storeFlags p)
        (8 * ((packedBytes (pesPacketPack pkt (klbsWriteSetBuffer buf))).length -
          (dataBytes pkt pkt.dataLengthBytes).length)) ∧
      pesPacketParse target (klbsReadSetBuffer
          (packedBytes (pesPacketPack pkt (klbsWriteSetBuffer buf)))) false =
        stopped (((parsePackHeader st).map fun st ↦
          parseExtension2 (parsePstd (parseSequenceCounter st))).map fun st ↦
            parseData st false) := by
  have hr : (headerOf pkt (some [])).InRange := headerOf_inRange hfit (by simp)
  obtain ⟨e, he, hsome⟩ : ∃ e, (headerOf pkt (some [])).extension = some e ∧
      e = { privateData := announced pkt.pesPrivateDataFlag (List.replicate 16 0xff)
            packHeader := some []
            sequenceCounter := none
            pstdBuffer := none
            extensionField := none } := by
    refine ⟨_, ?_, rfl⟩
    simp only [headerOf, announced, if_pos hext]
  obtain ⟨hwritten, -⟩ := Packed.pack_optional hid hroom
  have hspelled := bits_of_packHeader hid hfit hcount hext hpack he hsome
  obtain ⟨hbytes, hsize'⟩ := bytes_of_written hwritten (length_bits_mod_eight hid hcount)
  obtain ⟨st, p, hparsing, hparse⟩ := parse_to_packHeader he (hbytes.trans hspelled) hr hid
    (by omega) target
  exact ⟨st, p, e, by rw [hsome]; rfl, by rw [hsome], by rw [hsome], by rw [hsome],
    hparsing, hparse⟩

section PackHeader

variable {pkt : PesPacket} (hid : hasOptionalHeader pkt.streamId = true) (hfit : FlagsFit pkt)
  (hcount : WritesWhatItCounts pkt) (hext : pkt.pesExtensionFlag ≠ 0)
  (hpack : pkt.packHeaderFieldFlag = 1) {buf : List UInt8}
  (hroom : (Packed.bits pkt).length ≤ 8 * buf.length)
  (hsize : (Packed.bits pkt).length < 8 * 2 ^ 31)

include hid hfit hcount hext hpack hroom hsize

/-- Data too short for the announced pack header: the parser stops behind the length
byte. -/
theorem parse_stops_behind_length {d : UInt8} {rest : List UInt8}
    (hdata : dataBytes pkt pkt.dataLengthBytes = d :: rest) (hlong : rest.length < d.toNat)
    (target : PesPacket) :
    8 * rest.length ≤ bitsWritten (pesPacketPack pkt (klbsWriteSetBuffer buf)).bs ∧
      (pesPacketParse target (klbsReadSetBuffer
        (packedBytes (pesPacketPack pkt (klbsWriteSetBuffer buf)))) false).bits =
          bitsWritten (pesPacketPack pkt (klbsWriteSetBuffer buf)).bs - 8 * rest.length ∧
      bitsRead (pesPacketParse target (klbsReadSetBuffer
        (packedBytes (pesPacketPack pkt (klbsWriteSetBuffer buf)))) false).bs =
          bitsWritten (pesPacketPack pkt (klbsWriteSetBuffer buf)).bs - 8 * rest.length := by
  obtain ⟨hwritten, -⟩ := Packed.pack_optional hid hroom
  have hbytes := (bytes_of_written hwritten (length_bits_mod_eight hid hcount)).2
  rw [hwritten.length_eq] at hbytes
  obtain ⟨st, p, e, h1, h2, h3, h4, hparsing, hparse⟩ :=
    packed_to_packHeader hid hfit hcount hext hpack hroom hsize target
  rw [hdata] at hparsing
  obtain ⟨st', hst', hbits, hreg, hused⟩ := parse_packHeader_long hparsing h1 hlong (by
    rw [hwritten.length_eq] at hsize
    omega)
  obtain ⟨pos, -, -, hpos⟩ := hparsing.faces
  rw [length_bytesToBits] at hpos
  rw [List.length_cons] at hpos hbits
  rw [hparse, hst']
  simp only [Except.map, stopped]
  rw [hbits, bitsRead, hreg]
  exact ⟨by omega, by omega, by omega⟩

/-- Data that hold the announced pack header. -/
theorem sizesAgree_of_packHeader {d : UInt8} {rest : List UInt8}
    (hdata : dataBytes pkt pkt.dataLengthBytes = d :: rest) (hshort : d.toNat ≤ rest.length) :
    SizesAgree pkt buf ↔ LengthFits pkt := by
  have hagree := @sizesAgree_iff_declared pkt hid hfit hcount buf hroom hsize
    (some (rest.take d.toNat)) (rest.drop d.toNat) (by
      intro x hx
      rw [← Option.some.inj hx, List.length_take_of_le hshort]
      exact UInt8.toNat_lt d) (fun _ ↦ hpack.symm) (fun h ↦ absurd h hext) (by
      rw [hdata, bytesToBits_cons, whenThere, Option.elim_some, Extension.packHeaderBits,
        List.length_take_of_le hshort, List.append_assoc, ← bytesToBits_append,
        List.take_append_drop])
  have hbehind := @behind_headerOf pkt hfit hcount (some (rest.take d.toNat))
    (fun _ ↦ hpack.symm) (fun h ↦ absurd h hext)
  rw [whenThere, Option.elim_some, Extension.packHeaderBits, List.length_append,
    length_bitsOf, length_bytesToBits, List.length_take_of_le hshort] at hbehind
  unfold LengthFits
  rw [if_pos ⟨hext, hpack⟩, hagree, List.length_drop, hdata]
  constructor
  · intro h
    refine Or.inr ⟨hshort, ?_⟩
    omega
  · rintro (rfl | ⟨-, h⟩)
    · rw [List.length_nil] at hshort ⊢
      omega
    · omega

/-- With a pack header announced. -/
theorem sizesAgree_packHeader : SizesAgree pkt buf ↔ LengthFits pkt := by
  obtain ⟨hwritten, hpacked⟩ := Packed.pack_optional hid hroom
  have hbytes := (bytes_of_written hwritten (length_bits_mod_eight hid hcount)).2
  rw [hwritten.length_eq] at hbytes
  rw [(excess_eq_zero_iff hfit).mpr hcount, Nat.add_zero, hwritten.length_eq] at hpacked
  cases hdata : dataBytes pkt pkt.dataLengthBytes with
  | nil =>
      -- the length byte is not there
      unfold LengthFits
      rw [if_pos ⟨hext, hpack⟩, hdata]
      simp only [iff_false]
      intro hagree
      obtain ⟨st, p, e, h1, h2, h3, h4, hparsing, hparse⟩ :=
        packed_to_packHeader hid hfit hcount hext hpack hroom hsize pesPacketAlloc
      have hsame := hagree.same pesPacketAlloc
      rw [hdata] at hparsing
      rw [hparse, parse_packHeader_empty hparsing h1 h2 h3 h4 (by
        rw [hwritten.length_eq] at hsize
        omega)] at hsame
      omega
  | cons d rest =>
      by_cases hshort : d.toNat ≤ rest.length
      · exact sizesAgree_of_packHeader hid hfit hcount hext hpack hroom hsize hdata hshort
      · have hstopped := parse_stops_behind_length hid hfit hcount hext hpack hroom hsize hdata
          (Nat.not_le.mp hshort)
        unfold LengthFits
        rw [if_pos ⟨hext, hpack⟩, hdata]
        constructor
        · intro hagree
          have hsame := hagree.same pesPacketAlloc
          obtain ⟨hposition, -, hread⟩ := hstopped pesPacketAlloc
          rw [hread] at hsame
          exact Or.inl (List.length_eq_zero_iff.mp (by omega))
        · rintro (rfl | ⟨hle, -⟩)
          · refine ⟨hpacked, fun target ↦ ?_, fun target ↦ ?_⟩
            · rw [(hstopped target).2.1, (hstopped target).2.2]
            · rw [(hstopped target).2.2]
              simp
          · exact absurd hle hshort

end PackHeader

/-- The sizes agree exactly for packets with the optional header that announce no
field which is counted without being written, and whose length fits. -/
theorem sizesAgree_iff {pkt : PesPacket} (hfit : FlagsFit pkt) {buf : List UInt8}
    (hroom : (Packed.bits pkt).length ≤ 8 * buf.length)
    (hsize : (Packed.bits pkt).length < 8 * 2 ^ 31) :
    SizesAgree pkt buf ↔
      hasOptionalHeader pkt.streamId = true ∧ WritesWhatItCounts pkt ∧ LengthFits pkt := by
  cases hid : hasOptionalHeader pkt.streamId with
  | false =>
      obtain ⟨hwritten, hpacked⟩ := Packed.pack_other hid hroom
      rw [hwritten.length_eq] at hpacked
      simp only [Bool.false_eq_true, false_and, iff_false]
      intro hagree
      have hsame := hagree.packed
      omega
  | true =>
      obtain ⟨hwritten, hpacked⟩ := Packed.pack_optional hid hroom
      rw [hwritten.length_eq] at hpacked
      by_cases hcount : WritesWhatItCounts pkt
      · simp only [hcount, true_and]
        by_cases hpack : pkt.pesExtensionFlag ≠ 0 ∧ pkt.packHeaderFieldFlag = 1
        · exact sizesAgree_packHeader hid hfit hcount hpack.1 hpack.2 hroom hsize
        · have hflag : pkt.pesExtensionFlag ≠ 0 → flagOf (none : Option (List UInt8)) =
              pkt.packHeaderFieldFlag := by
            intro hext
            have hlt := hfit.packHeaderFieldFlag hext
            have hne : pkt.packHeaderFieldFlag ≠ 1 := fun h ↦ hpack ⟨hext, h⟩
            rw [flagOf_none]
            omega
          have hbehind := behind_headerOf hfit hcount hflag fun _ ↦ rfl
          rw [whenThere_none, List.length_nil] at hbehind
          rw [sizesAgree_iff_declared hid hfit hcount hroom hsize (by simp) hflag (fun _ ↦ rfl)
            (List.nil_append _).symm, LengthFits, if_neg hpack,
            show (headerOf pkt none).behind = headerBytes pkt by omega]
      · have hexcess : Packed.excess pkt ≠ 0 := fun h ↦ hcount ((excess_eq_zero_iff hfit).mp h)
        simp only [hcount, false_and, and_false, iff_false]
        intro hagree
        have hsame := hagree.packed
        omega

theorem samplePacket_flagsFit : FlagsFit samplePacket := by
  constructor <;> decide

theorem samplePacket_sizesAgree : SizesAgree samplePacket (List.replicate 32 0) := by
  refine (sizesAgree_iff samplePacket_flagsFit (by decide +kernel) (by decide +kernel)).mpr
    ⟨by decide, ⟨rfl, ?_, ?_, ?_⟩, Or.inr ?_⟩ <;> decide

/-- Forty-eight bits are counted for the forty of an empty clock reference, and
nothing for the six bytes that every packet of another kind starts with. -/
theorem sizes_differ :
    FlagsFit { samplePacket with escrFlag := 1 } ∧
      (pesPacketPack { samplePacket with escrFlag := 1 }
        (klbsWriteSetBuffer (List.replicate 32 0))).bits = 192 ∧
      bitsWritten (pesPacketPack { samplePacket with escrFlag := 1 }
        (klbsWriteSetBuffer (List.replicate 32 0))).bs = 184 ∧
      ¬SizesAgree { samplePacket with escrFlag := 1 } (List.replicate 32 0) ∧
      FlagsFit { samplePacket with streamId := 0xBF, pesPacketLength := 4 } ∧
      ¬SizesAgree { samplePacket with streamId := 0xBF, pesPacketLength := 4 }
        (List.replicate 32 0) := by
  refine ⟨?_, by decide +kernel, by decide +kernel, fun h ↦ ?_, ?_, fun h ↦ ?_⟩
  · constructor <;> decide
  · exact absurd h.packed (by decide +kernel)
  · constructor <;> decide
  · exact absurd h.packed (by decide +kernel)

end LtnTsTools.Pes
