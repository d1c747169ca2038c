import LtnTsTools.Crc32
import LtnTsTools.TransportPacket

/-!
# Packets of program tables

The model of `ltntstools_pat_create_packet_ts` and
`ltntstools_pmt_create_packet_ts`.  Both clear the packet and then assign byte
after byte, `p[i++] = v`, without looking at `i`: the assignments are the list of
their values, and they leave the packet when there are more than 188.
-/

namespace LtnTsTools.Psi

/-- `struct ltntstools_descriptor_entry_s`: `data` is the first `len` bytes of its
array. -/
structure Descriptor where
  tag : UInt8
  data : List UInt8
  /-- `len` is a byte. -/
  length_data : data.length ≤ 255
deriving DecidableEq

/-- `struct ltntstools_descriptor_list_s`. -/
structure DescriptorList where
  array : List Descriptor
  /-- `LTNTSTOOLS_DESCRIPTOR_ENTRIES_MAX`. -/
  length_array : array.length ≤ 16
deriving DecidableEq

def DescriptorList.empty : DescriptorList := ⟨[], Nat.zero_le _⟩

@[simp] theorem DescriptorList.array_empty : DescriptorList.empty.array = [] := rfl

/-- `struct ltntstools_pmt_entry_s`. -/
structure PmtEntry where
  streamType : ℕ
  elementaryPID : ℕ
  descrList : DescriptorList
deriving DecidableEq

/-- `struct ltntstools_pmt_s`. -/
structure Pmt where
  versionNumber : ℕ
  programNumber : ℕ
  currentNextIndicator : ℕ
  pcrPID : ℕ
  streams : List PmtEntry
  descrList : DescriptorList
  /-- `LTNTSTOOLS_PMT_ENTRIES_MAX`. -/
  length_streams : streams.length ≤ 16
deriving DecidableEq

/-- `struct ltntstools_pat_program_s`, without the texts of the service. -/
structure PatProgram where
  programNumber : ℕ
  programMapPID : ℕ
  pmt : Pmt
deriving DecidableEq

/-- `struct ltntstools_pat_s`, without its descriptors. -/
structure Pat where
  transportStreamId : ℕ
  versionNumber : ℕ
  currentNextIndicator : ℕ
  programs : List PatProgram
  /-- `LTNTSTOOLS_PAT_ENTRIES_MAX`. -/
  length_programs : programs.length ≤ 64
deriving DecidableEq

/-- Assignments `p[i++] = v`, each cut to a byte. -/
def assigned (values : List ℕ) : List UInt8 := values.map UInt8.ofNat

/-- `memset` to 0xff and the given bytes from the start, if they stay inside. -/
def fillPacket (bytes : List UInt8) : Option Packet := (Packet.filled 0xff).copyIn 0 bytes

def headerBytes (pid cc : ℕ) : List UInt8 :=
  assigned [0x47, 0x40 ||| ((pid &&& 0x1fff) >>> 8), pid &&& 0xff, 0x10 ||| (cc &&& 0x0f), 0x00]

/-- `0xC0 | ((version_number & 0x1f) < 1) | current_next_indicator`, where the
comparison has the value zero or one. -/
def versionByte (versionNumber currentNextIndicator : ℕ) : ℕ :=
  0xC0 ||| (if versionNumber &&& 0x1f < 1 then 1 else 0) ||| currentNextIndicator

def programBytes (program : PatProgram) : List UInt8 :=
  assigned [program.pmt.programNumber >>> 8, program.pmt.programNumber,
    0xE0 ||| ((program.programMapPID >>> 8) &&& 0x1F), program.programMapPID &&& 0xFF]

def patSection (pat : Pat) : List UInt8 :=
  assigned [0x00, 0xB0, 9 + pat.programs.length * 4, pat.transportStreamId >>> 8,
    pat.transportStreamId, versionByte pat.versionNumber pat.currentNextIndicator, 0x00, 0x00] ++
      pat.programs.flatMap programBytes

def descriptorBytes (d : Descriptor) : List UInt8 :=
  d.tag :: UInt8.ofNat d.data.length :: d.data

/-- The sum of `len + 2`. -/
def descriptorsLength (list : DescriptorList) : ℕ :=
  (list.array.map fun d ↦ d.data.length + 2).sum

def streamBytes (stream : PmtEntry) : List UInt8 :=
  assigned [stream.streamType, 0xe0 ||| (stream.elementaryPID &&& 0x1fff) >>> 8,
    stream.elementaryPID, 0xf0 ||| ((descriptorsLength stream.descrList &&& 0xfff) >>> 8),
    descriptorsLength stream.descrList] ++ stream.descrList.array.flatMap descriptorBytes

/-- A program map section up to its checksum. -/
def pmtSection (pmt : Pmt) : List UInt8 :=
  let outerLen := descriptorsLength pmt.descrList
  let innerLenTotal := (pmt.streams.map fun stream ↦ descriptorsLength stream.descrList).sum
  assigned [0x02, 0xB0, 9 + 4 + pmt.streams.length * 5 + outerLen + innerLenTotal,
    pmt.programNumber >>> 8, pmt.programNumber,
    versionByte pmt.versionNumber pmt.currentNextIndicator, 0x00, 0x00,
    0xe0 ||| (pmt.pcrPID &&& 0x1fff) >>> 8, pmt.pcrPID, 0xf0 ||| ((outerLen &&& 0xfff) >>> 8),
    outerLen] ++ pmt.descrList.array.flatMap descriptorBytes ++ pmt.streams.flatMap streamBytes

def sealed (bytes : List UInt8) : List UInt8 := bytes ++ Crc32.crcBytes (Crc32.getCRC32 bytes)

/-- Both generators behind their headers: the returned number and the packet, or
`none` for an assignment outside it. -/
def createPacket (pid cc : ℕ) (bytes : List UInt8) (packet : Packet) (packetLength : ℤ) :
    Option (ℤ × Packet) :=
  if packetLength ≠ 188 then some (-1, packet)
  else (fillPacket (headerBytes pid cc ++ sealed bytes)).map fun p ↦ (0, p)

/-- `ltntstools_pat_create_packet_ts`; the constants of its header are those of
pid 0. -/
def patCreatePacketTs (pat : Pat) (cc : ℕ) (packet : Packet) (packetLength : ℤ) :
    Option (ℤ × Packet) :=
  createPacket 0 cc (patSection pat) packet packetLength

/-- `ltntstools_pmt_create_packet_ts`. -/
def pmtCreatePacketTs (pmt : Pmt) (pid cc : ℕ) (packet : Packet) (packetLength : ℤ) :
    Option (ℤ × Packet) :=
  createPacket pid cc (pmtSection pmt) packet packetLength

/-! ## Sizes -/

@[simp] theorem length_assigned (values : List ℕ) : (assigned values).length = values.length :=
  List.length_map _

theorem length_headerBytes (pid cc : ℕ) : (headerBytes pid cc).length = 5 := rfl

theorem length_sealed (bytes : List UInt8) : (sealed bytes).length = bytes.length + 4 := by
  rw [sealed, List.length_append]
  rfl

theorem length_patSection (pat : Pat) : (patSection pat).length = 8 + 4 * pat.programs.length := by
  simp only [patSection, List.length_append, length_assigned, List.length_flatMap, programBytes]
  simp
  omega

theorem length_descriptors (list : DescriptorList) :
    (list.array.flatMap descriptorBytes).length = descriptorsLength list := by
  simp [List.length_flatMap, descriptorBytes, descriptorsLength]
  omega

theorem length_streamBytes (stream : PmtEntry) :
    (streamBytes stream).length = 5 + descriptorsLength stream.descrList := by
  rw [streamBytes, List.length_append, length_assigned, length_descriptors]
  rfl

theorem length_pmtSection (pmt : Pmt) :
    (pmtSection pmt).length = 12 + descriptorsLength pmt.descrList +
      (5 * pmt.streams.length + (pmt.streams.map fun s ↦ descriptorsLength s.descrList).sum) := by
  have hstreams : (pmt.streams.flatMap streamBytes).length =
      5 * pmt.streams.length + (pmt.streams.map fun s ↦ descriptorsLength s.descrList).sum := by
    induction pmt.streams with
    | nil => rfl
    | cons s rest ih =>
        rw [List.flatMap_cons, List.length_append, length_streamBytes, ih, List.map_cons,
          List.sum_cons, List.length_cons]
        omega
  simp only [pmtSection, List.length_append, length_assigned, length_descriptors, hstreams]
  simp

/-- A section that fits is written behind the header, in front of the padding. -/
theorem createPacket_of_fits {pid cc : ℕ} {bytes : List UInt8} (packet : Packet)
    (h : bytes.length + 9 ≤ 188) :
    ∃ p, createPacket pid cc bytes packet 188 = some (0, p) ∧
      p.bytes = headerBytes pid cc ++ (sealed bytes ++
        List.replicate (188 - (bytes.length + 9)) 0xff) := by
  have hlen : (headerBytes pid cc ++ sealed bytes).length = bytes.length + 9 := by
    rw [List.length_append, length_headerBytes, length_sealed]
    omega
  obtain ⟨p, hp, hbytes⟩ := @Packet.copyIn_eq (Packet.filled 0xff) 0
    (headerBytes pid cc ++ sealed bytes) (by omega)
  refine ⟨p, ?_, ?_⟩
  · rw [createPacket, if_neg (by simp), fillPacket, hp, Option.map_some]
  · calc p.bytes
        _ = headerBytes pid cc ++ sealed bytes ++
            (Packet.filled 0xff).bytes.drop (bytes.length + 9) := by
          rw [hbytes, hlen, List.take_zero, List.nil_append, Nat.zero_add]
        _ = headerBytes pid cc ++ (sealed bytes ++
            List.replicate (188 - (bytes.length + 9)) 0xff) := by
          rw [Packet.filled, List.drop_replicate, List.append_assoc]

theorem createPacket_of_far {pid cc : ℕ} {bytes : List UInt8} (packet : Packet)
    (h : 188 < bytes.length + 9) : createPacket pid cc bytes packet 188 = none := by
  have hlen : (headerBytes pid cc ++ sealed bytes).length = bytes.length + 9 := by
    rw [List.length_append, length_headerBytes, length_sealed]
    omega
  rw [createPacket, if_neg (by simp), fillPacket, Packet.copyIn_of_far (by omega), Option.map_none]

/-! ## Bounds -/

/-- A call of a generator stays inside its packet, and refuses what does not fit
there. -/
def Bounded (size : ℕ) (create : Packet → ℤ → Option (ℤ × Packet)) : Prop :=
  ∀ packet packetLength, ∃ r, create packet packetLength = some r ∧ (188 < size → r.1 < 0)

theorem bounded_createPacket_iff {pid cc : ℕ} {bytes : List UInt8} :
    Bounded (bytes.length + 9) (createPacket pid cc bytes) ↔ bytes.length + 9 ≤ 188 := by
  constructor
  · intro h
    by_contra hfar
    obtain ⟨r, hr, -⟩ := h (Packet.filled 0) 188
    rw [createPacket_of_far _ (not_le.mp hfar)] at hr
    cases hr
  · intro hfits packet packetLength
    by_cases hlen : packetLength = 188
    · obtain ⟨p, hp, -⟩ := @createPacket_of_fits pid cc _ packet hfits
      exact ⟨_, hlen ▸ hp, fun hfar ↦ absurd hfits (not_le.mpr hfar)⟩
    · exact ⟨(-1, packet), by rw [createPacket, if_pos hlen], fun _ ↦ by norm_num⟩

def patPacketSize (pat : Pat) : ℕ := 17 + 4 * pat.programs.length

def pmtPacketSize (pmt : Pmt) : ℕ :=
  21 + descriptorsLength pmt.descrList +
    (5 * pmt.streams.length + (pmt.streams.map fun s ↦ descriptorsLength s.descrList).sum)

theorem patPacketSize_eq (pat : Pat) : patPacketSize pat = (patSection pat).length + 9 := by
  rw [length_patSection, patPacketSize]
  omega

theorem pmtPacketSize_eq (pmt : Pmt) : pmtPacketSize pmt = (pmtSection pmt).length + 9 := by
  rw [length_pmtSection, pmtPacketSize]
  omega

/-- The generators stay inside the packet, or refuse the table, exactly for the
tables that fit: 42 programs, or descriptors and streams of 167 bytes. -/
theorem psi_generation_bounded_iff (pat : Pat) (pmt : Pmt) (pid cc : ℕ) :
    (Bounded (patPacketSize pat) (patCreatePacketTs pat cc) ↔ pat.programs.length ≤ 42) ∧
      (Bounded (pmtPacketSize pmt) (pmtCreatePacketTs pmt pid cc) ↔
        pmtPacketSize pmt ≤ 188) := by
  constructor
  · rw [patPacketSize_eq]
    exact bounded_createPacket_iff.trans (by rw [length_patSection]; omega)
  · rw [pmtPacketSize_eq]
    exact bounded_createPacket_iff

def barePmt (programNumber : ℕ) : Pmt where
  versionNumber := 0
  programNumber := programNumber
  currentNextIndicator := 1
  pcrPID := 0x100
  streams := []
  descrList := ⟨[], Nat.zero_le _⟩
  length_streams := Nat.zero_le _

/-- A table of `n` like programs. -/
def patOf (versionNumber n : ℕ) (h : n ≤ 64) : Pat where
  transportStreamId := 1
  versionNumber := versionNumber
  currentNextIndicator := 1
  programs := List.replicate n ⟨1, 0x20, barePmt 1⟩
  length_programs := by rwa [List.length_replicate]

/-- Video, and audio with a language and a tag. -/
def avPmt : Pmt where
  versionNumber := 0
  programNumber := 2
  currentNextIndicator := 1
  pcrPID := 0x201
  streams := [⟨0x1b, 0x201, .empty⟩, ⟨0x0f, 0x202,
    ⟨[⟨0x0a, [0x65, 0x6e, 0x67, 0x00], by decide⟩, ⟨0x52, [0x01], by decide⟩], by decide⟩⟩]
  descrList := ⟨[⟨0x05, [0x48, 0x44, 0x4d, 0x56], by decide⟩], by decide⟩
  length_streams := by decide

/-- A service with streams behind one without. -/
def servicePat : Pat where
  transportStreamId := 1
  versionNumber := 0
  currentNextIndicator := 1
  programs := [⟨1, 0x100, barePmt 1⟩, ⟨2, 0x200, avPmt⟩]
  length_programs := by decide

/-- Forty-three programs, which the table holds, leave the packet. -/
theorem pat_of_43_leaves_packet :
    ¬Bounded (patPacketSize (patOf 0 43 (by decide)))
      (patCreatePacketTs (patOf 0 43 (by decide)) 0) := by
  intro h
  obtain ⟨r, hr, -⟩ := h (Packet.filled 0) 188
  have hlen := length_patSection (patOf 0 43 (by decide))
  have hcount : (patOf 0 43 (by decide)).programs.length = 43 := List.length_replicate
  rw [patCreatePacketTs, createPacket_of_far _ (by omega)] at hr
  cases hr

end LtnTsTools.Psi
