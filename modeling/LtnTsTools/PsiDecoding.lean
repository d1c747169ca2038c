import LtnTsTools.PsiExtraction

/-!
# Decoding generated tables

A decoder for program association and program map sections by the layout of
ISO 13818-1, and what it finds in a generated packet.  The version byte of the
generators is made with a comparison where the layout asks for a shift: the
version never arrives, and for version zero the current/next indicator is
always set.
-/

namespace LtnTsTools.Psi

/-! ## The layout -/

def u16 (hi lo : UInt8) : ℕ := hi.toNat * 256 + lo.toNat

/-- The low thirteen bits, behind three reserved ones. -/
def u13 (hi lo : UInt8) : ℕ := hi.toNat % 32 * 256 + lo.toNat

/-- The low twelve bits, behind four reserved ones. -/
def u12 (hi lo : UInt8) : ℕ := hi.toNat % 16 * 256 + lo.toNat

/-- `version_number`, between two reserved bits and `current_next_indicator`. -/
def versionOf (b : UInt8) : ℕ := b.toNat / 2 % 32

def currentNextOf (b : UInt8) : ℕ := b.toNat % 2

/-- What a `program_association_section()` says. -/
structure PatContent where
  transportStreamId : ℕ
  versionNumber : ℕ
  currentNextIndicator : ℕ
  programs : List (ℕ × ℕ)
deriving DecidableEq

abbrev DescriptorContent := UInt8 × List UInt8

/-- What a `TS_program_map_section()` says of a stream. -/
structure StreamContent where
  streamType : ℕ
  elementaryPID : ℕ
  descriptors : List DescriptorContent
deriving DecidableEq

/-- What a `TS_program_map_section()` says. -/
structure PmtContent where
  programNumber : ℕ
  versionNumber : ℕ
  currentNextIndicator : ℕ
  pcrPID : ℕ
  descriptors : List DescriptorContent
  streams : List StreamContent
deriving DecidableEq

def readPrograms : List UInt8 → List (ℕ × ℕ)
  | n1 :: n0 :: p1 :: p0 :: rest => (u16 n1 n0, u13 p1 p0) :: readPrograms rest
  | _ => []

/-- At most `n` descriptors. -/
def readDescriptors : ℕ → List UInt8 → List DescriptorContent
  | n + 1, tag :: len :: rest =>
      (tag, rest.take len.toNat) :: readDescriptors n (rest.drop len.toNat)
  | _, _ => []

/-- At most `n` streams. -/
def readStreams : ℕ → List UInt8 → List StreamContent
  | n + 1, type :: p1 :: p0 :: l1 :: l0 :: rest =>
      { streamType := type.toNat
        elementaryPID := u13 p1 p0
        descriptors := readDescriptors (u12 l1 l0) (rest.take (u12 l1 l0)) } ::
          readStreams n (rest.drop (u12 l1 l0))
  | _, _ => []

/-- `program_association_section()`, up to its checksum. -/
def readPat : List UInt8 → Option PatContent
  | table :: l1 :: l0 :: t1 :: t0 :: version :: _ :: _ :: rest =>
      if table = 0x00 ∧ 9 ≤ u12 l1 l0 ∧ u12 l1 l0 ≤ rest.length + 5 then some
        { transportStreamId := u16 t1 t0
          versionNumber := versionOf version
          currentNextIndicator := currentNextOf version
          programs := readPrograms (rest.take (u12 l1 l0 - 9)) }
      else none
  | _ => none

/-- `TS_program_map_section()`, up to its checksum. -/
def readPmt : List UInt8 → Option PmtContent
  | table :: l1 :: l0 :: n1 :: n0 :: version :: _ :: _ :: p1 :: p0 :: i1 :: i0 :: rest =>
      if table = 0x02 ∧ 13 + u12 i1 i0 ≤ u12 l1 l0 ∧ u12 l1 l0 ≤ rest.length + 9 then
        let body := rest.take (u12 l1 l0 - 13)
        some
          { programNumber := u16 n1 n0
            versionNumber := versionOf version
            currentNextIndicator := currentNextOf version
            pcrPID := u13 p1 p0
            descriptors := readDescriptors (u12 i1 i0) (body.take (u12 i1 i0))
            streams := readStreams body.length (body.drop (u12 i1 i0)) }
      else none
  | _ => none

def sectionBytes (p : Packet) : List UInt8 :=
  p.bytes.drop (Ts.payloadOffset p + 1 + p.byte (Ts.payloadOffset p))

/-! ## Loops of the body -/

theorem toNat_assigned (v : ℕ) : (UInt8.ofNat v).toNat = v % 256 := UInt8.toNat_ofNat'

theorem u16_assigned (v : ℕ) : u16 (UInt8.ofNat (v >>> 8)) (UInt8.ofNat v) = v % 65536 := by
  rw [u16, toNat_assigned, toNat_assigned, Nat.shiftRight_eq_div_pow]
  omega

/-- A pid or a length behind set reserved bits. -/
theorem reserved_assigned (v : ℕ) {r k : ℕ} (hr : r = 0xe0 ∧ k = 32 ∨ r = 0xf0 ∧ k = 16) :
    (r ||| v % k) % 256 % k = v % k := by
  have h5 : ∀ b < 32, (0xe0 ||| b) % 256 % 32 = b := by decide
  have h4 : ∀ b < 16, (0xf0 ||| b) % 256 % 16 = b := by decide
  rcases hr with ⟨rfl, rfl⟩ | ⟨rfl, rfl⟩
  · exact h5 _ (Nat.mod_lt _ (by norm_num))
  · exact h4 _ (Nat.mod_lt _ (by norm_num))

theorem u13_assigned (v : ℕ) :
    u13 (UInt8.ofNat (0xe0 ||| (v &&& 0x1fff) >>> 8)) (UInt8.ofNat v) = v % 8192 := by
  rw [u13, toNat_assigned, toNat_assigned, and_1fff_shiftRight,
    reserved_assigned _ (.inl ⟨rfl, rfl⟩)]
  omega

theorem u13_assigned_masked (v : ℕ) :
    u13 (UInt8.ofNat (0xE0 ||| ((v >>> 8) &&& 0x1F))) (UInt8.ofNat (v &&& 0xFF)) = v % 8192 := by
  have hhigh : (v >>> 8) &&& 0x1f = v / 256 % 32 := by
    rw [and_1f, Nat.shiftRight_eq_div_pow]
  rw [u13, toNat_assigned, toNat_assigned, hhigh, and_ff, reserved_assigned _ (.inl ⟨rfl, rfl⟩)]
  omega

theorem u12_assigned (v : ℕ) :
    u12 (UInt8.ofNat (0xf0 ||| ((v &&& 0xfff) >>> 8))) (UInt8.ofNat v) = v % 4096 := by
  have hhigh : (v &&& 0xfff) >>> 8 = v / 256 % 16 := by
    rw [and_fff, Nat.shiftRight_eq_div_pow]
    omega
  rw [u12, toNat_assigned, toNat_assigned, hhigh, reserved_assigned _ (.inr ⟨rfl, rfl⟩)]
  omega

theorem u12_plain {v : ℕ} (h : v < 256) : u12 (UInt8.ofNat 0xB0) (UInt8.ofNat v) = v := by
  rw [u12, toNat_assigned, toNat_assigned]
  omega

theorem readPrograms_bytes (programs : List PatProgram) :
    readPrograms (programs.flatMap programBytes) =
      programs.map fun x ↦ (x.pmt.programNumber % 65536, x.programMapPID % 8192) := by
  induction programs with
  | nil => rfl
  | cons x rest ih =>
      have hcons : readPrograms ((x :: rest).flatMap programBytes) =
          (u16 (UInt8.ofNat (x.pmt.programNumber >>> 8)) (UInt8.ofNat x.pmt.programNumber),
            u13 (UInt8.ofNat (0xE0 ||| ((x.programMapPID >>> 8) &&& 0x1F)))
              (UInt8.ofNat (x.programMapPID &&& 0xFF))) ::
            readPrograms (rest.flatMap programBytes) := rfl
      rw [hcons, ih, u16_assigned, u13_assigned_masked, List.map_cons]

def descriptorContent (d : Descriptor) : DescriptorContent := (d.tag, d.data)

theorem readDescriptors_bytes (ds : List Descriptor) {n : ℕ} (hn : ds.length ≤ n) :
    readDescriptors n (ds.flatMap descriptorBytes) = ds.map descriptorContent := by
  induction ds generalizing n with
  | nil => cases n <;> rfl
  | cons d rest ih =>
      obtain ⟨k, rfl⟩ : ∃ k, n = k + 1 := ⟨n - 1, by simp at hn; omega⟩
      have hlen : (UInt8.ofNat d.data.length).toNat = d.data.length := by
        rw [toNat_assigned, Nat.mod_eq_of_lt (by have := d.length_data; omega)]
      have hcons : (d :: rest).flatMap descriptorBytes =
          d.tag :: UInt8.ofNat d.data.length :: (d.data ++ rest.flatMap descriptorBytes) := rfl
      rw [hcons, readDescriptors, hlen, List.take_left, List.drop_left,
        ih (by simpa using hn), List.map_cons]
      rfl

theorem length_array_le (list : DescriptorList) : list.array.length ≤ descriptorsLength list := by
  rw [← length_descriptors]
  simp only [List.length_flatMap, descriptorBytes, List.length_cons]
  simp

theorem readDescriptors_list (list : DescriptorList) :
    readDescriptors (descriptorsLength list) (list.array.flatMap descriptorBytes) =
      list.array.map descriptorContent :=
  readDescriptors_bytes _ (length_array_le list)

def streamContent (stream : PmtEntry) : StreamContent where
  streamType := stream.streamType % 256
  elementaryPID := stream.elementaryPID % 8192
  descriptors := stream.descrList.array.map descriptorContent

theorem readStreams_bytes (streams : List PmtEntry) {n : ℕ} (hn : streams.length ≤ n)
    (hlen : ∀ s ∈ streams, descriptorsLength s.descrList < 4096) :
    readStreams n (streams.flatMap streamBytes) = streams.map streamContent := by
  induction streams generalizing n with
  | nil => cases n <;> rfl
  | cons s rest ih =>
      obtain ⟨k, rfl⟩ : ∃ k, n = k + 1 := ⟨n - 1, by simp at hn; omega⟩
      have hcons : (s :: rest).flatMap streamBytes =
          UInt8.ofNat s.streamType ::
          UInt8.ofNat (0xe0 ||| (s.elementaryPID &&& 0x1fff) >>> 8) ::
          UInt8.ofNat s.elementaryPID ::
          UInt8.ofNat (0xf0 ||| ((descriptorsLength s.descrList &&& 0xfff) >>> 8)) ::
          UInt8.ofNat (descriptorsLength s.descrList) ::
          (s.descrList.array.flatMap descriptorBytes ++ rest.flatMap streamBytes) := rfl
      have hinfo := Nat.mod_eq_of_lt (hlen s List.mem_cons_self)
      have hrest := ih (n := k) (by simpa using hn) fun x hx ↦ hlen x (List.mem_cons_of_mem s hx)
      set info := s.descrList.array.flatMap descriptorBytes with hbytes
      calc readStreams (k + 1) ((s :: rest).flatMap streamBytes)
          _ = { streamType := s.streamType % 256
                elementaryPID := s.elementaryPID % 8192
                descriptors := readDescriptors (descriptorsLength s.descrList) info } ::
              readStreams k (rest.flatMap streamBytes) := by
            rw [hcons, readStreams, u12_assigned, hinfo, u13_assigned, toNat_assigned,
              List.take_left' (length_descriptors _), List.drop_left' (length_descriptors _)]
          _ = streamContent s :: rest.map streamContent := by
            rw [hbytes, readDescriptors_list, hrest, streamContent]

/-! ## Sections -/

def patContent (pat : Pat) : PatContent where
  transportStreamId := pat.transportStreamId % 65536
  versionNumber := versionOf (UInt8.ofNat (versionByte pat.versionNumber pat.currentNextIndicator))
  currentNextIndicator :=
    currentNextOf (UInt8.ofNat (versionByte pat.versionNumber pat.currentNextIndicator))
  programs := pat.programs.map fun x ↦ (x.pmt.programNumber % 65536, x.programMapPID % 8192)

def pmtContent (pmt : Pmt) : PmtContent where
  programNumber := pmt.programNumber % 65536
  versionNumber := versionOf (UInt8.ofNat (versionByte pmt.versionNumber pmt.currentNextIndicator))
  currentNextIndicator :=
    currentNextOf (UInt8.ofNat (versionByte pmt.versionNumber pmt.currentNextIndicator))
  pcrPID := pmt.pcrPID % 8192
  descriptors := pmt.descrList.array.map descriptorContent
  streams := pmt.streams.map streamContent

theorem readPat_section (pat : Pat) (tail : List UInt8) (hfits : pat.programs.length ≤ 42)
    (htail : 4 ≤ tail.length) : readPat (patSection pat ++ tail) = some (patContent pat) := by
  have hlen : (pat.programs.flatMap programBytes).length = pat.programs.length * 4 := by
    have hall := length_patSection pat
    rw [patSection, List.length_append, length_assigned] at hall
    simp only [List.length_cons, List.length_nil] at hall
    omega
  have hfield := @u12_plain (9 + pat.programs.length * 4) (by omega)
  have hcons : patSection pat ++ tail = UInt8.ofNat 0x00 :: UInt8.ofNat 0xB0 ::
      UInt8.ofNat (9 + pat.programs.length * 4) :: UInt8.ofNat (pat.transportStreamId >>> 8) ::
      UInt8.ofNat pat.transportStreamId ::
      UInt8.ofNat (versionByte pat.versionNumber pat.currentNextIndicator) ::
      UInt8.ofNat 0x00 :: UInt8.ofNat 0x00 ::
      (pat.programs.flatMap programBytes ++ tail) := rfl
  have hroom : 9 + pat.programs.length * 4 ≤
      (pat.programs.flatMap programBytes ++ tail).length + 5 := by
    rw [List.length_append]
    omega
  rw [hcons, readPat, hfield, if_pos ⟨rfl, by omega, hroom⟩, u16_assigned,
    List.take_left' (by omega), readPrograms_bytes]
  rfl

theorem readPmt_section (pmt : Pmt) (tail : List UInt8) (hfits : pmtPacketSize pmt ≤ 188)
    (htail : 4 ≤ tail.length) : readPmt (pmtSection pmt ++ tail) = some (pmtContent pmt) := by
  have hall := length_pmtSection pmt
  have hdescr := length_descriptors pmt.descrList
  unfold pmtPacketSize at hfits
  generalize hinner : (pmt.streams.map fun s ↦ descriptorsLength s.descrList).sum = inner at *
  have hstreams : (pmt.streams.flatMap streamBytes).length = 5 * pmt.streams.length + inner := by
    rw [pmtSection, List.length_append, List.length_append, length_assigned, hdescr] at hall
    simp only [List.length_cons, List.length_nil] at hall
    omega
  have hfield := @u12_plain (9 + 4 + pmt.streams.length * 5 + descriptorsLength pmt.descrList +
    inner) (by omega)
  have hcons : pmtSection pmt ++ tail = UInt8.ofNat 0x02 :: UInt8.ofNat 0xB0 ::
      UInt8.ofNat (9 + 4 + pmt.streams.length * 5 + descriptorsLength pmt.descrList + inner) ::
      UInt8.ofNat (pmt.programNumber >>> 8) :: UInt8.ofNat pmt.programNumber ::
      UInt8.ofNat (versionByte pmt.versionNumber pmt.currentNextIndicator) ::
      UInt8.ofNat 0x00 :: UInt8.ofNat 0x00 ::
      UInt8.ofNat (0xe0 ||| (pmt.pcrPID &&& 0x1fff) >>> 8) :: UInt8.ofNat pmt.pcrPID ::
      UInt8.ofNat (0xf0 ||| ((descriptorsLength pmt.descrList &&& 0xfff) >>> 8)) ::
      UInt8.ofNat (descriptorsLength pmt.descrList) ::
      (pmt.descrList.array.flatMap descriptorBytes ++ pmt.streams.flatMap streamBytes ++ tail) := by
    rw [← hinner]
    rfl
  have hbody : (pmt.descrList.array.flatMap descriptorBytes ++ pmt.streams.flatMap streamBytes ++
      tail).take (9 + 4 + pmt.streams.length * 5 + descriptorsLength pmt.descrList + inner - 13) =
      pmt.descrList.array.flatMap descriptorBytes ++ pmt.streams.flatMap streamBytes := by
    apply List.take_left'
    rw [List.length_append]
    omega
  have hsmall : ∀ s ∈ pmt.streams, descriptorsLength s.descrList < 4096 := by
    intro s hs
    have hle := List.le_sum_of_mem (List.mem_map_of_mem hs :
      descriptorsLength s.descrList ∈ pmt.streams.map fun s ↦ descriptorsLength s.descrList)
    omega
  have hinfo : descriptorsLength pmt.descrList % 4096 = descriptorsLength pmt.descrList :=
    Nat.mod_eq_of_lt (by omega)
  rw [hcons, readPmt, hfield, u12_assigned, hinfo, if_pos ⟨rfl, by omega, by
    rw [List.length_append, List.length_append]; omega⟩]
  simp only [hbody, u16_assigned, u13_assigned]
  rw [List.take_left' hdescr, List.drop_left' hdescr, readDescriptors_list,
    readStreams_bytes _ (by rw [List.length_append]; omega) hsmall]
  rfl

/-- The version byte says what it should in one case only. -/
theorem versionByte_decodes_iff (v c : ℕ) :
    versionOf (UInt8.ofNat (versionByte v c)) = v ∧
      currentNextOf (UInt8.ofNat (versionByte v c)) = c ↔ v = 0 ∧ c = 1 := by
  constructor
  · rintro ⟨hv, hc⟩
    have hlt : c < 2 := hc ▸ Nat.mod_lt _ (by norm_num)
    -- the comparison leaves nothing of the version but whether it is zero
    have hbyte : versionByte v c = 0xC0 ||| 1 ||| c ∨
        versionByte v c = 0xC0 ||| 0 ||| c ∧ v ≠ 0 := by
      unfold versionByte
      split_ifs with hzero
      · exact .inl rfl
      · exact .inr ⟨rfl, by rintro rfl; exact hzero (by decide)⟩
    rcases hbyte with hbyte | ⟨hbyte, hne⟩
    · rw [hbyte] at hv hc
      interval_cases c
      · exact absurd hc (by decide)
      · exact ⟨hv.symm.trans (by decide), rfl⟩
    · rw [hbyte] at hv
      interval_cases c
      · exact absurd (hv.symm.trans (by decide)) hne
      · exact absurd (hv.symm.trans (by decide)) hne
  · rintro ⟨rfl, rfl⟩
    decide

theorem sectionBytes_of_single {pid tableID total : ℕ} {p : Packet}
    (h : SingleSection pid tableID total p) : sectionBytes p = p.bytes.drop 5 := by
  rw [sectionBytes, h.payloadOffset, h.pointer]

/-! ## What arrives -/

def PatDecodesBack (pat : Pat) (cc : ℕ) (packet : Packet) : Prop :=
  ∃ p, patCreatePacketTs pat cc packet 188 = some (0, p) ∧
    readPat (sectionBytes p) = some
      { transportStreamId := pat.transportStreamId
        versionNumber := pat.versionNumber
        currentNextIndicator := pat.currentNextIndicator
        programs := pat.programs.map fun x ↦ (x.programNumber, x.programMapPID) }

def PmtDecodesBack (pmt : Pmt) (pid cc : ℕ) (packet : Packet) : Prop :=
  ∃ p, pmtCreatePacketTs pmt pid cc packet 188 = some (0, p) ∧
    readPmt (sectionBytes p) = some
      { programNumber := pmt.programNumber
        versionNumber := pmt.versionNumber
        currentNextIndicator := pmt.currentNextIndicator
        pcrPID := pmt.pcrPID
        descriptors := pmt.descrList.array.map fun d ↦ (d.tag, d.data)
        streams := pmt.streams.map fun s ↦
          { streamType := s.streamType
            elementaryPID := s.elementaryPID
            descriptors := s.descrList.array.map fun d ↦ (d.tag, d.data) } }

/-- Version zero and current, the program numbers of the program maps, and values
within their fields. -/
structure PatRecoverable (pat : Pat) : Prop where
  stream_id : pat.transportStreamId < 65536
  version : pat.versionNumber = 0
  current : pat.currentNextIndicator = 1
  programs : ∀ x ∈ pat.programs,
    x.pmt.programNumber % 65536 = x.programNumber ∧ x.programMapPID < 8192

/-- Version zero and current, and values within their fields. -/
structure PmtRecoverable (pmt : Pmt) : Prop where
  program : pmt.programNumber < 65536
  version : pmt.versionNumber = 0
  current : pmt.currentNextIndicator = 1
  pcr : pmt.pcrPID < 8192
  streams : ∀ s ∈ pmt.streams, s.streamType < 256 ∧ s.elementaryPID < 8192

theorem patDecodesBack_iff {pat : Pat} {cc : ℕ} {packet : Packet}
    (hfits : pat.programs.length ≤ 42) : PatDecodesBack pat cc packet ↔ PatRecoverable pat := by
  obtain ⟨p, hp, hsingle, hdrop⟩ := pat_created cc packet hfits
  have hread : readPat (sectionBytes p) = some (patContent pat) := by
    rw [sectionBytes_of_single hsingle, hdrop, sealed, List.append_assoc]
    exact readPat_section pat _ hfits (by simp [Crc32.crcBytes])
  have hversion := versionByte_decodes_iff pat.versionNumber pat.currentNextIndicator
  have hprograms : (pat.programs.map fun x ↦
      (x.pmt.programNumber % 65536, x.programMapPID % 8192)) =
        (pat.programs.map fun x ↦ (x.programNumber, x.programMapPID)) ↔
      ∀ x ∈ pat.programs,
        x.pmt.programNumber % 65536 = x.programNumber ∧ x.programMapPID < 8192 := by
    rw [List.map_inj_left]
    refine forall₂_congr fun x _ ↦ ?_
    rw [Prod.mk.injEq, Nat.mod_eq_iff_lt (by norm_num)]
  have hpacket : PatDecodesBack pat cc packet ↔ readPat (sectionBytes p) = some
      { transportStreamId := pat.transportStreamId
        versionNumber := pat.versionNumber
        currentNextIndicator := pat.currentNextIndicator
        programs := pat.programs.map fun x ↦ (x.programNumber, x.programMapPID) } := by
    simp [PatDecodesBack, hp]
  rw [hpacket, hread, Option.some.injEq, patContent, PatContent.mk.injEq, hprograms,
    Nat.mod_eq_iff_lt (by norm_num)]
  constructor
  · rintro ⟨hid, hv, hc, hprog⟩
    obtain ⟨hv0, hc1⟩ := hversion.mp ⟨hv, hc⟩
    exact ⟨hid, hv0, hc1, hprog⟩
  · intro h
    obtain ⟨hv, hc⟩ := hversion.mpr ⟨h.version, h.current⟩
    exact ⟨h.stream_id, hv, hc, h.programs⟩

/-- The header has room for thirteen bits of a pid. -/
theorem headerBytes_mod (pid cc : ℕ) : headerBytes (pid % 8192) cc = headerBytes pid cc := by
  have hwide : pid % 8192 &&& 0x1fff = pid &&& 0x1fff := by
    rw [and_1fff, and_1fff]
    exact Nat.mod_mod _ _
  have hlow : pid % 8192 &&& 0xff = pid &&& 0xff := by
    rw [and_ff, and_ff]
    omega
  rw [headerBytes, headerBytes, hwide, hlow]

theorem pmtDecodesBack_iff {pmt : Pmt} {pid cc : ℕ} {packet : Packet}
    (hfits : pmtPacketSize pmt ≤ 188) : PmtDecodesBack pmt pid cc packet ↔ PmtRecoverable pmt := by
  obtain ⟨p, hp, hsingle, hdrop⟩ := @pmt_created pmt (pid % 8192) cc packet (by omega) hfits
  rw [pmtCreatePacketTs, createPacket, headerBytes_mod, ← createPacket,
    ← pmtCreatePacketTs] at hp
  have hread : readPmt (sectionBytes p) = some (pmtContent pmt) := by
    rw [sectionBytes_of_single hsingle, hdrop, sealed, List.append_assoc]
    exact readPmt_section pmt _ hfits (by simp [Crc32.crcBytes])
  have hversion := versionByte_decodes_iff pmt.versionNumber pmt.currentNextIndicator
  have hstreams : pmt.streams.map streamContent = (pmt.streams.map fun s ↦
        { streamType := s.streamType
          elementaryPID := s.elementaryPID
          descriptors := s.descrList.array.map fun d ↦ (d.tag, d.data) }) ↔
      ∀ s ∈ pmt.streams, s.streamType < 256 ∧ s.elementaryPID < 8192 := by
    rw [List.map_inj_left]
    refine forall₂_congr fun s _ ↦ ?_
    rw [streamContent, StreamContent.mk.injEq, Nat.mod_eq_iff_lt (by norm_num),
      Nat.mod_eq_iff_lt (by norm_num)]
    exact and_congr_right fun _ ↦ and_iff_left rfl
  have hpacket : PmtDecodesBack pmt pid cc packet ↔ readPmt (sectionBytes p) = some
      { programNumber := pmt.programNumber
        versionNumber := pmt.versionNumber
        currentNextIndicator := pmt.currentNextIndicator
        pcrPID := pmt.pcrPID
        descriptors := pmt.descrList.array.map fun d ↦ (d.tag, d.data)
        streams := pmt.streams.map fun s ↦
          { streamType := s.streamType
            elementaryPID := s.elementaryPID
            descriptors := s.descrList.array.map fun d ↦ (d.tag, d.data) } } := by
    simp [PmtDecodesBack, hp]
  rw [hpacket, hread, Option.some.injEq, pmtContent, PmtContent.mk.injEq, hstreams,
    Nat.mod_eq_iff_lt (by norm_num), Nat.mod_eq_iff_lt (by norm_num)]
  constructor
  · rintro ⟨hprog, hv, hc, hpcr, -, hs⟩
    obtain ⟨hv0, hc1⟩ := hversion.mp ⟨hv, hc⟩
    exact ⟨hprog, hv0, hc1, hpcr, hs⟩
  · intro h
    obtain ⟨hv, hc⟩ := hversion.mpr ⟨h.version, h.current⟩
    exact ⟨h.program, hv, hc, h.pcr, rfl, h.streams⟩

/-- Of the tables that fit a packet, exactly the current ones of version zero are
decoded from it, with values inside their fields and program numbers that their
program maps share. -/
theorem psi_decodes_back_iff (pat : Pat) (pmt : Pmt) (pid cc : ℕ) (packet : Packet) :
    (pat.programs.length ≤ 42 → (PatDecodesBack pat cc packet ↔ PatRecoverable pat)) ∧
      (pmtPacketSize pmt ≤ 188 → (PmtDecodesBack pmt pid cc packet ↔ PmtRecoverable pmt)) :=
  ⟨fun hfits ↦ patDecodesBack_iff hfits, fun hfits ↦ pmtDecodesBack_iff hfits⟩

/-- A table of one program, version zero and current, arrives. -/
theorem psi_decodes_back_service :
    PatDecodesBack servicePat 7 (Packet.filled 0) ∧
      PmtDecodesBack avPmt 0x200 7 (Packet.filled 0) := by
  obtain ⟨hpat, hpmt⟩ := psi_decodes_back_iff servicePat avPmt 0x200 7 (Packet.filled 0)
  exact ⟨(hpat (by decide)).mpr ⟨by decide, rfl, rfl, by decide⟩,
    (hpmt (by decide)).mpr ⟨by decide, rfl, rfl, by decide, by decide⟩⟩

/-- The next version of the same table does not. -/
theorem second_version_not_decoded :
    ¬PatDecodesBack (patOf 1 1 (by decide)) 7 (Packet.filled 0) := by
  intro h
  have hversion := ((patDecodesBack_iff (by decide)).mp h).version
  exact absurd hversion (by decide)

end LtnTsTools.Psi
