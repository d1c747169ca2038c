import LtnTsTools.PsiTables
import LtnTsTools.SectionExtractor

/-!
# Generated tables in the section extractor

A generated packet carries one whole section behind a pointer field of zero.  The
length in its header is computed from counts and descriptor lengths, the body is
written by loops of its own; both agree, so a new extractor takes the section
whole and finds its checksum right.
-/

namespace LtnTsTools.Psi

open SectionExtractor Region

/-- The section of a packet that starts one right behind its header. -/
structure SingleSection (pid tableID total : ℕ) (p : Packet) : Prop where
  sync : Ts.syncPresent p = true
  pid_eq : Ts.pid p = pid
  pusi : Ts.payloadUnitStartIndicator p = true
  control : Ts.adaptionFieldControl p = 1
  pointer : p.byte 4 = 0
  table : p.byte 5 = tableID
  length : announcedLength p = total
  total_le : total ≤ 183

namespace SingleSection

variable {pid tableID total : ℕ} {p : Packet}

theorem payloadOffset (h : SingleSection pid tableID total p) : Ts.payloadOffset p = 4 := by
  simp [Ts.payloadOffset, Ts.hasAdaption, h.control]

theorem startOf (h : SingleSection pid tableID total p) : startOf p = 5 := by
  rw [SectionExtractor.startOf, if_pos h.pusi, h.payloadOffset, h.pointer]

/-- An idle extractor of this pid and table takes the section in one write. -/
theorem extracted (h : SingleSection pid tableID total p) {ctx : Ctx} (hpid : ctx.pid = pid)
    (htable : ctx.tableID = tableID) (hidle : ctx.appending = false ∧ ctx.complete = false)
    (hmem : ctx.sectionBuf.length = bufferSize) (crcValid : Bool) :
    ∃ r, sectionextractorWrite ctx [p] crcValid = some r ∧
      r.complete = true ∧ r.ctx.sectionLength = total ∧
      r.ctx.sectionBuf.take total = (p.bytes.drop 5).take total ∧
      r.crcValid = Crc32.checkCRC32 ((p.bytes.drop 5).take total) := by
  have hle := h.total_le
  have hstart := h.startOf
  have hmin : min (announcedLength p) 183 = total := by
    rw [h.length]
    omega
  have hoff : sectionOffset p.bytes p = some 5 := by
    rw [sectionOffset_eq fun _ ↦ by rw [h.payloadOffset]; norm_num, hstart]
  have hbegin : beginSection ctx p.bytes 5 = some (begun ctx total, total) := by
    have heq := @beginSection_eq ctx p (by rw [hstart]; norm_num)
    rwa [hstart, hmin, h.length] at heq
  have hroom : (begun ctx total).sectionLengthCurrent + total ≤
      (begun ctx total).sectionBuf.length := by
    simp only [begun, hmem, bufferSize]
    omega
  obtain ⟨buf, hstore, happend⟩ := @appendSection_eq (callEntry ctx crcValid) (begun ctx total) p 5
    total (by omega) hroom
  have hbuf : buf.take total = (p.bytes.drop 5).take total := by
    have htake := take_of_store hstore
    rwa [length_slice p (by omega), begun, Nat.zero_add, List.take_zero, List.nil_append] at htake
  have hturn : writeTurn (callEntry ctx crcValid) p =
      some (afterCopy (callEntry ctx crcValid) (begun ctx total) buf total, ()) := by
    have hwrite : writePacket p.bytes (callEntry ctx crcValid) p =
        some (afterCopy (callEntry ctx crcValid) (begun ctx total) buf total) := by
      have hentry : (callEntry ctx crcValid).ctx = ctx := rfl
      unfold writePacket
      rw [if_neg (by simp [h.sync]), hoff, Option.bind_some, if_neg (by simp), hentry,
        if_pos hidle, readByte_of_lt (by norm_num), Option.bind_some,
        if_pos (h.table.trans htable.symm), hbegin, Option.bind_some, happend]
    rw [writeTurn, if_neg (by simp [h.pid_eq, callEntry, hpid]), hwrite, Option.map_some]
  have hwritten : sectionextractorWrite ctx [p] crcValid =
      some (latchComplete (afterCopy (callEntry ctx crcValid) (begun ctx total) buf total)) := by
    rw [sectionextractorWrite, writeLoop, hturn]
    rfl
  refine ⟨_, hwritten, ?_⟩
  simp [afterCopy, latchComplete, begun, hbuf]

end SingleSection

/-! ## Generated packets -/

theorem byte_of_bytes {p : Packet} {xs ys : List UInt8} (h : p.bytes = xs ++ ys) {i : ℕ}
    (hi : i < xs.length) : p.byte i = (xs.getD i 0).toNat := by
  rw [Packet.byte, h, List.getD_eq_getElem?_getD, List.getD_eq_getElem?_getD,
    List.getElem?_append_left hi]

/-- The transport header and the pointer field at the start of a packet. -/
theorem headerBytes_spec {pid cc : ℕ} {rest : List UInt8} {p : Packet} (hpid : pid ≤ 0x1fff)
    (hp : p.bytes = headerBytes pid cc ++ rest) :
    Ts.syncPresent p = true ∧ Ts.pid p = pid ∧ Ts.payloadUnitStartIndicator p = true ∧
      Ts.adaptionFieldControl p = 1 ∧ p.byte 4 = 0 := by
  have hbyte := fun i hi ↦ @byte_of_bytes p _ _ hp i hi
  have hlen : (headerBytes pid cc).length = 5 := rfl
  have hhigh : (pid &&& 0x1fff) >>> 8 = pid / 256 := by
    rw [and_1fff_shiftRight]
    omega
  have hor1 : ∀ b < 32, (0x40 ||| b) % 256 = b + 64 := by decide
  have hor3 : ∀ b < 16, (0x10 ||| b) % 256 = b + 16 := by decide
  have h0 : p.byte 0 = 0x47 := hbyte 0 (by omega)
  have h1 : p.byte 1 = pid / 256 + 64 := by
    refine (hbyte 1 (by omega)).trans (UInt8.toNat_ofNat'.trans ?_)
    rw [hhigh]
    exact hor1 _ (by omega)
  have h2 : p.byte 2 = pid % 256 := by
    refine (hbyte 2 (by omega)).trans (UInt8.toNat_ofNat'.trans ?_)
    rw [and_ff, Nat.mod_mod]
  have h3 : p.byte 3 = cc % 16 + 16 := by
    refine (hbyte 3 (by omega)).trans (UInt8.toNat_ofNat'.trans ?_)
    rw [and_f]
    exact hor3 _ (by omega)
  refine ⟨by simp [Ts.syncPresent, h0], ?_, ?_, ?_, hbyte 4 (by omega)⟩
  · rw [Ts.pid_eq, h1, h2]
    omega
  · rw [Ts.payloadUnitStartIndicator_iff, h1]
    omega
  · rw [Ts.adaptionFieldControl_eq, h3]
    omega

/-- The header of a generated packet, and the start of its section. -/
theorem singleSection_of_bytes {pid cc tableID lengthField : ℕ} {rest : List UInt8} {p : Packet}
    (hpid : pid ≤ 0x1fff) (htable : tableID < 256) (hlength : lengthField + 3 ≤ 183)
    (hp : p.bytes = headerBytes pid cc ++
      (UInt8.ofNat tableID :: 0xB0 :: UInt8.ofNat lengthField :: rest)) :
    SingleSection pid tableID (lengthField + 3) p := by
  obtain ⟨hsync, hpideq, hpusi, hcontrol, h4⟩ := headerBytes_spec hpid hp
  have hbytes : p.bytes = (headerBytes pid cc ++
      [UInt8.ofNat tableID, 0xB0, UInt8.ofNat lengthField]) ++ rest := by
    rw [hp]
    simp
  have hbyte := fun i hi ↦ @byte_of_bytes p _ _ hbytes i hi
  have hlen : (headerBytes pid cc ++ [UInt8.ofNat tableID, 0xB0,
      UInt8.ofNat lengthField]).length = 8 := rfl
  have h5 : p.byte 5 = tableID :=
    (hbyte 5 (by omega)).trans (UInt8.toNat_ofNat'.trans (Nat.mod_eq_of_lt htable))
  have h6 : p.byte 6 = 0xB0 := hbyte 6 (by omega)
  have h7 : p.byte 7 = lengthField :=
    (hbyte 7 (by omega)).trans (UInt8.toNat_ofNat'.trans (Nat.mod_eq_of_lt (by omega)))
  have hstart : startOf p = 5 := by
    simp [startOf, hpusi, Ts.payloadOffset, Ts.hasAdaption, hcontrol, h4]
  have hfield : ∀ b < 256, ((0xB0 <<< 8 ||| b) &&& 0xfff) = b := by decide +kernel
  refine ⟨hsync, hpideq, hpusi, hcontrol, h4, h5, ?_, hlength⟩
  rw [announcedLength, hstart, h6, h7, hfield lengthField (by omega)]

/-- The `section_length` behind a pointer field of zero. -/
def sectionLengthField (p : Packet) : ℕ := p.byte 6 % 16 * 256 + p.byte 7

/-- A new extractor reports the section of the packet complete and valid in one
write and holds exactly its bytes; the rest of the packet is padding. -/
def PassesExtractor (pid tableID : ℕ) (p : Packet) : Prop :=
  (∀ memory crcValid, memory.length = bufferSize → ∃ r,
    sectionextractorWrite (sectionextractorAlloc pid tableID memory) [p] crcValid = some r ∧
    r.complete = true ∧ r.crcValid = true ∧
    r.ctx.sectionBuf.take r.ctx.sectionLength =
      (p.bytes.drop 5).take (3 + sectionLengthField p)) ∧
  ∀ b ∈ p.bytes.drop (5 + (3 + sectionLengthField p)), b = 0xff

theorem SingleSection.sectionLengthField {pid tableID total : ℕ} {p : Packet}
    (h : SingleSection pid tableID total p) : 3 + sectionLengthField p = total := by
  have hlength := h.length
  have h7 := p.byte_lt 7
  rw [announcedLength, h.startOf, show 5 + 1 = 6 from rfl, show 5 + 2 = 7 from rfl,
    ← Nat.shiftLeft_add_eq_or_of_lt (by omega : p.byte 7 < 2 ^ 8), Nat.shiftLeft_eq,
    and_fff] at hlength
  unfold Psi.sectionLengthField
  omega

/-- A generated section stands whole behind the header of its packet. -/
theorem created_single {pid cc tableID lengthField : ℕ} {bytes rest : List UInt8}
    (packet : Packet) (hpid : pid ≤ 0x1fff) (htable : tableID < 256)
    (hbytes : bytes = UInt8.ofNat tableID :: 0xB0 :: UInt8.ofNat lengthField :: rest)
    (hlength : bytes.length + 1 = lengthField) (hfits : bytes.length + 9 ≤ 188) :
    ∃ p, createPacket pid cc bytes packet 188 = some (0, p) ∧
      SingleSection pid tableID (lengthField + 3) p ∧
      p.bytes.drop 5 = sealed bytes ++ List.replicate (188 - (bytes.length + 9)) 0xff := by
  obtain ⟨p, hp, hall⟩ := @createPacket_of_fits pid cc bytes packet hfits
  refine ⟨p, hp, ?_, by rw [hall, List.drop_left' (length_headerBytes pid cc)]⟩
  apply singleSection_of_bytes hpid htable (by omega)
  rw [hall, sealed]
  nth_rewrite 1 [hbytes]
  rfl

theorem passes_of_single {pid tableID lengthField : ℕ} {bytes : List UInt8} {p : Packet}
    (hsingle : SingleSection pid tableID (lengthField + 3) p)
    (hlength : bytes.length + 1 = lengthField)
    (hdrop : p.bytes.drop 5 = sealed bytes ++ List.replicate (188 - (bytes.length + 9)) 0xff) :
    PassesExtractor pid tableID p := by
  have hsection : (p.bytes.drop 5).take (lengthField + 3) = sealed bytes := by
    rw [hdrop, List.take_left' (by rw [length_sealed]; omega)]
  refine ⟨?_, ?_⟩
  · intro memory crcValid hmem
    obtain ⟨r, hr, hcomplete, hlen, hbuf, hcrc⟩ := @SingleSection.extracted _ _ _ _ hsingle
      (sectionextractorAlloc pid tableID memory) rfl rfl ⟨rfl, rfl⟩ hmem crcValid
    refine ⟨r, hr, hcomplete, ?_, ?_⟩
    · rw [hcrc, hsection, sealed, Crc32.checkCRC32_append]
    · rw [hlen, hbuf, hsingle.sectionLengthField]
  · intro b hb
    rw [hsingle.sectionLengthField, ← List.drop_drop, hdrop,
      List.drop_left' (by rw [length_sealed]; omega)] at hb
    exact (List.mem_replicate.mp hb).2

theorem pat_created {pat : Pat} (cc : ℕ) (packet : Packet) (hfits : pat.programs.length ≤ 42) :
    ∃ p, patCreatePacketTs pat cc packet 188 = some (0, p) ∧
      SingleSection 0 0x00 (9 + pat.programs.length * 4 + 3) p ∧
      p.bytes.drop 5 = sealed (patSection pat) ++
        List.replicate (188 - ((patSection pat).length + 9)) 0xff := by
  have hlen := length_patSection pat
  exact created_single packet (by norm_num) (by norm_num) rfl (by omega) (by omega)

/-- The `section_length` the generator computes for a program map. -/
def pmtLengthField (pmt : Pmt) : ℕ :=
  9 + 4 + pmt.streams.length * 5 + descriptorsLength pmt.descrList +
    (pmt.streams.map fun stream ↦ descriptorsLength stream.descrList).sum

theorem length_pmtSection_eq (pmt : Pmt) : (pmtSection pmt).length + 1 = pmtLengthField pmt := by
  rw [length_pmtSection, pmtLengthField]
  omega

theorem pmt_created {pmt : Pmt} {pid : ℕ} (cc : ℕ) (packet : Packet) (hpid : pid ≤ 0x1fff)
    (hfits : pmtPacketSize pmt ≤ 188) :
    ∃ p, pmtCreatePacketTs pmt pid cc packet 188 = some (0, p) ∧
      SingleSection pid 0x02 (pmtLengthField pmt + 3) p ∧
      p.bytes.drop 5 = sealed (pmtSection pmt) ++
        List.replicate (188 - ((pmtSection pmt).length + 9)) 0xff := by
  rw [pmtPacketSize_eq] at hfits
  exact created_single packet hpid (by norm_num) rfl (length_pmtSection_eq pmt) hfits

/-- Every generated table that fits its packet passes the section extractor. -/
theorem generated_psi_passes_extractor :
    (∀ (pat : Pat) (cc : ℕ) (packet : Packet), pat.programs.length ≤ 42 →
      ∃ p, patCreatePacketTs pat cc packet 188 = some (0, p) ∧ PassesExtractor 0 0x00 p) ∧
    ∀ (pmt : Pmt) (pid cc : ℕ) (packet : Packet), 1 ≤ pid → pid ≤ 0x1ffe →
      pmtPacketSize pmt ≤ 188 →
      ∃ p, pmtCreatePacketTs pmt pid cc packet 188 = some (0, p) ∧ PassesExtractor pid 0x02 p := by
  refine ⟨fun pat cc packet hfits ↦ ?_, fun pmt pid cc packet _ hpid hfits ↦ ?_⟩
  · obtain ⟨p, hp, hsingle, hdrop⟩ := pat_created cc packet hfits
    have hlen := length_patSection pat
    exact ⟨p, hp, passes_of_single hsingle (by omega) hdrop⟩
  · obtain ⟨p, hp, hsingle, hdrop⟩ := @pmt_created pmt pid cc packet (by omega) hfits
    exact ⟨p, hp, passes_of_single hsingle (length_pmtSection_eq pmt) hdrop⟩

/-- The packets of a table with one program and of a table without streams. -/
theorem generated_psi_passes_extractor_service :
    (∃ p, patCreatePacketTs servicePat 7 (Packet.filled 0) 188 = some (0, p) ∧
      PassesExtractor 0 0x00 p) ∧
    ∃ p, pmtCreatePacketTs avPmt 0x200 7 (Packet.filled 0) 188 = some (0, p) ∧
      PassesExtractor 0x200 0x02 p :=
  ⟨generated_psi_passes_extractor.1 servicePat 7 _ (by decide),
    generated_psi_passes_extractor.2 avPmt 0x200 7 _ (by decide) (by decide) (by decide)⟩

end LtnTsTools.Psi
