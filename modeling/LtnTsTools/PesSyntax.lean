import LtnTsTools.PesPacket

/-!
# The syntax of PES packets

A PES packet with the optional header as ISO 13818-1 lays it out: the fixed
fields, then every field that a flag announces, in the order of the flags.  The
fields are spelled out as a string of bits, and the parser is followed over such
a string field by field.
-/

namespace LtnTsTools.Pes

open BitReader BitString

/-- What `PES_extension_flag` announces. -/
structure Extension where
  privateData : Option (List UInt8)
  packHeader : Option (List UInt8)
  sequenceCounter : Option ℕ
  pstdBuffer : Option (ℕ × ℕ)
  extensionField : Option (List UInt8)
deriving DecidableEq

/-- The header of a PES packet up to the last field that a flag announces. -/
structure Header where
  packetStartCodePrefix : ℕ
  streamId : ℕ
  pesPacketLength : ℕ
  pesScramblingControl : ℕ
  pesPriority : ℕ
  dataAlignmentIndicator : ℕ
  copyright : ℕ
  originalOrCopy : ℕ
  ptsDtsFlags : ℕ
  pesHeaderDataLength : ℕ
  pts : ℕ
  dts : ℕ
  escr : Option ℕ
  esRate : Option ℕ
  trickMode : Option ℕ
  copyInfo : Option ℕ
  previousCrc : Option ℕ
  extension : Option Extension
deriving DecidableEq

def flagOf {α : Type*} (o : Option α) : ℕ := if o.isSome then 1 else 0

def whenThere {α : Type*} (o : Option α) (bits : α → List Bool) : List Bool := o.elim [] bits

/-- A time stamp: a tag, then three parts with a marker bit behind each. -/
def tsBits (tag t : ℕ) : List Bool :=
  bitsOf 4 tag ++ (bitsOf 3 (t >>> 30) ++ (bitsOf 1 1 ++ (bitsOf 15 (t >>> 15) ++ (bitsOf 1 1 ++
    (bitsOf 15 t ++ bitsOf 1 1)))))

namespace Extension

def flagBits (e : Extension) : List Bool :=
  bitsOf 1 (flagOf e.privateData) ++ (bitsOf 1 (flagOf e.packHeader) ++
    (bitsOf 1 (flagOf e.sequenceCounter) ++ (bitsOf 1 (flagOf e.pstdBuffer) ++
      (bitsOf 3 7 ++ bitsOf 1 (flagOf e.extensionField)))))

def packHeaderBits (d : List UInt8) : List Bool := bitsOf 8 d.length ++ bytesToBits d

def pstdBits (b : ℕ × ℕ) : List Bool := bitsOf 2 1 ++ (bitsOf 1 b.1 ++ bitsOf 13 b.2)

def extensionFieldBits (d : List UInt8) : List Bool :=
  bitsOf 1 1 ++ (bitsOf 7 d.length ++ bytesToBits d)

def bits (e : Extension) : List Bool :=
  e.flagBits ++ (whenThere e.privateData bytesToBits ++ (whenThere e.packHeader packHeaderBits ++
    (whenThere e.sequenceCounter (bitsOf 16) ++ (whenThere e.pstdBuffer pstdBits ++
      whenThere e.extensionField extensionFieldBits))))

structure InRange (e : Extension) : Prop where
  privateData : ∀ d ∈ e.privateData, d.length = 16
  packHeader : ∀ d ∈ e.packHeader, d.length < 2 ^ 8
  pstdScale : ∀ b ∈ e.pstdBuffer, b.1 < 2 ^ 1
  pstdSize : ∀ b ∈ e.pstdBuffer, b.2 < 2 ^ 13
  extensionField : ∀ d ∈ e.extensionField, d.length < 2 ^ 7

end Extension

namespace Header

def startBits (h : Header) : List Bool :=
  bitsOf 24 h.packetStartCodePrefix ++ (bitsOf 8 h.streamId ++ bitsOf 16 h.pesPacketLength)

def flagBits (h : Header) : List Bool :=
  bitsOf 2 2 ++ (bitsOf 2 h.pesScramblingControl ++ (bitsOf 1 h.pesPriority ++
    (bitsOf 1 h.dataAlignmentIndicator ++ (bitsOf 1 h.copyright ++ (bitsOf 1 h.originalOrCopy ++
      (bitsOf 2 h.ptsDtsFlags ++ (bitsOf 1 (flagOf h.escr) ++ (bitsOf 1 (flagOf h.esRate) ++
        (bitsOf 1 (flagOf h.trickMode) ++ (bitsOf 1 (flagOf h.copyInfo) ++
          (bitsOf 1 (flagOf h.previousCrc) ++ bitsOf 1 (flagOf h.extension))))))))))))

def timestampBits (h : Header) : List Bool :=
  if h.ptsDtsFlags = 2 then tsBits 2 h.pts
  else if h.ptsDtsFlags = 3 then tsBits 3 h.pts ++ tsBits 1 h.dts
  else []

def esRateBits (rate : ℕ) : List Bool := bitsOf 1 1 ++ (bitsOf 22 rate ++ bitsOf 1 1)

def copyInfoBits (info : ℕ) : List Bool := bitsOf 1 1 ++ bitsOf 7 info

def fieldBits (h : Header) : List Bool :=
  h.timestampBits ++ (whenThere h.escr (bitsOf 48) ++ (whenThere h.esRate esRateBits ++
    (whenThere h.trickMode (bitsOf 8) ++ (whenThere h.copyInfo copyInfoBits ++
      whenThere h.previousCrc (bitsOf 16)))))

def optionalBits (h : Header) : List Bool := h.fieldBits ++ whenThere h.extension Extension.bits

def bits (h : Header) : List Bool :=
  h.startBits ++ (h.flagBits ++ (bitsOf 8 h.pesHeaderDataLength ++ h.optionalBits))

structure InRange (h : Header) : Prop where
  packetStartCodePrefix : h.packetStartCodePrefix < 2 ^ 24
  streamId : h.streamId < 2 ^ 8
  pesPacketLength : h.pesPacketLength < 2 ^ 16
  pesScramblingControl : h.pesScramblingControl < 2 ^ 2
  pesPriority : h.pesPriority < 2 ^ 1
  dataAlignmentIndicator : h.dataAlignmentIndicator < 2 ^ 1
  copyright : h.copyright < 2 ^ 1
  originalOrCopy : h.originalOrCopy < 2 ^ 1
  ptsDtsFlags : h.ptsDtsFlags < 2 ^ 2
  pesHeaderDataLength : h.pesHeaderDataLength < 2 ^ 8
  pts : h.pts < 2 ^ 33
  dts : h.dts < 2 ^ 33
  esRate : ∀ v ∈ h.esRate, v < 2 ^ 22
  copyInfo : ∀ v ∈ h.copyInfo, v < 2 ^ 7
  previousCrc : ∀ v ∈ h.previousCrc, v < 2 ^ 16
  extension : ∀ e ∈ h.extension, e.InRange

end Header

theorem flagOf_lt {α : Type*} (o : Option α) : flagOf o < 2 ^ 1 := by
  cases o <;> simp [flagOf]

theorem flagOf_ne_zero_iff {α : Type*} {o : Option α} : flagOf o ≠ 0 ↔ o.isSome = true := by
  cases o <;> simp [flagOf]

theorem flagOf_eq_one_iff {α : Type*} {o : Option α} : flagOf o = 1 ↔ o.isSome = true := by
  cases o <;> simp [flagOf]

/-! ## The parser over a string of bits -/

/-- The parser with a string of bits before it, a packet so far and a count. -/
structure Parsing (st : ParseState) (buf : List UInt8) (rest : List Bool) (pkt : PesPacket)
    (bits : ℕ) : Prop where
  faces : Faces st.bs buf rest
  pkt_eq : st.pkt = pkt
  bits_eq : st.bits = bits

section Stages

variable {st : ParseState} {buf : List UInt8} {rest : List Bool} {pkt : PesPacket} {bits n v : ℕ}

theorem Parsing.field (h : Parsing st buf (bitsOf n v ++ rest) pkt bits) (hv : v < 2 ^ n)
    (set : PesPacket → ℕ → PesPacket) : Parsing (st.field n set) buf rest (set pkt v) bits :=
  ⟨h.faces.next, by rw [pkt_field, h.faces.value hv, h.pkt_eq], h.bits_eq⟩

theorem Parsing.skip {chunk : List Bool} (h : Parsing st buf (chunk ++ rest) pkt bits)
    (hn : chunk.length = n) : Parsing (st.skip n) buf rest pkt bits :=
  ⟨h.faces.skip hn, h.pkt_eq, h.bits_eq⟩

theorem Parsing.count (h : Parsing st buf rest pkt bits) (n : ℕ) :
    Parsing (st.count n) buf rest pkt (bits + n) :=
  ⟨h.faces, h.pkt_eq, by rw [bits_count, h.bits_eq]⟩

theorem Parsing.skipBytes {bytes : List UInt8}
    (h : Parsing st buf (bytesToBits bytes ++ rest) pkt bits) :
    Parsing (skipBytes st bytes.length) buf rest pkt (bits + 8 * bytes.length) :=
  ⟨h.faces.readBytes, h.pkt_eq, by rw [Pes.skipBytes, bits_count, h.bits_eq]⟩

/-- Start code, stream id and the length, cut to the bytes behind it. -/
theorem Parsing.start {h : Header} (hp : Parsing st buf (h.startBits ++ rest) pkt bits)
    (hr : h.InRange) (hrest : rest.length % 8 = 0) (hlen : buf.length < 2 ^ 32) :
    Parsing (parseStart st) buf rest { pkt with
      packetStartCodePrefix := h.packetStartCodePrefix
      streamId := h.streamId
      pesPacketLength := min h.pesPacketLength (rest.length / 8) } bits := by
  rw [Header.startBits, List.append_assoc, List.append_assoc] at hp
  have h1 := hp.field hr.packetStartCodePrefix fun p v ↦ { p with packetStartCodePrefix := v }
  have h2 := h1.field hr.streamId fun p v ↦ { p with streamId := v }
  have h3 := h2.field hr.pesPacketLength fun p v ↦ { p with pesPacketLength := v }
  have hfree := h3.faces.byteCountFree hrest hlen
  unfold parseStart
  simp only [hfree, h3.pkt_eq]
  split_ifs with hcut
  · refine ⟨h3.faces, ?_, h3.bits_eq⟩
    rw [Nat.min_eq_right (by omega)]
  · refine ⟨h3.faces, ?_, h3.bits_eq⟩
    rw [h3.pkt_eq, Nat.min_eq_left (by omega)]

def Header.storeFlags (h : Header) (pkt : PesPacket) : PesPacket :=
  { pkt with
    pesScramblingControl := h.pesScramblingControl
    pesPriority := h.pesPriority
    dataAlignmentIndicator := h.dataAlignmentIndicator
    copyright := h.copyright
    originalOrCopy := h.originalOrCopy
    ptsDtsFlags := h.ptsDtsFlags
    escrFlag := flagOf h.escr
    esRateFlag := flagOf h.esRate
    dsmTrickModeFlag := flagOf h.trickMode
    additionalCopyInfoFlag := flagOf h.copyInfo
    pesCrcFlag := flagOf h.previousCrc
    pesExtensionFlag := flagOf h.extension }

theorem Parsing.flags {h : Header} (hp : Parsing st buf (h.flagBits ++ rest) pkt bits)
    (hr : h.InRange) : Parsing (parseFlags st) buf rest (h.storeFlags pkt) bits := by
  have h0 := hp.faces
  simp only [Header.flagBits, List.append_assoc] at h0
  have h1 := h0.next
  have h2 := h1.next
  have h3 := h2.next
  have h4 := h3.next
  have h5 := h4.next
  have h6 := h5.next
  have h7 := h6.next
  have h8 := h7.next
  have h9 := h8.next
  have h10 := h9.next
  have h11 := h10.next
  have h12 := h11.next
  refine ⟨h12.next, ?_, hp.bits_eq⟩
  simp only [parseFlags, Header.storeFlags, hp.pkt_eq, h1.value hr.pesScramblingControl,
    h2.value hr.pesPriority, h3.value hr.dataAlignmentIndicator, h4.value hr.copyright,
    h5.value hr.originalOrCopy, h6.value hr.ptsDtsFlags, h7.value (flagOf_lt _),
    h8.value (flagOf_lt _), h9.value (flagOf_lt _), h10.value (flagOf_lt _),
    h11.value (flagOf_lt _), h12.value (flagOf_lt _)]

/-- Three parts of a time stamp put together. -/
theorem ts_parts (t : ℕ) :
    (t >>> 30) <<< 30 ||| (t >>> 15 % 2 ^ 15) <<< 15 ||| t % 2 ^ 15 = t := by
  have hmid : t >>> 15 % 2 ^ 15 < 2 ^ 15 := Nat.mod_lt _ (by norm_num)
  have hlow : t % 2 ^ 15 < 2 ^ 15 := Nat.mod_lt _ (by norm_num)
  have hhigh : (t >>> 30) <<< 30 ||| (t >>> 15 % 2 ^ 15) <<< 15 =
      ((t >>> 30) <<< 15 + t >>> 15 % 2 ^ 15) <<< 15 := by
    rw [Nat.shiftLeft_add_eq_or_of_lt hmid, Nat.shiftLeft_or_distrib, ← Nat.shiftLeft_add]
  rw [hhigh, ← Nat.shiftLeft_add_eq_or_of_lt hlow]
  simp only [Nat.shiftLeft_eq, Nat.shiftRight_eq_div_pow]
  omega

/-- The marker bits are there, so the time stamp is read to its end. -/
theorem Parsing.ts {tag t : ℕ} (hp : Parsing st buf (tsBits tag t ++ rest) pkt bits)
    (ht : t < 2 ^ 33) (set : PesPacket → ℤ → PesPacket) :
    Parsing (parseTs st set) buf rest (set pkt t) (bits + 40) := by
  have h0 := hp.faces
  simp only [tsBits, List.append_assoc] at h0
  have h1 := h0.next
  have h2 := h1.next
  have h3 := h2.next
  have h4 := h3.next
  have h5 := h4.next
  have h6 := h5.next
  have hone : 1 < 2 ^ 1 := by norm_num
  have hhigh : t >>> 30 < 2 ^ 3 := by
    rw [Nat.shiftRight_eq_div_pow]
    omega
  have hread : read33bitTs (klbsReadBits st.bs 4).2 = ((t : ℤ), (klbsReadBits (klbsReadBits
      (klbsReadBits (klbsReadBits (klbsReadBits (klbsReadBits (klbsReadBits st.bs 4).2 3).2 1).2
        15).2 1).2 15).2 1).2) := by
    unfold read33bitTs
    simp only [h2.value hone, h4.value hone, h6.value hone, ne_eq, not_true_eq_false, if_false,
      h1.value hhigh, h3.value_mod, h5.value_mod, ts_parts]
  refine ⟨?_, ?_, ?_⟩
  · simp only [parseTs, bs_skip, hread, bs_count]
    exact h6.next
  · simp only [parseTs, bs_skip, hread, pkt_count, pkt_skip, hp.pkt_eq]
  · simp only [parseTs, bits_count, bits_skip, hp.bits_eq]

def Header.storeTimestamps (h : Header) (pkt : PesPacket) : PesPacket :=
  { pkt with
    pts := if h.ptsDtsFlags = 2 ∨ h.ptsDtsFlags = 3 then h.pts else pkt.pts
    dts := if h.ptsDtsFlags = 3 then h.dts else pkt.dts }

theorem length_tsBits (tag t : ℕ) : (tsBits tag t).length = 40 := by
  simp [tsBits]

theorem Parsing.timestamps {h : Header}
    (hp : Parsing st buf (h.timestampBits ++ rest) pkt bits) (hr : h.InRange)
    (hflags : pkt.ptsDtsFlags = h.ptsDtsFlags) :
    Parsing (parseTimestamps st) buf rest (h.storeTimestamps pkt)
      (bits + h.timestampBits.length) := by
  unfold parseTimestamps
  unfold Header.timestampBits at hp ⊢
  rw [hp.pkt_eq, hflags]
  split_ifs at hp ⊢ with h2 h3
  · have hpts := hp.ts hr.pts fun p v ↦ { p with pts := v }
    rw [length_tsBits]
    refine ⟨hpts.faces, hpts.pkt_eq.trans ?_, hpts.bits_eq⟩
    simp [Header.storeTimestamps, h2]
  · rw [List.append_assoc] at hp
    have hpts := hp.ts hr.pts fun p v ↦ { p with pts := v }
    have hdts := hpts.ts hr.dts fun p v ↦ { p with dts := v }
    rw [List.length_append, length_tsBits, length_tsBits, ← Nat.add_assoc]
    refine ⟨hdts.faces, hdts.pkt_eq.trans ?_, hdts.bits_eq⟩
    simp [Header.storeTimestamps, h3]
  · refine ⟨hp.faces, hp.pkt_eq.trans ?_, hp.bits_eq⟩
    simp [Header.storeTimestamps, h2, h3]

/-- A part of `n` bits that is read exactly if it is there. -/
theorem Parsing.optional {α : Type*} {o : Option α} {part : α → List Bool} {c : Prop}
    [Decidable c] {st' : ParseState} {pkt' : PesPacket}
    (hp : Parsing st buf (whenThere o part ++ rest) pkt bits) (hc : c ↔ o.isSome = true)
    (hlength : ∀ v, (part v).length = n) (hnone : o = none → pkt' = pkt)
    (hsome : ∀ v ∈ o, Parsing st buf (part v ++ rest) pkt bits →
      Parsing st' buf rest pkt' (bits + n)) :
    Parsing (if c then st' else st) buf rest pkt' (bits + (whenThere o part).length) := by
  cases o with
  | none =>
      rw [if_neg (by simp [hc]), hnone rfl]
      exact hp
  | some v =>
      have hv := hsome v rfl hp
      rw [if_pos (by simp [hc])]
      rwa [← hlength v] at hv

theorem Parsing.escr {o : Option ℕ} (hp : Parsing st buf (whenThere o (bitsOf 48) ++ rest) pkt bits)
    (hflag : pkt.escrFlag = flagOf o) :
    Parsing (parseEscr st) buf rest pkt (bits + (whenThere o (bitsOf 48)).length) := by
  have hset : st.pkt.escrFlag ≠ 0 ↔ o.isSome = true := by
    rw [hp.pkt_eq, hflag, flagOf_ne_zero_iff]
  exact hp.optional hset (length_bitsOf 48) (fun _ ↦ rfl) fun v _ h ↦
    (h.skip (length_bitsOf 48 v)).count 48

/-- The rate takes the place of its flag. -/
theorem Parsing.esRate {o : Option ℕ}
    (hp : Parsing st buf (whenThere o Header.esRateBits ++ rest) pkt bits)
    (hflag : pkt.esRateFlag = flagOf o) (hr : ∀ v ∈ o, v < 2 ^ 22) :
    Parsing (parseEsRate st) buf rest { pkt with esRateFlag := o.getD 0 }
      (bits + (whenThere o Header.esRateBits).length) := by
  have hset : st.pkt.esRateFlag ≠ 0 ↔ o.isSome = true := by
    rw [hp.pkt_eq, hflag, flagOf_ne_zero_iff]
  have hlength : ∀ v, (Header.esRateBits v).length = 24 := fun v ↦ by simp [Header.esRateBits]
  refine hp.optional hset hlength ?_ fun v hv h ↦ ?_
  · rintro rfl
    cases pkt
    simp_all [flagOf]
  · obtain rfl := Option.mem_def.mp hv
    simp only [Header.esRateBits, List.append_assoc] at h
    have hrate := (h.skip (length_bitsOf 1 1)).field (hr v rfl)
      fun p v ↦ { p with esRateFlag := v }
    exact (hrate.skip (length_bitsOf 1 1)).count 24

theorem Parsing.trickMode {o : Option ℕ}
    (hp : Parsing st buf (whenThere o (bitsOf 8) ++ rest) pkt bits)
    (hflag : pkt.dsmTrickModeFlag = flagOf o) :
    Parsing (parseTrickMode st) buf rest pkt (bits + (whenThere o (bitsOf 8)).length) := by
  have hset : st.pkt.dsmTrickModeFlag ≠ 0 ↔ o.isSome = true := by
    rw [hp.pkt_eq, hflag, flagOf_ne_zero_iff]
  exact hp.optional hset (length_bitsOf 8) (fun _ ↦ rfl) fun v _ h ↦
    (h.skip (length_bitsOf 8 v)).count 8

theorem Parsing.copyInfo {o : Option ℕ}
    (hp : Parsing st buf (whenThere o Header.copyInfoBits ++ rest) pkt bits)
    (hflag : pkt.additionalCopyInfoFlag = flagOf o) (hr : ∀ v ∈ o, v < 2 ^ 7) :
    Parsing (parseCopyInfo st) buf rest
      { pkt with additionalCopyInfo := o.getD pkt.additionalCopyInfo }
      (bits + (whenThere o Header.copyInfoBits).length) := by
  have hset : st.pkt.additionalCopyInfoFlag ≠ 0 ↔ o.isSome = true := by
    rw [hp.pkt_eq, hflag, flagOf_ne_zero_iff]
  have hlength : ∀ v, (Header.copyInfoBits v).length = 8 := fun v ↦ by simp [Header.copyInfoBits]
  refine hp.optional hset hlength ?_ fun v hv h ↦ ?_
  · rintro rfl
    rfl
  · obtain rfl := Option.mem_def.mp hv
    simp only [Header.copyInfoBits, List.append_assoc] at h
    exact ((h.skip (length_bitsOf 1 1)).field (hr v rfl)
      fun p v ↦ { p with additionalCopyInfo := v }).count 8

theorem Parsing.crc {o : Option ℕ}
    (hp : Parsing st buf (whenThere o (bitsOf 16) ++ rest) pkt bits)
    (hflag : pkt.pesCrcFlag = flagOf o) (hr : ∀ v ∈ o, v < 2 ^ 16) :
    Parsing (parseCrc st) buf rest
      { pkt with previousPesPacketCrc := o.getD pkt.previousPesPacketCrc }
      (bits + (whenThere o (bitsOf 16)).length) := by
  have hset : st.pkt.pesCrcFlag ≠ 0 ↔ o.isSome = true := by
    rw [hp.pkt_eq, hflag, flagOf_ne_zero_iff]
  refine hp.optional hset (length_bitsOf 16) ?_ fun v hv h ↦ ?_
  · rintro rfl
    rfl
  · obtain rfl := Option.mem_def.mp hv
    exact (h.field (hr v rfl) fun p v ↦ { p with previousPesPacketCrc := v }).count 16

theorem Parsing.skip_drop {all : List Bool} (h : Parsing st buf all pkt bits)
    (hn : n ≤ all.length) : Parsing (st.skip n) buf (all.drop n) pkt bits := by
  rw [← List.take_append_drop n all] at h
  exact h.skip (List.length_take_of_le hn)

theorem Parsing.free (hp : Parsing st buf rest pkt bits) (hrest : rest.length % 8 = 0)
    (hlen : buf.length < 2 ^ 32) : klbsGetByteCountFree st.bs = rest.length / 8 :=
  hp.faces.byteCountFree hrest hlen

/-- The free bytes of a buffer whose length is an `int`. -/
theorem Parsing.free_int (hp : Parsing st buf rest pkt bits) (hrest : rest.length % 8 = 0)
    (hlen : buf.length < 2 ^ 31) : byteCountFree st.bs = rest.length / 8 := by
  have hfree := hp.free hrest (by omega)
  obtain ⟨pos, -, -, hpos⟩ := hp.faces
  rw [byteCountFree, if_pos (by omega), hfree]

theorem Parsing.privateData {o : Option (List UInt8)}
    (hp : Parsing st buf (whenThere o bytesToBits ++ rest) pkt bits)
    (hflag : pkt.pesPrivateDataFlag = flagOf o) (hr : ∀ d ∈ o, d.length = 16)
    (hrest : rest.length % 8 = 0) (hlen : buf.length < 2 ^ 32) :
    ∃ st', parsePrivateData st = .ok st' ∧
      Parsing st' buf rest pkt (bits + (whenThere o bytesToBits).length) := by
  unfold parsePrivateData
  rw [hp.pkt_eq, hflag]
  cases o with
  | none => exact ⟨st, rfl, hp⟩
  | some d =>
      have hd : (bytesToBits d).length = 128 := by rw [length_bytesToBits, hr d rfl]
      simp only [whenThere, Option.elim_some] at hp
      have hall : (bytesToBits d ++ rest).length = 128 + rest.length := by
        rw [List.length_append, hd]
      have hfree : ¬klbsGetByteCountFree st.bs < 16 := by
        rw [hp.free (by omega) hlen]
        omega
      have h1 := hp.skip_drop (show 32 ≤ _ by omega)
      have h2 := h1.skip_drop (show 32 ≤ _ by rw [List.length_drop]; omega)
      have h3 := h2.skip_drop (show 32 ≤ _ by rw [List.length_drop, List.length_drop]; omega)
      have h4 := h3.skip_drop (show 32 ≤ _ by
        rw [List.length_drop, List.length_drop, List.length_drop]
        omega)
      rw [List.drop_drop, List.drop_drop, List.drop_drop,
        show 32 + 32 + 32 + 32 = (bytesToBits d).length by rw [hd], List.drop_left] at h4
      rw [if_pos (by simp [flagOf]), if_neg hfree]
      refine ⟨_, rfl, ?_⟩
      simp only [whenThere, Option.elim_some, hd]
      exact h4.count 128

theorem Parsing.packHeader {o : Option (List UInt8)}
    (hp : Parsing st buf (whenThere o Extension.packHeaderBits ++ rest) pkt bits)
    (hflag : pkt.packHeaderFieldFlag = flagOf o) (hr : ∀ d ∈ o, d.length < 2 ^ 8)
    (hrest : rest.length % 8 = 0) (hlen : buf.length < 2 ^ 32) :
    ∃ st', parsePackHeader st = .ok st' ∧
      Parsing st' buf rest pkt (bits + (whenThere o Extension.packHeaderBits).length) := by
  unfold parsePackHeader
  rw [hp.pkt_eq, hflag]
  cases o with
  | none => exact ⟨st, rfl, hp⟩
  | some d =>
      simp only [whenThere, Option.elim_some, Extension.packHeaderBits, List.append_assoc] at hp
      have hvalue := hp.faces.value (hr d rfl)
      have h1 := (hp.skip (length_bitsOf 8 d.length)).count 8
      have hfree := h1.free (by rw [List.length_append, length_bytesToBits]; omega) hlen
      rw [List.length_append, length_bytesToBits] at hfree
      rw [if_pos (by simp [flagOf])]
      simp only [hvalue]
      rw [if_neg (by omega)]
      refine ⟨_, rfl, ?_⟩
      simp only [whenThere, Option.elim_some, Extension.packHeaderBits, List.length_append,
        length_bitsOf, length_bytesToBits, ← Nat.add_assoc]
      exact h1.skipBytes

theorem Parsing.sequenceCounter {o : Option ℕ}
    (hp : Parsing st buf (whenThere o (bitsOf 16) ++ rest) pkt bits)
    (hflag : pkt.programPacketSequenceCounterFlag = flagOf o) :
    Parsing (parseSequenceCounter st) buf rest pkt (bits + (whenThere o (bitsOf 16)).length) := by
  have hset : st.pkt.programPacketSequenceCounterFlag = 1 ↔ o.isSome = true := by
    rw [hp.pkt_eq, hflag, flagOf_eq_one_iff]
  exact hp.optional hset (length_bitsOf 16) (fun _ ↦ rfl) fun v _ h ↦
    (h.skip (length_bitsOf 16 v)).count 16

theorem Parsing.pstd {o : Option (ℕ × ℕ)}
    (hp : Parsing st buf (whenThere o Extension.pstdBits ++ rest) pkt bits)
    (hflag : pkt.pstdBufferFlag = flagOf o) (hscale : ∀ b ∈ o, b.1 < 2 ^ 1)
    (hsize : ∀ b ∈ o, b.2 < 2 ^ 13) :
    Parsing (parsePstd st) buf rest { pkt with
      pstdBufferScale := (o.map Prod.fst).getD pkt.pstdBufferScale
      pstdBufferSize := (o.map Prod.snd).getD pkt.pstdBufferSize }
      (bits + (whenThere o Extension.pstdBits).length) := by
  have hset : st.pkt.pstdBufferFlag = 1 ↔ o.isSome = true := by
    rw [hp.pkt_eq, hflag, flagOf_eq_one_iff]
  have hlength : ∀ b, (Extension.pstdBits b).length = 16 := fun b ↦ by simp [Extension.pstdBits]
  refine hp.optional hset hlength ?_ fun b hb h ↦ ?_
  · rintro rfl
    rfl
  · obtain rfl := Option.mem_def.mp hb
    simp only [Extension.pstdBits, List.append_assoc] at h
    have hscaled := (h.skip (length_bitsOf 2 1)).field (hscale b rfl)
      fun p v ↦ { p with pstdBufferScale := v }
    exact (hscaled.field (hsize b rfl) fun p v ↦ { p with pstdBufferSize := v }).count 16

theorem Parsing.extension2 {o : Option (List UInt8)}
    (hp : Parsing st buf (whenThere o Extension.extensionFieldBits ++ rest) pkt bits)
    (hflag : pkt.pesExtensionFlag2 = flagOf o) (hr : ∀ d ∈ o, d.length < 2 ^ 7)
    (hrest : rest.length % 8 = 0) (hlen : buf.length < 2 ^ 31) :
    Parsing (parseExtension2 st) buf rest { pkt with
      pesExtensionFieldLength := (o.map List.length).getD pkt.pesExtensionFieldLength }
      (bits + (whenThere o Extension.extensionFieldBits).length) := by
  unfold parseExtension2
  rw [show st.pkt.pesExtensionFlag2 = flagOf o by rw [hp.pkt_eq, hflag]]
  cases o with
  | none => exact hp
  | some d =>
      simp only [whenThere, Option.elim_some, Extension.extensionFieldBits,
        List.append_assoc] at hp
      have h1 := ((hp.skip (length_bitsOf 1 1)).field (hr d rfl)
        fun p v ↦ { p with pesExtensionFieldLength := v }).count 8
      have hfree := h1.free_int (by rw [List.length_append, length_bytesToBits]; omega) hlen
      rw [List.length_append, length_bytesToBits] at hfree
      have hlength : (((st.skip 1).field 7 fun p v ↦
          { p with pesExtensionFieldLength := v }).count 8).pkt.pesExtensionFieldLength =
          d.length := by
        rw [h1.pkt_eq]
      rw [if_pos (by simp [flagOf])]
      simp only [hlength, hfree]
      rw [if_neg (by omega), hlength]
      simp only [whenThere, Option.elim_some, Extension.extensionFieldBits, List.length_append,
        length_bitsOf, length_bytesToBits]
      rw [show bits + (1 + (7 + 8 * d.length)) = bits + 8 + 8 * d.length by omega]
      exact h1.skipBytes

def Extension.store (e : Extension) (pkt : PesPacket) : PesPacket :=
  { pkt with
    pesPrivateDataFlag := flagOf e.privateData
    packHeaderFieldFlag := flagOf e.packHeader
    programPacketSequenceCounterFlag := flagOf e.sequenceCounter
    pstdBufferFlag := flagOf e.pstdBuffer
    pesExtensionFlag2 := flagOf e.extensionField
    pstdBufferScale := (e.pstdBuffer.map Prod.fst).getD pkt.pstdBufferScale
    pstdBufferSize := (e.pstdBuffer.map Prod.snd).getD pkt.pstdBufferSize
    pesExtensionFieldLength :=
      (e.extensionField.map List.length).getD pkt.pesExtensionFieldLength }

theorem length_whenThere {α : Type*} {o : Option α} {f : α → List Bool}
    (hf : ∀ x ∈ o, (f x).length % 8 = 0) : (whenThere o f).length % 8 = 0 := by
  cases o with
  | none => rfl
  | some x => exact hf x rfl

/-- Every field of the extension ends on a byte boundary. -/
theorem Extension.length_fields (e : Extension) :
    (whenThere e.privateData bytesToBits).length % 8 = 0 ∧
      (whenThere e.packHeader packHeaderBits).length % 8 = 0 ∧
      (whenThere e.sequenceCounter (bitsOf 16)).length % 8 = 0 ∧
      (whenThere e.pstdBuffer pstdBits).length % 8 = 0 ∧
      (whenThere e.extensionField extensionFieldBits).length % 8 = 0 := by
  refine ⟨length_whenThere fun d _ ↦ ?_, length_whenThere fun d _ ↦ ?_,
    length_whenThere fun v _ ↦ ?_, length_whenThere fun b _ ↦ ?_, length_whenThere fun d _ ↦ ?_⟩
  · rw [length_bytesToBits]
    omega
  · rw [packHeaderBits, List.length_append, length_bitsOf, length_bytesToBits]
    omega
  · rw [length_bitsOf]
  · simp [pstdBits]
  · rw [extensionFieldBits, List.length_append, List.length_append, length_bitsOf, length_bitsOf,
      length_bytesToBits]
    omega

def Extension.storeFlags (e : Extension) (pkt : PesPacket) : PesPacket :=
  { pkt with
    pesPrivateDataFlag := flagOf e.privateData
    packHeaderFieldFlag := flagOf e.packHeader
    programPacketSequenceCounterFlag := flagOf e.sequenceCounter
    pstdBufferFlag := flagOf e.pstdBuffer
    pesExtensionFlag2 := flagOf e.extensionField }

/-- The flags of the extension and the private data. -/
theorem Parsing.extensionFlags {e : Extension}
    (hp : Parsing st buf (e.flagBits ++ (whenThere e.privateData bytesToBits ++ rest)) pkt bits)
    (hflag : pkt.pesExtensionFlag = 1) (hr : e.InRange) (hrest : rest.length % 8 = 0)
    (hlen : buf.length < 2 ^ 32) :
    ∃ st', parseExtension st = (parsePackHeader st').map (fun st ↦
        parseExtension2 (parsePstd (parseSequenceCounter st))) ∧
      Parsing st' buf rest (e.storeFlags pkt)
        (bits + 8 + (whenThere e.privateData bytesToBits).length) := by
  simp only [Extension.flagBits, List.append_assoc] at hp
  have h1 := hp.field (flagOf_lt _) fun p v ↦ { p with pesPrivateDataFlag := v }
  have h2 := h1.field (flagOf_lt _) fun p v ↦ { p with packHeaderFieldFlag := v }
  have h3 := h2.field (flagOf_lt _) fun p v ↦ { p with programPacketSequenceCounterFlag := v }
  have h4 := h3.field (flagOf_lt _) fun p v ↦ { p with pstdBufferFlag := v }
  have h5 := h4.skip (length_bitsOf 3 7)
  have h6 := (h5.field (flagOf_lt _) fun p v ↦ { p with pesExtensionFlag2 := v }).count 8
  obtain ⟨st₁, hst₁, h7⟩ := Parsing.privateData h6 rfl hr.privateData hrest hlen
  refine ⟨st₁, ?_, h7⟩
  unfold parseExtension
  rw [show st.pkt.pesExtensionFlag = 1 by rw [hp.pkt_eq, hflag], if_pos (by norm_num)]
  simp only [hst₁, Except.bind]

theorem Parsing.extension {o : Option Extension}
    (hp : Parsing st buf (whenThere o Extension.bits ++ rest) pkt bits)
    (hflag : pkt.pesExtensionFlag = flagOf o) (hr : ∀ e ∈ o, e.InRange)
    (hrest : rest.length % 8 = 0) (hlen : buf.length < 2 ^ 31) :
    ∃ st', parseExtension st = .ok st' ∧
      Parsing st' buf rest (o.elim pkt fun e ↦ e.store pkt)
        (bits + (whenThere o Extension.bits).length) := by
  cases o with
  | none =>
      refine ⟨st, ?_, hp⟩
      rw [parseExtension, show st.pkt.pesExtensionFlag = 0 by rw [hp.pkt_eq, hflag]; rfl,
        if_neg (by norm_num)]
  | some e =>
      have hre := hr e rfl
      obtain ⟨hprivate, hpack, hsequence, hpstd, hfield⟩ := e.length_fields
      simp only [whenThere, Option.elim_some, Extension.bits, List.append_assoc] at hp
      obtain ⟨st₁, hst₁, h1⟩ := Parsing.extensionFlags hp hflag hre
        (by simp only [List.length_append]; unfold whenThere at *; omega) (by omega)
      obtain ⟨st₂, hst₂, h2⟩ := Parsing.packHeader h1 rfl hre.packHeader
        (by simp only [List.length_append]; unfold whenThere at *; omega) (by omega)
      have h3 := Parsing.sequenceCounter h2 rfl
      have h4 := Parsing.pstd h3 rfl hre.pstdScale hre.pstdSize
      have h5 := Parsing.extension2 h4 rfl hre.extensionField hrest hlen
      refine ⟨_, by rw [hst₁, hst₂, Except.map], h5.faces, h5.pkt_eq, ?_⟩
      rw [h5.bits_eq]
      simp only [whenThere, Option.elim_some, Extension.bits, Extension.flagBits,
        List.length_append, length_bitsOf]
      omega

/-- The packet with everything between the length and the extension that the
parser stores. -/
def Header.storeFields (h : Header) (pkt : PesPacket) : PesPacket :=
  let pkt := { h.storeFlags pkt with pesHeaderDataLength := h.pesHeaderDataLength }
  let pkt := { h.storeTimestamps pkt with esRateFlag := h.esRate.getD 0 }
  let pkt := { pkt with additionalCopyInfo := h.copyInfo.getD pkt.additionalCopyInfo }
  { pkt with previousPesPacketCrc := h.previousCrc.getD pkt.previousPesPacketCrc }

/-- The packet with everything behind the length that the parser stores. -/
def Header.store (h : Header) (pkt : PesPacket) : PesPacket :=
  h.extension.elim (h.storeFields pkt) fun e ↦ e.store (h.storeFields pkt)

/-- What the extension does not set. -/
theorem Header.store_apply {α : Type*} (h : Header) (pkt : PesPacket) (get : PesPacket → α)
    (hget : ∀ (e : Extension) p, get (e.store p) = get p) :
    get (h.store pkt) = get (h.storeFields pkt) := by
  unfold Header.store
  cases h.extension with
  | none => rfl
  | some e => exact hget e _

theorem Extension.length_bits (e : Extension) : e.bits.length % 8 = 0 := by
  obtain ⟨h1, h2, h3, h4, h5⟩ := e.length_fields
  simp only [Extension.bits, Extension.flagBits, List.length_append, length_bitsOf]
  omega

theorem Header.length_timestampBits (h : Header) : h.timestampBits.length % 8 = 0 := by
  unfold Header.timestampBits
  split_ifs
  · rw [length_tsBits]
  · rw [List.length_append, length_tsBits, length_tsBits]
  · rfl

theorem Header.length_fieldBits (h : Header) : h.fieldBits.length % 8 = 0 := by
  have h0 := h.length_timestampBits
  have h1 : (whenThere h.escr (bitsOf 48)).length % 8 = 0 := length_whenThere fun v _ ↦ by
    rw [length_bitsOf]
  have h2 : (whenThere h.esRate esRateBits).length % 8 = 0 := length_whenThere fun v _ ↦ by
    simp [esRateBits]
  have h3 : (whenThere h.trickMode (bitsOf 8)).length % 8 = 0 := length_whenThere fun v _ ↦ by
    rw [length_bitsOf]
  have h4 : (whenThere h.copyInfo copyInfoBits).length % 8 = 0 := length_whenThere fun v _ ↦ by
    simp [copyInfoBits]
  have h5 : (whenThere h.previousCrc (bitsOf 16)).length % 8 = 0 := length_whenThere fun v _ ↦ by
    rw [length_bitsOf]
  simp only [Header.fieldBits, List.length_append]
  omega

theorem Header.length_optionalBits (h : Header) : h.optionalBits.length % 8 = 0 := by
  have hfields := h.length_fieldBits
  have hextension : (whenThere h.extension Extension.bits).length % 8 = 0 :=
    length_whenThere fun e _ ↦ e.length_bits
  rw [Header.optionalBits, List.length_append]
  omega

theorem Parsing.fields {h : Header}
    (hp : Parsing st buf (h.flagBits ++ (bitsOf 8 h.pesHeaderDataLength ++
      (h.fieldBits ++ rest))) pkt bits)
    (hr : h.InRange) (hrest : rest.length % 8 = 0) (hlen : buf.length < 2 ^ 32) :
    ∃ st', parseOptionalFields (parseFlags st) = parseExtension st' ∧
      Parsing st' buf rest (h.storeFields pkt) (bits + 72 + h.fieldBits.length) := by
  have hfields := h.length_fieldBits
  have h1 := hp.flags hr
  have hfree : ¬klbsGetByteCountFree (parseFlags st).bs < 1 := by
    rw [h1.free (by simp only [List.length_append, length_bitsOf]; omega) hlen]
    simp only [List.length_append, length_bitsOf]
    omega
  have h2 :=
    (h1.field hr.pesHeaderDataLength fun p v ↦ { p with pesHeaderDataLength := v }).count 72
  simp only [Header.fieldBits, List.append_assoc] at h2
  have h3 := h2.timestamps hr rfl
  have h4 := h3.escr rfl
  have h5 := h4.esRate rfl hr.esRate
  have h6 := h5.trickMode rfl
  have h7 := h6.copyInfo rfl hr.copyInfo
  have h8 := h7.crc rfl hr.previousCrc
  refine ⟨_, ?_, h8.faces, h8.pkt_eq, ?_⟩
  · rw [parseOptionalFields, parseHeaderDataLength, if_neg hfree]
    simp only [Except.bind]
  · rw [h8.bits_eq]
    simp only [Header.fieldBits, List.length_append]
    omega

/-- From the flags to the last field that they announce. -/
theorem Parsing.optionalFields {h : Header}
    (hp : Parsing st buf (h.flagBits ++ (bitsOf 8 h.pesHeaderDataLength ++
      (h.optionalBits ++ rest))) pkt bits)
    (hr : h.InRange) (hrest : rest.length % 8 = 0) (hlen : buf.length < 2 ^ 31) :
    ∃ st', parseOptionalFields (parseFlags st) = .ok st' ∧
      Parsing st' buf rest (h.store pkt) (bits + 72 + h.optionalBits.length) := by
  rw [Header.optionalBits, List.append_assoc] at hp
  have hextension : (whenThere h.extension Extension.bits).length % 8 = 0 :=
    length_whenThere fun e _ ↦ e.length_bits
  obtain ⟨st₁, hst₁, h1⟩ := hp.fields hr (by rw [List.length_append]; omega) (by omega)
  obtain ⟨st₂, hst₂, h2⟩ := h1.extension rfl hr.extension hrest hlen
  refine ⟨st₂, hst₁.trans hst₂, h2.faces, h2.pkt_eq, ?_⟩
  rw [h2.bits_eq, Header.optionalBits, List.length_append]
  omega

def PesPacket.withData (pkt : PesPacket) (n : ℕ) (data : Option (List UInt8)) : PesPacket :=
  { pkt with dataLengthBytes := n, data := data }

/-- What the parser takes as data of the bytes left, when the length is not more
than the bytes there are; the bits of the data are counted in a `uint32_t`. -/
theorem Parsing.data {bytes : List UInt8} {behind : ℕ}
    (hp : Parsing st buf (bytesToBits bytes) pkt (48 + 8 * behind))
    (hlength : pkt.pesPacketLength ≤ behind + bytes.length) (hlen : buf.length < 2 ^ 31)
    (skipData : Bool) :
    let n := if skipData then 0 else
      if behind ≤ pkt.pesPacketLength then pkt.pesPacketLength - behind else bytes.length
    (parseData st skipData).pkt =
        pkt.withData n (if skipData then none else some (bytes.take n)) ∧
      (parseData st skipData).bits = 48 + 8 * behind + 8 * n % 2 ^ 32 ∧
      (parseData st skipData).bs.regUsed = 0 ∧
      (parseData st skipData).bs.buflenUsed + bytes.length = buf.length + n := by
  obtain ⟨hreg, hdrop, hused⟩ := hp.faces.bytes
  cases skipData with
  | true =>
      refine ⟨?_, hp.bits_eq, hreg, hused⟩
      simp only [parseData, if_true, hp.pkt_eq, PesPacket.withData]
  | false =>
      have hmod : (bytesToBits bytes).length % 8 = 0 := by
        rw [length_bytesToBits]
        omega
      have hfree := hp.free hmod (by omega)
      have hint := hp.free_int hmod hlen
      rw [length_bytesToBits, Nat.mul_div_cancel_left _ (by norm_num)] at hfree hint
      have hbehind : (48 + 8 * behind - 48) / 8 = behind := by omega
      have hn : (if behind ≤ pkt.pesPacketLength then pkt.pesPacketLength - behind
          else bytes.length) ≤ bytes.length := by
        split_ifs <;> omega
      simp only [parseData, Bool.false_eq_true, if_false, hp.pkt_eq, hp.bits_eq, hbehind, hint,
        ge_iff_le, gt_iff_lt]
      generalize (if behind ≤ pkt.pesPacketLength then pkt.pesPacketLength - behind
          else bytes.length) = n at hn
      rw [if_neg (by omega), Nat.min_eq_left hn, takeData, if_pos ⟨hreg, hfree ▸ hn⟩]
      refine ⟨by simp only [pkt_count, hdrop, PesPacket.withData], ?_, hreg, ?_⟩
      · simp only [bits_count]
        omega
      · simp only [bs_count]
        omega

end Stages

/-- Bytes of the header behind `PES_packet_length`. -/
def Header.behind (h : Header) : ℕ := 3 + h.optionalBits.length / 8

/-- How many of `n` bytes behind the header the length declares to be data; a
length that ends in the header declares them all. -/
def Header.declared (h : Header) (n : ℕ) : ℕ :=
  if h.behind ≤ h.pesPacketLength then min (h.pesPacketLength - h.behind) n else n

theorem Header.length_bits (h : Header) : h.bits.length = 8 * (6 + h.behind) := by
  have hoptional := h.length_optionalBits
  simp only [Header.bits, Header.behind, Header.startBits, Header.flagBits, List.length_append,
    length_bitsOf]
  omega

/-- The parser clamps the length to the bytes there are, which declares the same
data. -/
theorem Header.declared_clamped (h : Header) (n : ℕ) :
    (if h.behind ≤ min h.pesPacketLength (h.behind + n) then
      min h.pesPacketLength (h.behind + n) - h.behind else n) = h.declared n := by
  unfold Header.declared
  split_ifs <;> omega

theorem length_of_spelled {buf rest : List UInt8} {h : Header}
    (hbuf : bytesToBits buf = h.bits ++ bytesToBits rest) :
    buf.length = 6 + h.behind + rest.length := by
  have hbits := congrArg List.length hbuf
  rw [length_bytesToBits, List.length_append, h.length_bits, length_bytesToBits] at hbits
  omega

theorem parsing_spelled {buf rest : List UInt8} {h : Header}
    (hbuf : bytesToBits buf = h.bits ++ bytesToBits rest) (pkt : PesPacket) :
    Parsing ⟨pkt, klbsReadSetBuffer buf, 0⟩ buf (h.startBits ++ (h.flagBits ++
      (bitsOf 8 h.pesHeaderDataLength ++ (h.optionalBits ++ bytesToBits rest)))) pkt 0 := by
  have hfaces := faces_start buf
  rw [hbuf] at hfaces
  refine ⟨?_, rfl, rfl⟩
  simpa only [Header.bits, List.append_assoc] using hfaces

/-- The parser on a buffer that spells a header and the bytes behind it: every
field is stored, the declared bytes are the data, and the bits of the header and
of the data are those that are read, and counted as far as a `uint32_t` goes. -/
theorem parse_spelled {buf rest : List UInt8} {h : Header}
    (hbuf : bytesToBits buf = h.bits ++ bytesToBits rest) (hr : h.InRange)
    (hid : hasOptionalHeader h.streamId = true) (hlen : buf.length < 2 ^ 31) (pkt : PesPacket)
    (skipData : Bool) :
    let n := if skipData then 0 else h.declared rest.length
    let st := pesPacketParse pkt (klbsReadSetBuffer buf) skipData
    st.pkt = (h.store { pkt with
          skipPayloadParsing := skipData
          packetStartCodePrefix := h.packetStartCodePrefix
          streamId := h.streamId
          pesPacketLength := min h.pesPacketLength (h.behind + rest.length) }).withData n
        (if skipData then none else some (rest.take n)) ∧
      st.bits = 8 * (6 + h.behind) + 8 * n % 2 ^ 32 ∧ st.bs.regUsed = 0 ∧
      st.bs.buflenUsed = 6 + h.behind + n := by
  have hoptional := h.length_optionalBits
  have hsize := length_of_spelled hbuf
  have hfree : ¬klbsGetByteCountFree (klbsReadSetBuffer buf) < 8 := by
    rw [byteCountFree_start (by omega)]
    unfold Header.behind at hsize
    omega
  have hstart := parsing_spelled hbuf { pkt with skipPayloadParsing := skipData }
  have hrest : (bytesToBits rest).length % 8 = 0 := by
    rw [length_bytesToBits]
    omega
  have hbehind : (h.flagBits ++ (bitsOf 8 h.pesHeaderDataLength ++ (h.optionalBits ++
      bytesToBits rest))).length = 8 * (h.behind + rest.length) := by
    simp only [Header.flagBits, Header.behind, List.length_append, length_bitsOf,
      length_bytesToBits]
    omega
  have h1 := hstart.start hr (by omega) (by omega)
  rw [hbehind, Nat.mul_div_cancel_left _ (by norm_num)] at h1
  obtain ⟨st₁, hst₁, h2⟩ := h1.optionalFields hr hrest hlen
  rw [show 0 + 72 + h.optionalBits.length = 48 + 8 * h.behind by
    unfold Header.behind
    omega] at h2
  have hlength : ∀ p : PesPacket, (h.store p).pesPacketLength = p.pesPacketLength :=
    fun p ↦ h.store_apply p PesPacket.pesPacketLength fun _ _ ↦ rfl
  obtain ⟨hpkt, hbits, hreg, hused⟩ := h2.data (by rw [hlength]; exact Nat.min_le_right _ _) hlen
    skipData
  simp only [hlength, h.declared_clamped] at hpkt hbits hused
  have hparse : pesPacketParse pkt (klbsReadSetBuffer buf) skipData = parseData st₁ skipData := by
    rw [pesPacketParse, if_neg hfree]
    simp only [h1.pkt_eq, hid, if_true, hst₁, Except.map, stopped]
  simp only [hparse]
  refine ⟨hpkt, ?_, hreg, ?_⟩
  · rw [hbits]
    ring
  · omega

/-! ## Conformance -/

/-- A PES packet as the standard lays it out: a header with fields of their
widths, stuffing bytes up to `PES_header_data_length`, and the payload; the packet
length is zero or counts the bytes behind it. -/
structure IsoPacket where
  header : Header
  stuffing : ℕ
  payload : List UInt8
  inRange : header.InRange
  start_code : header.packetStartCodePrefix = 1
  optional_header : hasOptionalHeader header.streamId = true
  allowed_flags : header.ptsDtsFlags ≠ 1
  header_length : header.pesHeaderDataLength = header.optionalBits.length / 8 + stuffing
  packet_length : header.pesPacketLength = 0 ∨
    header.pesPacketLength = 3 + header.pesHeaderDataLength + payload.length

def IsoPacket.bits (p : IsoPacket) : List Bool :=
  p.header.bits ++ bytesToBits (List.replicate p.stuffing 0xFF ++ p.payload)

/-- What a parser that follows the layout leaves in the packet: each field that
is there with its value, each flag as it is spelled, and as data the bytes from
offset `9 + PES_header_data_length` to the end, with their number. -/
structure FollowsLayout (h : Header) (buf : List UInt8) (skipData : Bool) (out : PesPacket) :
    Prop where
  pts : h.ptsDtsFlags = 2 ∨ h.ptsDtsFlags = 3 → out.pts = h.pts
  dts : h.ptsDtsFlags = 3 → out.dts = h.dts
  esRate : ∀ v ∈ h.esRate, out.esRate = v
  copyInfo : ∀ v ∈ h.copyInfo, out.additionalCopyInfo = v
  previousCrc : ∀ v ∈ h.previousCrc, out.previousPesPacketCrc = v
  pstdBuffer : ∀ e ∈ h.extension, ∀ b ∈ e.pstdBuffer,
    out.pstdBufferScale = b.1 ∧ out.pstdBufferSize = b.2
  extensionField : ∀ e ∈ h.extension, ∀ d ∈ e.extensionField,
    out.pesExtensionFieldLength = d.length
  ptsDtsFlags : out.ptsDtsFlags = h.ptsDtsFlags
  escrFlag : out.escrFlag = flagOf h.escr
  esRateFlag : out.esRateFlag = flagOf h.esRate
  trickModeFlag : out.dsmTrickModeFlag = flagOf h.trickMode
  copyInfoFlag : out.additionalCopyInfoFlag = flagOf h.copyInfo
  crcFlag : out.pesCrcFlag = flagOf h.previousCrc
  extensionFlag : out.pesExtensionFlag = flagOf h.extension
  extensionFlags : ∀ e ∈ h.extension, out.pesPrivateDataFlag = flagOf e.privateData ∧
    out.packHeaderFieldFlag = flagOf e.packHeader ∧
    out.programPacketSequenceCounterFlag = flagOf e.sequenceCounter ∧
    out.pstdBufferFlag = flagOf e.pstdBuffer ∧ out.pesExtensionFlag2 = flagOf e.extensionField
  data : skipData = false → out.data = some (buf.drop (9 + h.pesHeaderDataLength))
  dataLengthBytes : skipData = false →
    out.dataLengthBytes = (buf.drop (9 + h.pesHeaderDataLength)).length

/-- The rate is stored nowhere else. -/
theorem Header.store_esRate (h : Header) (pkt : PesPacket) :
    (h.store pkt).esRate = pkt.esRate ∧ (h.store pkt).esRateFlag = h.esRate.getD 0 :=
  ⟨h.store_apply pkt PesPacket.esRate fun _ _ ↦ rfl,
    h.store_apply pkt PesPacket.esRateFlag fun _ _ ↦ rfl⟩

/-- Without a rate, what is stored is what the layout says. -/
theorem followsLayout_store {h : Header} {buf : List UInt8} {skipData : Bool}
    (hrate : h.esRate = none) (pkt : PesPacket) {n : ℕ} {data : Option (List UInt8)}
    (hdata : skipData = false → data = some (buf.drop (9 + h.pesHeaderDataLength)))
    (hcount : skipData = false → n = (buf.drop (9 + h.pesHeaderDataLength)).length) :
    FollowsLayout h buf skipData ((h.store pkt).withData n data) := by
  have hextension : ∀ e ∈ h.extension, h.store pkt = e.store (h.storeFields pkt) := by
    intro e he
    rw [Header.store, Option.mem_def.mp he, Option.elim_some]
  refine
    { pts := fun hflags ↦ (h.store_apply pkt PesPacket.pts fun _ _ ↦ rfl).trans (if_pos hflags)
      dts := fun hflags ↦ (h.store_apply pkt PesPacket.dts fun _ _ ↦ rfl).trans (if_pos hflags)
      esRate := by simp [hrate]
      copyInfo := ?_
      previousCrc := ?_
      pstdBuffer := ?_
      extensionField := ?_
      ptsDtsFlags := h.store_apply pkt PesPacket.ptsDtsFlags fun _ _ ↦ rfl
      escrFlag := h.store_apply pkt PesPacket.escrFlag fun _ _ ↦ rfl
      esRateFlag := (h.store_esRate pkt).2.trans (by rw [hrate]; rfl)
      trickModeFlag := h.store_apply pkt PesPacket.dsmTrickModeFlag fun _ _ ↦ rfl
      copyInfoFlag := h.store_apply pkt PesPacket.additionalCopyInfoFlag fun _ _ ↦ rfl
      crcFlag := h.store_apply pkt PesPacket.pesCrcFlag fun _ _ ↦ rfl
      extensionFlag := h.store_apply pkt PesPacket.pesExtensionFlag fun _ _ ↦ rfl
      extensionFlags := ?_
      data := hdata
      dataLengthBytes := hcount }
  · intro v hv
    refine (h.store_apply pkt PesPacket.additionalCopyInfo fun _ _ ↦ rfl).trans ?_
    simp only [Header.storeFields, Option.mem_def.mp hv, Option.getD_some]
  · intro v hv
    refine (h.store_apply pkt PesPacket.previousPesPacketCrc fun _ _ ↦ rfl).trans ?_
    simp only [Header.storeFields, Option.mem_def.mp hv, Option.getD_some]
  · intro e he b hb
    rw [hextension e he]
    simp [PesPacket.withData, Extension.store, Option.mem_def.mp hb]
  · intro e he d hd
    rw [hextension e he]
    simp [PesPacket.withData, Extension.store, Option.mem_def.mp hd]
  · intro e he
    rw [hextension e he]
    exact ⟨rfl, rfl, rfl, rfl, rfl⟩

theorem IsoPacket.drop_payload (p : IsoPacket) {buf : List UInt8}
    (hbuf : bytesToBits buf = p.bits) :
    buf.drop (9 + p.header.pesHeaderDataLength) = p.payload := by
  have hoptional := p.header.length_optionalBits
  have hlength := p.header_length
  refine bytesToBits_inj ?_
  rw [← drop_bytesToBits, hbuf, IsoPacket.bits, bytesToBits_append, ← List.append_assoc]
  refine List.drop_left' ?_
  rw [List.length_append, Header.length_bits, length_bytesToBits, List.length_replicate, hlength,
    Header.behind]
  omega

/-- The declared data of a packet are the bytes behind the last field. -/
theorem IsoPacket.declared_eq (p : IsoPacket) :
    p.header.declared (p.stuffing + p.payload.length) = p.stuffing + p.payload.length := by
  have hlength := p.header_length
  unfold Header.declared Header.behind
  rcases p.packet_length with hzero | hexact
  · rw [if_neg (by omega)]
  · rw [if_pos (by omega)]
    omega

/-- The parser follows the layout exactly when there is neither a rate, which it
puts in place of the flag, nor stuffing, which it takes for data. -/
theorem parse_follows_layout_iff (p : IsoPacket) {buf : List UInt8}
    (hbuf : bytesToBits buf = p.bits) (hlen : buf.length < 2 ^ 31) :
    (∀ pkt skipData, FollowsLayout p.header buf skipData
      (pesPacketParse pkt (klbsReadSetBuffer buf) skipData).pkt) ↔
      p.header.esRate = none ∧ p.stuffing = 0 := by
  have hparse := fun pkt skipData ↦
    (parse_spelled hbuf p.inRange p.optional_header hlen pkt skipData).1
  have hpayload := p.drop_payload hbuf
  have hdeclared := p.declared_eq
  simp only [List.length_append, List.length_replicate, hdeclared] at hparse
  constructor
  · intro h
    constructor
    · -- with a rate either the flag or the field is wrong
      cases hrate : p.header.esRate with
      | none => rfl
      | some v =>
          have hone := h pesPacketAlloc false
          have hvalue := hone.esRate v (by rw [hrate]; rfl)
          have hflag := hone.esRateFlag
          rw [hparse] at hvalue hflag
          have hstored := p.header.store_esRate
          rw [show ∀ q n d, (PesPacket.withData q n d).esRate = q.esRate from fun _ _ _ ↦ rfl,
            (hstored _).1] at hvalue
          rw [show ∀ q n d, (PesPacket.withData q n d).esRateFlag = q.esRateFlag from
            fun _ _ _ ↦ rfl, (hstored _).2, hrate] at hflag
          have hzero : (0 : ℕ) = v := hvalue
          have hsome : v = 1 := hflag
          omega
    · have hdata := (h pesPacketAlloc false).data rfl
      rw [hparse, hpayload] at hdata
      have hbytes : (List.replicate p.stuffing 0xFF ++ p.payload).take
          (p.stuffing + p.payload.length) = p.payload := Option.some.inj hdata
      have hsize := congrArg List.length hbytes
      rw [List.take_of_length_le (by simp), List.length_append, List.length_replicate] at hsize
      omega
  · rintro ⟨hrate, hstuffing⟩ pkt skipData
    rw [hparse]
    refine followsLayout_store hrate _ (fun hskip ↦ ?_) fun hskip ↦ ?_
    · rw [hpayload, if_neg (by simp [hskip]), if_neg (by simp [hskip]), hstuffing,
        List.replicate_zero, List.nil_append, Nat.zero_add, List.take_length]
    · rw [hpayload, if_neg (by simp [hskip]), hstuffing, Nat.zero_add]

def bareHeader : Header where
  packetStartCodePrefix := 1
  streamId := 0xE0
  pesPacketLength := 0
  pesScramblingControl := 0
  pesPriority := 0
  dataAlignmentIndicator := 0
  copyright := 0
  originalOrCopy := 0
  ptsDtsFlags := 0
  pesHeaderDataLength := 0
  pts := 0
  dts := 0
  escr := none
  esRate := none
  trickMode := none
  copyInfo := none
  previousCrc := none
  extension := none

theorem bareHeader_inRange : bareHeader.InRange := by
  constructor <;> simp [bareHeader]

def stampedPacket : IsoPacket where
  header := { bareHeader with ptsDtsFlags := 2, pesHeaderDataLength := 5, pts := 90000 }
  stuffing := 0
  payload := [0xAA]
  inRange := { bareHeader_inRange with
    ptsDtsFlags := by decide
    pesHeaderDataLength := by decide
    pts := by decide }
  start_code := rfl
  optional_header := by decide
  allowed_flags := by decide
  header_length := by decide
  packet_length := Or.inl rfl

theorem stampedPacket_follows :
    bytesToBits [0, 0, 1, 0xE0, 0, 0, 0x80, 0x80, 5, 0x21, 0, 5, 0xBF, 0x21, 0xAA] =
        stampedPacket.bits ∧
      ∀ pkt skipData, FollowsLayout stampedPacket.header
        [0, 0, 1, 0xE0, 0, 0, 0x80, 0x80, 5, 0x21, 0, 5, 0xBF, 0x21, 0xAA] skipData
        (pesPacketParse pkt (klbsReadSetBuffer
          [0, 0, 1, 0xE0, 0, 0, 0x80, 0x80, 5, 0x21, 0, 5, 0xBF, 0x21, 0xAA]) skipData).pkt :=
  ⟨by decide +kernel, (parse_follows_layout_iff stampedPacket (by decide +kernel) (by decide)).mpr
    ⟨rfl, rfl⟩⟩

def stuffedPacket : IsoPacket where
  header := { bareHeader with pesHeaderDataLength := 1 }
  stuffing := 1
  payload := [0xAA]
  inRange := { bareHeader_inRange with pesHeaderDataLength := by decide }
  start_code := rfl
  optional_header := by decide
  allowed_flags := by decide
  header_length := by decide
  packet_length := Or.inl rfl

/-- The stuffing byte is delivered as the first byte of the data. -/
theorem stuffing_taken_for_data :
    bytesToBits [0, 0, 1, 0xE0, 0, 0, 0x80, 0, 1, 0xFF, 0xAA] = stuffedPacket.bits ∧
      (pesPacketParse pesPacketAlloc (klbsReadSetBuffer
        [0, 0, 1, 0xE0, 0, 0, 0x80, 0, 1, 0xFF, 0xAA]) false).pkt.data = some [0xFF, 0xAA] ∧
      ¬FollowsLayout stuffedPacket.header [0, 0, 1, 0xE0, 0, 0, 0x80, 0, 1, 0xFF, 0xAA] false
        (pesPacketParse pesPacketAlloc (klbsReadSetBuffer
          [0, 0, 1, 0xE0, 0, 0, 0x80, 0, 1, 0xFF, 0xAA]) false).pkt := by
  have hdata : (pesPacketParse pesPacketAlloc (klbsReadSetBuffer
      [0, 0, 1, 0xE0, 0, 0, 0x80, 0, 1, 0xFF, 0xAA]) false).pkt.data = some [0xFF, 0xAA] := by
    decide +kernel
  refine ⟨by decide +kernel, hdata, fun h ↦ ?_⟩
  have hlayout := h.data rfl
  rw [hdata] at hlayout
  exact absurd hlayout (by decide)

end LtnTsTools.Pes
