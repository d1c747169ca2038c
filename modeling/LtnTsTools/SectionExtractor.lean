import LtnTsTools.Crc32
import LtnTsTools.PartialMachine
import LtnTsTools.TransportPacket

/-!
# The section extractor

The model of `sectionextractor.c`.  Every byte is read from the packet, and
every byte stored into the section buffer, through bounds-checked accesses:
`none` is an access outside of the memory in front of the packet pointer or the
4096 bytes of the buffer.  In a call of several packets that memory is the 188
bytes of one packet; where the extractor is used on a buffer, what lies behind
its packets may be part of it.  The section buffer comes from `malloc`, so its
first contents are an argument of the allocation.
-/

namespace LtnTsTools.SectionExtractor

open Region PartialMachine

/-- `struct sectionextractor_ctx_s`. -/
structure Ctx where
  tableID : ℕ
  pid : ℕ
  complete : Bool
  appending : Bool
  sectionBuf : List UInt8
  sectionLength : ℕ
  sectionLengthCurrent : ℕ
deriving DecidableEq

def bufferSize : ℕ := 4096

/-- `ltntstools_sectionextractor_alloc` over fresh memory. -/
def sectionextractorAlloc (pid tableID : ℕ) (memory : List UInt8) : Ctx where
  tableID := tableID
  pid := pid
  complete := false
  appending := false
  sectionBuf := memory
  sectionLength := 0
  sectionLengthCurrent := 0

/-- What one call has reported so far, over the context it works on. -/
structure WriteState where
  ctx : Ctx
  complete : Bool
  crcValid : Bool
  ret : ℤ
deriving DecidableEq

def readByte (mem : List UInt8) (i : ℕ) : Option ℕ := mem[i]?.map UInt8.toNat

/-- Where the code looks for section bytes: behind the adaption field, and on a
start behind the pointer field and the bytes it skips. -/
def sectionOffset (mem : List UInt8) (pkt : Packet) : Option ℕ :=
  if Ts.payloadUnitStartIndicator pkt then
    (readByte mem (Ts.payloadOffset pkt)).map fun pointerField ↦
      Ts.payloadOffset pkt + pointerField + 1
  else some (Ts.payloadOffset pkt)

/-- The context after the header of a new section at `off`, with the number of
bytes to take from this packet. -/
def beginSection (ctx : Ctx) (mem : List UInt8) (off : ℕ) : Option (Ctx × ℕ) :=
  (readByte mem (off + 1)).bind fun b1 ↦ (readByte mem (off + 2)).map fun b2 ↦
    let sectionLength := ((b1 <<< 8 ||| b2) &&& 0xfff) + 3
    ({ ctx with
        appending := true
        complete := false
        sectionLengthCurrent := 0
        sectionLength := sectionLength }, if sectionLength > 183 then 183 else sectionLength)

/-- Bytes to take from a further packet of a section. -/
def continuationLength (ctx : Ctx) : ℕ :=
  if ctx.sectionLengthCurrent + 183 > ctx.sectionLength then
    ctx.sectionLength - ctx.sectionLengthCurrent
  else 183

/-- The state behind the copy: a section that has reached its length is checked
and reported. -/
def afterCopy (s : WriteState) (ctx : Ctx) (sectionBuf : List UInt8) (copylength : ℕ) :
    WriteState :=
  let ctx := { ctx with
    sectionBuf := sectionBuf
    sectionLengthCurrent := ctx.sectionLengthCurrent + copylength }
  if ctx.sectionLength = ctx.sectionLengthCurrent then
    { ctx := { ctx with complete := true, appending := false }
      complete := true
      crcValid := Crc32.checkCRC32 (ctx.sectionBuf.take ctx.sectionLength)
      ret := s.ret + copylength }
  else { s with ctx := ctx, crcValid := false, ret := s.ret + copylength }

/-- The copy at the end of `ltntstools_sectionextractor_write_packet`. -/
def appendSection (s : WriteState) (ctx : Ctx) (mem : List UInt8) (off copylength : ℕ) :
    Option WriteState :=
  (load mem off copylength).bind fun bytes ↦
    (store ctx.sectionBuf ctx.sectionLengthCurrent bytes).map fun sectionBuf ↦
      afterCopy s ctx sectionBuf copylength

/-- The branch for a packet that neither starts nor continues a section. -/
def resetSection (s : WriteState) : WriteState :=
  { s with ctx := { s.ctx with complete := false, appending := false }
           crcValid := false
           ret := s.ret - 1 }

/-- `ltntstools_sectionextractor_write_packet`, over the memory that begins with the packet;
the returned number is added to the sum of the call. -/
def writePacket (mem : List UInt8) (s : WriteState) (pkt : Packet) : Option WriteState :=
  if Ts.syncPresent pkt = false then some { s with crcValid := false }
  else (sectionOffset mem pkt).bind fun off ↦
    if Ts.payloadUnitStartIndicator pkt = true ∧ 180 ≤ off then some { s with crcValid := false }
    else if s.ctx.appending = false ∧ s.ctx.complete = false then
      (readByte mem off).bind fun id ↦
        if id = s.ctx.tableID then
          (beginSection s.ctx mem off).bind fun begun ↦ appendSection s begun.1 mem off begun.2
        else some (resetSection s)
    else if s.ctx.appending = true ∧ s.ctx.complete = false then
      appendSection s s.ctx mem off (continuationLength s.ctx)
    else some (resetSection s)

/-- One turn of the loop over the packets of a call, each of which has its own bytes. -/
def writeTurn (s : WriteState) (pkt : Packet) : Option (WriteState × Unit) :=
  if Ts.pid pkt ≠ s.ctx.pid then some (s, ())
  else (writePacket pkt.bytes s pkt).map fun s' ↦ (s', ())

def writeLoop : WriteState → List Packet → Option WriteState
  | s, [] => some s
  | s, pkt :: rest => (writeTurn s pkt).bind fun r ↦ writeLoop r.1 rest

/-- The state in which a call enters its loop.  `crcValid` is the caller's. -/
def callEntry (ctx : Ctx) (crcValid : Bool) : WriteState where
  ctx := ctx
  complete := false
  crcValid := crcValid
  ret := 0

def latchComplete (s : WriteState) : WriteState :=
  if s.complete then { s with ctx := { s.ctx with complete := true } } else s

/-- `ltntstools_sectionextractor_write`. -/
def sectionextractorWrite (ctx : Ctx) (pkts : List Packet) (crcValid : Bool) :
    Option WriteState :=
  (writeLoop (callEntry ctx crcValid) pkts).map latchComplete

/-- The answer of a query: the returned number, the bytes copied and the context
afterwards. -/
structure QueryResult where
  ret : ℤ
  dst : List UInt8
  ctx : Ctx
deriving DecidableEq

/-- `ltntstools_sectionextractor_query` into a buffer that is not null.  The
comparison is one of unsigned numbers. -/
def sectionextractorQuery (ctx : Ctx) (lengthBytes : ℤ) : Option QueryResult :=
  if ctx.complete = false ∨ lengthBytes % 2 ^ 32 < ctx.sectionLength + 3 then
    some { ret := -1, dst := [], ctx := ctx }
  else
    (load ctx.sectionBuf 0 (ctx.sectionLength + 3)).map fun bytes ↦
      { ret := ctx.sectionLength + 3
        dst := bytes
        ctx := { ctx with complete := false, appending := false } }

/-! ## Specifications -/

/-- The position found by `sectionOffset` when the pointer field can be read. -/
def startOf (pkt : Packet) : ℕ :=
  if Ts.payloadUnitStartIndicator pkt then
    Ts.payloadOffset pkt + pkt.byte (Ts.payloadOffset pkt) + 1
  else Ts.payloadOffset pkt

/-- The total length announced by the section header at the start position. -/
def announcedLength (pkt : Packet) : ℕ :=
  ((pkt.byte (startOf pkt + 1) <<< 8 ||| pkt.byte (startOf pkt + 2)) &&& 0xfff) + 3

theorem three_le_announcedLength (pkt : Packet) : 3 ≤ announcedLength pkt := by
  unfold announcedLength
  omega

theorem readByte_of_lt {pkt : Packet} {i : ℕ} (h : i < 188) :
    readByte pkt.bytes i = some (pkt.byte i) := by
  have hi : i < pkt.bytes.length := h.trans_eq pkt.length_bytes.symm
  simp [readByte, Packet.byte, List.getElem?_eq_getElem hi, List.getD_eq_getElem?_getD]

theorem readByte_of_ge {pkt : Packet} {i : ℕ} (h : 188 ≤ i) : readByte pkt.bytes i = none := by
  have hi : pkt.bytes[i]? = none := List.getElem?_eq_none (by rw [pkt.length_bytes]; exact h)
  rw [readByte, hi]
  rfl

theorem sectionOffset_eq {pkt : Packet}
    (h : Ts.payloadUnitStartIndicator pkt = true → Ts.payloadOffset pkt < 188) :
    sectionOffset pkt.bytes pkt = some (startOf pkt) := by
  unfold sectionOffset startOf
  split_ifs with hstart
  · rw [readByte_of_lt (h hstart), Option.map_some]
  · rfl

theorem continuationLength_eq (ctx : Ctx) :
    continuationLength ctx = min (ctx.sectionLength - ctx.sectionLengthCurrent) 183 := by
  unfold continuationLength
  split_ifs <;> omega

theorem length_slice (pkt : Packet) {off n : ℕ} (h : off + n ≤ 188) :
    ((pkt.bytes.drop off).take n).length = n := by
  rw [List.length_take, List.length_drop, pkt.length_bytes]
  omega

theorem appendSection_eq {s : WriteState} {ctx : Ctx} {pkt : Packet} {off n : ℕ}
    (hread : off + n ≤ 188) (hstore : ctx.sectionLengthCurrent + n ≤ ctx.sectionBuf.length) :
    ∃ sectionBuf, store ctx.sectionBuf ctx.sectionLengthCurrent ((pkt.bytes.drop off).take n) =
        some sectionBuf ∧
      appendSection s ctx pkt.bytes off n = some (afterCopy s ctx sectionBuf n) := by
  have hlen := length_slice pkt hread
  have hload : load pkt.bytes off n = some ((pkt.bytes.drop off).take n) :=
    load_eq_some (by rw [pkt.length_bytes]; exact hread)
  obtain ⟨buf, hbuf⟩ := Option.isSome_iff_exists.mp
    (store_isSome_iff.mpr (by rw [hlen]; exact hstore) :
      (store ctx.sectionBuf ctx.sectionLengthCurrent ((pkt.bytes.drop off).take n)).isSome)
  refine ⟨buf, hbuf, ?_⟩
  simp only [appendSection, hload, Option.bind_some, hbuf, Option.map_some]

theorem appendSection_isSome_iff {s : WriteState} {ctx : Ctx} {pkt : Packet} {off n : ℕ} :
    (∃ r, appendSection s ctx pkt.bytes off n = some r) ↔
      off + n ≤ 188 ∧ ctx.sectionLengthCurrent + n ≤ ctx.sectionBuf.length := by
  constructor
  · rintro ⟨r, hr⟩
    obtain ⟨bytes, hload, hr⟩ := Option.bind_eq_some_iff.mp hr
    obtain ⟨buf, hstore, -⟩ := Option.map_eq_some_iff.mp hr
    have hread : off + n ≤ pkt.bytes.length := load_isSome_iff.mp (by rw [hload]; rfl)
    have hbytes : bytes = (pkt.bytes.drop off).take n := by
      rw [load_eq_some hread, Option.some.injEq] at hload
      exact hload.symm
    rw [pkt.length_bytes] at hread
    have hbound := bound_of_store hstore
    rw [hbytes, length_slice pkt hread] at hbound
    exact ⟨hread, hbound⟩
  · rintro ⟨hread, hstore⟩
    obtain ⟨buf, -, happ⟩ := @appendSection_eq s _ pkt _ _ hread hstore
    exact ⟨_, happ⟩

def begun (ctx : Ctx) (sectionLength : ℕ) : Ctx :=
  { ctx with
    appending := true
    complete := false
    sectionLengthCurrent := 0
    sectionLength := sectionLength }

theorem beginSection_eq {ctx : Ctx} {pkt : Packet} (h : startOf pkt + 2 < 188) :
    beginSection ctx pkt.bytes (startOf pkt) =
      some (begun ctx (announcedLength pkt), min (announcedLength pkt) 183) := by
  have hmin : (if announcedLength pkt > 183 then 183 else announcedLength pkt) =
      min (announcedLength pkt) 183 := by
    split_ifs <;> omega
  simp only [beginSection, readByte_of_lt (by omega : startOf pkt + 1 < 188), readByte_of_lt h,
    Option.bind_some, Option.map_some, ← hmin]
  rfl

/-- Everything a packet can do: it is ignored, it resets the extractor, or bytes
are taken from it, at the start of a section or behind those already there. -/
theorem writePacket_cases {s r : WriteState} {pkt : Packet}
    (hr : writePacket pkt.bytes s pkt = some r) :
    r = { s with crcValid := false } ∨ r = resetSection s ∨
    (s.ctx.appending = false ∧ pkt.byte (startOf pkt) = s.ctx.tableID ∧
      appendSection s (begun s.ctx (announcedLength pkt)) pkt.bytes (startOf pkt)
        (min (announcedLength pkt) 183) = some r) ∨
    (s.ctx.appending = true ∧ s.ctx.complete = false ∧
      appendSection s s.ctx pkt.bytes (startOf pkt)
        (min (s.ctx.sectionLength - s.ctx.sectionLengthCurrent) 183) = some r) := by
  unfold writePacket at hr
  by_cases hsync : Ts.syncPresent pkt = false
  · rw [if_pos hsync, Option.some.injEq] at hr
    exact .inl hr.symm
  rw [if_neg hsync] at hr
  obtain ⟨off, hoff, hr⟩ := Option.bind_eq_some_iff.mp hr
  have hptr : Ts.payloadUnitStartIndicator pkt = true → Ts.payloadOffset pkt < 188 := by
    intro hstart
    by_contra hout
    simp [sectionOffset, hstart, readByte_of_ge (not_lt.mp hout)] at hoff
  rw [sectionOffset_eq hptr, Option.some.injEq] at hoff
  subst hoff
  split_ifs at hr with hfar hidle happ
  · exact .inl (Option.some.inj hr).symm
  · obtain ⟨id, hid, hr⟩ := Option.bind_eq_some_iff.mp hr
    have hin : startOf pkt < 188 := by
      by_contra hout
      simp [readByte_of_ge (not_lt.mp hout)] at hid
    rw [readByte_of_lt hin, Option.some.injEq] at hid
    subst hid
    split_ifs at hr with htable
    · have hhead : startOf pkt + 2 < 188 := by
        by_contra hout
        simp [beginSection, readByte_of_ge (not_lt.mp hout)] at hr
      rw [beginSection_eq hhead, Option.bind_some] at hr
      exact .inr (.inr (.inl ⟨hidle.1, htable, hr⟩))
    · exact .inr (.inl (Option.some.inj hr).symm)
  · rw [continuationLength_eq] at hr
    exact .inr (.inr (.inr ⟨happ.1, happ.2, hr⟩))
  · exact .inr (.inl (Option.some.inj hr).symm)

theorem sectionextractorQuery_eq {ctx : Ctx} {lengthBytes : ℤ} (hcomplete : ctx.complete = true)
    (hn : ctx.sectionLength + 3 ≤ lengthBytes % 2 ^ 32)
    (hroom : ctx.sectionLength + 3 ≤ ctx.sectionBuf.length) :
    sectionextractorQuery ctx lengthBytes = some
      { ret := ctx.sectionLength + 3
        dst := ctx.sectionBuf.take (ctx.sectionLength + 3)
        ctx := { ctx with complete := false, appending := false } } := by
  have hgranted : ¬(ctx.complete = false ∨ lengthBytes % 2 ^ 32 < ctx.sectionLength + 3) := by
    rw [hcomplete]
    simpa using hn
  rw [sectionextractorQuery, if_neg hgranted, load_eq_some (by omega), Option.map_some,
    List.drop_zero]

/-! ## Memory behind the packet -/

section Memory

variable {mem mem' : List UInt8} {s r : WriteState} {pkt : Packet}

theorem readByte_mono (h : mem <+: mem') {i b : ℕ} (hb : readByte mem i = some b) :
    readByte mem' i = some b := by
  obtain ⟨more, rfl⟩ := h
  obtain ⟨x, hx, rfl⟩ := Option.map_eq_some_iff.mp hb
  have hi : i < mem.length := (List.getElem?_eq_some_iff.mp hx).1
  rw [readByte, List.getElem?_append_left hi, hx]
  rfl

theorem sectionOffset_mono (h : mem <+: mem') {off : ℕ} (hoff : sectionOffset mem pkt = some off) :
    sectionOffset mem' pkt = some off := by
  unfold sectionOffset at hoff ⊢
  split_ifs at hoff ⊢
  · obtain ⟨b, hb, hoff⟩ := Option.map_eq_some_iff.mp hoff
    rw [readByte_mono h hb, Option.map_some, hoff]
  · exact hoff

theorem beginSection_mono (h : mem <+: mem') {ctx : Ctx} {off : ℕ} {b : Ctx × ℕ}
    (hb : beginSection ctx mem off = some b) : beginSection ctx mem' off = some b := by
  obtain ⟨b1, hb1, hb⟩ := Option.bind_eq_some_iff.mp hb
  obtain ⟨b2, hb2, hb⟩ := Option.map_eq_some_iff.mp hb
  rw [beginSection, readByte_mono h hb1, Option.bind_some, readByte_mono h hb2, Option.map_some,
    ← hb]

theorem appendSection_mono (h : mem <+: mem') {ctx : Ctx} {off n : ℕ}
    (hr : appendSection s ctx mem off n = some r) : appendSection s ctx mem' off n = some r := by
  obtain ⟨bytes, hload, hr⟩ := Option.bind_eq_some_iff.mp hr
  rw [appendSection, load_mono h hload, Option.bind_some, hr]

/-- A packet that is taken from less memory does the same in front of more of it. -/
theorem writePacket_mono (h : mem <+: mem') (hr : writePacket mem s pkt = some r) :
    writePacket mem' s pkt = some r := by
  unfold writePacket at hr ⊢
  by_cases hsync : Ts.syncPresent pkt = false
  · rw [if_pos hsync] at hr ⊢
    exact hr
  · rw [if_neg hsync] at hr ⊢
    obtain ⟨off, hoff, hr⟩ := Option.bind_eq_some_iff.mp hr
    rw [sectionOffset_mono h hoff, Option.bind_some]
    split_ifs at hr ⊢
    · exact hr
    · obtain ⟨id, hid, hr⟩ := Option.bind_eq_some_iff.mp hr
      rw [readByte_mono h hid, Option.bind_some]
      split_ifs at hr ⊢
      · obtain ⟨begun, hbegun, hr⟩ := Option.bind_eq_some_iff.mp hr
        rw [beginSection_mono h hbegun, Option.bind_some, appendSection_mono h hr]
      · exact hr
    · exact appendSection_mono h hr
    · exact hr

/-- Whatever the memory holds, a packet is ignored, resets the extractor, or gives bytes to the
section in progress or to a new one. -/
theorem writePacket_outcomes (hr : writePacket mem s pkt = some r) :
    r = { s with crcValid := false } ∨ r = resetSection s ∨ ∃ ctx off n,
      (ctx = s.ctx ∨ ∃ sectionLength, ctx = begun s.ctx sectionLength) ∧
        appendSection s ctx mem off n = some r := by
  unfold writePacket at hr
  by_cases hsync : Ts.syncPresent pkt = false
  · rw [if_pos hsync] at hr
    exact .inl (Option.some.inj hr).symm
  · rw [if_neg hsync] at hr
    obtain ⟨off, -, hr⟩ := Option.bind_eq_some_iff.mp hr
    split_ifs at hr
    · exact .inl (Option.some.inj hr).symm
    · obtain ⟨id, -, hr⟩ := Option.bind_eq_some_iff.mp hr
      split_ifs at hr
      · obtain ⟨b, hb, hr⟩ := Option.bind_eq_some_iff.mp hr
        obtain ⟨b1, -, hb⟩ := Option.bind_eq_some_iff.mp hb
        obtain ⟨b2, -, rfl⟩ := Option.map_eq_some_iff.mp hb
        exact .inr (.inr ⟨_, off, _, .inr ⟨_, rfl⟩, hr⟩)
      · exact .inr (.inl (Option.some.inj hr).symm)
    · exact .inr (.inr ⟨_, off, _, .inl rfl, hr⟩)
    · exact .inr (.inl (Option.some.inj hr).symm)

theorem exists_readByte {i : ℕ} (h : i < mem.length) : ∃ b, readByte mem i = some b :=
  ⟨_, by rw [readByte, List.getElem?_eq_getElem h]; rfl⟩

theorem exists_appendSection {ctx : Ctx} {off n : ℕ} (hread : off + n ≤ mem.length)
    (hstore : ctx.sectionLengthCurrent + n ≤ ctx.sectionBuf.length) :
    ∃ r, appendSection s ctx mem off n = some r := by
  have hlen : ((mem.drop off).take n).length = n := by
    rw [List.length_take, List.length_drop]
    omega
  obtain ⟨buf, hbuf⟩ := Option.isSome_iff_exists.mp
    (store_isSome_iff.mpr (by rw [hlen]; exact hstore) :
      (store ctx.sectionBuf ctx.sectionLengthCurrent ((mem.drop off).take n)).isSome)
  exact ⟨_, by rw [appendSection, load_eq_some hread, Option.bind_some, hbuf, Option.map_some]⟩

/-- No packet makes the extractor read farther than 443 bytes; then only a section that
outgrows its buffer is in the way. -/
theorem exists_writePacket (hmem : 443 ≤ mem.length) (hbuf : s.ctx.sectionBuf.length = bufferSize)
    (hroom : s.ctx.appending = true → s.ctx.complete = false →
      s.ctx.sectionLengthCurrent + continuationLength s.ctx ≤ bufferSize) (pkt : Packet) :
    ∃ r, writePacket mem s pkt = some r := by
  have hpayload : Ts.payloadOffset pkt ≤ 260 := by
    have hlt := pkt.byte_lt 4
    unfold Ts.payloadOffset Ts.adaptionFieldLength
    split_ifs <;> omega
  unfold writePacket
  by_cases hsync : Ts.syncPresent pkt = false
  · exact ⟨_, if_pos hsync⟩
  rw [if_neg hsync]
  obtain ⟨off, hoff, hnear⟩ : ∃ off, sectionOffset mem pkt = some off ∧
      (¬(Ts.payloadUnitStartIndicator pkt = true ∧ 180 ≤ off) → off ≤ 260) := by
    unfold sectionOffset
    split_ifs with hstart
    · obtain ⟨b, hb⟩ := @exists_readByte mem (Ts.payloadOffset pkt) (by omega)
      refine ⟨_, by rw [hb]; rfl, fun hno ↦ ?_⟩
      have hlt := not_le.mp fun hle ↦ hno ⟨hstart, hle⟩
      omega
    · exact ⟨_, rfl, fun _ ↦ hpayload⟩
  rw [hoff, Option.bind_some]
  split_ifs with hfar hidle happ
  · exact ⟨_, rfl⟩
  · have hle := hnear hfar
    obtain ⟨id, hid⟩ := @exists_readByte mem off (by omega)
    rw [hid, Option.bind_some]
    split_ifs
    · obtain ⟨b1, hb1⟩ := @exists_readByte mem (off + 1) (by omega)
      obtain ⟨b2, hb2⟩ := @exists_readByte mem (off + 2) (by omega)
      rw [beginSection, hb1, Option.bind_some, hb2, Option.map_some, Option.bind_some]
      have hcount : ∀ n, (if n > 183 then 183 else n) ≤ 183 := fun n ↦ by split_ifs <;> omega
      have hcopied := hcount (((b1 <<< 8 ||| b2) &&& 0xfff) + 3)
      refine exists_appendSection (by dsimp only; omega) ?_
      simp only [hbuf, bufferSize]
      omega
    · exact ⟨_, rfl⟩
  · have hle := hnear hfar
    have hcount := continuationLength_eq s.ctx
    exact exists_appendSection (by omega) (by rw [hbuf]; exact hroom happ.1 happ.2)
  · exact ⟨_, rfl⟩

end Memory

/-! ## Invariants -/

/-- What every context keeps: its buffer, and a copied length that never passes
the announced one. -/
structure Inv (ctx : Ctx) : Prop where
  length_buf : ctx.sectionBuf.length = bufferSize
  current_le : ctx.sectionLengthCurrent ≤ ctx.sectionLength

theorem inv_afterCopy {s : WriteState} {ctx : Ctx} {buf : List UInt8} {n : ℕ}
    (hbuf : buf.length = bufferSize) (hle : ctx.sectionLengthCurrent + n ≤ ctx.sectionLength) :
    Inv (afterCopy s ctx buf n).ctx := by
  unfold afterCopy
  simp only
  split_ifs <;> exact ⟨hbuf, hle⟩

theorem inv_appendSection {s r : WriteState} {ctx : Ctx} {pkt : Packet} {off n : ℕ}
    (hctx : Inv ctx) (hle : ctx.sectionLengthCurrent + n ≤ ctx.sectionLength)
    (hr : appendSection s ctx pkt.bytes off n = some r) : Inv r.ctx := by
  obtain ⟨hread, hstore⟩ := appendSection_isSome_iff.mp ⟨r, hr⟩
  obtain ⟨buf, hbuf, happ⟩ := @appendSection_eq s _ pkt _ _ hread hstore
  rw [hr, Option.some.injEq] at happ
  rw [happ]
  exact inv_afterCopy ((length_of_store hbuf).trans hctx.length_buf) hle

theorem inv_writePacket {s r : WriteState} {pkt : Packet} (h : Inv s.ctx)
    (hr : writePacket pkt.bytes s pkt = some r) : Inv r.ctx := by
  rcases writePacket_cases hr with rfl | rfl | ⟨-, -, hr⟩ | ⟨-, -, hr⟩
  · exact h
  · exact ⟨h.length_buf, h.current_le⟩
  · have hbegun : Inv (begun s.ctx (announcedLength pkt)) := ⟨h.length_buf, Nat.zero_le _⟩
    exact inv_appendSection hbegun (by simp [begun]) hr
  · refine inv_appendSection h ?_ hr
    have hle := h.current_le
    omega

theorem inv_writeTurn {s : WriteState} {r : WriteState × Unit} {pkt : Packet} (h : Inv s.ctx)
    (hr : writeTurn s pkt = some r) : Inv r.1.ctx := by
  unfold writeTurn at hr
  split_ifs at hr with hpid
  · rw [Option.some.injEq] at hr
    exact hr ▸ h
  · obtain ⟨s', hs', rfl⟩ := Option.map_eq_some_iff.mp hr
    exact inv_writePacket h hs'

theorem inv_writeLoop {pkts : List Packet} {s r : WriteState} (h : Inv s.ctx)
    (hr : writeLoop s pkts = some r) : Inv r.ctx := by
  induction pkts generalizing s with
  | nil =>
      rw [writeLoop, Option.some.injEq] at hr
      exact hr ▸ h
  | cons pkt rest ih =>
      obtain ⟨turn, hturn, hr⟩ := Option.bind_eq_some_iff.mp hr
      exact ih (inv_writeTurn h hturn) hr

/-! ## Runs of calls -/

/-- A call on the extractor.  A write brings the value its caller has left in
`crcValid`. -/
inductive Call
  | write (pkts : List Packet) (crcValid : Bool)
  | query (lengthBytes : ℤ)
deriving DecidableEq

/-- What a call reports: the flag of a write, the bytes of a query. -/
inductive Report
  | written (complete crcValid : Bool) (ret : ℤ)
  | queried (ret : ℤ) (dst : List UInt8)
deriving DecidableEq

def Report.complete : Report → Bool
  | written complete _ _ => complete
  | queried _ _ => false

def callStep (ctx : Ctx) : Call → Option (Ctx × Report)
  | .write pkts crcValid => (sectionextractorWrite ctx pkts crcValid).map fun r ↦
      (r.ctx, .written r.complete r.crcValid r.ret)
  | .query lengthBytes => (sectionextractorQuery ctx lengthBytes).map fun r ↦
      (r.ctx, .queried r.ret r.dst)

theorem inv_alloc {pid tableID : ℕ} {memory : List UInt8} (h : memory.length = bufferSize) :
    Inv (sectionextractorAlloc pid tableID memory) := ⟨h, le_rfl⟩

theorem inv_sectionextractorQuery {ctx : Ctx} {lengthBytes : ℤ} {r : QueryResult} (h : Inv ctx)
    (hr : sectionextractorQuery ctx lengthBytes = some r) : Inv r.ctx := by
  unfold sectionextractorQuery at hr
  split_ifs at hr
  · rw [Option.some.injEq] at hr
    exact hr ▸ h
  · obtain ⟨bytes, -, rfl⟩ := Option.map_eq_some_iff.mp hr
    exact ⟨h.length_buf, h.current_le⟩

theorem inv_callStep {ctx : Ctx} {call : Call} {r : Ctx × Report} (h : Inv ctx)
    (hr : callStep ctx call = some r) : Inv r.1 := by
  cases call with
  | write pkts crcValid =>
      obtain ⟨s, hs, rfl⟩ := Option.map_eq_some_iff.mp hr
      obtain ⟨s', hs', rfl⟩ := Option.map_eq_some_iff.mp hs
      have hinv : Inv s'.ctx := inv_writeLoop (s := callEntry ctx crcValid) h hs'
      unfold latchComplete
      split_ifs
      · exact ⟨hinv.length_buf, hinv.current_le⟩
      · exact hinv
  | query lengthBytes =>
      obtain ⟨q, hq, rfl⟩ := Option.map_eq_some_iff.mp hr
      exact inv_sectionextractorQuery h hq

def blankMemory : List UInt8 := List.replicate bufferSize 0

theorem length_blankMemory : blankMemory.length = bufferSize := List.length_replicate

/-- A packet of pid 0x100 with the given second and fourth byte and, from its
fifth byte on, the given bytes in front of zeros. -/
def samplePacket (flags control : ℕ) (bytes : List UInt8) : Packet where
  bytes := [0x47, UInt8.ofNat (flags + 1), 0, UInt8.ofNat control] ++ bytes.take 184 ++
    List.replicate (184 - (bytes.take 184).length) 0
  length_bytes := by
    simp only [List.length_append, List.length_cons, List.length_nil, List.length_replicate,
      List.length_take]
    omega

end LtnTsTools.SectionExtractor
