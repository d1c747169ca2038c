import LtnTsTools.BitWriter

/-!
# Flushing the bit writer

`klbs_write_buffer_complete` of `klbitstream_readwriter.h` is meant to bring the
writer to a byte boundary.  It counts one bit too far: behind the bits that fill the
register it writes another one, so that a writer that did not stand on a byte
boundary does not stand on one afterwards either.
-/

namespace LtnTsTools.BitWriter

open BitReader BitString

/-- The loop of `klbs_write_buffer_complete`. -/
def completeLoop : ℕ → Klbs → Klbs
  | 0, bs => bs
  | n + 1, bs =>
      let bs := klbsWriteBit bs 0
      completeLoop n
        { bs with overrun := bs.overrun || decide (bs.buflenUsed ≥ bs.buf.length) }

/-- `klbs_write_buffer_complete`; its loop counts from `reg_used` to 8 inclusive. -/
def klbsWriteBufferComplete (bs : Klbs) : Klbs :=
  if bs.regUsed > 0 then completeLoop (8 + 1 - bs.regUsed) bs else bs

/-! ## Fields -/

structure BitField where
  value : UInt64
  width : ℕ
  width_pos : 1 ≤ width
  width_le : width ≤ 64
deriving DecidableEq

def writeFields (fields : List BitField) (bs : Klbs) : Klbs :=
  fields.foldl (fun bs f ↦ klbsWriteBits bs f.value.toNat f.width) bs

def readFields : List BitField → Klbs → List ℕ
  | [], _ => []
  | f :: rest, bs =>
      let r := klbsReadBits bs f.width
      r.1 :: readFields rest r.2

def totalBits (fields : List BitField) : ℕ := (fields.map BitField.width).sum

def fieldBits (fields : List BitField) : List Bool :=
  fields.flatMap fun f ↦ bitsOf f.width f.value.toNat

theorem fieldBits_cons (f : BitField) (rest : List BitField) :
    fieldBits (f :: rest) = bitsOf f.width f.value.toNat ++ fieldBits rest := List.flatMap_cons

theorem length_fieldBits (fields : List BitField) :
    (fieldBits fields).length = totalBits fields := by
  simp [fieldBits, totalBits, List.length_flatMap]

theorem Written.writeFields {size : ℕ} (fields : List BitField) :
    ∀ {bs : Klbs} {bits : List Bool}, Written bs size bits →
      bits.length + totalBits fields ≤ 8 * size →
      Written (BitWriter.writeFields fields bs) size (bits ++ fieldBits fields) := by
  induction fields with
  | nil =>
      intro bs bits h _
      rwa [fieldBits, List.flatMap_nil, List.append_nil]
  | cons f rest ih =>
      intro bs bits h hroom
      rw [totalBits, List.map_cons, List.sum_cons, ← totalBits] at hroom
      have hone := h.writeBits (v := f.value.toNat) f.width (by omega)
      have hrest := ih hone (by rw [List.length_append, length_bitsOf]; omega)
      rw [List.append_assoc, ← fieldBits_cons] at hrest
      exact hrest

theorem readFields_eq {buf : List UInt8} (fields : List BitField) :
    ∀ {bs : Klbs} {rest : List Bool}, Faces bs buf (fieldBits fields ++ rest) →
      readFields fields bs = fields.map fun f ↦ f.value.toNat % 2 ^ f.width := by
  induction fields with
  | nil => exact fun _ ↦ rfl
  | cons f fields ih =>
      intro bs rest h
      rw [fieldBits_cons, List.append_assoc] at h
      rw [readFields, h.value_mod, ih h.next, List.map_cons]

/-! ## The flush -/

theorem klbsWriteBufferComplete_aligned {bs : Klbs} (h : bs.regUsed = 0) :
    klbsWriteBufferComplete bs = bs := by
  rw [klbsWriteBufferComplete, if_neg (by omega)]

theorem completeLoop_count (n : ℕ) :
    ∀ {bs : Klbs}, bs.regUsed < 8 → (completeLoop n bs).regUsed < 8 ∧
      bitsWritten (completeLoop n bs) = bitsWritten bs + n := by
  induction n with
  | zero => exact fun h ↦ ⟨h, rfl⟩
  | succ n ih =>
      intro bs h
      obtain ⟨hreg, hcount, -⟩ := klbsWriteBit_count h 0
      obtain ⟨hreg', hcount'⟩ := @ih { klbsWriteBit bs 0 with
        overrun := (klbsWriteBit bs 0).overrun ||
          decide ((klbsWriteBit bs 0).buflenUsed ≥ (klbsWriteBit bs 0).buf.length) } hreg
      have hflag : bitsWritten { klbsWriteBit bs 0 with
          overrun := (klbsWriteBit bs 0).overrun ||
            decide ((klbsWriteBit bs 0).buflenUsed ≥ (klbsWriteBit bs 0).buf.length) } =
          bitsWritten (klbsWriteBit bs 0) := rfl
      refine ⟨hreg', hcount'.trans ?_⟩
      omega

/-- Bits in the register are filled up to a byte, and one more is written. -/
theorem klbsWriteBufferComplete_unaligned {bs : Klbs} (hpos : 0 < bs.regUsed)
    (hreg : bs.regUsed < 8) : (klbsWriteBufferComplete bs).regUsed = 1 := by
  obtain ⟨hreg', hcount⟩ := completeLoop_count (8 + 1 - bs.regUsed) hreg
  rw [klbsWriteBufferComplete, if_pos hpos]
  unfold bitsWritten at hcount
  omega

/-- What a flush is for: the writer stands on a byte boundary, behind as many bytes
as the bits need, another flush does nothing, and the bytes give back the values. -/
def FlushesTo (buf : List UInt8) (fields : List BitField) : Prop :=
  let done := klbsWriteBufferComplete (writeFields fields (klbsWriteSetBuffer buf))
  done.regUsed = 0 ∧ done.buflenUsed = (totalBits fields + 7) / 8 ∧
    klbsWriteBufferComplete done = done ∧
    readFields fields (klbsReadSetBuffer (done.buf.take done.buflenUsed)) =
      fields.map fun f ↦ f.value.toNat % 2 ^ f.width

/-- The flush does what it is for exactly when there is nothing to flush. -/
theorem flushesTo_iff {buf : List UInt8} {fields : List BitField}
    (hfits : totalBits fields ≤ 8 * buf.length) :
    FlushesTo buf fields ↔ totalBits fields % 8 = 0 := by
  have hwritten := (written_start buf).writeFields fields (by simpa using hfits)
  rw [List.nil_append] at hwritten
  have hreg := hwritten.reg_lt
  have hlength := hwritten.length_eq
  rw [length_fieldBits, bitsWritten] at hlength
  unfold FlushesTo
  constructor
  · rintro ⟨haligned, -⟩
    by_contra hrest
    rw [klbsWriteBufferComplete_unaligned (by omega) hreg] at haligned
    cases haligned
  · intro hwhole
    have hzero : (writeFields fields (klbsWriteSetBuffer buf)).regUsed = 0 := by omega
    have hbits := hwritten.bits_eq
    rw [hzero, bitsOf, List.append_nil] at hbits
    have hfaces := faces_start ((writeFields fields (klbsWriteSetBuffer buf)).buf.take
      (writeFields fields (klbsWriteSetBuffer buf)).buflenUsed)
    rw [hbits, ← List.append_nil (fieldBits fields)] at hfaces
    simp only [klbsWriteBufferComplete_aligned hzero]
    exact ⟨hzero, by omega, trivial, readFields_eq fields hfaces⟩

/-- Two fields that end on a byte boundary. -/
theorem flushesTo_byte :
    FlushesTo [0, 0] [⟨0x1234, 12, by decide, by decide⟩, ⟨5, 4, by decide, by decide⟩] :=
  (flushesTo_iff (by decide)).mpr (by decide)

/-- A single bit leaves a bit in the register behind the flush, and the next flush
adds a byte. -/
theorem flush_single_bit :
    ¬FlushesTo [0, 0] [⟨1, 1, by decide, by decide⟩] ∧
      (klbsWriteBufferComplete (writeFields [⟨1, 1, by decide, by decide⟩]
        (klbsWriteSetBuffer [0, 0]))).regUsed = 1 ∧
      (klbsWriteBufferComplete (klbsWriteBufferComplete
        (writeFields [⟨1, 1, by decide, by decide⟩] (klbsWriteSetBuffer [0, 0])))).buflenUsed =
          2 := by
  refine ⟨fun h ↦ ?_, by decide +kernel, by decide +kernel⟩
  exact absurd h.1 (by decide +kernel)

end LtnTsTools.BitWriter
