import LtnTsTools.BitWriter

/-!
# Peeking and copying

`klbs_peek_bits`, `klbs_bitmove` and `klbs_bitcopy` of `klbitstream_readwriter.h`.
Both the peek and the copy work on a copy of the source and should leave the source
itself alone.  Their guards compare the bytes used plus a number of bits with a
number of bytes, and set the flag of the source long before its end.
-/

namespace LtnTsTools.BitCopy

open BitReader BitString BitWriter

/-- `klbs_peek_bits`: the value, and the context it was called with; the sum is one
of 32-bit numbers. -/
def klbsPeekBits (bs : Klbs) (bitcount : ℕ) : ℕ × Klbs :=
  let bs := if (bs.buflenUsed + bitcount) % 2 ^ 32 ≥ bs.buf.length then
      { bs with overrun := true }
    else bs
  ((klbsReadBits bs bitcount).1, bs)

/-- `klbs_bitmove`: destination and source. -/
def klbsBitmove : ℕ → Klbs → Klbs → Klbs × Klbs
  | 0, dst, src => (dst, src)
  | n + 1, dst, src =>
      let r := klbsReadBit src
      klbsBitmove n (klbsWriteBit dst r.1) r.2

/-- `klbs_bitcopy`: destination and source. -/
def klbsBitcopy (dst src : Klbs) (bits : ℕ) : Klbs × Klbs :=
  let copy := src
  if src.buflenUsed + bits ≥ src.buf.length ∨ dst.buflenUsed + bits ≥ dst.buf.length then
    ((klbsBitmove bits { dst with overrun := true } copy).1, { src with overrun := true })
  else ((klbsBitmove bits dst copy).1, src)

theorem readBit_faces {bs : Klbs} {buf : List UInt8} {b : Bool} {rest : List Bool}
    (h : Faces bs buf (b :: rest)) :
    (klbsReadBit bs).1 = b.toNat ∧ Faces (klbsReadBit bs).2 buf rest := by
  obtain ⟨pos, hstands, hdrop, hlen⟩ := h
  obtain ⟨hvalue, hnext⟩ := readBit_stands hstands
  have hbit : (bytesToBits buf).getD pos false = b := by
    rw [List.getD_eq_getElem?_getD, ← Nat.add_zero pos, ← List.getElem?_drop, hdrop]
    rfl
  refine ⟨by rw [hvalue, bitAt_eq, hbit], pos + 1, hnext, ?_, ?_⟩
  · rw [← List.drop_drop, hdrop, List.drop_one, List.tail_cons]
  · rw [List.length_cons] at hlen
    omega

/-- A move appends the next bits of the source to the destination. -/
theorem klbsBitmove_written {buf : List UInt8} {size : ℕ} {rest : List Bool}
    (chunk : List Bool) :
    ∀ {dst src : Klbs} {old : List Bool}, Faces src buf (chunk ++ rest) → Written dst size old →
      old.length + chunk.length ≤ 8 * size →
      Written (klbsBitmove chunk.length dst src).1 size (old ++ chunk) := by
  induction chunk with
  | nil =>
      intro dst src old _ hdst _
      rwa [List.append_nil]
  | cons b chunk ih =>
      intro dst src old hsrc hdst hroom
      obtain ⟨hvalue, hnext⟩ := readBit_faces hsrc
      rw [List.length_cons] at hroom
      have hbit : b.toNat.testBit 0 = b := by cases b <;> rfl
      have hone := hdst.writeBit b.toNat (by omega)
      rw [hbit] at hone
      have hmore := ih hnext hone (by rw [List.length_append, List.length_singleton]; omega)
      rw [List.append_assoc, List.singleton_append] at hmore
      rw [List.length_cons, klbsBitmove, hvalue]
      exact hmore

theorem setOverrun_eq_iff (bs : Klbs) : { bs with overrun := true } = bs ↔ bs.overrun = true := by
  constructor
  · intro h
    rw [← h]
  · intro h
    rw [← h]

theorem klbsPeekBits_value {bs : Klbs} {buf : List UInt8} {rest : List Bool}
    (h : Faces bs buf rest) (n : ℕ) : (klbsPeekBits bs n).1 = (klbsReadBits bs n).1 := by
  obtain ⟨pos, hstands, -⟩ := h
  rw [klbsPeekBits]
  split_ifs
  · exact ((hstands.withFlags true bs.truncated).readBits n).1.trans (hstands.readBits n).1.symm
  · rfl

theorem klbsPeekBits_keeps_iff (bs : Klbs) (n : ℕ) : (klbsPeekBits bs n).2 = bs ↔
    bs.overrun = true ∨ (bs.buflenUsed + n) % 2 ^ 32 < bs.buf.length := by
  rw [klbsPeekBits]
  split_ifs with hguard
  · rw [setOverrun_eq_iff]
    exact (or_iff_left (by omega)).symm
  · exact iff_of_true rfl (Or.inr (by omega))

theorem klbsBitcopy_keeps_iff (dst src : Klbs) (n : ℕ) : (klbsBitcopy dst src n).2 = src ↔
    src.overrun = true ∨
      src.buflenUsed + n < src.buf.length ∧ dst.buflenUsed + n < dst.buf.length := by
  rw [klbsBitcopy]
  split_ifs with hguard
  · rw [setOverrun_eq_iff]
    exact (or_iff_left (by omega)).symm
  · exact iff_of_true rfl (Or.inr (by omega))

theorem klbsBitcopy_written {dst src : Klbs} {buf : List UInt8} {size : ℕ}
    {old chunk rest : List Bool} (hsrc : Faces src buf (chunk ++ rest))
    (hdst : Written dst size old)
    (hroom : old.length + chunk.length ≤ 8 * size) :
    Written (klbsBitcopy dst src chunk.length).1 size (old ++ chunk) := by
  rw [klbsBitcopy]
  split_ifs
  · exact klbsBitmove_written chunk hsrc (hdst.withFlag true) hroom
  · exact klbsBitmove_written chunk hsrc hdst hroom

/-- A peek gives what a read would and changes nothing; a copy changes nothing of its
source and appends the bits to its destination. -/
def LeaveSource (src dst : Klbs) (size : ℕ) (old chunk : List Bool) : Prop :=
  (klbsPeekBits src chunk.length).1 = (klbsReadBits src chunk.length).1 ∧
    (klbsPeekBits src chunk.length).2 = src ∧
    (klbsBitcopy dst src chunk.length).2 = src ∧
    Written (klbsBitcopy dst src chunk.length).1 size (old ++ chunk)

/-- Within the bits left in both buffers, the source is left alone exactly when its
flag is set anyway or the number of bits is less than the number of bytes left in
both. -/
theorem leaveSource_iff {src dst : Klbs} {buf : List UInt8} {size : ℕ}
    {old chunk rest : List Bool} (hsrc : Faces src buf (chunk ++ rest))
    (hdst : Written dst size old) (hroom : old.length + chunk.length ≤ 8 * size) :
    LeaveSource src dst size old chunk ↔
      src.overrun = true ∨
        src.buflenUsed + chunk.length < src.buf.length ∧
          dst.buflenUsed + chunk.length < dst.buf.length := by
  have hvalue := klbsPeekBits_value hsrc chunk.length
  have happend := klbsBitcopy_written hsrc hdst hroom
  unfold LeaveSource
  rw [klbsPeekBits_keeps_iff, klbsBitcopy_keeps_iff]
  constructor
  · exact fun h ↦ h.2.2.1
  · intro hkeep
    refine ⟨hvalue, ?_, hkeep, happend⟩
    rcases hkeep with hflag | ⟨hleft, -⟩
    · exact Or.inl hflag
    · exact Or.inr ((Nat.mod_le _ _).trans_lt hleft)

/-- Two bits of a source of four bytes. -/
theorem leaveSource_two_bits :
    LeaveSource (klbsReadSetBuffer [0x9f, 2, 3, 4]) (klbsWriteSetBuffer [0, 0, 0, 0]) 4 []
      [true, false] := by
  have hbits : bytesToBits [0x9f, 2, 3, 4] =
      [true, false] ++ (bytesToBits [0x9f, 2, 3, 4]).drop 2 := by decide
  have hsrc := faces_start [0x9f, 2, 3, 4]
  rw [hbits] at hsrc
  exact (leaveSource_iff hsrc (written_start [0, 0, 0, 0]) (by decide)).mpr (Or.inr (by decide))

/-- A byte is peeked and copied at the start of a source of four bytes, and the source
is flagged. -/
theorem leaveSource_fails_byte :
    ¬LeaveSource (klbsReadSetBuffer [0x9f, 2, 3, 4]) (klbsWriteSetBuffer [0, 0, 0, 0]) 4 []
        (bytesToBits [0x9f]) ∧
      (klbsPeekBits (klbsReadSetBuffer [0x9f, 2, 3, 4]) 8).2.overrun = true ∧
      (klbsBitcopy (klbsWriteSetBuffer [0, 0, 0, 0]) (klbsReadSetBuffer [0x9f, 2, 3, 4])
        8).2.overrun = true := by
  refine ⟨fun h ↦ ?_, by decide +kernel, by decide +kernel⟩
  exact absurd h.2.1 (by decide +kernel)

end LtnTsTools.BitCopy
