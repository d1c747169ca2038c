import LtnTsTools.BitReader

/-!
# The bit writer

The writing half of `klbitstream_readwriter.h`.  Bits are clocked into a register
from below and every eighth bit moves it to the buffer, so that what has been
written is a string of bits: the bytes in the buffer, then the register.
-/

namespace LtnTsTools.BitWriter

open BitReader BitString

/-- `klbs_write_set_buffer`. -/
def klbsWriteSetBuffer (buf : List UInt8) : Klbs := klbsReadSetBuffer buf

/-- `klbs_write_bit`; a byte behind the end of the buffer is lost here. -/
def klbsWriteBit (bs : Klbs) (bit : ℕ) : Klbs :=
  let bs := if bs.buflenUsed ≥ bs.buf.length then { bs with overrun := true } else bs
  let bs := if bs.regUsed < 8 then
      { bs with reg := (bs.reg <<< 1) % 256 ||| bit % 2, regUsed := bs.regUsed + 1 }
    else bs
  if bs.regUsed = 8 then
    { bs with
      overrun := bs.overrun || decide (bs.buflenUsed ≥ bs.buf.length)
      buf := bs.buf.set bs.buflenUsed (UInt8.ofNat bs.reg)
      buflenUsed := bs.buflenUsed + 1
      regUsed := 0 }
  else bs

/-- `klbs_write_bits`. -/
def klbsWriteBits (bs : Klbs) (bits : ℕ) : ℕ → Klbs
  | 0 => bs
  | n + 1 =>
      let bs := klbsWriteBit bs (bits >>> n)
      klbsWriteBits
        { bs with overrun := bs.overrun || decide (bs.buflenUsed ≥ bs.buf.length) } bits n

def bitsWritten (bs : Klbs) : ℕ := 8 * bs.buflenUsed + bs.regUsed

theorem klbsWriteBit_count {bs : Klbs} (h : bs.regUsed < 8) (bit : ℕ) :
    (klbsWriteBit bs bit).regUsed < 8 ∧ bitsWritten (klbsWriteBit bs bit) = bitsWritten bs + 1 ∧
      (klbsWriteBit bs bit).buf.length = bs.buf.length := by
  have hflag : ∃ overrun, (if bs.buflenUsed ≥ bs.buf.length then { bs with overrun := true }
      else bs) = { bs with overrun := overrun } := by
    split_ifs
    · exact ⟨true, rfl⟩
    · exact ⟨bs.overrun, rfl⟩
  obtain ⟨overrun, heq⟩ := hflag
  unfold klbsWriteBit bitsWritten
  simp only [heq, if_pos h]
  split_ifs with hfull
  · exact ⟨by simp, by simp only; omega, List.length_set⟩
  · exact ⟨by simp only; omega, by simp only; omega, rfl⟩

/-- The writer has put a string of bits into a buffer of `size` bytes. -/
structure Written (bs : Klbs) (size : ℕ) (bits : List Bool) : Prop where
  size_eq : bs.buf.length = size
  reg_lt : bs.regUsed < 8
  used_le : bs.buflenUsed ≤ size
  bits_eq : bytesToBits (bs.buf.take bs.buflenUsed) ++ bitsOf bs.regUsed bs.reg = bits

theorem written_start (buf : List UInt8) : Written (klbsWriteSetBuffer buf) buf.length [] :=
  ⟨rfl, by simp [klbsWriteSetBuffer, klbsReadSetBuffer], Nat.zero_le _, rfl⟩

theorem Written.length_eq {bs : Klbs} {size : ℕ} {bits : List Bool} (h : Written bs size bits) :
    bits.length = bitsWritten bs := by
  rw [← h.bits_eq, List.length_append, length_bytesToBits, length_bitsOf,
    List.length_take_of_le (by rw [h.size_eq]; exact h.used_le), bitsWritten]

theorem Written.withFlag {bs : Klbs} {size : ℕ} {bits : List Bool} (h : Written bs size bits)
    (overrun : Bool) : Written { bs with overrun := overrun } size bits :=
  ⟨h.size_eq, h.reg_lt, h.used_le, h.bits_eq⟩

theorem bitsOf_shifted {n : ℕ} (reg bit : ℕ) (hn : n < 8) :
    bitsOf (n + 1) ((reg <<< 1) % 256 ||| bit % 2) = bitsOf n reg ++ [bit.testBit 0] := by
  have hlow : bit % 2 = (bit.testBit 0).toNat := by rw [Nat.toNat_testBit, pow_zero, Nat.div_one]
  have hor : (reg <<< 1) % 256 ||| bit % 2 = (reg <<< 1 ||| bit % 2) % 2 ^ 8 := by
    rw [Nat.or_mod_two_pow]
    congr 1
    omega
  have hsum : reg <<< 1 ||| bit % 2 = 2 * reg + (bit.testBit 0).toNat := by
    rw [← hlow, ← Nat.shiftLeft_add_eq_or_of_lt (i := 1) (Nat.mod_lt bit (by norm_num)),
      Nat.shiftLeft_eq]
    omega
  rw [hor, bitsOf_mod _ (by omega), hsum, bitsOf_snoc]

theorem take_set {α : Type*} (l : List α) (i : ℕ) (a : α) (hi : i < l.length) :
    (l.set i a).take (i + 1) = l.take i ++ [a] := by
  rw [List.take_add_one, List.take_set_of_le le_rfl, List.getElem?_set_self hi]
  rfl

theorem Written.writeBit {bs : Klbs} {size : ℕ} {bits : List Bool} (h : Written bs size bits)
    (bit : ℕ) (hroom : bits.length < 8 * size) :
    Written (klbsWriteBit bs bit) size (bits ++ [bit.testBit 0]) := by
  have hreg := h.reg_lt
  have hlength := h.length_eq
  unfold bitsWritten at hlength
  have hused : bs.buflenUsed < bs.buf.length := by
    rw [h.size_eq]
    omega
  have hshift := bitsOf_shifted bs.reg bit hreg
  have hbits : bytesToBits (bs.buf.take bs.buflenUsed) ++
      bitsOf (bs.regUsed + 1) ((bs.reg <<< 1) % 256 ||| bit % 2) = bits ++ [bit.testBit 0] := by
    rw [hshift, ← List.append_assoc, h.bits_eq]
  unfold klbsWriteBit
  simp only [if_neg (Nat.not_le.mpr hused), if_pos hreg]
  split_ifs with hfull
  · -- the register is full and moves to the buffer
    refine ⟨by simp only [List.length_set, h.size_eq], by simp, ?_, ?_⟩
    · simp only
      have hsize := h.size_eq
      omega
    · simp only [bitsOf, List.append_nil]
      have hbyte : (UInt8.ofNat ((bs.reg <<< 1) % 256 ||| bit % 2)).toNat =
          ((bs.reg <<< 1) % 256 ||| bit % 2) % 2 ^ 8 := UInt8.toNat_ofNat
      calc bytesToBits ((bs.buf.set bs.buflenUsed
            (UInt8.ofNat ((bs.reg <<< 1) % 256 ||| bit % 2))).take (bs.buflenUsed + 1))
          _ = bytesToBits (bs.buf.take bs.buflenUsed) ++
              bitsOf 8 ((bs.reg <<< 1) % 256 ||| bit % 2) := by
            rw [take_set _ _ _ hused, bytesToBits_append, bytesToBits_cons, bytesToBits_nil,
              List.append_nil, hbyte, bitsOf_mod _ le_rfl]
          _ = bits ++ [bit.testBit 0] := by rw [← hbits, hfull]
  · exact ⟨h.size_eq, by simp only; omega, h.used_le, hbits⟩

theorem Written.writeBits {size v : ℕ} (n : ℕ) :
    ∀ {bs : Klbs} {bits : List Bool}, Written bs size bits → bits.length + n ≤ 8 * size →
      Written (klbsWriteBits bs v n) size (bits ++ bitsOf n v) := by
  induction n with
  | zero =>
      intro bs bits h _
      rw [bitsOf, List.append_nil]
      exact h
  | succ n ih =>
      intro bs bits h hroom
      have hone := h.writeBit (v >>> n) (by omega)
      have hmore := ih (hone.withFlag ((klbsWriteBit bs (v >>> n)).overrun ||
        decide ((klbsWriteBit bs (v >>> n)).buflenUsed ≥ (klbsWriteBit bs (v >>> n)).buf.length)))
        (by rw [List.length_append, List.length_singleton]; omega)
      rw [Nat.testBit_shiftRight, Nat.add_zero, List.append_assoc, List.singleton_append] at hmore
      exact hmore

-- from here on writes are followed through the lemma above only
attribute [irreducible] klbsWriteBits

end LtnTsTools.BitWriter
