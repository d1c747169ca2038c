import LtnTsTools.BitString
import LtnTsTools.Crc32

/-!
# What the section checksum detects

The checksum of `crc32.c` as a division of the bits of a message.  Four bytes
behind a message are accepted exactly when they are its checksum, and no burst of
32 bits in an accepted message goes undetected.
-/

namespace LtnTsTools.Crc32

open BitString ShiftRegister

/-- The checksum by its definition: the bits of the message one after the other, from
all ones. -/
def bitwiseCRC32 (buf : List UInt8) : BitVec 32 := divide crcPoly 0xffffffff (bytesToBits buf)

theorem crcPoly_constantOne : ConstantOne crcPoly := rfl

theorem align_byte (b : UInt8) :
    align 32 (bitsOf 8 b.toNat) = b.toBitVec.setWidth 32 <<< (24 : ℕ) := by
  apply BitVec.eq_of_getMsbD_eq
  intro i hi
  rw [getMsbD_align hi, BitVec.getMsbD_eq_getLsbD, BitVec.getLsbD_shiftLeft,
    BitVec.getLsbD_setWidth, List.getD_eq_getElem?_getD]
  by_cases hbyte : i < 8
  · rw [getElem?_bitsOf hbyte]
    simp [hi, show ¬32 - 1 - i < 24 by omega, show 32 - 1 - i - 24 = 7 - i by omega,
      show 7 - i < 32 by omega, show 31 - i < 32 by omega, BitVec.getLsbD]
  · rw [List.getElem?_eq_none (by simpa using hbyte)]
    simp [hi, show 32 - 1 - i < 24 by omega]

theorem divIn_eq_divide (c : BitVec 32) (b : UInt8) :
    divIn c b = divide crcPoly c (bitsOf 8 b.toNat) := by
  have hdiv : divStep = (feed crcPoly · false) := funext divStep_eq
  have hbits := @iterate_feed_align 32 crcPoly c (bitsOf 8 b.toNat) (by simp)
  rw [length_bitsOf] at hbits
  rw [divIn, divByte, hdiv, ← align_byte, hbits]

theorem foldl_crcStep (c : BitVec 32) (buf : List UInt8) :
    buf.foldl crcStep c = divide crcPoly c (bytesToBits buf) := by
  induction buf generalizing c with
  | nil => rfl
  | cons b rest ih =>
      rw [List.foldl_cons, ih, crcStep_eq, divIn_eq_divide, bytesToBits_cons, divide_append]

/-- The table computes the checksum of its definition. -/
theorem getCRC32_eq (buf : List UInt8) : getCRC32 buf = bitwiseCRC32 buf := foldl_crcStep _ buf

theorem checkCRC32_eq_true_iff {buf : List UInt8} (h : 4 ≤ buf.length) :
    checkCRC32 buf = true ↔ bitwiseCRC32 buf = 0#32 := by
  have hremainder : remainder buf = getCRC32 buf := by
    rw [remainder, getCRC32, funext₂ crcStep_eq]
  rw [checkCRC32_iff, and_iff_right h, hremainder, getCRC32_eq]
  rfl

/-! ## The checksum behind a message -/

theorem align_crcBytes (c : BitVec 32) : align 32 (bytesToBits (crcBytes c)) = c := by
  have hzero := foldl_crcBytes c
  rw [foldl_crcStep] at hzero
  exact ((divide_eq_zero_iff crcPoly_constantOne (by simp [crcBytes])).mp hzero).symm

theorem divide_four_eq_zero_iff {c : BitVec 32} {tail : List UInt8} (h : tail.length = 4) :
    divide crcPoly c (bytesToBits tail) = 0#32 ↔ tail = crcBytes c := by
  rw [divide_eq_zero_iff crcPoly_constantOne (by simp [h])]
  constructor
  · intro hc
    rw [← align_crcBytes c] at hc
    apply bytesToBits_inj
    exact (align_injective (by simp [crcBytes, h]) (by simp [crcBytes]) hc).symm
  · rintro rfl
    exact (align_crcBytes c).symm

/-- The table computes the checksum of its definition, and the check accepts a
message with four bytes behind it exactly when they are its checksum, most
significant byte first. -/
theorem crc32_bitwise {buf tail : List UInt8} (htail : tail.length = 4) :
    getCRC32 buf = bitwiseCRC32 buf ∧
      (checkCRC32 (buf ++ tail) = true ↔ tail = crcBytes (getCRC32 buf)) := by
  refine ⟨getCRC32_eq buf, ?_⟩
  rw [checkCRC32_eq_true_iff (by simp [htail]), getCRC32_eq, ← divide_four_eq_zero_iff htail,
    bitwiseCRC32, bytesToBits_append, divide_append]
  rfl

/-- The digits from 1 to 9. -/
theorem crc32_bitwise_digits :
    getCRC32 [0x31, 0x32, 0x33, 0x34, 0x35, 0x36, 0x37, 0x38, 0x39] = 0x0376e6e7 ∧
      bitwiseCRC32 [0x31, 0x32, 0x33, 0x34, 0x35, 0x36, 0x37, 0x38, 0x39] = 0x0376e6e7 ∧
      checkCRC32 ([0x31, 0x32, 0x33, 0x34, 0x35, 0x36, 0x37, 0x38, 0x39] ++
        [0x03, 0x76, 0xe6, 0xe7]) = true := by
  obtain ⟨hget, hcheck⟩ := @crc32_bitwise [0x31, 0x32, 0x33, 0x34, 0x35, 0x36, 0x37, 0x38, 0x39]
    [0x03, 0x76, 0xe6, 0xe7] rfl
  have hcrc : getCRC32 [0x31, 0x32, 0x33, 0x34, 0x35, 0x36, 0x37, 0x38, 0x39] = 0x0376e6e7 := by
    decide +kernel
  exact ⟨hcrc, hget ▸ hcrc, hcheck.mpr (by decide +kernel)⟩

/-! ## Bursts -/

theorem bitsOf_xor (n v v' : ℕ) :
    bitsOf n (v ^^^ v') = List.zipWith (· ^^ ·) (bitsOf n v) (bitsOf n v') := by
  induction n with
  | zero => rfl
  | succ n ih => rw [bitsOf, Nat.testBit_xor, ih, bitsOf, bitsOf, List.zipWith_cons_cons]

theorem bytesToBits_xor {xs ys : List UInt8} (h : xs.length = ys.length) :
    bytesToBits (List.zipWith (· ^^^ ·) xs ys) =
      List.zipWith (· ^^ ·) (bytesToBits xs) (bytesToBits ys) := by
  induction xs generalizing ys with
  | nil => rfl
  | cons x xs ih =>
      cases ys with
      | nil => simp at h
      | cons y ys =>
          calc bytesToBits (List.zipWith (· ^^^ ·) (x :: xs) (y :: ys))
              _ = bitsOf 8 (x ^^^ y).toNat ++ bytesToBits (List.zipWith (· ^^^ ·) xs ys) := by
                rw [List.zipWith_cons_cons, bytesToBits_cons]
              _ = List.zipWith (· ^^ ·) (bitsOf 8 x.toNat) (bitsOf 8 y.toNat) ++
                  List.zipWith (· ^^ ·) (bytesToBits xs) (bytesToBits ys) := by
                rw [UInt8.toNat_xor, bitsOf_xor, ih (by simpa using h)]
              _ = List.zipWith (· ^^ ·) (bytesToBits (x :: xs)) (bytesToBits (y :: ys)) := by
                rw [bytesToBits_cons, bytesToBits_cons, List.zipWith_append (by simp)]

theorem bitwiseCRC32_xor {buf e : List UInt8} (h : e.length = buf.length) :
    bitwiseCRC32 (List.zipWith (· ^^^ ·) buf e) =
      bitwiseCRC32 buf ^^^ divide crcPoly 0#32 (bytesToBits e) := by
  have hsum := @divide_xor 32 crcPoly 0xffffffff 0#32 (bytesToBits buf) (bytesToBits e)
    (by simp [h])
  rw [BitVec.xor_zero] at hsum
  rw [bitwiseCRC32, bytesToBits_xor h.symm, hsum, bitwiseCRC32]

theorem bytesToBits_replicate_zero (n : ℕ) :
    bytesToBits (List.replicate n 0) = List.replicate (8 * n) false := by
  induction n with
  | zero => rfl
  | succ n ih =>
      have hbyte : bitsOf 8 (0 : UInt8).toNat = List.replicate 8 false := rfl
      rw [List.replicate_succ, bytesToBits_cons, ih, hbyte, List.replicate_append_replicate,
        Nat.mul_succ, Nat.add_comm]

/-- An error in some byte is one in some bit. -/
theorem bytesToBits_ne_replicate {e : List UInt8} (h : ∃ b ∈ e, b ≠ 0) :
    bytesToBits e ≠ List.replicate (bytesToBits e).length false := by
  intro hzero
  obtain ⟨b, hb, hne⟩ := h
  rw [length_bytesToBits, ← bytesToBits_replicate_zero] at hzero
  rw [bytesToBits_inj hzero] at hb
  exact hne (List.eq_of_mem_replicate hb)

/-- An accepted message with an error whose bits lie within 32 positions is
rejected. -/
theorem checkCRC32_burst {buf e : List UInt8} {i : ℕ} (hbuf : checkCRC32 buf = true)
    (hlen : e.length = buf.length) (herror : ∃ b ∈ e, b ≠ 0)
    (hburst : WithinBurst i 32 (bytesToBits e)) :
    checkCRC32 (List.zipWith (· ^^^ ·) buf e) = false := by
  have hfour : 4 ≤ buf.length := ((checkCRC32_iff buf).mp hbuf).1
  apply Bool.eq_false_of_not_eq_true
  rw [checkCRC32_eq_true_iff (by simpa [hlen] using hfour), bitwiseCRC32_xor hlen,
    (checkCRC32_eq_true_iff hfour).mp hbuf, BitVec.zero_xor]
  intro hzero
  exact bytesToBits_ne_replicate herror (hburst.eq_replicate_of_divide crcPoly_constantOne hzero)

/-- The first and the last bit of a burst of 32 bits, in the message and in its
checksum. -/
theorem checkCRC32_burst_ends :
    checkCRC32 [0, 0x4e, 0x08, 0xbf, 0xb4] = true ∧
      checkCRC32 (List.zipWith (· ^^^ ·) [0, 0x4e, 0x08, 0xbf, 0xb4] [1, 0, 0, 0, 2]) = false := by
  have haccepted : checkCRC32 [0, 0x4e, 0x08, 0xbf, 0xb4] = true := by decide +kernel
  have hburst : WithinBurst 7 32 (bytesToBits [1, 0, 0, 0, 2]) := by
    intro j hj
    have hbits : ∀ j < 40, (bytesToBits [1, 0, 0, 0, 2]).getD j false = true →
        7 ≤ j ∧ j < 7 + 32 := by decide
    by_cases hin : j < 40
    · exact hbits j hin hj
    · rw [List.getD_eq_getElem?_getD, List.getElem?_eq_none (by simp; omega)] at hj
      cases hj
  exact ⟨haccepted, checkCRC32_burst haccepted rfl ⟨1, by simp, by decide⟩ hburst⟩

end LtnTsTools.Crc32
