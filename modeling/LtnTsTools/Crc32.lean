import LtnTsTools.ShiftRegister

/-!
# Section checksums

The table driven CRC of `crc32.c`, and the division it computes.  The table is
copied as it stands in the source; its entries are eight division steps of their
index, and division is linear, so one table look-up per byte is the division of
that byte.
-/

namespace LtnTsTools.Crc32

/-- `crc32_table`. -/
def crc32Table : List (BitVec 32) := [
    0x00000000, 0x04c11db7, 0x09823b6e, 0x0d4326d9, 0x130476dc, 0x17c56b6b,
    0x1a864db2, 0x1e475005, 0x2608edb8, 0x22c9f00f, 0x2f8ad6d6, 0x2b4bcb61,
    0x350c9b64, 0x31cd86d3, 0x3c8ea00a, 0x384fbdbd, 0x4c11db70, 0x48d0c6c7,
    0x4593e01e, 0x4152fda9, 0x5f15adac, 0x5bd4b01b, 0x569796c2, 0x52568b75,
    0x6a1936c8, 0x6ed82b7f, 0x639b0da6, 0x675a1011, 0x791d4014, 0x7ddc5da3,
    0x709f7b7a, 0x745e66cd, 0x9823b6e0, 0x9ce2ab57, 0x91a18d8e, 0x95609039,
    0x8b27c03c, 0x8fe6dd8b, 0x82a5fb52, 0x8664e6e5, 0xbe2b5b58, 0xbaea46ef,
    0xb7a96036, 0xb3687d81, 0xad2f2d84, 0xa9ee3033, 0xa4ad16ea, 0xa06c0b5d,
    0xd4326d90, 0xd0f37027, 0xddb056fe, 0xd9714b49, 0xc7361b4c, 0xc3f706fb,
    0xceb42022, 0xca753d95, 0xf23a8028, 0xf6fb9d9f, 0xfbb8bb46, 0xff79a6f1,
    0xe13ef6f4, 0xe5ffeb43, 0xe8bccd9a, 0xec7dd02d, 0x34867077, 0x30476dc0,
    0x3d044b19, 0x39c556ae, 0x278206ab, 0x23431b1c, 0x2e003dc5, 0x2ac12072,
    0x128e9dcf, 0x164f8078, 0x1b0ca6a1, 0x1fcdbb16, 0x018aeb13, 0x054bf6a4,
    0x0808d07d, 0x0cc9cdca, 0x7897ab07, 0x7c56b6b0, 0x71159069, 0x75d48dde,
    0x6b93dddb, 0x6f52c06c, 0x6211e6b5, 0x66d0fb02, 0x5e9f46bf, 0x5a5e5b08,
    0x571d7dd1, 0x53dc6066, 0x4d9b3063, 0x495a2dd4, 0x44190b0d, 0x40d816ba,
    0xaca5c697, 0xa864db20, 0xa527fdf9, 0xa1e6e04e, 0xbfa1b04b, 0xbb60adfc,
    0xb6238b25, 0xb2e29692, 0x8aad2b2f, 0x8e6c3698, 0x832f1041, 0x87ee0df6,
    0x99a95df3, 0x9d684044, 0x902b669d, 0x94ea7b2a, 0xe0b41de7, 0xe4750050,
    0xe9362689, 0xedf73b3e, 0xf3b06b3b, 0xf771768c, 0xfa325055, 0xfef34de2,
    0xc6bcf05f, 0xc27dede8, 0xcf3ecb31, 0xcbffd686, 0xd5b88683, 0xd1799b34,
    0xdc3abded, 0xd8fba05a, 0x690ce0ee, 0x6dcdfd59, 0x608edb80, 0x644fc637,
    0x7a089632, 0x7ec98b85, 0x738aad5c, 0x774bb0eb, 0x4f040d56, 0x4bc510e1,
    0x46863638, 0x42472b8f, 0x5c007b8a, 0x58c1663d, 0x558240e4, 0x51435d53,
    0x251d3b9e, 0x21dc2629, 0x2c9f00f0, 0x285e1d47, 0x36194d42, 0x32d850f5,
    0x3f9b762c, 0x3b5a6b9b, 0x0315d626, 0x07d4cb91, 0x0a97ed48, 0x0e56f0ff,
    0x1011a0fa, 0x14d0bd4d, 0x19939b94, 0x1d528623, 0xf12f560e, 0xf5ee4bb9,
    0xf8ad6d60, 0xfc6c70d7, 0xe22b20d2, 0xe6ea3d65, 0xeba91bbc, 0xef68060b,
    0xd727bbb6, 0xd3e6a601, 0xdea580d8, 0xda649d6f, 0xc423cd6a, 0xc0e2d0dd,
    0xcda1f604, 0xc960ebb3, 0xbd3e8d7e, 0xb9ff90c9, 0xb4bcb610, 0xb07daba7,
    0xae3afba2, 0xaafbe615, 0xa7b8c0cc, 0xa379dd7b, 0x9b3660c6, 0x9ff77d71,
    0x92b45ba8, 0x9675461f, 0x8832161a, 0x8cf30bad, 0x81b02d74, 0x857130c3,
    0x5d8a9099, 0x594b8d2e, 0x5408abf7, 0x50c9b640, 0x4e8ee645, 0x4a4ffbf2,
    0x470cdd2b, 0x43cdc09c, 0x7b827d21, 0x7f436096, 0x7200464f, 0x76c15bf8,
    0x68860bfd, 0x6c47164a, 0x61043093, 0x65c52d24, 0x119b4be9, 0x155a565e,
    0x18197087, 0x1cd86d30, 0x029f3d35, 0x065e2082, 0x0b1d065b, 0x0fdc1bec,
    0x3793a651, 0x3352bbe6, 0x3e119d3f, 0x3ad08088, 0x2497d08d, 0x2056cd3a,
    0x2d15ebe3, 0x29d4f654, 0xc5a92679, 0xc1683bce, 0xcc2b1d17, 0xc8ea00a0,
    0xd6ad50a5, 0xd26c4d12, 0xdf2f6bcb, 0xdbee767c, 0xe3a1cbc1, 0xe760d676,
    0xea23f0af, 0xeee2ed18, 0xf0a5bd1d, 0xf464a0aa, 0xf9278673, 0xfde69bc4,
    0x89b8fd09, 0x8d79e0be, 0x803ac667, 0x84fbdbd0, 0x9abc8bd5, 0x9e7d9662,
    0x933eb0bb, 0x97ffad0c, 0xafb010b1, 0xab710d06, 0xa6322bdf, 0xa2f33668,
    0xbcb4666d, 0xb8757bda, 0xb5365d03, 0xb1f740b4
]

/-- `crc = (crc << 8) ^ crc32_table[(crc >> 24) ^ (*p)]`. -/
def crcStep (crc : BitVec 32) (b : UInt8) : BitVec 32 :=
  (crc <<< 8) ^^^ crc32Table.getD ((crc >>> 24) ^^^ b.toBitVec.setWidth 32).toNat 0

/-- `ltntstools_checkCRC32`; `true` is the return value 0. -/
def checkCRC32 (buf : List UInt8) : Bool :=
  if buf.length < 4 then false else buf.foldl crcStep 0xffffffff == 0

/-- `ltntstools_getCRC32`, on at least one byte. -/
def getCRC32 (buf : List UInt8) : BitVec 32 := buf.foldl crcStep 0xffffffff

/-- A checksum as it is stored behind its message. -/
def crcBytes (crc : BitVec 32) : List UInt8 :=
  [UInt8.ofBitVec ((crc >>> 24).setWidth 8), UInt8.ofBitVec ((crc >>> 16).setWidth 8),
    UInt8.ofBitVec ((crc >>> 8).setWidth 8), UInt8.ofBitVec (crc.setWidth 8)]

/-! ## The division behind the table -/

/-- One division step by the polynomial `0x04c11db7`. -/
def divStep (c : BitVec 32) : BitVec 32 :=
  if c.msb then (c <<< 1) ^^^ 0x04c11db7#32 else c <<< 1

/-- Eight division steps. -/
def divByte (c : BitVec 32) : BitVec 32 := divStep^[8] c

def divIn (c : BitVec 32) (b : UInt8) : BitVec 32 :=
  divByte (c ^^^ (b.toBitVec.setWidth 32 <<< (24 : ℕ)))

/-- The remainder of a message, most significant bit first, from all ones. -/
def remainder (buf : List UInt8) : BitVec 32 := buf.foldl divIn 0xffffffff

/-- The polynomial of `crc32.c`. -/
def crcPoly : BitVec 32 := 0x04c11db7

theorem divStep_eq (c : BitVec 32) : divStep c = ShiftRegister.feed crcPoly c false := by
  rw [ShiftRegister.feed, Bool.xor_false]
  rfl

theorem divStep_xor (x y : BitVec 32) : divStep (x ^^^ y) = divStep x ^^^ divStep y := by
  rw [divStep_eq, divStep_eq, divStep_eq, ← ShiftRegister.feed_xor, Bool.xor_self]

theorem divByte_xor (x y : BitVec 32) : divByte (x ^^^ y) = divByte x ^^^ divByte y := by
  have hiter : ∀ n : ℕ, divStep^[n] (x ^^^ y) = divStep^[n] x ^^^ divStep^[n] y := by
    intro n
    induction n with
    | zero => rfl
    | succ n ih => simp only [Function.iterate_succ_apply', ih, divStep_xor]
  exact hiter 8

/-- A remainder whose top bits are clear only moves up. -/
theorem iterate_divStep_of_clear (x : BitVec 32) :
    ∀ n, (∀ i < n, x.getMsbD i = false) → divStep^[n] x = x <<< n := by
  intro n
  induction n with
  | zero => simp
  | succ n ih =>
      intro hclear
      have hmsb : (x <<< n).msb = false := by
        rw [BitVec.msb_eq_getMsbD_zero, BitVec.getMsbD_shiftLeft]
        simpa using hclear n (by omega)
      rw [Function.iterate_succ_apply', ih fun i hi ↦ hclear i (by omega), divStep, hmsb]
      simp [BitVec.shiftLeft_add]

theorem crc32Table_eq : ∀ i < 256, crc32Table.getD i 0 = divByte (BitVec.ofNat 32 i <<< 24) := by
  decide +kernel

/-- The top byte and the rest of a register. -/
theorem split_top (c : BitVec 32) :
    c = ((c >>> 24) <<< 24) ^^^ (c &&& 0xffffff#32) := by
  apply BitVec.eq_of_getLsbD_eq
  intro i hi
  have hmask : (0xffffff#32).getLsbD i = decide (i < 24) := by
    interval_cases i <;> rfl
  rw [BitVec.getLsbD_xor, BitVec.getLsbD_shiftLeft, BitVec.getLsbD_ushiftRight,
    BitVec.getLsbD_and, hmask]
  by_cases h : i < 24
  · simp [h]
  · simp [h, hi, show 24 + (i - 24) = i by omega]

theorem divByte_low (c : BitVec 32) : divByte (c &&& 0xffffff#32) = c <<< 8 := by
  have hmask : ∀ j < 32, (0xffffff#32).getLsbD j = decide (j < 24) := by decide
  have htop : ∀ j < 8, (0xffffff#32).getMsbD j = false := by decide
  rw [divByte, iterate_divStep_of_clear]
  · apply BitVec.eq_of_getLsbD_eq
    intro i hi
    have hin : decide (i - 8 < 24) = true := by
      rw [decide_eq_true_iff]
      omega
    rw [BitVec.getLsbD_shiftLeft, BitVec.getLsbD_shiftLeft, BitVec.getLsbD_and,
      hmask _ (by omega), hin, Bool.and_true]
  · intro i hi
    rw [BitVec.getMsbD_and, htop i hi, Bool.and_false]

theorem crcStep_eq (c : BitVec 32) (b : UInt8) : crcStep c b = divIn c b := by
  have hindex : ((c >>> 24) ^^^ b.toBitVec.setWidth 32).toNat < 256 := by
    rw [BitVec.toNat_xor]
    apply Nat.xor_lt_two_pow (n := 8)
    · have hc := c.isLt
      rw [BitVec.toNat_ushiftRight, Nat.shiftRight_eq_div_pow]
      omega
    · have hb := b.toBitVec.isLt
      rw [BitVec.toNat_setWidth]
      omega
  -- the register is the indexed byte on top of its three low bytes
  have hsplit : c ^^^ (b.toBitVec.setWidth 32 <<< 24) =
      (((c >>> 24) ^^^ b.toBitVec.setWidth 32) <<< 24) ^^^ (c &&& 0xffffff#32) := by
    rw [BitVec.shiftLeft_xor_distrib]
    nth_rewrite 1 [split_top c]
    rw [BitVec.xor_assoc, BitVec.xor_assoc, BitVec.xor_comm (c &&& _)]
  calc crcStep c b
      _ = c <<< 8 ^^^ divByte (((c >>> 24) ^^^ b.toBitVec.setWidth 32) <<< 24) := by
        rw [crcStep, crc32Table_eq _ hindex, BitVec.ofNat_toNat, BitVec.setWidth_eq]
      _ = divByte (((c >>> 24) ^^^ b.toBitVec.setWidth 32) <<< 24) ^^^
          divByte (c &&& 0xffffff#32) := by rw [divByte_low, BitVec.xor_comm]
      _ = divIn c b := by rw [← divByte_xor, ← hsplit, divIn]

/-- The check accepts exactly the messages of at least four bytes that leave no
remainder. -/
theorem checkCRC32_iff (buf : List UInt8) :
    checkCRC32 buf = true ↔ 4 ≤ buf.length ∧ remainder buf = 0 := by
  have hsame : buf.foldl crcStep 0xffffffff = remainder buf := by
    rw [remainder, funext₂ crcStep_eq]
  unfold checkCRC32
  rw [hsame]
  split_ifs with h
  · simp
    omega
  · simp
    omega

/-! ## A checksum behind its message -/

/-- The top byte of the register cancels itself. -/
theorem crcStep_top (c : BitVec 32) {b : UInt8} (hb : b.toBitVec = (c >>> 24).setWidth 8) :
    crcStep c b = c <<< 8 := by
  have hwide : b.toBitVec.setWidth 32 = c >>> 24 := by
    rw [hb]
    apply BitVec.eq_of_toNat_eq
    have hc := c.isLt
    simp only [BitVec.toNat_setWidth, BitVec.toNat_ushiftRight, Nat.shiftRight_eq_div_pow]
    omega
  have hzero : crc32Table.getD (0#32).toNat 0 = 0#32 := rfl
  rw [crcStep, hwide, BitVec.xor_self, hzero, BitVec.xor_zero]

/-- The bytes of the register come to its top one after the other. -/
theorem top_shiftLeft (c : BitVec 32) {k : ℕ} (hk : k ≤ 24) :
    ((c <<< k : BitVec 32) >>> (24 : ℕ)).setWidth 8 = (c >>> (24 - k : ℕ)).setWidth 8 := by
  apply BitVec.eq_of_getLsbD_eq
  intro i hi
  simp only [BitVec.getLsbD_setWidth, BitVec.getLsbD_ushiftRight, BitVec.getLsbD_shiftLeft]
  simp [hi, show 24 + i < 32 by omega, show ¬24 + i < k by omega,
    show 24 + i - k = 24 - k + i by omega]

theorem foldl_crcBytes (c : BitVec 32) : (crcBytes c).foldl crcStep c = 0 := by
  have h1 := @crcStep_top c (UInt8.ofBitVec ((c >>> (24 : ℕ)).setWidth 8)) rfl
  have h2 := @crcStep_top (c <<< (8 : ℕ)) (UInt8.ofBitVec ((c >>> (16 : ℕ)).setWidth 8))
    (top_shiftLeft c (k := 8) (by norm_num)).symm
  have h3 := @crcStep_top (c <<< (16 : ℕ)) (UInt8.ofBitVec ((c >>> (8 : ℕ)).setWidth 8))
    (top_shiftLeft c (k := 16) (by norm_num)).symm
  have h4 := @crcStep_top (c <<< (24 : ℕ)) (UInt8.ofBitVec (c.setWidth 8))
    (top_shiftLeft c (k := 24) le_rfl).symm
  rw [← BitVec.shiftLeft_add] at h2 h3 h4
  simp only [crcBytes, List.foldl_cons, List.foldl_nil]
  rw [h1, h2, h3, h4]
  apply BitVec.eq_of_getLsbD_eq
  intro i hi
  simp [hi]

/-- A message with its own checksum behind it passes the check. -/
theorem checkCRC32_append (buf : List UInt8) :
    checkCRC32 (buf ++ crcBytes (getCRC32 buf)) = true := by
  have hlen : ¬(buf ++ crcBytes (getCRC32 buf)).length < 4 := by
    simp [crcBytes]
  rw [checkCRC32, if_neg hlen, List.foldl_append, ← getCRC32, foldl_crcBytes]
  rfl

end LtnTsTools.Crc32
