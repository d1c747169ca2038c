import LtnTsTools.BitString

/-!
# The bit reader

The reading half of `klbitstream_readwriter.h`, in the configuration the library
is built with: an overrun is noted and reading goes on.  What lies behind the
buffer is not known to the program; a byte read from there, which always sets
the flag, is zero here.
-/

namespace LtnTsTools.BitReader

open BitString

/-- `struct klbs_context_s` in read mode. -/
structure Klbs where
  buf : List UInt8
  buflenUsed : ℕ
  regUsed : ℕ
  reg : ℕ
  overrun : Bool
  truncated : Bool
deriving DecidableEq

/-- `klbs_init` and `klbs_read_set_buffer`. -/
def klbsReadSetBuffer (buf : List UInt8) : Klbs where
  buf := buf
  buflenUsed := 0
  regUsed := 0
  reg := 0
  overrun := false
  truncated := false

/-- `klbs_get_byte_count_free`, a difference of 32-bit numbers. -/
def klbsGetByteCountFree (bs : Klbs) : ℕ :=
  (((bs.buf.length : ℤ) - bs.buflenUsed) % 2 ^ 32).toNat

def nextByte (bs : Klbs) : ℕ := (bs.buf.getD bs.buflenUsed 0).toNat

/-- `klbs_read_bit`: the bit, and the context after it. -/
def klbsReadBit (bs : Klbs) : ℕ × Klbs :=
  let bs := if bs.buflenUsed ≤ bs.buf.length then bs else { bs with overrun := true }
  let bs := if bs.regUsed = 0 then
      { bs with
        overrun := bs.overrun || decide (bs.buflenUsed ≥ bs.buf.length)
        reg := nextByte bs
        buflenUsed := bs.buflenUsed + 1
        regUsed := 8 }
    else bs
  (if bs.reg &&& 0x80 = 0 then 0 else 1,
    { bs with reg := (bs.reg <<< 1) % 256, regUsed := bs.regUsed - 1 })

/-- `klbs_read_byte_aligned`. -/
def klbsReadByteAligned (bs : Klbs) : ℕ × Klbs :=
  (nextByte bs, { bs with
    overrun := bs.overrun || decide (bs.buflenUsed ≥ bs.buf.length)
    buflenUsed := bs.buflenUsed + 1 })

/-- The loop of `klbs_read_bits`. -/
def readBitsLoop : ℕ → ℕ → Klbs → ℕ × Klbs
  | 0, bits, bs => (bits, bs)
  | n + 1, bits, bs =>
      let r := klbsReadBit bs
      readBitsLoop n (bits <<< 1 ||| r.1)
        { r.2 with overrun := r.2.overrun || decide (r.2.buflenUsed ≥ r.2.buf.length) }

/-- `klbs_read_bits`. -/
def klbsReadBits (bs : Klbs) (bitcount : ℕ) : ℕ × Klbs :=
  if bitcount = 8 ∧ bs.regUsed = 0 then klbsReadByteAligned bs
  else readBitsLoop bitcount 0 bs

/-- Reading `n` bytes one after the other. -/
def readBytes : ℕ → Klbs → List UInt8 × Klbs
  | 0, bs => ([], bs)
  | n + 1, bs =>
      let r := klbsReadBits bs 8
      let rest := readBytes n r.2
      (UInt8.ofNat r.1 :: rest.1, rest.2)

/-! ## Positions -/

/-- Bit `i` of a buffer, the most significant bit of each byte first. -/
def bitAt (buf : List UInt8) (i : ℕ) : ℕ := (buf.getD (i / 8) 0).toNat / 2 ^ (7 - i % 8) % 2

/-- The number in `n` bits from `pos` on. -/
def fieldAt (buf : List UInt8) (pos : ℕ) : ℕ → ℕ
  | 0 => 0
  | n + 1 => bitAt buf pos * 2 ^ n + fieldAt buf (pos + 1) n

/-- The reader stands in front of bit `pos` of `buf`, or of what lies behind it:
the bytes it has loaded end with the one that holds the bit before, and the
register holds what is left of that one. -/
structure Stands (bs : Klbs) (buf : List UInt8) (pos : ℕ) : Prop where
  buf_eq : bs.buf = buf
  used_eq : bs.buflenUsed * 8 = pos + bs.regUsed
  reg_lt : bs.regUsed < 8
  reg_eq : 0 < bs.regUsed →
    bs.reg = (buf.getD (pos / 8) 0).toNat * 2 ^ (pos % 8) % 256

theorem stands_start (buf : List UInt8) : Stands (klbsReadSetBuffer buf) buf 0 :=
  ⟨rfl, rfl, by simp [klbsReadSetBuffer], by simp [klbsReadSetBuffer]⟩

theorem Stands.withFlags {bs : Klbs} {buf : List UInt8} {pos : ℕ} (h : Stands bs buf pos)
    (overrun truncated : Bool) :
    Stands { bs with overrun := overrun, truncated := truncated } buf pos :=
  ⟨h.buf_eq, h.used_eq, h.reg_lt, h.reg_eq⟩

theorem Stands.regUsed_eq_zero {bs : Klbs} {buf : List UInt8} {pos : ℕ} (h : Stands bs buf pos)
    (hpos : pos % 8 = 0) : bs.regUsed = 0 := by
  have hused := h.used_eq
  have hreg := h.reg_lt
  omega

theorem Stands.buflenUsed_eq {bs : Klbs} {buf : List UInt8} {pos : ℕ} (h : Stands bs buf pos)
    (hpos : pos % 8 = 0) : bs.buflenUsed = pos / 8 := by
  have hused := h.used_eq
  have hreg := h.regUsed_eq_zero hpos
  omega

theorem Stands.byteCountFree {bs : Klbs} {buf : List UInt8} {pos : ℕ} (h : Stands bs buf pos)
    (hpos : pos % 8 = 0) (hend : pos ≤ 8 * buf.length) (hlen : buf.length < 2 ^ 32) :
    klbsGetByteCountFree bs = buf.length - pos / 8 := by
  rw [klbsGetByteCountFree, h.buf_eq, h.buflenUsed_eq hpos]
  omega

theorem byteCountFree_start {buf : List UInt8} (hlen : buf.length < 2 ^ 32) :
    klbsGetByteCountFree (klbsReadSetBuffer buf) = buf.length := by
  rw [(stands_start buf).byteCountFree (by norm_num) (Nat.zero_le _) hlen]
  omega

/-- The top bit of a register that holds a byte moved up by `k`. -/
theorem top_bit : ∀ b < 256, ∀ k < 8,
    (if b * 2 ^ k % 256 &&& 0x80 = 0 then 0 else 1) = b / 2 ^ (7 - k) % 2 := by
  decide +kernel

theorem readBit_stands {bs : Klbs} {buf : List UInt8} {pos : ℕ} (h : Stands bs buf pos) :
    (klbsReadBit bs).1 = bitAt buf pos ∧ Stands (klbsReadBit bs).2 buf (pos + 1) := by
  have hflag : ∃ overrun, (if bs.buflenUsed ≤ bs.buf.length then bs
      else { bs with overrun := true }) = { bs with overrun := overrun } := by
    split_ifs
    · exact ⟨bs.overrun, rfl⟩
    · exact ⟨true, rfl⟩
  obtain ⟨overrun, heq⟩ := hflag
  have hbuf := h.buf_eq
  have hused := h.used_eq
  have hreg := h.reg_lt
  have hbyte : (buf.getD (pos / 8) 0).toNat < 256 := UInt8.toNat_lt _
  unfold klbsReadBit
  simp only [heq]
  by_cases hload : bs.regUsed = 0
  · -- a new byte is loaded
    have hindex : bs.buflenUsed = pos / 8 := by omega
    have hzero : pos % 8 = 0 := by omega
    have hnext : nextByte { bs with overrun := overrun } = (buf.getD (pos / 8) 0).toNat := by
      rw [nextByte, hbuf, hindex]
    have htop := top_bit _ hbyte 0 (by omega)
    simp only [if_pos hload, hnext]
    refine ⟨?_, hbuf, ?_, by simp, ?_⟩
    · rw [bitAt, hzero, ← htop, pow_zero, mul_one, Nat.mod_eq_of_lt hbyte]
    · simp only
      omega
    · intro _
      simp only
      rw [Nat.shiftLeft_eq, show (pos + 1) / 8 = pos / 8 by omega,
        show (pos + 1) % 8 = 1 by omega]
  · have hmod : pos % 8 = 8 - bs.regUsed := by omega
    have hregister := h.reg_eq (by omega)
    have htop := top_bit _ hbyte (pos % 8) (by omega)
    simp only [if_neg hload]
    refine ⟨?_, hbuf, ?_, ?_, ?_⟩
    · rw [hregister, htop, bitAt]
    · simp only
      omega
    · simp only
      omega
    · intro hleft
      simp only at hleft ⊢
      have hdiv : (pos + 1) / 8 = pos / 8 := by omega
      have hmod' : (pos + 1) % 8 = pos % 8 + 1 := by omega
      calc (bs.reg <<< 1) % 256
          _ = (buf.getD (pos / 8) 0).toNat * 2 ^ (pos % 8) % 256 * 2 % 256 := by
            rw [hregister, Nat.shiftLeft_eq, pow_one]
          _ = (buf.getD (pos / 8) 0).toNat * 2 ^ (pos % 8 + 1) % 256 := by
            rw [Nat.mod_mul_mod, pow_succ, ← mul_assoc]
          _ = (buf.getD ((pos + 1) / 8) 0).toNat * 2 ^ ((pos + 1) % 8) % 256 := by
            rw [hdiv, hmod']

theorem bitAt_lt (buf : List UInt8) (i : ℕ) : bitAt buf i < 2 := Nat.mod_lt _ (by norm_num)

theorem fieldAt_lt (buf : List UInt8) (pos n : ℕ) : fieldAt buf pos n < 2 ^ n := by
  induction n generalizing pos with
  | zero => simp [fieldAt]
  | succ n ih =>
      have hrest := ih (pos + 1)
      have hbit := Nat.mul_le_mul_right (2 ^ n) (Nat.le_of_lt_succ (bitAt_lt buf pos))
      rw [fieldAt, pow_succ]
      omega

def readLoop (note : Klbs → Bool) : ℕ → ℕ → Klbs → ℕ × Klbs
  | 0, bits, bs => (bits, bs)
  | n + 1, bits, bs =>
      let r := klbsReadBit bs
      readLoop note n (bits <<< 1 ||| r.1) { r.2 with overrun := r.2.overrun || note r.2 }

theorem readBitsLoop_eq (n acc : ℕ) (bs : Klbs) : readBitsLoop n acc bs =
    readLoop (fun bs ↦ decide (bs.buflenUsed ≥ bs.buf.length)) n acc bs := by
  induction n generalizing acc bs with
  | zero => rfl
  | succ n ih =>
      rw [readBitsLoop, readLoop]
      exact ih _ _

theorem readLoop_stands {buf : List UInt8} (note : Klbs → Bool) (n : ℕ) :
    ∀ {bs : Klbs} {pos acc : ℕ}, Stands bs buf pos →
      (readLoop note n acc bs).1 = acc * 2 ^ n + fieldAt buf pos n ∧
        Stands (readLoop note n acc bs).2 buf (pos + n) := by
  induction n with
  | zero =>
      intro bs pos acc h
      exact ⟨by simp [readLoop, fieldAt], h⟩
  | succ n ih =>
      intro bs pos acc h
      obtain ⟨hbit, hnext⟩ := readBit_stands h
      have hor : acc <<< 1 ||| bitAt buf pos = acc * 2 + bitAt buf pos := by
        rw [← Nat.shiftLeft_add_eq_or_of_lt (i := 1) (bitAt_lt buf pos), Nat.shiftLeft_eq, pow_one]
      obtain ⟨hvalue, hat⟩ := @ih _ _ (acc * 2 + bitAt buf pos) (hnext.withFlags
        ((klbsReadBit bs).2.overrun || note (klbsReadBit bs).2) (klbsReadBit bs).2.truncated)
      rw [readLoop]
      simp only [hbit, hor]
      refine ⟨?_, by rw [show pos + (n + 1) = pos + 1 + n by omega]; exact hat⟩
      rw [hvalue, fieldAt]
      ring

theorem readBitsLoop_stands {buf : List UInt8} (n : ℕ) {bs : Klbs} {pos acc : ℕ}
    (h : Stands bs buf pos) :
    (readBitsLoop n acc bs).1 = acc * 2 ^ n + fieldAt buf pos n ∧
      Stands (readBitsLoop n acc bs).2 buf (pos + n) := by
  rw [readBitsLoop_eq]
  exact readLoop_stands _ n h

theorem fieldAt_byte (buf : List UInt8) {pos : ℕ} (hpos : pos % 8 = 0) :
    fieldAt buf pos 8 = (buf.getD (pos / 8) 0).toNat := by
  have hbits : ∀ b < 256, b / 128 % 2 * 128 + (b / 64 % 2 * 64 + (b / 32 % 2 * 32 +
      (b / 16 % 2 * 16 + (b / 8 % 2 * 8 + (b / 4 % 2 * 4 + (b / 2 % 2 * 2 + b % 2)))))) = b := by
    decide +kernel
  obtain ⟨k, rfl⟩ : ∃ k, pos = 8 * k := ⟨pos / 8, by omega⟩
  have hbit : ∀ j < 8, bitAt buf (8 * k + j) = (buf.getD k 0).toNat / 2 ^ (7 - j) % 2 := by
    intro j hj
    rw [bitAt, show (8 * k + j) / 8 = k by omega, show (8 * k + j) % 8 = j by omega]
  have h0 := hbit 0 (by omega)
  rw [Nat.add_zero] at h0
  simp only [fieldAt, Nat.add_assoc, Nat.reduceAdd, h0, hbit 1 (by omega), hbit 2 (by omega),
    hbit 3 (by omega), hbit 4 (by omega), hbit 5 (by omega), hbit 6 (by omega), hbit 7 (by omega)]
  rw [show 8 * k / 8 = k by omega]
  simpa using hbits _ (UInt8.toNat_lt (buf.getD k 0))

/-- A read gives the field in front of the reader and moves it behind. -/
theorem Stands.readBits {bs : Klbs} {buf : List UInt8} {pos : ℕ} (h : Stands bs buf pos)
    (n : ℕ) :
    (klbsReadBits bs n).1 = fieldAt buf pos n ∧ Stands (klbsReadBits bs n).2 buf (pos + n) := by
  unfold klbsReadBits
  split_ifs with hbyte
  · obtain ⟨rfl, hreg⟩ := hbyte
    have hused := h.used_eq
    have hpos : pos % 8 = 0 := by omega
    refine ⟨?_, h.buf_eq, ?_, h.reg_lt, ?_⟩
    · rw [klbsReadByteAligned, nextByte, h.buf_eq, h.buflenUsed_eq hpos, fieldAt_byte buf hpos]
    · simp only [klbsReadByteAligned]
      omega
    · intro hsome
      exact absurd hsome (by simp [klbsReadByteAligned, hreg])
  · obtain ⟨hvalue, hat⟩ := @readBitsLoop_stands buf n _ _ 0 h
    exact ⟨by rw [hvalue, Nat.zero_mul, Nat.zero_add], hat⟩

/-! ## The flags -/

/-- A bit is noted exactly when it lies behind the buffer. -/
theorem readBit_overrun {bs : Klbs} {buf : List UInt8} {pos : ℕ} (h : Stands bs buf pos) :
    (klbsReadBit bs).2.overrun = (bs.overrun || decide (8 * buf.length ≤ pos)) := by
  have hused := h.used_eq
  have hreg := h.reg_lt
  have hlen : bs.buf.length = buf.length := by rw [h.buf_eq]
  unfold klbsReadBit
  by_cases hin : bs.buflenUsed ≤ bs.buf.length
  · simp only [if_pos hin]
    by_cases hload : bs.regUsed = 0
    · have hiff : bs.buflenUsed ≥ bs.buf.length ↔ 8 * buf.length ≤ pos := by omega
      simp only [if_pos hload, hiff]
    · have hbefore : ¬8 * buf.length ≤ pos := by omega
      simp only [if_neg hload, hbefore, decide_false, Bool.or_false]
  · have hbehind : 8 * buf.length ≤ pos := by omega
    simp only [if_neg hin, hbehind, decide_true, Bool.or_true]
    split_ifs <;> simp

/-- A loop that notes every position behind `bound`. -/
theorem readLoop_overrun {buf : List UInt8} {note : Klbs → Bool} {bound : ℕ}
    (hnote : ∀ bs pos, Stands bs buf (pos + 1) →
      (decide (8 * buf.length ≤ pos) || note bs) = decide (bound < pos + 1)) (n : ℕ) :
    ∀ {bs : Klbs} {pos acc : ℕ}, Stands bs buf pos →
      (readLoop note n acc bs).2.overrun =
        (bs.overrun || decide (n ≠ 0 ∧ bound < pos + n)) := by
  induction n with
  | zero =>
      intro bs pos acc _
      simp [readLoop]
  | succ n ih =>
      intro bs pos acc h
      have hnext := (readBit_stands h).2
      rw [readLoop, ih (hnext.withFlags _ _), readBit_overrun h, Bool.or_assoc, Bool.or_assoc,
        ← Bool.or_assoc (decide _) (note _), hnote _ _ hnext]
      congr 1
      rw [Bool.eq_iff_iff, Bool.or_eq_true, decide_eq_true_iff, decide_eq_true_iff,
        decide_eq_true_iff]
      omega

/-- The calls of `klbs_read_bits` that set the flag: an aligned byte behind the
buffer, or any other bits of which the last one lies in the last byte or behind. -/
def notesRead (len pos n : ℕ) : Bool :=
  if n = 8 ∧ pos % 8 = 0 then decide (8 * len < pos + n)
  else decide (n ≠ 0 ∧ 8 * (len - 1) < pos + n)

theorem readBits_overrun {bs : Klbs} {buf : List UInt8} {pos : ℕ} (h : Stands bs buf pos)
    (n : ℕ) :
    (klbsReadBits bs n).2.overrun = (bs.overrun || notesRead buf.length pos n) := by
  have hused := h.used_eq
  have hreg := h.reg_lt
  have hlen : bs.buf.length = buf.length := by rw [h.buf_eq]
  have hiff : n = 8 ∧ bs.regUsed = 0 ↔ n = 8 ∧ pos % 8 = 0 := by omega
  unfold klbsReadBits notesRead
  simp only [hiff]
  split_ifs with hbyte
  · have hbehind : bs.buflenUsed ≥ bs.buf.length ↔ 8 * buf.length < pos + n := by omega
    simp only [klbsReadByteAligned, hbehind]
  · rw [readBitsLoop_eq]
    refine readLoop_overrun (fun bs pos hbs ↦ ?_) n h
    have hbused := hbs.used_eq
    have hbreg := hbs.reg_lt
    have hblen : bs.buf.length = buf.length := by rw [hbs.buf_eq]
    rw [Bool.eq_iff_iff, Bool.or_eq_true, decide_eq_true_iff, decide_eq_true_iff,
      decide_eq_true_iff]
    omega

theorem readBit_truncated (bs : Klbs) : (klbsReadBit bs).2.truncated = bs.truncated := by
  unfold klbsReadBit
  simp only
  split_ifs <;> rfl

theorem readBits_truncated (bs : Klbs) (n : ℕ) :
    (klbsReadBits bs n).2.truncated = bs.truncated := by
  have hloop : ∀ n acc bs, (readBitsLoop n acc bs).2.truncated = bs.truncated := by
    intro n
    induction n with
    | zero => exact fun _ _ ↦ rfl
    | succ n ih => exact fun acc bs ↦ (ih _ _).trans (readBit_truncated bs)
  unfold klbsReadBits
  split_ifs
  · rfl
  · exact hloop n 0 bs

/-! ## Reading without an overrun -/

/-- The reader stands in front of bit `pos` of `buf` and no overrun was noted. -/
structure At (bs : Klbs) (buf : List UInt8) (pos : ℕ) : Prop where
  buf_eq : bs.buf = buf
  clean : bs.overrun = false
  whole : bs.truncated = false
  used_eq : bs.buflenUsed * 8 = pos + bs.regUsed
  reg_lt : bs.regUsed < 8
  reg_eq : 0 < bs.regUsed →
    bs.reg = (buf.getD (pos / 8) 0).toNat * 2 ^ (pos % 8) % 256

theorem At.stands {bs : Klbs} {buf : List UInt8} {pos : ℕ} (h : At bs buf pos) :
    Stands bs buf pos :=
  ⟨h.buf_eq, h.used_eq, h.reg_lt, h.reg_eq⟩

theorem Stands.at {bs : Klbs} {buf : List UInt8} {pos : ℕ} (h : Stands bs buf pos)
    (hclean : bs.overrun = false) (hwhole : bs.truncated = false) : At bs buf pos :=
  ⟨h.buf_eq, hclean, hwhole, h.used_eq, h.reg_lt, h.reg_eq⟩

theorem at_start (buf : List UInt8) : At (klbsReadSetBuffer buf) buf 0 :=
  (stands_start buf).at rfl rfl

theorem At.regUsed_eq_zero {bs : Klbs} {buf : List UInt8} {pos : ℕ} (h : At bs buf pos)
    (hpos : pos % 8 = 0) : bs.regUsed = 0 :=
  h.stands.regUsed_eq_zero hpos

/-- Any read short of the last byte moves the position and stays clean. -/
theorem At.readBits {bs : Klbs} {buf : List UInt8} {pos n : ℕ} (h : At bs buf pos)
    (hend : pos + n ≤ 8 * (buf.length - 1)) : At (klbsReadBits bs n).2 buf (pos + n) := by
  have hsilent : notesRead buf.length pos n = false := by
    unfold notesRead
    split_ifs <;> rw [decide_eq_false_iff_not] <;> omega
  refine (h.stands.readBits n).2.at ?_ ((readBits_truncated bs n).trans h.whole)
  rw [readBits_overrun h.stands, h.clean, hsilent, Bool.or_false]

theorem At.readBits_value {bs : Klbs} {buf : List UInt8} {pos : ℕ} (h : At bs buf pos) (n : ℕ) :
    (klbsReadBits bs n).1 = fieldAt buf pos n :=
  (h.stands.readBits n).1

theorem At.readBits_byte {bs : Klbs} {buf : List UInt8} {pos : ℕ} (h : At bs buf pos)
    (hpos : pos % 8 = 0) : (klbsReadBits bs 8).1 = (buf.getD (pos / 8) 0).toNat := by
  rw [h.readBits_value, fieldAt_byte buf hpos]

theorem At.byteCountFree {bs : Klbs} {buf : List UInt8} {pos : ℕ} (h : At bs buf pos)
    (hpos : pos % 8 = 0) (hend : pos ≤ 8 * buf.length) (hlen : buf.length < 2 ^ 32) :
    klbsGetByteCountFree bs = buf.length - pos / 8 :=
  h.stands.byteCountFree hpos hend hlen

-- from here on reads are followed through the lemmas above only
attribute [irreducible] klbsReadBits

/-! ## Reading a string of bits -/

theorem bitAt_eq (buf : List UInt8) (i : ℕ) :
    bitAt buf i = ((bytesToBits buf).getD i false).toNat := by
  rw [getD_bytesToBits, Nat.toNat_testBit, bitAt]

theorem fieldAt_of_drop {buf : List UInt8} {n v : ℕ} :
    ∀ {pos : ℕ} {rest : List Bool}, (bytesToBits buf).drop pos = bitsOf n v ++ rest →
      fieldAt buf pos n = v % 2 ^ n := by
  induction n with
  | zero =>
      intro pos rest _
      rw [fieldAt, pow_zero, Nat.mod_one]
  | succ n ih =>
      intro pos rest h
      rw [bitsOf, List.cons_append] at h
      have hbit : (bytesToBits buf).getD pos false = v.testBit n := by
        rw [List.getD_eq_getElem?_getD, ← Nat.add_zero pos, ← List.getElem?_drop, h]
        rfl
      have htail : (bytesToBits buf).drop (pos + 1) = bitsOf n v ++ rest := by
        rw [← List.drop_drop, h, List.drop_one, List.tail_cons]
      rw [fieldAt, bitAt_eq, hbit, ih htail, Nat.toNat_testBit, Nat.mod_pow_succ]
      ring

/-- The bits of the buffer that are still to be read. -/
def Faces (bs : Klbs) (buf : List UInt8) (rest : List Bool) : Prop :=
  ∃ pos, Stands bs buf pos ∧ (bytesToBits buf).drop pos = rest ∧ pos + rest.length = 8 * buf.length

theorem faces_start (buf : List UInt8) : Faces (klbsReadSetBuffer buf) buf (bytesToBits buf) :=
  ⟨0, stands_start buf, rfl, by simp⟩

theorem Faces.skip {bs : Klbs} {buf : List UInt8} {chunk rest : List Bool}
    (h : Faces bs buf (chunk ++ rest)) {n : ℕ} (hn : chunk.length = n) :
    Faces (klbsReadBits bs n).2 buf rest := by
  obtain ⟨pos, hstands, hdrop, hlen⟩ := h
  rw [List.length_append] at hlen
  refine ⟨pos + n, (hstands.readBits n).2, ?_, by omega⟩
  rw [← List.drop_drop, hdrop, ← hn, List.drop_left]

/-- A read gives what was written, as far as it fits. -/
theorem Faces.value_mod {bs : Klbs} {buf : List UInt8} {n v : ℕ} {rest : List Bool}
    (h : Faces bs buf (bitsOf n v ++ rest)) : (klbsReadBits bs n).1 = v % 2 ^ n := by
  obtain ⟨pos, hstands, hdrop, -⟩ := h
  rw [(hstands.readBits n).1, fieldAt_of_drop hdrop]

theorem Faces.value {bs : Klbs} {buf : List UInt8} {n v : ℕ} {rest : List Bool}
    (h : Faces bs buf (bitsOf n v ++ rest)) (hv : v < 2 ^ n) : (klbsReadBits bs n).1 = v := by
  rw [h.value_mod, Nat.mod_eq_of_lt hv]

theorem Faces.next {bs : Klbs} {buf : List UInt8} {n v : ℕ} {rest : List Bool}
    (h : Faces bs buf (bitsOf n v ++ rest)) : Faces (klbsReadBits bs n).2 buf rest :=
  h.skip (length_bitsOf n v)

theorem Faces.readBytes {buf bytes : List UInt8} {rest : List Bool} :
    ∀ {bs : Klbs}, Faces bs buf (bytesToBits bytes ++ rest) →
      Faces (BitReader.readBytes bytes.length bs).2 buf rest := by
  induction bytes with
  | nil =>
      intro bs h
      exact h
  | cons b bytes ih =>
      intro bs h
      rw [bytesToBits_cons, List.append_assoc] at h
      exact ih h.next

/-- On a byte boundary the free bytes are the bytes left. -/
theorem Faces.byteCountFree {bs : Klbs} {buf : List UInt8} {rest : List Bool}
    (h : Faces bs buf rest) (hrest : rest.length % 8 = 0) (hlen : buf.length < 2 ^ 32) :
    klbsGetByteCountFree bs = rest.length / 8 := by
  obtain ⟨pos, hstands, -, hpos⟩ := h
  rw [hstands.byteCountFree (by omega) (by omega) hlen]
  omega

/-- On a byte boundary the bytes left are there to be copied. -/
theorem Faces.bytes {bs : Klbs} {buf bytes : List UInt8} (h : Faces bs buf (bytesToBits bytes)) :
    bs.regUsed = 0 ∧ bs.buf.drop bs.buflenUsed = bytes ∧
      bs.buflenUsed + bytes.length = buf.length := by
  obtain ⟨pos, hstands, hdrop, hpos⟩ := h
  rw [length_bytesToBits] at hpos
  obtain ⟨k, rfl⟩ : ∃ k, pos = 8 * k := ⟨buf.length - bytes.length, by omega⟩
  have hused := hstands.buflenUsed_eq (by omega)
  rw [drop_bytesToBits] at hdrop
  refine ⟨hstands.regUsed_eq_zero (by omega), ?_, by omega⟩
  rw [hstands.buf_eq, hused, Nat.mul_div_cancel_left _ (by norm_num)]
  exact bytesToBits_inj hdrop

end LtnTsTools.BitReader
