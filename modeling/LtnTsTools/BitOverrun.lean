import LtnTsTools.BitWriter

/-!
# The overrun flag

When `klbs_read_bits` and `klbs_write_bits` of `klbitstream_readwriter.h` note an
overrun.  A single bit is noted exactly when it lies behind the buffer, but behind
each bit both loops also compare the bytes used with the size of the buffer.  That
holds as soon as the last byte is loaded into the register, or is full, so a call
that ends in the last byte, or fills it, is noted as well.
-/

namespace LtnTsTools.BitOverrun

open BitReader BitWriter

/-! ## A flag along a run of calls -/

def Along (P : ℕ → ℕ → Prop) : ℕ → List ℕ → Prop
  | _, [] => True
  | pos, n :: rest => P pos n ∧ Along P (pos + n) rest

theorem along_of_forall {P : ℕ → ℕ → Prop} {start : ℕ} (h : ∀ pos n, start ≤ pos → P pos n)
    (ns : List ℕ) : Along P start ns := by
  induction ns generalizing start with
  | nil => trivial
  | cons n rest ih =>
      exact ⟨h start n le_rfl, ih fun pos m hpos ↦ h pos m (by omega)⟩

theorem Along.mono {P Q : ℕ → ℕ → Prop} (hPQ : ∀ pos n, P pos n → Q pos n) {pos : ℕ}
    {ns : List ℕ} (h : Along P pos ns) : Along Q pos ns := by
  induction ns generalizing pos with
  | nil => trivial
  | cons n rest ih => exact ⟨hPQ _ _ h.1, ih h.2⟩

theorem Along.take {P : ℕ → ℕ → Prop} {pos : ℕ} {ns : List ℕ} (h : Along P pos ns) (k : ℕ) :
    Along P pos (ns.take k) := by
  induction ns generalizing pos k with
  | nil => rwa [List.take_nil]
  | cons n rest ih =>
      cases k with
      | zero => trivial
      | succ k => exact ⟨h.1, ih h.2 k⟩

/-- The flag behind calls that set it where `notes` says so. -/
def flagAfter (notes : ℕ → ℕ → Bool) : ℕ → Bool → List ℕ → Bool
  | _, flag, [] => flag
  | pos, flag, n :: rest => flagAfter notes (pos + n) (flag || notes pos n) rest

variable {notes : ℕ → ℕ → Bool} {limit : ℕ}

/-- A call that is noted goes beyond the limit. -/
def NoFalseNote (notes : ℕ → ℕ → Bool) (limit pos n : ℕ) : Prop :=
  notes pos n = true → limit < pos + n

/-- Without a false note the flag is exact, if no call beyond the limit goes
unnoted. -/
theorem flagAfter_eq (hnotes : ∀ pos n, n ≠ 0 → limit < pos + n → notes pos n = true) {pos : ℕ}
    {ns : List ℕ} (h : Along (NoFalseNote notes limit) pos ns) :
    flagAfter notes pos (decide (limit < pos)) ns = decide (limit < pos + ns.sum) := by
  induction ns generalizing pos with
  | nil => rfl
  | cons n rest ih =>
      have hflag : (decide (limit < pos) || notes pos n) = decide (limit < pos + n) := by
        rw [Bool.eq_iff_iff, Bool.or_eq_true, decide_eq_true_iff, decide_eq_true_iff]
        refine ⟨?_, fun hbeyond ↦ ?_⟩
        · rintro (hpos | hnote)
          · omega
          · exact h.1 hnote
        · by_cases hn : n = 0
          · exact Or.inl (by omega)
          · exact Or.inr (hnotes pos n hn hbeyond)
      rw [flagAfter, hflag, ih h.2, List.sum_cons, Nat.add_assoc]

/-- A flag that is never set up to the limit has no false note. -/
theorem along_of_flagAfter {pos : ℕ} {ns : List ℕ}
    (h : ∀ k, pos + (ns.take k).sum ≤ limit → flagAfter notes pos false (ns.take k) = false) :
    Along (NoFalseNote notes limit) pos ns := by
  induction ns generalizing pos with
  | nil => trivial
  | cons n rest ih =>
      rcases lt_or_ge limit (pos + n) with hbeyond | hin
      · exact ⟨fun _ ↦ hbeyond, along_of_forall (fun p m hp _ ↦ by omega) rest⟩
      · have hone : notes pos n = false := by
          simpa [flagAfter] using h 1 (by simpa using hin)
        refine ⟨fun hnote ↦ ?_, ih fun k hk ↦ ?_⟩
        · rw [hone] at hnote
          cases hnote
        · have hmore := h (k + 1)
          rw [List.take_succ_cons, List.sum_cons, ← Nat.add_assoc, flagAfter, hone] at hmore
          exact hmore hk

/-! ## Reading -/

def readCalls (ns : List ℕ) (bs : Klbs) : Klbs := ns.foldl (fun bs n ↦ (klbsReadBits bs n).2) bs

theorem readCalls_overrun {buf : List UInt8} (ns : List ℕ) :
    ∀ {bs : Klbs} {pos : ℕ}, Stands bs buf pos →
      (readCalls ns bs).overrun = flagAfter (notesRead buf.length) pos bs.overrun ns := by
  induction ns with
  | nil => exact fun _ ↦ rfl
  | cons n rest ih =>
      intro bs pos h
      rw [flagAfter, ← readBits_overrun h n]
      exact ih (h.readBits n).2

/-- Bit by bit through `klbs_read_bit`. -/
def readBitByBit : ℕ → ℕ → Klbs → ℕ × Klbs
  | 0, bits, bs => (bits, bs)
  | n + 1, bits, bs =>
      let r := klbsReadBit bs
      readBitByBit n (bits <<< 1 ||| r.1) r.2

theorem readBitByBit_eq (n acc : ℕ) (bs : Klbs) :
    readBitByBit n acc bs = readLoop (fun _ ↦ false) n acc bs := by
  induction n generalizing acc bs with
  | zero => rfl
  | succ n ih =>
      rw [readBitByBit, readLoop, ih]
      simp only [Bool.or_false]

/-- A byte read on a byte boundary gives what its eight bits give: the value, the
position and the flag. -/
theorem readByte_bitByBit {bs : Klbs} (h : bs.regUsed = 0) :
    (klbsReadBits bs 8).1 = (readBitByBit 8 0 bs).1 ∧
      (klbsReadBits bs 8).2.buflenUsed = (readBitByBit 8 0 bs).2.buflenUsed ∧
      (klbsReadBits bs 8).2.regUsed = (readBitByBit 8 0 bs).2.regUsed ∧
      (klbsReadBits bs 8).2.overrun = (readBitByBit 8 0 bs).2.overrun := by
  have hstands : Stands bs bs.buf (8 * bs.buflenUsed) :=
    ⟨rfl, by omega, by omega, fun hpos ↦ absurd hpos (by omega)⟩
  have hmod : 8 * bs.buflenUsed % 8 = 0 := by omega
  obtain ⟨hvalue, hnext⟩ := hstands.readBits 8
  obtain ⟨hvalue', hnext'⟩ := @readLoop_stands bs.buf (fun _ ↦ false) 8 bs _ 0 hstands
  have hflag := @readLoop_overrun bs.buf (fun _ ↦ false) (8 * bs.buf.length)
    (fun _ pos _ ↦ by rw [Bool.or_false, decide_eq_decide]; omega) 8 bs _ 0 hstands
  rw [readBitByBit_eq]
  refine ⟨by rw [hvalue, hvalue', Nat.zero_mul, Nat.zero_add], ?_, ?_, ?_⟩
  · rw [hnext.buflenUsed_eq (by omega), hnext'.buflenUsed_eq (by omega)]
  · rw [hnext.regUsed_eq_zero (by omega), hnext'.regUsed_eq_zero (by omega)]
  · rw [readBits_overrun hstands, hflag, notesRead, if_pos ⟨rfl, hmod⟩]
    simp

/-! ## Writing -/

/-- `klbs_write_bit` with the assertion it makes in every configuration. -/
def writeBitAsserted (bs : Klbs) (bit : ℕ) : Option Klbs :=
  if bs.buflenUsed ≤ bs.buf.length then some (klbsWriteBit bs bit) else none

/-- `klbs_write_bits` with the assertion of `klbs_write_bit`. -/
def writeBitsAsserted (bs : Klbs) (bits : ℕ) : ℕ → Option Klbs
  | 0 => some bs
  | n + 1 => (writeBitAsserted bs (bits >>> n)).bind fun bs ↦
      writeBitsAsserted
        { bs with overrun := bs.overrun || decide (bs.buflenUsed ≥ bs.buf.length) } bits n

theorem writeBitsAsserted_eq {bits : ℕ} (n : ℕ) :
    ∀ {bs bs' : Klbs}, writeBitsAsserted bs bits n = some bs' → klbsWriteBits bs bits n = bs' := by
  induction n with
  | zero =>
      intro bs bs' h
      rw [klbsWriteBits]
      exact Option.some.inj h
  | succ n ih =>
      intro bs bs' h
      obtain ⟨next, hbit, hrest⟩ := Option.bind_eq_some_iff.mp h
      rw [writeBitAsserted] at hbit
      split_ifs at hbit
      obtain rfl : klbsWriteBit bs (bits >>> n) = next := Option.some.inj hbit
      rw [klbsWriteBits]
      exact ih hrest

/-- Writes of values and widths in a row; `none` is a failed assertion. -/
def writeCalls (calls : List (ℕ × ℕ)) (bs : Klbs) : Option Klbs :=
  calls.foldlM (fun bs call ↦ writeBitsAsserted bs call.1 call.2) bs

/-- The writer has counted `pos` bits for a buffer of `len` bytes. -/
structure Counts (bs : Klbs) (len pos : ℕ) : Prop where
  size_eq : bs.buf.length = len
  reg_lt : bs.regUsed < 8
  count_eq : bitsWritten bs = pos

theorem Counts.withFlag {bs : Klbs} {len pos : ℕ} (h : Counts bs len pos) (overrun : Bool) :
    Counts { bs with overrun := overrun } len pos :=
  ⟨h.size_eq, h.reg_lt, h.count_eq⟩

theorem Counts.writeBit {bs : Klbs} {len pos : ℕ} (h : Counts bs len pos) (bit : ℕ) :
    Counts (klbsWriteBit bs bit) len (pos + 1) := by
  obtain ⟨hreg, hcount, hlen⟩ := klbsWriteBit_count h.reg_lt bit
  exact ⟨hlen.trans h.size_eq, hreg, by rw [hcount, h.count_eq]⟩

theorem Counts.used_iff {bs : Klbs} {len pos : ℕ} (h : Counts bs len pos) :
    bs.buflenUsed ≥ bs.buf.length ↔ 8 * len ≤ pos := by
  have hcount := h.count_eq
  have hreg := h.reg_lt
  have hlen := h.size_eq
  rw [bitsWritten] at hcount
  omega

/-- A bit is noted exactly when it lies behind the buffer. -/
theorem writeBit_overrun {bs : Klbs} {len pos : ℕ} (h : Counts bs len pos) (bit : ℕ) :
    (klbsWriteBit bs bit).overrun = (bs.overrun || decide (8 * len ≤ pos)) := by
  unfold klbsWriteBit
  by_cases hfull : bs.buflenUsed ≥ bs.buf.length
  · have hbehind : 8 * len ≤ pos := h.used_iff.mp hfull
    simp only [if_pos hfull, hbehind, decide_true, Bool.or_true]
    split_ifs <;> simp
  · have hbefore : ¬8 * len ≤ pos := fun hpos ↦ hfull (h.used_iff.mpr hpos)
    simp only [if_neg hfull, hbefore, decide_false, Bool.or_false]
    split_ifs <;> simp [hfull]

/-- The calls of `klbs_write_bits` that set the flag: those that reach the end of
the buffer. -/
def notesWrite (len pos n : ℕ) : Bool := decide (n ≠ 0 ∧ 8 * len ≤ pos + n)

theorem writeBitsAsserted_spec {len bits : ℕ} (n : ℕ) :
    ∀ {bs bs' : Klbs} {pos : ℕ}, Counts bs len pos → writeBitsAsserted bs bits n = some bs' →
      Counts bs' len (pos + n) ∧ bs'.overrun = (bs.overrun || notesWrite len pos n) := by
  induction n with
  | zero =>
      intro bs bs' pos h hrun
      obtain rfl : bs = bs' := Option.some.inj hrun
      exact ⟨h, by simp [notesWrite]⟩
  | succ n ih =>
      intro bs bs' pos h hrun
      obtain ⟨next, hbit, hrest⟩ := Option.bind_eq_some_iff.mp hrun
      rw [writeBitAsserted] at hbit
      split_ifs at hbit
      obtain rfl : klbsWriteBit bs (bits >>> n) = next := Option.some.inj hbit
      have hnext := h.writeBit (bits >>> n)
      obtain ⟨hcounts, hflag⟩ := ih (hnext.withFlag _) hrest
      refine ⟨by rwa [show pos + (n + 1) = pos + 1 + n by omega], hflag.trans ?_⟩
      dsimp only
      rw [writeBit_overrun h, Bool.or_assoc, Bool.or_assoc]
      congr 1
      simp only [notesWrite, hnext.used_iff]
      rw [Bool.eq_iff_iff, Bool.or_eq_true, Bool.or_eq_true, decide_eq_true_iff,
        decide_eq_true_iff, decide_eq_true_iff, decide_eq_true_iff]
      omega

theorem exists_writeBitsAsserted {len bits : ℕ} (n : ℕ) :
    ∀ {bs : Klbs} {pos : ℕ}, Counts bs len pos → pos + n ≤ 8 * len →
      ∃ bs', writeBitsAsserted bs bits n = some bs' := by
  induction n with
  | zero => exact fun _ _ ↦ ⟨_, rfl⟩
  | succ n ih =>
      intro bs pos h hin
      have hcount := h.count_eq
      have hlen := h.size_eq
      rw [bitsWritten] at hcount
      obtain ⟨bs', hrest⟩ := ih ((h.writeBit (bits >>> n)).withFlag _) (by omega)
      refine ⟨bs', Option.bind_eq_some_iff.mpr ⟨_, ?_, hrest⟩⟩
      rw [writeBitAsserted, if_pos (by omega)]

theorem writeCalls_overrun {len : ℕ} (calls : List (ℕ × ℕ)) :
    ∀ {bs bs' : Klbs} {pos : ℕ}, Counts bs len pos → writeCalls calls bs = some bs' →
      bs'.overrun = flagAfter (notesWrite len) pos bs.overrun (calls.map Prod.snd) := by
  induction calls with
  | nil =>
      intro bs bs' pos _ hrun
      obtain rfl : bs = bs' := Option.some.inj hrun
      rfl
  | cons call rest ih =>
      intro bs bs' pos h hrun
      rw [writeCalls, List.foldlM_cons] at hrun
      obtain ⟨next, hcall, hrest⟩ := Option.bind_eq_some_iff.mp hrun
      obtain ⟨hcounts, hflag⟩ := writeBitsAsserted_spec call.2 h hcall
      rw [List.map_cons, flagAfter, ← hflag]
      exact ih hcounts hrest

theorem exists_writeCalls {len : ℕ} (calls : List (ℕ × ℕ)) :
    ∀ {bs : Klbs} {pos : ℕ}, Counts bs len pos → pos + (calls.map Prod.snd).sum ≤ 8 * len →
      ∃ bs', writeCalls calls bs = some bs' := by
  induction calls with
  | nil => exact fun _ _ ↦ ⟨_, rfl⟩
  | cons call rest ih =>
      intro bs pos h hin
      rw [List.map_cons, List.sum_cons] at hin
      obtain ⟨next, hcall⟩ := @exists_writeBitsAsserted len call.1 call.2 _ _ h (by omega)
      obtain ⟨bs', hrest⟩ := ih (writeBitsAsserted_spec call.2 h hcall).1 (by omega)
      refine ⟨bs', ?_⟩
      rw [writeCalls, List.foldlM_cons]
      exact Option.bind_eq_some_iff.mpr ⟨next, hcall, hrest⟩

/-! ## When the flag is exact -/

/-- The flag of every state of a run says whether a bit behind the buffer was read,
or written, and a byte read as one is read as its bits are. -/
def OverrunExact (buf : List UInt8) (reads : List ℕ) (writes : List (ℕ × ℕ)) : Prop :=
  (∀ k, (readCalls (reads.take k) (klbsReadSetBuffer buf)).overrun =
      decide (8 * buf.length < (reads.take k).sum)) ∧
    (∀ k bs, writeCalls (writes.take k) (klbsWriteSetBuffer buf) = some bs →
      bs.overrun = decide (8 * buf.length < ((writes.take k).map Prod.snd).sum)) ∧
    ∀ bs : Klbs, bs.regUsed = 0 →
      (klbsReadBits bs 8).1 = (readBitByBit 8 0 bs).1 ∧
        (klbsReadBits bs 8).2.buflenUsed = (readBitByBit 8 0 bs).2.buflenUsed ∧
        (klbsReadBits bs 8).2.regUsed = (readBitByBit 8 0 bs).2.regUsed ∧
        (klbsReadBits bs 8).2.overrun = (readBitByBit 8 0 bs).2.overrun

/-- A read whose note is right: none, an aligned byte, or bits that end before the
last byte or behind it. -/
def ReadNotedRight (len pos n : ℕ) : Prop :=
  n = 0 ∨ n = 8 ∧ pos % 8 = 0 ∨ pos + n ≤ 8 * (len - 1) ∨ 8 * len < pos + n

/-- A write whose note is right does not end where the buffer ends. -/
def WriteNotedRight (len pos n : ℕ) : Prop := n = 0 ∨ pos + n ≠ 8 * len

theorem noFalseNote_read_iff (len pos n : ℕ) :
    NoFalseNote (notesRead len) (8 * len) pos n ↔ ReadNotedRight len pos n := by
  unfold NoFalseNote ReadNotedRight notesRead
  split_ifs with hbyte <;> rw [decide_eq_true_iff] <;> omega

theorem noFalseNote_write_iff (len pos n : ℕ) :
    NoFalseNote (notesWrite len) (8 * len) pos n ↔ WriteNotedRight len pos n := by
  unfold NoFalseNote WriteNotedRight notesWrite
  rw [decide_eq_true_iff]
  omega

theorem reads_exact_iff (buf : List UInt8) (reads : List ℕ) :
    (∀ k, (readCalls (reads.take k) (klbsReadSetBuffer buf)).overrun =
        decide (8 * buf.length < (reads.take k).sum)) ↔
      Along (ReadNotedRight buf.length) 0 reads := by
  have hflag : ∀ k, (readCalls (reads.take k) (klbsReadSetBuffer buf)).overrun =
      flagAfter (notesRead buf.length) 0 false (reads.take k) :=
    fun k ↦ readCalls_overrun _ (stands_start buf)
  have hnotes : ∀ pos n, n ≠ 0 → 8 * buf.length < pos + n → notesRead buf.length pos n = true := by
    intro pos n hn hbeyond
    unfold notesRead
    split_ifs <;> rw [decide_eq_true_iff] <;> omega
  constructor
  · intro hexact
    refine Along.mono (fun pos n ↦ (noFalseNote_read_iff _ pos n).mp)
      (along_of_flagAfter fun k hk ↦ ?_)
    rw [← hflag k, hexact k, decide_eq_false_iff_not]
    omega
  · intro hright k
    have halong := (hright.mono fun pos n ↦ (noFalseNote_read_iff _ pos n).mpr).take k
    have hk := flagAfter_eq hnotes halong
    rw [Nat.zero_add] at hk
    exact (hflag k).trans hk

theorem writes_exact_iff (buf : List UInt8) (writes : List (ℕ × ℕ)) :
    (∀ k bs, writeCalls (writes.take k) (klbsWriteSetBuffer buf) = some bs →
        bs.overrun = decide (8 * buf.length < ((writes.take k).map Prod.snd).sum)) ↔
      Along (WriteNotedRight buf.length) 0 (writes.map Prod.snd) := by
  have hstart : Counts (klbsWriteSetBuffer buf) buf.length 0 :=
    ⟨rfl, by simp [klbsWriteSetBuffer, klbsReadSetBuffer], rfl⟩
  have hnotes : ∀ pos n, n ≠ 0 → 8 * buf.length < pos + n → notesWrite buf.length pos n = true := by
    intro pos n hn hbeyond
    rw [notesWrite, decide_eq_true_iff]
    omega
  constructor
  · intro hexact
    refine Along.mono (fun pos n ↦ (noFalseNote_write_iff _ pos n).mp)
      (along_of_flagAfter fun k hk ↦ ?_)
    rw [← List.map_take] at hk ⊢
    obtain ⟨bs, hrun⟩ := exists_writeCalls (writes.take k) hstart hk
    have hflag := writeCalls_overrun _ hstart hrun
    refine hflag.symm.trans ((hexact k bs hrun).trans ?_)
    rw [decide_eq_false_iff_not]
    omega
  · intro hright k bs hrun
    have halong := (hright.mono fun pos n ↦ (noFalseNote_write_iff _ pos n).mpr).take k
    have hk := flagAfter_eq hnotes halong
    rw [Nat.zero_add, ← List.map_take] at hk
    exact (writeCalls_overrun _ hstart hrun).trans hk

/-- The flag is exact along all reads and all writes exactly when no read of more
than an aligned byte ends in the last byte and no write ends where the buffer
ends. -/
theorem overrunExact_iff (buf : List UInt8) (reads : List ℕ) (writes : List (ℕ × ℕ)) :
    OverrunExact buf reads writes ↔
      Along (ReadNotedRight buf.length) 0 reads ∧
        Along (WriteNotedRight buf.length) 0 (writes.map Prod.snd) := by
  unfold OverrunExact
  rw [reads_exact_iff, writes_exact_iff]
  exact ⟨fun h ↦ ⟨h.1, h.2.1⟩, fun h ↦ ⟨h.1, h.2, fun _ ↦ readByte_bitByBit⟩⟩

/-- A buffer of two bytes, read as one number or written in one go, and a buffer of
one byte of which half is read. -/
theorem overrun_at_end :
    ¬OverrunExact [0xab, 0xcd] [16] [] ∧ ¬OverrunExact [0xab, 0xcd] [] [(0xabcd, 16)] ∧
      ¬OverrunExact [0xab] [4] [] ∧
      (readCalls [16] (klbsReadSetBuffer [0xab, 0xcd])).overrun = true ∧
      (readCalls [4] (klbsReadSetBuffer [0xab])).overrun = true := by
  refine ⟨fun h ↦ ?_, fun h ↦ ?_, fun h ↦ ?_, by decide +kernel, by decide +kernel⟩
  · exact absurd (h.1 1) (by decide +kernel)
  · exact absurd (h.2.1 1 _ rfl) (by decide +kernel)
  · exact absurd (h.1 1) (by decide +kernel)

end LtnTsTools.BitOverrun
