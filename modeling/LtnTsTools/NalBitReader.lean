import LtnTsTools.ExpGolomb

/-!
# The NAL bit reader

`nal_bitreader.c`.  A bit that is missing is -1, and missing bits of a number are all
ones; the caller of the latter has to tell them from a number.  Sums and products of the
type `int` wrap.  A read of a byte that is not there is `none`.
-/

namespace LtnTsTools.Nal

open BitString ExpGolomb

/-- `NALBitReader`; `data` are the bytes that can be read from the pointer on, also where
`size` says that there are more. -/
structure NalBitReader where
  data : List UInt8
  size : ℤ
  bitPos : ℕ
deriving DecidableEq

namespace NalBitReader

/-- `NALBitReader_init`. -/
def init (data : List UInt8) (size : ℤ) : NalBitReader := ⟨data, size, 0⟩

/-- `size * 8`. -/
def limit (br : NalBitReader) : ℤ := (br.size * 8).bmod (2 ^ 32)

def skip (br : NalBitReader) (n : ℕ) : NalBitReader := { br with bitPos := br.bitPos + n }

/-- `NALBitReader_read_bit`. -/
def readBit (br : NalBitReader) : Option (ℤ × NalBitReader) :=
  if br.limit ≤ br.bitPos then some (-1, br)
  else
    match br.data[br.bitPos / 8]? with
    | none => none
    | some byte => some ((byte.toNat >>> (7 - br.bitPos % 8) &&& 1 : ℕ), br.skip 1)

/-- `NALBitReader_skip_bits`. -/
def skipBits : ℕ → NalBitReader → Option NalBitReader
  | 0, br => some br
  | n + 1, br =>
      match br.readBit with
      | none => none
      | some (_, br) => skipBits n br

/-- The loop of `NALBitReader_read_bits`. -/
def readBitsLoop : ℕ → ℕ → NalBitReader → Option (ℕ × NalBitReader)
  | 0, result, br => some (result, br)
  | n + 1, result, br =>
      match br.readBit with
      | none => none
      | some (bit, br) =>
          if bit < 0 then some (0xFFFFFFFF, br)
          else readBitsLoop n (result <<< 1 % 2 ^ 32 ||| bit.toNat) br

/-- `NALBitReader_read_bits`. -/
def readBits (br : NalBitReader) (n : ℕ) : Option (ℕ × NalBitReader) := readBitsLoop n 0 br

/-- The loop of `NALBitReader_read_ue` over the leading zeros; every round reads a bit, so
that the bits are fuel enough. -/
def leadingZeros : ℕ → ℤ → NalBitReader → Option (Option ℤ × NalBitReader)
  | 0, _, _ => none
  | fuel + 1, leadingZeroBits, br =>
      match br.readBit with
      | none => none
      | some (b, br) =>
          if b < 0 then some (none, br)
          else if b = 0 then leadingZeros fuel (leadingZeroBits + 1) br
          else some (some (leadingZeroBits + 1), br)

/-- `NALBitReader_read_ue`. -/
def readUe (br : NalBitReader) : Option (ℤ × NalBitReader) :=
  match leadingZeros (8 * br.data.length + 1) (-1) br with
  | none => none
  | some (none, br) => some (-1, br)
  | some (some leadingZeroBits, br) =>
      if leadingZeroBits > 31 then some (-1, br)
      else
        match br.readBits leadingZeroBits.toNat with
        | none => none
        | some (infoBits, br) =>
            some ((2 ^ leadingZeroBits.toNat - 1 + (infoBits : ℤ)).bmod (2 ^ 32), br)

/-- The sign rule of `NALBitReader_read_se`. -/
def signed (codeNum : ℤ) : ℤ :=
  if codeNum % 2 = 1 then (codeNum + 1).bmod (2 ^ 32) >>> (1 : ℕ) else -(codeNum >>> (1 : ℕ))

/-- `NALBitReader_read_se`. -/
def readSe (br : NalBitReader) : Option (ℤ × NalBitReader) :=
  br.readUe.map fun r ↦ (signed r.1, r.2)

/-- `NALBitReader_read_te`. -/
def readTe (br : NalBitReader) (maxVal : ℤ) : Option (ℤ × NalBitReader) :=
  if maxVal < 1 then some (0, br)
  else if maxVal = 1 then
    br.readBit.map fun r ↦ (if r.1 < 0 then -1 else if r.1 = 0 then 1 else 0, r.2)
  else br.readUe

/-! ## What lies in front of a reader -/

def ahead (br : NalBitReader) : List Bool :=
  ((bytesToBits br.data).take br.limit.toNat).drop br.bitPos

/-- The reader faces the bits `l`; behind them it comes to the end of its size if `closed`,
and else to a byte that is not there. -/
structure Faces (br : NalBitReader) (l : List Bool) (closed : Bool) : Prop where
  ahead_eq : br.ahead = l
  pos_le : br.bitPos ≤ 8 * br.data.length
  closed_iff : closed = true ↔ br.limit ≤ 8 * br.data.length

variable {br : NalBitReader} {l : List Bool} {closed : Bool}

theorem ahead_skip (br : NalBitReader) (n : ℕ) : (br.skip n).ahead = br.ahead.drop n := by
  rw [ahead, ahead, List.drop_drop]
  rfl

theorem length_ahead (br : NalBitReader) :
    br.ahead.length = min br.limit.toNat (8 * br.data.length) - br.bitPos := by
  rw [ahead, List.length_drop, List.length_take, length_bytesToBits]

theorem Faces.skip (h : Faces br l closed) {n : ℕ} (hn : n ≤ l.length) :
    Faces (br.skip n) (l.drop n) closed where
  ahead_eq := by rw [ahead_skip, h.ahead_eq]
  pos_le := by
    have hpos := h.pos_le
    have hlen := length_ahead br
    rw [h.ahead_eq] at hlen
    change br.bitPos + n ≤ 8 * br.data.length
    omega
  closed_iff := h.closed_iff

theorem skip_skip (br : NalBitReader) (m n : ℕ) : (br.skip m).skip n = br.skip (m + n) := by
  rw [skip, skip, skip, Nat.add_assoc]

theorem Faces.readBit_cons {b : Bool} (h : Faces br (b :: l) closed) :
    br.readBit = some ((b.toNat : ℤ), br.skip 1) ∧ Faces (br.skip 1) l closed := by
  have hlen := length_ahead br
  have hget := congrArg (·.getD 0 false) h.ahead_eq
  rw [h.ahead_eq, List.length_cons] at hlen
  have hbyte : br.bitPos / 8 < br.data.length := by omega
  have htake : ((bytesToBits br.data).take br.limit.toNat).length =
      min br.limit.toNat (8 * br.data.length) := by
    rw [List.length_take, length_bytesToBits]
  have hbit : br.data[br.bitPos / 8].toNat.testBit (7 - br.bitPos % 8) = b := by
    simp only [ahead, List.getD_eq_getElem?_getD, List.getElem?_drop, Nat.add_zero,
      List.getElem?_cons_zero, Option.getD_some] at hget
    rw [List.getElem?_take_of_lt (by omega), ← List.getD_eq_getElem?_getD, getD_bytesToBits,
      List.getD_eq_getElem?_getD, List.getElem?_eq_getElem hbyte, Option.getD_some] at hget
    exact hget
  refine ⟨?_, h.skip (Nat.le_add_left 1 _)⟩
  rw [readBit, if_neg (by omega), List.getElem?_eq_getElem hbyte]
  simp only [Nat.shiftRight_eq_div_pow, Nat.and_one_is_mod, ← Nat.toNat_testBit, hbit]

theorem Faces.readBit_nil (h : Faces br [] closed) :
    br.readBit = if closed then some (-1, br) else none := by
  have hlen := length_ahead br
  have hpos := h.pos_le
  have hclosed := h.closed_iff
  rw [h.ahead_eq, List.length_nil] at hlen
  rw [readBit]
  cases closed with
  | true =>
      have hend : br.limit ≤ br.bitPos := by
        have hle := hclosed.mp rfl
        omega
      rw [if_pos hend, if_pos rfl]
  | false =>
      have hfar : 8 * (br.data.length : ℤ) < br.limit := by
        by_contra hle
        exact Bool.false_ne_true (hclosed.mpr (not_lt.mp hle))
      rw [if_neg (by omega), List.getElem?_eq_none (by omega)]
      rfl

/-! ## Numbers of a given width -/

theorem ofBits_append_singleton_or {done : List Bool} (b : Bool) (h : done.length < 32) :
    ofBits done <<< 1 % 2 ^ 32 ||| b.toNat = ofBits (done ++ [b]) := by
  have hlt := (ofBits_lt done).trans_le (Nat.pow_le_pow_right two_pos (Nat.le_of_lt_succ h))
  have hshift : ofBits done <<< 1 < 2 ^ 32 := by
    rw [Nat.shiftLeft_eq]
    omega
  calc ofBits done <<< 1 % 2 ^ 32 ||| b.toNat
      _ = ofBits done <<< 1 + b.toNat := by
        rw [Nat.mod_eq_of_lt hshift, ← Nat.shiftLeft_add_eq_or_of_lt (Bool.toNat_lt b)]
      _ = 2 * ofBits done + b.toNat := by rw [Nat.shiftLeft_eq, pow_one, Nat.mul_comm]
      _ = ofBits (done ++ [b]) := (ofBits_snoc done b).symm

theorem Faces.readBitsLoop_full {n : ℕ} : ∀ (done : List Bool) {br : NalBitReader}
    {l : List Bool}, Faces br l closed → n ≤ l.length → done.length + n ≤ 32 →
      readBitsLoop n (ofBits done) br = some (ofBits (done ++ l.take n), br.skip n) := by
  induction n with
  | zero =>
      intro done br l h hn hdone
      rw [readBitsLoop, List.take_zero, List.append_nil]
      rfl
  | succ n ih =>
      intro done br l h hn hdone
      cases l with
      | nil => exact absurd hn (Nat.not_succ_le_zero n)
      | cons b l =>
          obtain ⟨hbit, hnext⟩ := h.readBit_cons
          rw [List.length_cons] at hn
          have hrest := ih (done ++ [b]) hnext (Nat.le_of_succ_le_succ hn) (by
            rw [List.length_append, List.length_singleton]
            omega)
          simp only [readBitsLoop, hbit]
          rw [if_neg (Int.natCast_nonneg _).not_gt, Int.toNat_natCast,
            ofBits_append_singleton_or b (by omega), hrest, List.take_succ_cons, List.append_assoc,
            skip_skip, Nat.add_comm 1 n]
          rfl

theorem Faces.readBitsLoop_short {n : ℕ} : ∀ (acc : ℕ) {br : NalBitReader} {l : List Bool},
    Faces br l closed → l.length < n →
      readBitsLoop n acc br = if closed then some (0xFFFFFFFF, br.skip l.length) else none := by
  induction n with
  | zero =>
      intro acc br l h hn
      exact absurd hn (Nat.not_lt_zero _)
  | succ n ih =>
      intro acc br l h hn
      cases l with
      | nil =>
          rw [readBitsLoop, h.readBit_nil]
          cases closed <;> rfl
      | cons b l =>
          obtain ⟨hbit, hnext⟩ := h.readBit_cons
          rw [List.length_cons] at hn
          simp only [readBitsLoop, hbit]
          rw [if_neg (Int.natCast_nonneg _).not_gt, ih _ hnext (Nat.lt_of_succ_lt_succ hn),
            skip_skip, List.length_cons, Nat.add_comm 1]

theorem Faces.readBits_eq {n : ℕ} (h : Faces br l closed) (hn : n ≤ l.length) (hwidth : n ≤ 32) :
    br.readBits n = some (ofBits (l.take n), br.skip n) := by
  have hloop := h.readBitsLoop_full [] hn (by rwa [List.length_nil, Nat.zero_add])
  exact hloop

theorem Faces.skipBits_eq {n : ℕ} : ∀ {br : NalBitReader} {l : List Bool}, Faces br l closed →
    br.skipBits n =
      if n ≤ l.length ∨ closed then some (br.skip (min n l.length)) else none := by
  induction n with
  | zero =>
      intro br l h
      rw [skipBits, if_pos (.inl (Nat.zero_le _)), Nat.zero_min]
      rfl
  | succ n ih =>
      intro br l h
      cases l with
      | nil =>
          cases closed with
          | true =>
              have hstay := ih h
              simp only [skipBits, h.readBit_nil, if_true, hstay]
              simp
          | false =>
              simp only [skipBits, h.readBit_nil]
              simp
      | cons b l =>
          obtain ⟨hbit, hnext⟩ := h.readBit_cons
          simp only [skipBits, hbit, ih hnext, List.length_cons, skip_skip,
            Nat.add_le_add_iff_right, Nat.add_min_add_right, Nat.add_comm 1]

/-! ## Codes -/

theorem Faces.leadingZeros_run {z : ℕ} : ∀ {br : NalBitReader} {rest : List Bool} {fuel : ℕ}
    {k : ℤ}, Faces br (List.replicate z false ++ true :: rest) closed → z < fuel →
      leadingZeros fuel k br = some (some (k + z + 1), br.skip (z + 1)) := by
  induction z with
  | zero =>
      intro br rest fuel k h hfuel
      obtain ⟨fuel, rfl⟩ := Nat.exists_eq_add_one_of_ne_zero hfuel.ne'
      obtain ⟨hbit, -⟩ := Faces.readBit_cons (l := rest) h
      simp [leadingZeros, hbit]
  | succ z ih =>
      intro br rest fuel k h hfuel
      obtain ⟨fuel, rfl⟩ := Nat.exists_eq_add_one_of_ne_zero (Nat.zero_lt_of_lt hfuel).ne'
      rw [List.replicate_succ, List.cons_append] at h
      obtain ⟨hbit, hnext⟩ := h.readBit_cons
      have hrest := ih (k := k + 1) hnext (Nat.lt_of_succ_lt_succ hfuel)
      simp only [leadingZeros, hbit, Bool.toNat_false, Nat.cast_zero, lt_irrefl, if_false, if_true,
        hrest, skip_skip]
      rw [Nat.cast_succ, Nat.add_comm 1, add_right_comm k, add_assoc k]

theorem Faces.leadingZeros_unended : ∀ {l : List Bool} {br : NalBitReader} {fuel : ℕ} {k : ℤ},
    Faces br l closed → true ∉ l → l.length < fuel →
      leadingZeros fuel k br = if closed then some (none, br.skip l.length) else none := by
  intro l
  induction l with
  | nil =>
      intro br fuel k h hno hfuel
      obtain ⟨fuel, rfl⟩ := Nat.exists_eq_add_one_of_ne_zero hfuel.ne'
      rw [leadingZeros, h.readBit_nil]
      cases closed <;> rfl
  | cons b l ih =>
      intro br fuel k h hno hfuel
      obtain ⟨fuel, rfl⟩ := Nat.exists_eq_add_one_of_ne_zero (Nat.zero_lt_of_lt hfuel).ne'
      obtain ⟨hb, hl⟩ := not_or.mp (mt List.mem_cons.mpr hno)
      obtain rfl : b = false := Bool.eq_false_iff.mpr (Ne.symm hb)
      obtain ⟨hbit, hnext⟩ := h.readBit_cons
      have hrest := ih (k := k + 1) hnext hl (Nat.lt_of_succ_lt_succ hfuel)
      simp only [leadingZeros, hbit, Bool.toNat_false, Nat.cast_zero, lt_irrefl, if_false, if_true,
        hrest, skip_skip, List.length_cons, Nat.add_comm 1]

theorem Faces.length_le (h : Faces br l closed) : l.length ≤ 8 * br.data.length := by
  have hlen := length_ahead br
  rw [h.ahead_eq] at hlen
  omega

theorem Faces.readUe_unended (h : Faces br l closed) (hno : true ∉ l) :
    br.readUe = if closed then some (-1, br.skip l.length) else none := by
  have hloop := h.leadingZeros_unended (k := -1) hno (Nat.lt_succ_of_le h.length_le)
  rw [readUe, hloop]
  cases closed <;> rfl

theorem Faces.leadingZeros_eq {z : ℕ} {rest : List Bool}
    (h : Faces br (List.replicate z false ++ true :: rest) closed) :
    leadingZeros (8 * br.data.length + 1) (-1) br = some (some (z : ℤ), br.skip (z + 1)) ∧
      Faces (br.skip (z + 1)) rest closed := by
  have hlen := h.length_le
  rw [List.length_append, List.length_replicate, List.length_cons] at hlen
  have hskip := h.skip (n := z + 1) (by
    rw [List.length_append, List.length_replicate, List.length_cons]
    omega)
  rw [h.leadingZeros_run (by omega)]
  refine ⟨by simp, ?_⟩
  rwa [List.drop_append, List.length_replicate, List.drop_eq_nil_of_le (by simp),
    Nat.add_sub_cancel_left] at hskip

theorem Faces.readUe_long {z : ℕ} {rest : List Bool}
    (h : Faces br (List.replicate z false ++ true :: rest) closed) (hz : 31 < z) :
    br.readUe = some (-1, br.skip (z + 1)) := by
  obtain ⟨hloop, -⟩ := h.leadingZeros_eq
  rw [readUe, hloop]
  exact if_pos (Nat.cast_lt.mpr hz)

/-- A code that is cut off is not told from one whose last bits are all ones. -/
theorem Faces.readUe_cut {z : ℕ} {rest : List Bool}
    (h : Faces br (List.replicate z false ++ true :: rest) closed) (hz : z ≤ 31)
    (hcut : rest.length < z) :
    br.readUe = if closed then some (2 ^ z - 2, br.skip (z + 1 + rest.length)) else none := by
  obtain ⟨hloop, hrest⟩ := h.leadingZeros_eq
  have hshort := hrest.readBitsLoop_short 0 hcut
  rw [readUe, hloop]
  have hnot : ¬(z : ℤ) > 31 := by omega
  simp only [if_neg hnot, Int.toNat_natCast, NalBitReader.readBits, hshort]
  cases closed with
  | false => rfl
  | true =>
      have hpow : (2 : ℤ) ^ z ≤ 2 ^ 31 := pow_le_pow_right₀ one_le_two hz
      have hpos : (2 : ℤ) ^ 1 ≤ 2 ^ z := pow_le_pow_right₀ one_le_two (Nat.zero_lt_of_lt hcut)
      have hwrap : ((2 : ℤ) ^ z - 1 + (0xFFFFFFFF : ℕ)).bmod (2 ^ 32) = 2 ^ z - 2 := by
        rw [Int.bmod_def]
        omega
      simp only [if_true, hwrap, skip_skip]

theorem Faces.readUe_code {z n : ℕ} {post : List Bool} (hn : n < 2 ^ z)
    (h : Faces br (ueCode (2 ^ z - 1 + n) ++ post) closed) (hz : z ≤ 31) :
    br.readUe = some (((2 ^ z - 1 + n : ℕ) : ℤ).bmod (2 ^ 32),
      br.skip (ueCode (2 ^ z - 1 + n)).length) := by
  have hsize := length_ueCode hn
  rw [ueCode_eq hn, List.append_assoc, List.cons_append] at h
  obtain ⟨hloop, hrest⟩ := h.leadingZeros_eq
  have hinfo := hrest.readBits_eq (n := z) (by simp) (by omega)
  rw [List.take_left' (length_bitsOf z n), ofBits_bitsOf hn] at hinfo
  have hnot : ¬(z : ℤ) > 31 := by omega
  have hpos : 1 ≤ 2 ^ z := Nat.one_le_two_pow
  rw [readUe, hloop]
  simp only [if_neg hnot, Int.toNat_natCast, hinfo, skip_skip, hsize]
  rw [Nat.cast_add, Nat.cast_sub hpos, Nat.cast_pow, Nat.cast_one, Nat.cast_ofNat,
    show z + 1 + z = 2 * z + 1 by omega]

/-! ## Reading on -/

/-- In a short string a code is read unless it is cut off and there is no byte to go on. -/
theorem Faces.readUe_step (h : Faces br l closed) (hlen : l.length ≤ 32) :
    (closed = false ∧ ¬Complete l ∧ br.readUe = none) ∨
      (closed = true ∨ Complete l) ∧
        ∃ v br', br.readUe = some (v, br') ∧ Faces br' (pastCode l) closed := by
  have hend : Faces (br.skip l.length) [] closed := by
    have hskip := h.skip (n := l.length) le_rfl
    rwa [List.drop_length] at hskip
  rcases code_cases l with hno | ⟨z, n, post, hn, rfl⟩ | ⟨z, rest, hcut, rfl⟩
  · have hincomplete : ¬Complete l := fun hcomplete ↦ hno hcomplete.mem
    rw [pastCode_of_not_complete hincomplete, h.readUe_unended hno]
    cases closed with
    | true => exact Or.inr ⟨Or.inl rfl, _, _, rfl, hend⟩
    | false => exact Or.inl ⟨rfl, hincomplete, rfl⟩
  · have hsize := length_ueCode hn
    have hskip := h.skip (n := (ueCode (2 ^ z - 1 + n)).length) (by simp)
    rw [List.drop_left] at hskip
    rw [List.length_append, hsize] at hlen
    refine Or.inr ⟨Or.inr ?_, _, _, h.readUe_code hn (by omega), ?_⟩
    · rw [Complete, zeroRun_ueCode hn, List.length_append, hsize]
      omega
    · rwa [pastCode_ueCode]
  · have hincomplete : ¬Complete (List.replicate z false ++ true :: rest) :=
      mt complete_run_iff.mp hcut.not_ge
    have hsize : (List.replicate z false ++ true :: rest).length = z + 1 + rest.length := by
      rw [List.length_append, List.length_replicate, List.length_cons]
      omega
    rw [hsize] at hend hlen
    rw [pastCode_of_not_complete hincomplete, h.readUe_cut (by omega) hcut]
    cases closed with
    | true => exact Or.inr ⟨Or.inl rfl, _, _, rfl, hend⟩
    | false => exact Or.inl ⟨rfl, hincomplete, rfl⟩

/-- A short string gives a number that is no error as soon as its run of zeros ends, even
where its code is cut off. -/
theorem Faces.readUe_nonneg_iff (h : Faces br l closed) (hlen : l.length ≤ 32) :
    (∃ v br', br.readUe = some (v, br') ∧ 0 ≤ v) ↔ true ∈ l ∧ (closed = true ∨ Complete l) := by
  rcases code_cases l with hno | ⟨z, n, post, hn, rfl⟩ | ⟨z, rest, hcut, rfl⟩
  · rw [h.readUe_unended hno]
    refine iff_of_false ?_ fun hone ↦ hno hone.1
    rintro ⟨v, br', hread, hv⟩
    cases closed <;> cases hread
    exact absurd hv (by decide)
  · have hsize := length_ueCode hn
    rw [List.length_append, hsize] at hlen
    have hpow : 2 ^ z ≤ 2 ^ 30 := Nat.pow_le_pow_right two_pos (by omega)
    have hcomplete : Complete (ueCode (2 ^ z - 1 + n) ++ post) := by
      rw [Complete, zeroRun_ueCode hn, List.length_append, hsize]
      omega
    refine iff_of_true ⟨_, _, h.readUe_code hn (by omega), ?_⟩ ⟨hcomplete.mem, Or.inr hcomplete⟩
    rw [Int.bmod_def]
    omega
  · have hincomplete : ¬Complete (List.replicate z false ++ true :: rest) :=
      mt complete_run_iff.mp hcut.not_ge
    rw [List.length_append, List.length_replicate, List.length_cons] at hlen
    have hpos : (2 : ℤ) ^ 1 ≤ 2 ^ z := pow_le_pow_right₀ one_le_two (Nat.zero_lt_of_lt hcut)
    rw [h.readUe_cut (by omega) hcut]
    cases closed with
    | true => exact iff_of_true ⟨_, _, rfl, by omega⟩ ⟨by simp, Or.inl rfl⟩
    | false =>
        refine iff_of_false ?_ fun hread ↦ hread.2.elim Bool.false_ne_true hincomplete
        rintro ⟨v, br', hread, -⟩
        cases hread

theorem Faces.readBits_step {n : ℕ} (h : Faces br l closed) (hn : n ≤ 32) :
    (closed = false ∧ l.length < n ∧ br.readBits n = none) ∨
      (closed = true ∨ n ≤ l.length) ∧
        ∃ v br', br.readBits n = some (v, br') ∧ Faces br' (l.drop n) closed ∧
          v = if n ≤ l.length then ofBits (l.take n) else 0xFFFFFFFF := by
  rcases Nat.lt_or_ge l.length n with hlt | hge
  · have hend := h.skip (n := l.length) le_rfl
    rw [List.drop_length] at hend
    rw [NalBitReader.readBits, h.readBitsLoop_short 0 hlt, List.drop_eq_nil_of_le hlt.le,
      if_neg hlt.not_ge]
    cases closed with
    | true => exact Or.inr ⟨Or.inl rfl, _, _, rfl, hend, rfl⟩
    | false => exact Or.inl ⟨rfl, hlt, rfl⟩
  · rw [if_pos hge]
    exact Or.inr ⟨Or.inr hge, _, _, h.readBits_eq hge hn, h.skip hge, rfl⟩

theorem Faces.skipBits_step {n : ℕ} (h : Faces br l closed) :
    (closed = false ∧ l.length < n ∧ br.skipBits n = none) ∨
      (closed = true ∨ n ≤ l.length) ∧
        ∃ br', br.skipBits n = some br' ∧ Faces br' (l.drop n) closed := by
  have hskip := h.skip (n := min n l.length) (min_le_right _ _)
  have hdrop : l.drop (min n l.length) = l.drop n := by
    rcases Nat.le_total n l.length with hle | hle
    · rw [min_eq_left hle]
    · rw [min_eq_right hle, List.drop_length, List.drop_eq_nil_of_le hle]
  rw [hdrop] at hskip
  rw [h.skipBits_eq]
  split_ifs with hgoes
  · exact Or.inr ⟨hgoes.symm, _, rfl, hskip⟩
  · obtain ⟨hlt, hopen⟩ := not_or.mp hgoes
    exact Or.inl ⟨Bool.eq_false_iff.mpr hopen, Nat.lt_of_not_le hlt, rfl⟩

/-! ## Whole buffers -/

def ofBuffer (data : List UInt8) (pos : ℕ) : NalBitReader := ⟨data, data.length, pos⟩

theorem faces_ofBuffer {data : List UInt8} {pos : ℕ} (hpos : pos ≤ 8 * data.length) :
    Faces (ofBuffer data pos) (ofBuffer data pos).ahead true where
  ahead_eq := rfl
  pos_le := hpos
  closed_iff := by
    have hle : ((data.length : ℤ) * 8).bmod (2 ^ 32) ≤ 8 * data.length := by
      rw [Int.bmod_def]
      omega
    exact iff_of_true rfl hle

theorem ahead_ofBuffer {data : List UInt8} (hlen : 8 * data.length < 2 ^ 31) (pos : ℕ) :
    (ofBuffer data pos).ahead = (bytesToBits data).drop pos := by
  have hlimit : ((data.length : ℤ) * 8).bmod (2 ^ 32) = (bytesToBits data).length := by
    rw [Int.bmod_def, length_bytesToBits]
    omega
  rw [ahead, limit, ofBuffer, hlimit, Int.toNat_natCast, List.take_length]

theorem ahead_prefix (data : List UInt8) (pos : ℕ) :
    (ofBuffer data pos).ahead <+: (bytesToBits data).drop pos := by
  rw [ahead, List.drop_take]
  exact List.take_prefix _ _

theorem readUe_ueCode {data : List UInt8} {pre post : List Bool} {v : ℕ}
    (hlen : 8 * data.length < 2 ^ 31) (hv : v ≤ 2 ^ 31 - 2)
    (hbits : bytesToBits data = pre ++ ueCode v ++ post) :
    (ofBuffer data pre.length).readUe =
      some ((v : ℤ), ofBuffer data (pre.length + (ueCode v).length)) := by
  have hsize := congrArg List.length hbits
  rw [length_bytesToBits, List.length_append, List.length_append] at hsize
  have hpos : pre.length ≤ 8 * data.length := by omega
  have hfaces := faces_ofBuffer hpos
  rw [ahead_ofBuffer hlen, hbits, List.append_assoc, List.drop_left] at hfaces
  obtain ⟨z, n, hn, rfl⟩ := exists_split v
  have hz : z < 31 := (Nat.pow_lt_pow_iff_right one_lt_two).mp (by omega)
  rw [hfaces.readUe_code hn hz.le, Int.bmod_def]
  rw [if_pos (by omega), Int.emod_eq_of_lt (by omega) (by omega)]
  rfl

theorem codeNum_le {w : ℤ} (h : |w| < 2 ^ 30) : codeNum w ≤ 2 ^ 31 - 2 := by
  rw [abs_lt] at h
  unfold codeNum
  split_ifs <;> omega

theorem signed_codeNum {w : ℤ} (h : |w| < 2 ^ 30) : signed (codeNum w) = w := by
  rw [abs_lt] at h
  rcases lt_or_ge 0 w with hpos | hneg
  · rw [codeNum_of_pos hpos, signed, if_pos (by omega), Int.shiftRight_eq_div_pow, Int.bmod_def]
    omega
  · rw [codeNum_of_nonpos hneg, signed, if_neg (by omega), Int.shiftRight_eq_div_pow]
    omega

theorem readSe_seCode {data : List UInt8} {pre post : List Bool} {w : ℤ}
    (hlen : 8 * data.length < 2 ^ 31) (hw : |w| < 2 ^ 30)
    (hbits : bytesToBits data = pre ++ seCode w ++ post) :
    (ofBuffer data pre.length).readSe =
      some (w, ofBuffer data (pre.length + (seCode w).length)) := by
  rw [readSe, readUe_ueCode hlen (codeNum_le hw) hbits, Option.map_some, signed_codeNum hw]
  rfl

/-- At any position of a buffer with less than `2 ^ 31` bits the readers give back what
the codes say, and stand behind them. -/
theorem golomb_inverse (data : List UInt8) (pre post : List Bool)
    (hlen : 8 * data.length < 2 ^ 31) :
    (∀ v : ℕ, v ≤ 2 ^ 31 - 2 → bytesToBits data = pre ++ ueCode v ++ post →
      (ofBuffer data pre.length).readUe =
        some ((v : ℤ), ofBuffer data (pre.length + (ueCode v).length))) ∧
    ∀ w : ℤ, |w| < 2 ^ 30 → bytesToBits data = pre ++ seCode w ++ post →
      (ofBuffer data pre.length).readSe =
        some (w, ofBuffer data (pre.length + (seCode w).length)) :=
  ⟨fun _ ↦ readUe_ueCode hlen, fun _ ↦ readSe_seCode hlen⟩

/-- The bits 1 010 0110: the number 1 behind one bit, or the same code as a sign and one. -/
theorem golomb_inverse_three :
    (ofBuffer [0xA6] 1).readUe = some (1, ofBuffer [0xA6] 4) ∧
      (ofBuffer [0xA6] 1).readSe = some (1, ofBuffer [0xA6] 4) :=
  have h := golomb_inverse [0xA6] [true] [false, true, true, false] (by decide)
  ⟨h.1 1 (by decide) (by decide +kernel), h.2 1 (by decide) (by decide +kernel)⟩

/-! ## Codes that cannot be read -/

/-- The bits start with a whole code of at most 31 leading zeros. -/
def Readable (l : List Bool) : Prop := Complete l ∧ zeroRun l ≤ 31

instance (l : List Bool) : Decidable (Readable l) := inferInstanceAs (Decidable (_ ∧ _))

/-- The values that a reader gives for codes that can be read. -/
def Decoded (read : NalBitReader → Option (ℤ × NalBitReader)) (val : ℤ) : Prop :=
  ∃ data pos br, Readable (ofBuffer data pos).ahead ∧ read (ofBuffer data pos) = some (val, br)

/-- The reader gives a value that it gives for no code that can be read. -/
def Told (read : NalBitReader → Option (ℤ × NalBitReader)) (br : NalBitReader) : Prop :=
  ∃ val br', read br = some (val, br') ∧ ¬Decoded read val

/-- The run of zeros does not end among the bits that the reader can come to, or is too
long. -/
def RunFails (br : NalBitReader) : Prop := true ∈ br.ahead → 31 < zeroRun br.ahead

instance (br : NalBitReader) : Decidable (RunFails br) := inferInstanceAs (Decidable (_ → _))

theorem readable_ueCode {v : ℕ} (hv : v ≤ 2 ^ 31 - 2) (post : List Bool) :
    Readable (ueCode v ++ post) := by
  obtain ⟨z, n, hn, rfl⟩ := exists_split v
  have hz : z < 31 := (Nat.pow_lt_pow_iff_right one_lt_two).mp (by omega)
  have hlen := length_ueCode hn
  rw [Readable, Complete, zeroRun_ueCode hn, List.length_append, hlen]
  omega

theorem exists_buffer (code : List Bool) :
    ∃ data post, data.length = code.length ∧ bytesToBits data = [] ++ code ++ post := by
  have hlen : (code ++ List.replicate (7 * code.length) false).length = 8 * code.length := by
    rw [List.length_append, List.length_replicate]
    omega
  obtain ⟨data, hdata⟩ := exists_bytes hlen
  refine ⟨data, List.replicate (7 * code.length) false, ?_, hdata⟩
  have hbits := congrArg List.length hdata
  rw [length_bytesToBits, hlen] at hbits
  omega

theorem exists_ueCode {v : ℕ} (hv : v ≤ 2 ^ 31 - 2) :
    ∃ data post, 8 * data.length < 2 ^ 31 ∧ bytesToBits data = [] ++ ueCode v ++ post ∧
      Readable (ofBuffer data 0).ahead := by
  obtain ⟨data, post, hlen, hbits⟩ := exists_buffer (ueCode v)
  have hsmall : 8 * data.length < 2 ^ 31 := by
    obtain ⟨z, n, hn, rfl⟩ := exists_split v
    have hz : z < 31 := (Nat.pow_lt_pow_iff_right one_lt_two).mp (by omega)
    rw [hlen, length_ueCode hn]
    omega
  refine ⟨data, post, hsmall, hbits, ?_⟩
  rw [ahead_ofBuffer hsmall, List.drop_zero, hbits, List.nil_append]
  exact readable_ueCode hv post

theorem decoded_ue {v : ℕ} (hv : v ≤ 2 ^ 31 - 2) : Decoded readUe v := by
  obtain ⟨data, post, hlen, hbits, hread⟩ := exists_ueCode hv
  have hcode := readUe_ueCode hlen hv hbits
  exact ⟨data, 0, _, hread, hcode⟩

theorem decoded_se {w : ℤ} (hw : |w| < 2 ^ 30) : Decoded readSe w := by
  obtain ⟨data, post, hlen, hbits, hread⟩ := exists_ueCode (codeNum_le hw)
  have hcode := readSe_seCode hlen hw hbits
  exact ⟨data, 0, _, hread, hcode⟩

theorem not_decoded_ue : ¬Decoded readUe (-1) := by
  rintro ⟨data, pos, br, ⟨hcomplete, hz⟩, hread⟩
  have hlen := length_ahead (ofBuffer data pos)
  have hsome := List.length_pos_of_mem hcomplete.mem
  have hpos : pos ≤ 8 * data.length := by
    change _ = min _ (8 * data.length) - pos at hlen
    omega
  have hfaces := faces_ofBuffer hpos
  obtain ⟨z, n, post, hn, hrun, hahead⟩ := hcomplete.exists_ueCode
  rw [hahead] at hfaces
  rw [hrun] at hz
  have hpow : 2 ^ z ≤ 2 ^ 31 := Nat.pow_le_pow_right two_pos hz
  rw [hfaces.readUe_code hn hz, Int.bmod_def] at hread
  have hval := congrArg Prod.fst (Option.some.inj hread)
  dsimp only at hval
  omega

/-- What becomes of a code that cannot be read: -1 where its run of zeros fails, and else
what one short of the last code of its length would be. -/
theorem readUe_of_not_readable {data : List UInt8} {pos : ℕ} (hpos : pos ≤ 8 * data.length)
    (hcode : ¬Readable ((bytesToBits data).drop pos)) :
    (RunFails (ofBuffer data pos) ∧ ∃ br, (ofBuffer data pos).readUe = some (-1, br)) ∨
      ¬RunFails (ofBuffer data pos) ∧
        ∃ z br, 1 ≤ z ∧ z ≤ 31 ∧ (ofBuffer data pos).readUe = some (2 ^ z - 2, br) := by
  have hfaces := faces_ofBuffer hpos
  have hprefix := ahead_prefix data pos
  unfold RunFails
  rcases code_cases (ofBuffer data pos).ahead with
    hno | ⟨z, n, post, hn, hahead⟩ | ⟨z, rest, hcut, hahead⟩
  · exact Or.inl ⟨fun hone ↦ absurd hone hno, _, hfaces.readUe_unended hno⟩
  · rw [hahead] at hfaces hprefix ⊢
    rw [zeroRun_ueCode hn]
    obtain ⟨more, hmore⟩ := hprefix
    have hz : 31 < z := by
      by_contra hz
      apply hcode
      rw [← hmore, List.append_assoc]
      have hlen := length_ueCode hn
      rw [Readable, Complete, zeroRun_ueCode hn, List.length_append, hlen]
      omega
    rw [ueCode_eq hn, List.append_assoc, List.cons_append] at hfaces
    exact Or.inl ⟨fun _ ↦ hz, _, hfaces.readUe_long hz⟩
  · rw [hahead] at hfaces ⊢
    rw [zeroRun_run]
    rcases Nat.lt_or_ge 31 z with hz | hz
    · exact Or.inl ⟨fun _ ↦ hz, _, hfaces.readUe_long hz⟩
    · refine Or.inr ⟨fun hfails ↦ ?_, z, _, Nat.zero_lt_of_lt hcut, hz, hfaces.readUe_cut hz hcut⟩
      exact absurd (hfails (List.mem_append_right _ List.mem_cons_self)) hz.not_gt

theorem two_pow_sub_two {z : ℕ} (hz : 1 ≤ z) (hle : z ≤ 31) :
    ((2 : ℤ) ^ z - 2) = (2 ^ z - 2 : ℕ) ∧ 2 ^ z - 2 ≤ 2 ^ 31 - 2 := by
  have hpow : 2 ^ z ≤ 2 ^ 31 := Nat.pow_le_pow_right two_pos hle
  have hpos : 2 ^ 1 ≤ 2 ^ z := Nat.pow_le_pow_right two_pos hz
  exact ⟨by rw [Nat.cast_sub (by omega), Nat.cast_pow]; rfl, by omega⟩

theorem told_ue_iff {data : List UInt8} {pos : ℕ} (hpos : pos ≤ 8 * data.length)
    (hcode : ¬Readable ((bytesToBits data).drop pos)) :
    Told readUe (ofBuffer data pos) ↔ RunFails (ofBuffer data pos) := by
  rcases readUe_of_not_readable hpos hcode with ⟨hfails, br, hread⟩ | ⟨hends, z, br, h1, hz, hread⟩
  · exact iff_of_true ⟨-1, br, hread, not_decoded_ue⟩ hfails
  · refine iff_of_false ?_ hends
    rintro ⟨val, br', hval, hnew⟩
    obtain ⟨rfl, -⟩ := Prod.mk.inj (Option.some.inj (hread.symm.trans hval))
    obtain ⟨hcast, hle⟩ := two_pow_sub_two h1 hz
    exact hnew (hcast ▸ decoded_ue hle)

/-- The sign rule makes 0 of an error, and a number that has a code of everything else. -/
theorem not_told_se {data : List UInt8} {pos : ℕ} (hpos : pos ≤ 8 * data.length)
    (hcode : ¬Readable ((bytesToBits data).drop pos)) : ¬Told readSe (ofBuffer data pos) := by
  rintro ⟨val, br', hval, hnew⟩
  apply hnew
  rcases readUe_of_not_readable hpos hcode with ⟨-, br, hread⟩ | ⟨-, z, br, h1, hz, hread⟩
  · rw [readSe, hread, Option.map_some, Option.some.injEq, Prod.mk.injEq] at hval
    obtain ⟨rfl, -⟩ := hval
    exact decoded_se (w := signed (-1)) (by decide)
  · rw [readSe, hread, Option.map_some, Option.some.injEq, Prod.mk.injEq] at hval
    obtain ⟨rfl, -⟩ := hval
    obtain ⟨z, rfl⟩ := Nat.exists_eq_add_of_le' h1
    have hpow : (2 : ℤ) ^ z ≤ 2 ^ 30 := pow_le_pow_right₀ one_le_two (by omega)
    have hpos : (0 : ℤ) < 2 ^ z := pow_pos two_pos z
    apply decoded_se
    rw [signed, if_neg (by omega), Int.shiftRight_eq_div_pow, pow_succ, abs_lt]
    omega

/-- Where a code cannot be read, -1 of `NALBitReader_read_ue` and `NALBitReader_read_te`
says so exactly when the run of zeros fails; nothing that `NALBitReader_read_se` returns
does. -/
theorem truncation_told_iff (data : List UInt8) (pos : ℕ) (maxVal : ℤ)
    (hpos : pos ≤ 8 * data.length) (hcode : ¬Readable ((bytesToBits data).drop pos))
    (hmax : 1 < maxVal) :
    ((∃ br, (ofBuffer data pos).readUe = some (-1, br)) ↔ RunFails (ofBuffer data pos)) ∧
      (Told (fun br ↦ br.readTe maxVal) (ofBuffer data pos) ↔ RunFails (ofBuffer data pos)) ∧
      ¬Told readSe (ofBuffer data pos) := by
  have hte : (fun br : NalBitReader ↦ br.readTe maxVal) = readUe := by
    funext br
    rw [readTe, if_neg (by omega), if_neg (by omega)]
  refine ⟨?_, hte ▸ told_ue_iff hpos hcode, not_told_se hpos hcode⟩
  rcases readUe_of_not_readable hpos hcode with ⟨hfails, hread⟩ | ⟨hends, z, br, h1, hz, hread⟩
  · exact iff_of_true hread hfails
  · refine iff_of_false ?_ hends
    rintro ⟨br', hval⟩
    have hpow : (2 : ℤ) ^ 1 ≤ 2 ^ z := pow_le_pow_right₀ one_le_two h1
    have hval' := congrArg Prod.fst (Option.some.inj (hread.symm.trans hval))
    dsimp only at hval'
    omega

/-- Seven zeros at the end of a buffer. -/
theorem truncation_told_zeros :
    (∃ br, (ofBuffer [0x80] 1).readUe = some (-1, br)) ∧
      Told (fun br ↦ br.readTe 2) (ofBuffer [0x80] 1) ∧ ¬Told readSe (ofBuffer [0x80] 1) := by
  obtain ⟨hue, hte, hse⟩ := truncation_told_iff [0x80] 1 2 (by decide) (by decide +kernel)
    (by decide)
  have hfails : RunFails (ofBuffer [0x80] 1) := by decide +kernel
  exact ⟨hue.mpr hfails, hte.mpr hfails, hse⟩

/-- The bits 01 at the end of a buffer are taken for the number 0. -/
theorem truncation_untold :
    ¬Readable ((bytesToBits [0x01]).drop 6) ∧
      (ofBuffer [0x01] 6).readUe = some (0, ofBuffer [0x01] 8) ∧
      ¬Told (fun br ↦ br.readTe 2) (ofBuffer [0x01] 6) ∧ ¬Told readSe (ofBuffer [0x01] 6) := by
  have hcode : ¬Readable ((bytesToBits [0x01]).drop 6) := by decide +kernel
  have hends : ¬RunFails (ofBuffer [0x01] 6) := by decide +kernel
  have hue := (told_ue_iff (by decide) hcode).not.mpr hends
  exact ⟨hcode, by decide +kernel, hue, not_told_se (by decide) hcode⟩

end NalBitReader

end LtnTsTools.Nal
