import LtnTsTools.Region

/-!
# Transport packets

The accessors of `ts.h` and the clock reference helpers of `ts.c`, on packets
of exactly 188 bytes.  Each accessor is written with the masks and shifts of
the source; the `_eq` lemmas give the same value by division and remainder,
which is the form the later proofs compute with.
-/

namespace LtnTsTools

structure Packet where
  bytes : List UInt8
  length_bytes : bytes.length = 188
deriving DecidableEq

namespace Packet

/-- The byte at a fixed position, as a number. -/
def byte (p : Packet) (i : ℕ) : ℕ := (p.bytes.getD i 0).toNat

theorem byte_lt (p : Packet) (i : ℕ) : p.byte i < 256 := UInt8.toNat_lt _

/-- `p[i] = v`, an assignment that truncates to a byte. -/
def set (p : Packet) (i v : ℕ) : Packet where
  bytes := p.bytes.set i (UInt8.ofNat v)
  length_bytes := by rw [List.length_set, p.length_bytes]

/-- `memset` of the whole packet. -/
def filled (v : UInt8) : Packet where
  bytes := List.replicate 188 v
  length_bytes := List.length_replicate

/-- `p[i] = v` for `lo <= i < hi`. -/
def setRange (p : Packet) (lo hi v : ℕ) : Packet :=
  (List.range' lo (hi - lo)).foldl (fun q i ↦ q.set i v) p

@[simp] theorem byte_set_self {p : Packet} {i v : ℕ} (hi : i < 188) :
    (p.set i v).byte i = v % 256 := by
  have hlen : i < p.bytes.length := hi.trans_eq p.length_bytes.symm
  rw [byte, set, List.getD_eq_getElem?_getD, List.getElem?_set_self hlen, Option.getD_some,
    UInt8.toNat_ofNat']

@[simp] theorem byte_set_ne {p : Packet} {i j v : ℕ} (h : i ≠ j) :
    (p.set i v).byte j = p.byte j := by
  simp [byte, set, List.getElem?_set_ne h]

theorem byte_setRange_of_lt {p : Packet} {lo hi v j : ℕ} (h : j < lo) :
    (p.setRange lo hi v).byte j = p.byte j := by
  suffices hall : ∀ (is : List ℕ) (q : Packet), (∀ i ∈ is, j < i) →
      (is.foldl (fun q i ↦ q.set i v) q).byte j = q.byte j by
    apply hall
    intro i hi
    exact h.trans_le (List.left_le_of_mem_range' hi)
  intro is
  induction is with
  | nil => exact fun _ _ ↦ rfl
  | cons i rest ih =>
      intro q hq
      have hi : j < i := hq i (by simp)
      rw [List.foldl_cons, ih _ fun k hk ↦ hq k (List.mem_cons_of_mem i hk),
        byte_set_ne (by omega)]

/-- `memcpy` into the packet, if it stays inside. -/
def copyIn (p : Packet) (off : ℕ) (src : List UInt8) : Option Packet :=
  match h : Region.store p.bytes off src with
  | none => none
  | some bytes => some ⟨bytes, (Region.length_of_store h).trans p.length_bytes⟩

theorem copyIn_eq {p : Packet} {off : ℕ} {src : List UInt8} (h : off + src.length ≤ 188) :
    ∃ q, p.copyIn off src = some q ∧
      q.bytes = p.bytes.take off ++ (src ++ p.bytes.drop (off + src.length)) := by
  have hstore := Region.store_eq_some (h.trans_eq p.length_bytes.symm)
  refine ⟨⟨_, (Region.length_of_store hstore).trans p.length_bytes⟩, ?_, rfl⟩
  unfold copyIn
  split
  · rename_i hnone
    rw [hstore] at hnone
    exact absurd hnone (by simp)
  · rename_i bytes hsome
    rw [hstore, Option.some.injEq] at hsome
    simp [hsome]

theorem copyIn_of_far {p : Packet} {off : ℕ} {src : List UInt8} (h : 188 < off + src.length) :
    p.copyIn off src = none := by
  have hnone : Region.store p.bytes off src = none :=
    Region.store_eq_none_iff.mpr (p.length_bytes.trans_lt h)
  unfold copyIn
  split
  · rfl
  · rename_i bytes hsome
    rw [hnone] at hsome
    cases hsome

theorem length_take_bytes {p : Packet} {off : ℕ} (h : off ≤ 188) :
    (p.bytes.take off).length = off := by
  rw [List.length_take, p.length_bytes, min_eq_left h]

/-- A copy that reaches exactly to the end of the packet: the bytes before it
are kept, and the packet ends in the source. -/
theorem copyIn_to_end {p : Packet} {off : ℕ} {src : List UInt8}
    (h : off + src.length = 188) :
    ∃ q, p.copyIn off src = some q ∧ q.bytes.drop off = src ∧
      ∀ j < off, q.byte j = p.byte j := by
  have htake : (p.bytes.take off).length = off := length_take_bytes (by omega)
  obtain ⟨q, hq, hbytes⟩ := copyIn_eq (p := p) h.le
  rw [List.drop_of_length_le (by rw [p.length_bytes]; omega), List.append_nil] at hbytes
  refine ⟨q, hq, ?_, ?_⟩
  · rw [hbytes, List.drop_append, htake, Nat.sub_self, List.drop_zero,
      List.drop_of_length_le (by omega), List.nil_append]
  · intro j hj
    rw [byte, byte, hbytes, List.getD_eq_getElem?_getD, List.getD_eq_getElem?_getD,
      List.getElem?_append_left (by omega), List.getElem?_take_of_lt hj]

end Packet

/-! ## Masks -/

theorem and_f (n : ℕ) : n &&& 0x0f = n % 16 := Nat.and_two_pow_sub_one_eq_mod n 4

theorem and_1f (n : ℕ) : n &&& 0x1f = n % 32 := Nat.and_two_pow_sub_one_eq_mod n 5

theorem and_ff (n : ℕ) : n &&& 0xff = n % 256 := Nat.and_two_pow_sub_one_eq_mod n 8

theorem and_fff (n : ℕ) : n &&& 0xfff = n % 4096 := Nat.and_two_pow_sub_one_eq_mod n 12

theorem and_1fff (n : ℕ) : n &&& 0x1fff = n % 8192 := Nat.and_two_pow_sub_one_eq_mod n 13

theorem and_1fff_shiftRight (n : ℕ) : (n &&& 0x1fff) >>> 8 = n / 256 % 32 := by
  rw [and_1fff, Nat.shiftRight_eq_div_pow]
  omega

namespace Ts

/-! ## Header fields -/

def syncPresent (p : Packet) : Bool := p.byte 0 == 0x47

def teiSet (p : Packet) : Bool := p.byte 1 &&& 0x80 != 0

def payloadUnitStartIndicator (p : Packet) : Bool := p.byte 1 &&& 0x40 != 0

def pid (p : Packet) : ℕ := (p.byte 1 <<< 8 ||| p.byte 2) &&& 0x1fff

def transportScramblingControl (p : Packet) : ℕ := p.byte 3 >>> 6

def adaptionFieldControl (p : Packet) : ℕ := (p.byte 3 >>> 4) &&& 0x03

def hasAdaption (p : Packet) : Bool :=
  adaptionFieldControl p == 2 || adaptionFieldControl p == 3

def adaptionFieldLength (p : Packet) : ℕ := p.byte 4

def continuityCounter (p : Packet) : ℕ := p.byte 3 &&& 0x0f

theorem pid_eq (p : Packet) : pid p = p.byte 1 % 32 * 256 + p.byte 2 := by
  have h1 := p.byte_lt 1
  have h2 := p.byte_lt 2
  rw [pid, ← Nat.shiftLeft_add_eq_or_of_lt (by omega : p.byte 2 < 2 ^ 8), Nat.shiftLeft_eq,
    and_1fff]
  omega

theorem pid_lt (p : Packet) : pid p < 0x2000 := by
  have h2 := p.byte_lt 2
  rw [pid_eq]
  omega

theorem payloadUnitStartIndicator_iff (p : Packet) :
    payloadUnitStartIndicator p = true ↔ p.byte 1 / 64 % 2 = 1 := by
  have h : ∀ b < 256, (b &&& 0x40 != 0) = true ↔ b / 64 % 2 = 1 := by decide +kernel
  exact h _ (p.byte_lt 1)

theorem adaptionFieldControl_eq (p : Packet) :
    adaptionFieldControl p = p.byte 3 / 16 % 4 := by
  rw [adaptionFieldControl, Nat.shiftRight_eq_div_pow, show (0x03 : ℕ) = 2 ^ 2 - 1 by norm_num,
    Nat.and_two_pow_sub_one_eq_mod]

theorem continuityCounter_eq (p : Packet) : continuityCounter p = p.byte 3 % 16 := by
  rw [continuityCounter, and_f]

/-- Where the payload starts: behind the header, and behind the adaption field
when there is one. -/
def payloadOffset (p : Packet) : ℕ :=
  if hasAdaption p then 5 + adaptionFieldLength p else 4

/-- A byte of the buffer from a packet on, or of the memory behind it. -/
def bufferByte (behind : ℕ → UInt8) (packets : List Packet) (i : ℕ) : ℕ :=
  match packets[i / 188]? with
  | some p => p.byte (i % 188)
  | none => (behind (i - 188 * packets.length)).toNat

def payload (p : Packet) : List UInt8 := p.bytes.drop (payloadOffset p)

theorem length_payload (p : Packet) : (payload p).length = 188 - payloadOffset p := by
  rw [payload, List.length_drop, p.length_bytes]

theorem four_le_payloadOffset (p : Packet) : 4 ≤ payloadOffset p := by
  unfold payloadOffset
  split_ifs <;> omega

/-! ## Clock references -/

/-- The six bytes of a clock reference field, from a packet position on. -/
def pcrToScr (p : Packet) (pos : ℕ) : ℕ :=
  let base := (p.byte pos <<< 25 ||| p.byte (pos + 1) <<< 17 ||| p.byte (pos + 2) <<< 9 |||
    p.byte (pos + 3) <<< 1 ||| p.byte (pos + 4) >>> 7) &&& 0x1ffffffff
  let ext := (p.byte (pos + 4) <<< 8 ||| p.byte (pos + 5)) &&& 0x1ff
  base * 300 + ext

/-- The clock reference of a packet; `none` is the error return. -/
def scr (p : Packet) : Option ℕ :=
  if syncPresent p = false then none
  else if adaptionFieldControl p < 2 then none
  else if p.byte 4 = 0 then none
  else if p.byte 5 &&& 0x10 = 0 then none
  else some (pcrToScr p 6)

theorem shiftLeft_or_shiftLeft {x y j : ℕ} (i : ℕ) (hy : y < 2 ^ j) :
    x <<< (i + j) ||| y <<< i = (x * 2 ^ j + y) <<< i := by
  rw [Nat.add_comm, Nat.shiftLeft_add, ← Nat.shiftLeft_or_distrib,
    ← Nat.shiftLeft_add_eq_or_of_lt hy, Nat.shiftLeft_eq x]

theorem pcrToScr_eq (p : Packet) (pos : ℕ) :
    pcrToScr p pos =
      (p.byte pos * 2 ^ 25 + p.byte (pos + 1) * 2 ^ 17 + p.byte (pos + 2) * 2 ^ 9 +
        p.byte (pos + 3) * 2 + p.byte (pos + 4) / 128) * 300 +
      (p.byte (pos + 4) % 2 * 256 + p.byte (pos + 5)) := by
  have h0 := p.byte_lt pos
  have h1 := p.byte_lt (pos + 1)
  have h2 := p.byte_lt (pos + 2)
  have h3 := p.byte_lt (pos + 3)
  have h4 := p.byte_lt (pos + 4)
  have h5 := p.byte_lt (pos + 5)
  have hbase : p.byte pos <<< 25 ||| p.byte (pos + 1) <<< 17 ||| p.byte (pos + 2) <<< 9 |||
      p.byte (pos + 3) <<< 1 ||| p.byte (pos + 4) >>> 7 =
      p.byte pos * 2 ^ 25 + p.byte (pos + 1) * 2 ^ 17 + p.byte (pos + 2) * 2 ^ 9 +
        p.byte (pos + 3) * 2 + p.byte (pos + 4) / 128 := by
    rw [shiftLeft_or_shiftLeft (j := 8) 17 (by omega), shiftLeft_or_shiftLeft (j := 8) 9 (by omega),
      shiftLeft_or_shiftLeft (j := 8) 1 (by omega), Nat.shiftRight_eq_div_pow,
      ← Nat.shiftLeft_add_eq_or_of_lt (by omega), Nat.shiftLeft_eq]
    omega
  have hext : (p.byte (pos + 4) <<< 8 ||| p.byte (pos + 5)) &&& 0x1ff =
      p.byte (pos + 4) % 2 * 256 + p.byte (pos + 5) := by
    rw [← Nat.shiftLeft_add_eq_or_of_lt (by omega : p.byte (pos + 5) < 2 ^ 8), Nat.shiftLeft_eq,
      show (0x1ff : ℕ) = 2 ^ 9 - 1 by norm_num, Nat.and_two_pow_sub_one_eq_mod]
    omega
  simp only [pcrToScr, hbase, hext]
  rw [show (0x1ffffffff : ℕ) = 2 ^ 33 - 1 by norm_num, Nat.and_two_pow_sub_one_eq_mod,
    Nat.mod_eq_of_lt (by omega)]

/-- The bytes of a clock reference: a base of 33 bits, and an extension of nine bits
whose highest shares a byte with the lowest of the base. -/
structure HoldsPcr (p : Packet) (pos base ext : ℕ) : Prop where
  first : p.byte pos = base / 2 ^ 25 % 256
  second : p.byte (pos + 1) = base / 2 ^ 17 % 256
  third : p.byte (pos + 2) = base / 2 ^ 9 % 256
  fourth : p.byte (pos + 3) = base / 2 % 256
  baseBit : p.byte (pos + 4) / 128 = base % 2
  extBit : p.byte (pos + 4) % 2 = ext / 256
  last : p.byte (pos + 5) = ext % 256

theorem HoldsPcr.pcrToScr_eq {p : Packet} {pos base ext : ℕ} (h : HoldsPcr p pos base ext) :
    pcrToScr p pos = base % 2 ^ 33 * 300 + ext := by
  have hbase : base / 2 ^ 25 % 256 * 2 ^ 25 + base / 2 ^ 17 % 256 * 2 ^ 17 +
      base / 2 ^ 9 % 256 * 2 ^ 9 + base / 2 % 256 * 2 + base % 2 = base % 2 ^ 33 := by
    omega
  calc pcrToScr p pos
      _ = (base / 2 ^ 25 % 256 * 2 ^ 25 + base / 2 ^ 17 % 256 * 2 ^ 17 +
          base / 2 ^ 9 % 256 * 2 ^ 9 + base / 2 % 256 * 2 + base % 2) * 300 +
          (ext / 256 * 256 + ext % 256) := by
        rw [Ts.pcrToScr_eq, h.first, h.second, h.third, h.fourth, h.baseBit, h.extBit, h.last]
      _ = base % 2 ^ 33 * 300 + ext := by rw [hbase, Nat.div_add_mod']

/-- The value of the field whose base and extension are those of a clock. -/
theorem HoldsPcr.pcrToScr_eq_mod {p : Packet} {pos pcr : ℕ}
    (h : HoldsPcr p pos (pcr / 300) (pcr % 300)) : pcrToScr p pos = pcr % (300 * 2 ^ 33) := by
  have hmod : pcr % (300 * 2 ^ 33) = pcr / 300 % 2 ^ 33 * 300 + pcr % 300 := by
    rw [Nat.mod_mul, Nat.mul_comm, Nat.add_comm]
  rw [h.pcrToScr_eq, hmod]

/-- `ltntstools_scr_diff` with `MAX_SCR_VALUE` 2576980377600. -/
def scrDiff (src dst : ℤ) : ℤ :=
  if src > dst ∧ dst < 5 * 27000000 then 2576980377600 - src + dst else dst - src

end Ts

end LtnTsTools
