import LtnTsTools.BitString
import Mathlib.Data.List.TakeWhile

/-!
# Exponential Golomb codes

The codes `ue(v)` and `se(v)` as strings of bits.  Every string starts with a run of
zeros that never ends, with a whole code, or with a code that is cut off behind its run.
-/

namespace LtnTsTools.ExpGolomb

open BitString

/-- `ue(v)`: as many zeros as `v + 1` has bits behind the first one, and `v + 1`. -/
def ueCode (v : ℕ) : List Bool :=
  List.replicate (Nat.log 2 (v + 1)) false ++ bitsOf (Nat.log 2 (v + 1) + 1) (v + 1)

/-- The numbers in the order of `se(v)`: 0, 1, -1, 2, -2, ... -/
def codeNum (w : ℤ) : ℕ := if 0 < w then (2 * w - 1).toNat else (-2 * w).toNat

def seCode (w : ℤ) : List Bool := ueCode (codeNum w)

def zeroRun (l : List Bool) : ℕ := (l.takeWhile (!·)).length

def Complete (l : List Bool) : Prop := 2 * zeroRun l + 1 ≤ l.length

instance (l : List Bool) : Decidable (Complete l) := inferInstanceAs (Decidable (_ ≤ _))

def pastCode (l : List Bool) : List Bool := l.drop (2 * zeroRun l + 1)

theorem zeroRun_run (z : ℕ) (rest : List Bool) :
    zeroRun (List.replicate z false ++ true :: rest) = z := by
  induction z with
  | zero => rfl
  | succ z ih => exact congrArg Nat.succ ih

theorem zeroRun_eq_length {l : List Bool} (h : true ∉ l) : zeroRun l = l.length := by
  rw [zeroRun, List.takeWhile_eq_self_iff.mpr]
  intro b hb
  cases b with
  | false => rfl
  | true => exact absurd hb h

theorem exists_run {l : List Bool} (h : true ∈ l) :
    ∃ z rest, l = List.replicate z false ++ true :: rest := by
  induction l with
  | nil => cases h
  | cons b l ih =>
      cases b with
      | true => exact ⟨0, l, rfl⟩
      | false =>
          obtain ⟨z, rest, rfl⟩ := ih ((List.mem_cons.mp h).resolve_left Bool.noConfusion)
          exact ⟨z + 1, rest, rfl⟩

theorem complete_run_iff {z : ℕ} {rest : List Bool} :
    Complete (List.replicate z false ++ true :: rest) ↔ z ≤ rest.length := by
  rw [Complete, zeroRun_run, List.length_append, List.length_replicate, List.length_cons]
  omega

theorem Complete.mem {l : List Bool} (h : Complete l) : true ∈ l := by
  by_contra hno
  rw [Complete, zeroRun_eq_length hno] at h
  omega

/-! ## Codes -/

theorem log_succ_eq {z n : ℕ} (hn : n < 2 ^ z) : Nat.log 2 (2 ^ z - 1 + n + 1) = z := by
  have hpos : 0 < 2 ^ z := Nat.two_pow_pos z
  rw [Nat.log_eq_iff (Or.inr ⟨one_lt_two, by omega⟩), pow_succ]
  omega

/-- A code is a run and as many bits behind the one. -/
theorem ueCode_eq {z n : ℕ} (hn : n < 2 ^ z) :
    ueCode (2 ^ z - 1 + n) = List.replicate z false ++ true :: bitsOf z n := by
  have hpos : 0 < 2 ^ z := Nat.two_pow_pos z
  have hsum : 2 ^ z - 1 + n + 1 = 2 ^ z + n := by omega
  have hmod : bitsOf z (2 ^ z + n) = bitsOf z n := by
    rw [← bitsOf_mod _ le_rfl, Nat.add_mod_left, bitsOf_mod _ le_rfl]
  have htop : (2 ^ z + n).testBit z = true := by
    rw [Nat.testBit_two_pow_add_eq, Nat.testBit_lt_two_pow hn]
    rfl
  calc ueCode (2 ^ z - 1 + n)
      _ = List.replicate z false ++ bitsOf (z + 1) (2 ^ z + n) := by
        rw [ueCode, log_succ_eq hn, hsum]
      _ = List.replicate z false ++ true :: bitsOf z n := by rw [bitsOf, hmod, htop]

theorem exists_split (v : ℕ) : ∃ z n, n < 2 ^ z ∧ v = 2 ^ z - 1 + n := by
  have hlow : 2 ^ Nat.log 2 (v + 1) ≤ v + 1 := Nat.pow_log_le_self 2 (Nat.succ_ne_zero v)
  have hhigh := Nat.lt_pow_succ_log_self one_lt_two (v + 1)
  rw [pow_succ] at hhigh
  exact ⟨Nat.log 2 (v + 1), v + 1 - 2 ^ Nat.log 2 (v + 1), by omega, by omega⟩

theorem zeroRun_ueCode {z n : ℕ} (hn : n < 2 ^ z) (post : List Bool) :
    zeroRun (ueCode (2 ^ z - 1 + n) ++ post) = z := by
  rw [ueCode_eq hn, List.append_assoc, List.cons_append, zeroRun_run]

theorem length_ueCode {z n : ℕ} (hn : n < 2 ^ z) : (ueCode (2 ^ z - 1 + n)).length = 2 * z + 1 := by
  rw [ueCode_eq hn, List.length_append, List.length_replicate, List.length_cons, length_bitsOf]
  omega

theorem pastCode_ueCode (v : ℕ) (post : List Bool) : pastCode (ueCode v ++ post) = post := by
  obtain ⟨z, n, hn, rfl⟩ := exists_split v
  rw [pastCode, zeroRun_ueCode hn, ← length_ueCode hn, List.drop_left]

theorem pastCode_of_not_complete {l : List Bool} (h : ¬Complete l) : pastCode l = [] :=
  List.drop_eq_nil_of_le (Nat.le_of_lt (Nat.lt_of_not_le h))

/-- A whole code at the front is the code of a number. -/
theorem Complete.exists_ueCode {l : List Bool} (h : Complete l) :
    ∃ z n post, n < 2 ^ z ∧ zeroRun l = z ∧ l = ueCode (2 ^ z - 1 + n) ++ post := by
  obtain ⟨z, rest, rfl⟩ := exists_run h.mem
  have hlen : (rest.take z).length = z := List.length_take_of_le (complete_run_iff.mp h)
  have hlt := ofBits_lt (rest.take z)
  have hbits := bitsOf_ofBits (rest.take z)
  rw [hlen] at hlt hbits
  refine ⟨z, ofBits (rest.take z), rest.drop z, hlt, zeroRun_run z rest, ?_⟩
  rw [ueCode_eq hlt, hbits, List.append_assoc, List.cons_append, List.take_append_drop]

/-- The three ways in which a string can start. -/
theorem code_cases (l : List Bool) :
    true ∉ l ∨ (∃ z n post, n < 2 ^ z ∧ l = ueCode (2 ^ z - 1 + n) ++ post) ∨
      ∃ z rest, rest.length < z ∧ l = List.replicate z false ++ true :: rest := by
  by_cases hone : true ∈ l
  · by_cases hcomplete : Complete l
    · obtain ⟨z, n, post, hn, -, hl⟩ := hcomplete.exists_ueCode
      exact Or.inr (Or.inl ⟨z, n, post, hn, hl⟩)
    · obtain ⟨z, rest, rfl⟩ := exists_run hone
      exact Or.inr (Or.inr ⟨z, rest, Nat.lt_of_not_le (mt complete_run_iff.mpr hcomplete), rfl⟩)
  · exact Or.inl hone

/-! ## Signed numbers -/

theorem codeNum_of_pos {w : ℤ} (h : 0 < w) : (codeNum w : ℤ) = 2 * w - 1 := by
  rw [codeNum, if_pos h]
  omega

theorem codeNum_of_nonpos {w : ℤ} (h : w ≤ 0) : (codeNum w : ℤ) = -2 * w := by
  rw [codeNum, if_neg (not_lt.mpr h)]
  omega

end LtnTsTools.ExpGolomb
