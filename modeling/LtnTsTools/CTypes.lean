import Mathlib.Tactic.Ring
import Mathlib.Tactic.SplitIfs

/-!
# Integers and times of C

The casts to unsigned integers, and `struct timeval` with what `sys/time.h` and `timeval.h` do
with it.  The seconds and microseconds are integers without bounds.
-/

namespace LtnTsTools

def uint32 (z : ℤ) : ℕ := (z % 2 ^ 32).toNat

/-- A `uint64_t`, which `size_t` is as well. -/
def uint64 (z : ℤ) : ℕ := (z % 2 ^ 64).toNat

/-! ## Times -/

/-- `struct timeval`. -/
structure Timeval where
  sec : ℤ
  usec : ℤ
deriving DecidableEq

/-- `timercmp(a, b, >=)`. -/
def timerGe (a b : Timeval) : Bool :=
  if a.sec = b.sec then decide (a.usec ≥ b.usec) else decide (a.sec ≥ b.sec)

/-- `timeradd`. -/
def timeradd (a b : Timeval) : Timeval :=
  if a.usec + b.usec ≥ 1000000 then ⟨a.sec + b.sec + 1, a.usec + b.usec - 1000000⟩
  else ⟨a.sec + b.sec, a.usec + b.usec⟩

/-- `ltn_timeval_to_ms`. -/
def timevalToMs (tv : Timeval) : ℤ := tv.sec * 1000 + tv.usec.tdiv 1000

/-- `ltn_timeval_subtract_ms`. -/
def timevalSubtractMs (x y : Timeval) : ℤ := timevalToMs x - timevalToMs y

namespace Timeval

def micros (t : Timeval) : ℤ := 1000000 * t.sec + t.usec

/-- A time stamp as the clock gives it. -/
def Normal (t : Timeval) : Prop := 0 ≤ t.usec ∧ t.usec < 1000000

instance (t : Timeval) : Decidable t.Normal := inferInstanceAs (Decidable (_ ∧ _))

end Timeval

theorem timerGe_iff {a b : Timeval} (ha : a.Normal) (hb : b.Normal) :
    timerGe a b = true ↔ b.micros ≤ a.micros := by
  obtain ⟨ha, ha'⟩ := ha
  obtain ⟨hb, hb'⟩ := hb
  simp only [timerGe, Timeval.micros]
  split_ifs with hsec
  · rw [decide_eq_true_iff, hsec]
    omega
  · rw [decide_eq_true_iff]
    omega

theorem micros_timeradd (a b : Timeval) : (timeradd a b).micros = a.micros + b.micros := by
  simp only [timeradd, Timeval.micros]
  split_ifs <;> ring

theorem normal_timeradd {a b : Timeval} (ha : a.Normal) (hb : b.Normal) :
    (timeradd a b).Normal := by
  obtain ⟨ha, ha'⟩ := ha
  obtain ⟨hb, hb'⟩ := hb
  simp only [timeradd, Timeval.Normal]
  split_ifs <;> dsimp only <;> omega

end LtnTsTools
