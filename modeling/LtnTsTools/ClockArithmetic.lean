import LtnTsTools.PcrSearch
import LtnTsTools.TickClock

/-!
# Arithmetic of wrapping clocks

`ltntstools_scr_diff`, `ltntstools_scr_add` and `ltntstools_pts_diff` of `ts.h`
against arithmetic modulo the period of the clock.  The 27 MHz difference takes
a backward step for a wrap only when it lands within the first five seconds, the
27 MHz sum may return the period itself, and the 90 kHz difference loses a tick
in every wrap.
-/

namespace LtnTsTools.Ts

open LtnTsTools.Clocks

/-! ## The 27 MHz clock -/

def ScrValue (v : ℤ) : Prop := 0 ≤ v ∧ v < maxScrValue

instance (v : ℤ) : Decidable (ScrValue v) := inferInstanceAs (Decidable (_ ∧ _))

/-- `v` is the value of the 27 MHz clock that is congruent to `x`. -/
def Represents (v x : ℤ) : Prop := ScrValue v ∧ v ≡ x [ZMOD maxScrValue]

theorem represents_iff {v x : ℤ} : Represents v x ↔ v = x % maxScrValue := by
  have hpos : (0 : ℤ) < maxScrValue := by decide
  constructor
  · rintro ⟨⟨hlow, hhigh⟩, hcongr⟩
    rw [← hcongr]
    exact (Int.emod_eq_of_lt hlow hhigh).symm
  · rintro rfl
    exact ⟨⟨Int.emod_nonneg x hpos.ne', Int.emod_lt_of_pos x hpos⟩, Int.mod_modEq x _⟩

/-- A backward step counts as a wrap only if it ends in the first five seconds. -/
theorem scrDiff_represents_iff {src dst : ℤ} (hsrc : ScrValue src) (hdst : ScrValue dst) :
    Represents (scrDiff src dst) (dst - src) ↔ src ≤ dst ∨ dst < 5 * 27000000 := by
  rw [represents_iff]
  unfold ScrValue maxScrValue at *
  unfold scrDiff
  split_ifs <;> omega

/-- The sum of exactly one period is not reduced. -/
theorem scrAdd_represents_iff {s t : ℤ} (hs : ScrValue s) (ht : ScrValue t) :
    Represents (scrAdd s t) (s + t) ↔ s + t ≠ maxScrValue := by
  rw [represents_iff]
  unfold ScrValue maxScrValue at *
  simp only [scrAdd]
  split_ifs <;> omega

theorem scrAdd_neg_represents {s t : ℤ} (hs : ScrValue s) (ht : ScrValue t) :
    Represents (scrAdd s (-t)) (s - t) := by
  rw [represents_iff]
  unfold ScrValue maxScrValue at *
  simp only [scrAdd]
  split_ifs <;> omega

theorem scrDiff_scrAdd_iff {s t : ℤ} (hs : ScrValue s) (ht : ScrValue t) :
    scrDiff s (scrAdd s t) = t ↔
      s + t ≤ maxScrValue ∨ s + t < maxScrValue + 5 * 27000000 := by
  unfold ScrValue maxScrValue at *
  simp only [scrAdd, scrDiff]
  split_ifs <;> omega

/-- The laws of a ring of 27 MHz values, at one difference and one sum. -/
structure ScrLaws (src dst s t : ℤ) : Prop where
  diff : Represents (scrDiff src dst) (dst - src)
  add : Represents (scrAdd s t) (s + t)
  sub : Represents (scrAdd s (-t)) (s - t)
  diff_add : scrDiff s (scrAdd s t) = t

/-- Where in the range of the clock the laws hold. -/
theorem scrLaws_iff {src dst s t : ℤ} (hsrc : ScrValue src) (hdst : ScrValue dst)
    (hs : ScrValue s) (ht : ScrValue t) :
    ScrLaws src dst s t ↔ (src ≤ dst ∨ dst < 5 * 27000000) ∧ s + t ≠ maxScrValue ∧
      s + t < maxScrValue + 5 * 27000000 := by
  have hdiff := scrDiff_represents_iff hsrc hdst
  have hadd := scrAdd_represents_iff hs ht
  have hback := scrDiff_scrAdd_iff hs ht
  constructor
  · intro h
    have hroom := hback.mp h.diff_add
    exact ⟨hdiff.mp h.diff, hadd.mp h.add, by omega⟩
  · rintro ⟨hstep, hperiod, hroom⟩
    exact ⟨hdiff.mpr hstep, hadd.mpr hperiod, scrAdd_neg_represents hs ht,
      hback.mpr (Or.inr hroom)⟩

/-- A wrap in both operations, close to the end of the period. -/
theorem scrLaws_near_wrap : ScrLaws 2576980377000 400 2576980377000 1000 :=
  (scrLaws_iff (by decide) (by decide) (by decide) (by decide)).mpr (by decide)

/-- Half a period back is a negative difference, and a sum of one period is not
a value of the clock. -/
theorem scrLaws_fail :
    (ScrValue 2000000000000 ∧ ScrValue 1000000000000 ∧
      scrDiff 2000000000000 1000000000000 = -1000000000000) ∧
      (ScrValue 1 ∧ ScrValue 2576980377599 ∧ ¬ScrValue (scrAdd 1 2576980377599)) ∧
      ¬∀ src dst s t : ℤ, ScrValue src → ScrValue dst → ScrValue s → ScrValue t →
        ScrLaws src dst s t := by
  refine ⟨by decide, by decide, fun h ↦ ?_⟩
  have hlow := (h 2000000000000 1000000000000 0 0 (by decide) (by decide) (by decide)
    (by decide)).diff.1.1
  exact absurd hlow (by decide)

/-! ## The 90 kHz clock -/

/-- `ltntstools_pts_diff` with `MAX_PTS_VALUE`. -/
def ptsDiff (src dst : ℤ) : ℤ :=
  if src > dst then maxPtsValue - src + dst else dst - src

def stamp (t : ℤ) : ℤ := t % 2 ^ 33

def wraps (t : ℤ) : ℤ := t / 2 ^ 33

/-- Two times, the second not before the first and less than a period later. -/
def Follows (t t' : ℤ) : Prop := t ≤ t' ∧ t' - t < 2 ^ 33

instance (t t' : ℤ) : Decidable (Follows t t') := inferInstanceAs (Decidable (_ ∧ _))

/-- The difference of two time stamps lacks a tick for the wrap between them. -/
theorem ptsDiff_stamp {t t' : ℤ} (h : Follows t t') :
    ptsDiff (stamp t) (stamp t') = t' - t - (wraps t' - wraps t) := by
  obtain ⟨hle, hlt⟩ := h
  unfold ptsDiff stamp wraps maxPtsValue
  split_ifs <;> omega

def ptsElapsed : List ℤ → ℤ
  | t :: t' :: rest => ptsDiff (stamp t) (stamp t') + ptsElapsed (t' :: rest)
  | _ => 0

/-- The differences lack a tick for every wrap along the way. -/
theorem ptsElapsed_eq (ts : List ℤ) :
    ∀ t : ℤ, (t :: ts).IsChain Follows →
      ptsElapsed (t :: ts) = ts.getLastD t - t - (wraps (ts.getLastD t) - wraps t) := by
  induction ts with
  | nil =>
      intro t _
      simp [ptsElapsed]
  | cons t' rest ih =>
      intro t h
      obtain ⟨hstep, hrest⟩ := List.isChain_cons_cons.mp h
      rw [ptsElapsed, ptsDiff_stamp hstep, ih t' hrest, List.getLastD_cons]
      ring

/-- A difference is exact exactly when no wrap lies between the two times, and
so is the sum along a run of times. -/
theorem ptsDiff_exact_iff {t t' : ℤ} {ts : List ℤ} (h : Follows t t')
    (hrun : (t :: ts).IsChain Follows) :
    (ptsDiff (stamp t) (stamp t') = t' - t ↔ t / 2 ^ 33 = t' / 2 ^ 33) ∧
      (ptsElapsed (t :: ts) = ts.getLastD t - t ↔ t / 2 ^ 33 = ts.getLastD t / 2 ^ 33) := by
  constructor
  · rw [ptsDiff_stamp h]
    unfold wraps
    omega
  · rw [ptsElapsed_eq ts t hrun]
    unfold wraps
    omega

/-- Three seconds without a wrap. -/
theorem ptsDiff_exact_seconds :
    Follows 90000 180000 ∧ ptsDiff (stamp 90000) (stamp 180000) = 90000 ∧
      [90000, 180000, 270000].IsChain Follows ∧ ptsElapsed [90000, 180000, 270000] = 180000 := by
  have hstep : Follows 90000 180000 := by decide
  have hchain : [90000, 180000, 270000].IsChain Follows := by decide
  obtain ⟨hdiff, hsum⟩ := ptsDiff_exact_iff hstep hchain
  exact ⟨hstep, hdiff.mpr (by decide), hchain, hsum.mpr (by decide)⟩

/-- From the largest time stamp to zero is one tick, and two periods lose two. -/
theorem ptsDiff_loses_tick :
    (Follows 8589934591 8589934592 ∧ ptsDiff (stamp 8589934591) (stamp 8589934592) = 0 ∧
      ptsDiff (stamp 8589934591) (stamp 8589934592) ≠ 8589934592 - 8589934591) ∧
      [8589934591, 8589934592, 17179869183, 17179869184].IsChain Follows ∧
      ptsElapsed [8589934591, 8589934592, 17179869183, 17179869184] = 8589934591 ∧
      ptsElapsed [8589934591, 8589934592, 17179869183, 17179869184] ≠
        17179869184 - 8589934591 := by
  decide

end LtnTsTools.Ts
