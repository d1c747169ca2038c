import LtnTsTools.SmootherRtp

/-!
# The schedule of the RTP smoother

The timestamps of RTP have 32 bits, and the difference that the smoother takes of them is
one of a clock with 33 bits.  Where the counter wraps between two frames they look like a
jump; where it passes the timestamp of the time base, the schedule goes back; and once it
has wrapped, the distance to the time base is off by a number of ticks that need not be a
multiple of the nine that make a hundred microseconds.
-/

namespace LtnTsTools.SmootherRtp

open Rtp Ts Clocks

def timestamp (t : ℕ) : ℕ := t % 2 ^ 32

/-- Frames at `k` and `k + d` ticks behind the time base are scheduled as far apart as the
microseconds of their distances, and no jump is seen between them. -/
def KeepsPace (ctx : Context) (first second : RtpFramePosition) (k d : ℕ) : Prop :=
  getScheduledOutputuS ctx (adjust second).frame.ts.toNat =
      (getScheduledOutputuS ctx (adjust first).frame.ts.toNat +
        (300 * (k + d) / 27 - 300 * k / 27)) % 2 ^ 64 ∧
    jumps (adjust first) (adjust second) = false

/-- What the smoother takes for the distance to the time base, modulo nine, beyond the
distance itself: a wrap lacks 2^32 ticks, and a timestamp below that of the time base has
2^33 - 1 too many. -/
def excess (t k : ℕ) : ℕ :=
  (5 * ((timestamp t + k) / 2 ^ 32) + if timestamp (t + k) < timestamp t then 7 else 0) % 9

/-- Between the two frames the counter does not wrap, and does not pass the timestamp of
the time base; and the microseconds of both distances are rounded alike with the excess. -/
structure Steady (t k d : ℕ) : Prop where
  wrap : timestamp (t + k) + d < 2 ^ 32
  base : timestamp (t + k) < timestamp t → timestamp (t + k) + d < timestamp t
  rounding : (k + d + excess t k) / 9 + k / 9 = (k + excess t k) / 9 + (k + d) / 9

def distance (t k : ℕ) : ℤ := ptsDiff (timestamp t) (timestamp (t + k))

theorem distance_bounds (t k : ℕ) : 0 ≤ distance t k ∧ distance t k < 2 ^ 33 := by
  unfold distance ptsDiff timestamp maxPtsValue
  split_ifs <;> omega

theorem distance_eq (t k : ℕ) : ∃ m : ℤ, distance t k = k + excess t k + 9 * m := by
  refine ⟨(distance t k - k - excess t k) / 9, ?_⟩
  unfold distance ptsDiff excess timestamp maxPtsValue
  split_ifs <;> omega

/-- Without a wrap distances grow with the time, up to the timestamp of the time base. -/
theorem distance_add {t k d : ℕ} (h : timestamp (t + k) + d < 2 ^ 32) :
    distance t (k + d) =
      if timestamp (t + k) < timestamp t ∧ timestamp t ≤ timestamp (t + k) + d then
        distance t k + d - maxPtsValue
      else distance t k + d := by
  have hnext : timestamp (t + (k + d)) = timestamp (t + k) + d := by
    unfold timestamp at h ⊢
    omega
  unfold distance ptsDiff maxPtsValue
  rw [hnext]
  split_ifs <;> omega

/-- Microseconds of ticks. -/
theorem tdiv_microseconds {D : ℤ} (h : 0 ≤ D) : (D * 300).tdiv 27 = 11 * D + D / 9 := by
  rw [Int.tdiv_eq_ediv_of_nonneg (by omega)]
  omega

/-- Sums of `uint64_t` that differ by little. -/
theorem schedule_eq_iff {W X Y : ℤ} {n : ℕ} (hX : 0 ≤ X ∧ X < 2 ^ 40) (hY : 0 ≤ Y ∧ Y < 2 ^ 40)
    (hn : n < 2 ^ 40) :
    ((W + Y) % 2 ^ 64).toNat = (((W + X) % 2 ^ 64).toNat + n) % 2 ^ 64 ↔ Y = X + n := by
  omega

/-- Two frames keep pace exactly when they are steady. -/
theorem keepsPace_iff {ctx : Context} {first second : RtpFramePosition} {t k d : ℕ}
    (hbase : ctx.tsFirst = timestamp t)
    (hfirst : (adjust first).frame.ts.toNat = timestamp (t + k))
    (hsecond : (adjust second).frame.ts.toNat = timestamp (t + (k + d)))
    (hd : d < 15 * 90000) : KeepsPace ctx first second k d ↔ Steady t k d := by
  have hjump : jumps (adjust first) (adjust second) = false ↔ timestamp (t + k) + d < 2 ^ 32 := by
    rw [jumps, decide_eq_false_iff_not, hfirst, hsecond]
    unfold ptsDiff timestamp maxPtsValue
    split_ifs <;> omega
  have hsum : ∀ x : ℤ, ctx.walltimeFirstTimestampuS + x + ctx.latencyuS =
      ctx.walltimeFirstTimestampuS + ctx.latencyuS + x := fun x ↦ by ring
  have hbounds := distance_bounds t k
  have hbounds' := distance_bounds t (k + d)
  rw [KeepsPace, hjump]
  unfold getScheduledOutputuS
  rw [hbase, hfirst, hsecond, ← distance, ← distance, tdiv_microseconds hbounds.1,
    tdiv_microseconds hbounds'.1, hsum, hsum,
    schedule_eq_iff (by omega) (by omega) (by omega)]
  obtain ⟨m, hm⟩ := distance_eq t k
  have hnear : 300 * k / 27 = 11 * k + k / 9 := by omega
  have hfar : 300 * (k + d) / 27 = 11 * (k + d) + (k + d) / 9 := by omega
  have hdist : distance t k / 9 = ((k + excess t k) / 9 : ℕ) + m := by omega
  have hdist' : (distance t k + d) / 9 = ((k + d + excess t k) / 9 : ℕ) + m := by omega
  rw [hnear, hfar]
  constructor
  · rintro ⟨hpace, hwrap⟩
    rw [distance_add hwrap] at hpace
    split_ifs at hpace with hcross
    · unfold maxPtsValue at hpace
      omega
    · exact ⟨hwrap, by omega, by omega⟩
  · rintro ⟨hwrap, hbelow, hround⟩
    refine ⟨?_, hwrap⟩
    rw [distance_add hwrap, if_neg (by omega)]
    omega

/-- As long as the counter has not wrapped since the time base, frames are steady. -/
theorem steady_of_no_wrap {t k d : ℕ} (h : timestamp t + (k + d) < 2 ^ 32) : Steady t k d := by
  have hsame : timestamp (t + k) = timestamp t + k := by
    unfold timestamp at h ⊢
    omega
  have hnone : excess t k = 0 := by
    rw [excess, hsame, if_neg (by omega)]
    omega
  refine ⟨by omega, fun hbelow ↦ by omega, ?_⟩
  rw [hnone]
  omega

def basedAt (ts : ℕ) : Context := { smootherRtpAlloc true 0 0 100 0 with tsFirst := ts }

def entryOf (ts : UInt32) : RtpFramePosition := ⟨0, 0, ⟨0, 0, 0, 2, 33, 0, 0, ntohl ts, 0⟩⟩

/-- Two frames behind the one of the time base. -/
theorem keepsPace_early :
    KeepsPace (basedAt (timestamp 90000)) (entryOf 93000) (entryOf 96003) 3000 3003 :=
  (keepsPace_iff (t := 90000) rfl (by decide) (by decide) (by norm_num)).mpr
    (steady_of_no_wrap (by decide))

/-- The counter wraps behind the frame of the time base: the next frame is taken for a
jump, and scheduled half a day late. -/
theorem wrap_jumps :
    ¬KeepsPace (basedAt 4294967295) (entryOf 4294967295) (entryOf 2999) 0 3000 := by
  unfold KeepsPace
  decide

end LtnTsTools.SmootherRtp
