import Mathlib.Tactic

/-!
# Padding

The packet rates of `stats.c` and what is derived from them: the bitrates of a stream
and of a pid, and the share of null packets.  All of these are `uint32_t`, and so are
the products on the way to them.
-/

namespace LtnTsTools.Rates

/-- The rate of a pid, from `struct ltntstools_pid_statistics_s`. -/
structure PidRate where
  ppsLastUpdate : ℤ
  pps : UInt32
  ppsWindow : UInt32
deriving DecidableEq

/-- The rates of a stream, from `struct ltntstools_stream_statistics_s`. -/
structure StreamRate where
  bpsLastUpdate : ℤ
  bps : ℕ
  bpsWindow : ℕ
  ppsLastUpdate : ℤ
  pps : UInt32
  ppsWindow : UInt32
  internalPids : ℕ → Option PidRate

/-- `_expire_per_second_pid_stats`. -/
def expirePerSecondPidStats (pid : PidRate) (now : ℤ) : PidRate :=
  if now > pid.ppsLastUpdate + 2 then { pid with pps := 0, ppsWindow := 0 } else pid

/-- `_expire_per_second_stream_stats`. -/
def expirePerSecondStreamStats (stream : StreamRate) (now : ℤ) : StreamRate :=
  if stream.bpsWindow ≠ 0 ∧ now > stream.bpsLastUpdate + 2 then
    { stream with bps := 0, bpsWindow := 0 }
  else if now > stream.ppsLastUpdate + 2 then { stream with pps := 0, ppsWindow := 0 }
  else stream

def refreshPid (stream : StreamRate) (pidnr : ℕ) (now : ℤ) : StreamRate :=
  { stream with
    internalPids := Function.update stream.internalPids (pidnr &&& 0x1fff)
      ((stream.internalPids (pidnr &&& 0x1fff)).map fun pid ↦ expirePerSecondPidStats pid now) }

/-- `ltntstools_pid_stats_pid_get_pps`. -/
def pidGetPps (stream : StreamRate) (pidnr : ℕ) (now : ℤ) : UInt32 × StreamRate :=
  match (refreshPid stream pidnr now).internalPids (pidnr &&& 0x1fff) with
  | none => (0, stream)
  | some pid => (pid.pps, refreshPid stream pidnr now)

/-- `ltntstools_pid_stats_pid_get_bps`. -/
def pidGetBps (stream : StreamRate) (pidnr : ℕ) (now : ℤ) : UInt32 × StreamRate :=
  match (refreshPid stream pidnr now).internalPids (pidnr &&& 0x1fff) with
  | none => (0, stream)
  | some pid => (pid.pps * 188 * 8, refreshPid stream pidnr now)

/-- `ltntstools_pid_stats_stream_get_pps`. -/
def streamGetPps (stream : StreamRate) (now : ℤ) : UInt32 × StreamRate :=
  let stream := expirePerSecondStreamStats stream now
  (stream.pps, stream)

/-- `ltntstools_pid_stats_stream_get_bps`. -/
def streamGetBps (stream : StreamRate) (now : ℤ) : UInt32 × StreamRate :=
  let stream := expirePerSecondStreamStats stream now
  (stream.pps * 188 * 8, stream)

/-- `ltntstools_pid_stats_stream_padding_pct`; the clock is read for the null pid and
again for the stream. -/
def streamPaddingPct (stream : StreamRate) (now now' : ℤ) : UInt32 × StreamRate :=
  let null := pidGetBps stream 0x1fff now
  let all := streamGetBps null.2 now'
  if all.1 = 0 then (0, all.2) else (null.1 * 100 / all.1, all.2)

theorem toNat_bitrate {pps : UInt32} (h : pps.toNat * 188 * 8 < 2 ^ 32) :
    (pps * 188 * 8).toNat = pps.toNat * 1504 := by
  rw [UInt32.toNat_mul, UInt32.toNat_mul]
  simp only [UInt32.reduceToNat]
  omega

/-- The bitrate of a pid is its packet rate in bits. -/
theorem pidGetBps_eq (stream : StreamRate) (pidnr : ℕ) (now : ℤ) :
    (pidGetBps stream pidnr now).1 = (pidGetPps stream pidnr now).1 * 188 * 8 := by
  unfold pidGetBps pidGetPps
  cases (refreshPid stream pidnr now).internalPids (pidnr &&& 0x1fff) with
  | none => rfl
  | some pid => rfl

theorem pps_expire (stream : StreamRate) (now : ℤ) :
    (expirePerSecondStreamStats stream now).pps =
      if stream.bpsWindow ≠ 0 ∧ now > stream.bpsLastUpdate + 2 then stream.pps
      else if now > stream.ppsLastUpdate + 2 then 0 else stream.pps := by
  unfold expirePerSecondStreamStats
  split_ifs <;> rfl

/-- A query of a pid leaves the rate of the stream alone. -/
theorem streamGetBps_pidGetBps (stream : StreamRate) (pidnr : ℕ) (now now' : ℤ) :
    (streamGetBps (pidGetBps stream pidnr now).2 now').1 =
      (streamGetPps stream now').1 * 188 * 8 := by
  unfold pidGetBps
  cases (refreshPid stream pidnr now).internalPids (pidnr &&& 0x1fff) with
  | none => rfl
  | some pid =>
      simp only [streamGetBps, streamGetPps, pps_expire]
      rfl

/-- The percentage of null packets among all packets, of what is known at the time. -/
def PaddingExact (stream : StreamRate) (now now' : ℤ) : Prop :=
  (streamPaddingPct stream now now').1.toNat =
      100 * (pidGetPps stream 0x1fff now).1.toNat / (streamGetPps stream now').1.toNat ∧
    (streamPaddingPct stream now now').1.toNat ≤ 100

instance (stream : StreamRate) (now now' : ℤ) : Decidable (PaddingExact stream now now') :=
  inferInstanceAs (Decidable (_ ∧ _))

/-- A product that wraps is divided to less. -/
theorem wrapped_div_ne {a b : ℕ} (hb : 0 < b) (hbound : b ≤ 2 ^ 32) (ha : 2 ^ 32 ≤ a) :
    a % 2 ^ 32 / b ≠ a / b := by
  have hless : a % 2 ^ 32 + b ≤ a := by omega
  have hstep := Nat.div_le_div_right (c := b) hless
  rw [Nat.add_div_right _ hb] at hstep
  omega

/-- The percentage is right exactly up to 28556 null packets a second. -/
theorem paddingExact_iff (stream : StreamRate) {now now' : ℤ}
    (hpos : 0 < (streamGetPps stream now').1.toNat)
    (hle : (pidGetPps stream 0x1fff now).1.toNat ≤ (streamGetPps stream now').1.toNat)
    (hfit : (streamGetPps stream now').1.toNat * 188 * 8 < 2 ^ 32) :
    PaddingExact stream now now' ↔
      (pidGetPps stream 0x1fff now).1.toNat * 188 * 8 * 100 < 2 ^ 32 := by
  have hall := streamGetBps_pidGetBps stream 0x1fff now now'
  have hnull := pidGetBps_eq stream 0x1fff now
  unfold PaddingExact
  generalize (streamGetPps stream now').1 = s at *
  generalize (pidGetPps stream 0x1fff now).1 = n at *
  have hs := toNat_bitrate hfit
  have hn := @toNat_bitrate n (by omega)
  have hne : s * 188 * 8 ≠ 0 := by
    intro h0
    rw [h0, UInt32.toNat_zero] at hs
    omega
  have hpct : (streamPaddingPct stream now now').1.toNat =
      n.toNat * 1504 * 100 % 2 ^ 32 / (s.toNat * 1504) := by
    rw [streamPaddingPct, hall, hnull, if_neg hne, UInt32.toNat_div, UInt32.toNat_mul, hn, hs]
    rfl
  have hratio : 100 * n.toNat / s.toNat = n.toNat * 1504 * 100 / (s.toNat * 1504) := by
    calc 100 * n.toNat / s.toNat
        _ = 100 * n.toNat * 1504 / (s.toNat * 1504) := by
          rw [Nat.mul_div_mul_right _ _ (by norm_num)]
        _ = n.toNat * 1504 * 100 / (s.toNat * 1504) := by
          rw [show 100 * n.toNat * 1504 = n.toNat * 1504 * 100 by ring]
  rw [hpct, hratio]
  constructor
  · rintro ⟨hexact, -⟩
    by_contra hwrap
    exact wrapped_div_ne (by omega) (by omega) (by omega) hexact
  · intro hsmall
    rw [Nat.mod_eq_of_lt (by omega)]
    refine ⟨rfl, Nat.div_le_of_le_mul ?_⟩
    nlinarith

/-- A stream of null packets and others, with both rates up to date. -/
def streamAt (all null : UInt32) : StreamRate where
  bpsLastUpdate := 0
  bps := 0
  bpsWindow := 0
  ppsLastUpdate := 10
  pps := all
  ppsWindow := 0
  internalPids := fun p ↦ if p = 0x1fff then some ⟨10, null, 0⟩ else none

theorem paddingExact_half : PaddingExact (streamAt 20000 10000) 11 11 :=
  (paddingExact_iff _ (by decide) (by decide) (by decide)).mpr (by decide)

/-- Fifty megabits of padding in fifty megabits are reported as fourteen percent. -/
theorem padding_wraps :
    ¬PaddingExact (streamAt 33245 33245) 11 11 ∧
      (streamPaddingPct (streamAt 33245 33245) 11 11).1 = 14 := by
  decide

end LtnTsTools.Rates
