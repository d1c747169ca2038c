import LtnTsTools.ThroughputHires

/-!
# Aggregates of a window

`throughput_hires_minmaxavg_i64` stops at the first item older than the end of its window, and
its accumulators start from values of their own.  Of the window it sees the items at its end
and at most one more.
-/

namespace LtnTsTools.ThroughputHires

open EarlyExit

/-- What `throughput_hires_minmaxavg_i64` returns. -/
structure Aggregates where
  vmin : ℤ
  vmax : ℤ
  vavg : ℤ
deriving DecidableEq

def sentinels : Aggregates := ⟨1 <<< 62, -1, -1⟩

def aggregate (r : Aggregates × ℤ) (value : ℤ) : Aggregates × ℤ :=
  ({ vmin := if value ≤ r.1.vmin then value else r.1.vmin
     vmax := if value > r.1.vmax then value else r.1.vmax
     vavg := int64 (r.1.vavg + value) }, r.2 + 1)

/-- `throughput_hires_minmaxavg_i64`, from `start` to `stop`. -/
def throughputHiresMinmaxavg (ctx : Ctx) (channel : ℕ) (start stop : Timeval) : Aggregates :=
  let first := makeTimestampFromTimeval start
  let last := makeTimestampFromTimeval stop
  let r := foldUntil
    (fun r e ↦ if InWindow channel first last e.written then aggregate r e.written.value else r)
    (fun e ↦ e.written.timestamp < last) (sentinels, 0) ctx.itemsBusy
  { r.1 with vavg := if r.2 ≠ 0 then r.1.vavg.tdiv r.2 else -1 }

structure Exact (values : List ℤ) (r : Aggregates) : Prop where
  least : IsLeast {v | v ∈ values} r.vmin
  greatest : IsGreatest {v | v ∈ values} r.vmax
  average : r.vavg = values.sum.tdiv values.length

/-- The values of the window among the items not older than its end and the newest one of the
others. -/
def seenValues (calls : List Call) (channel : ℕ) (start stop : Timeval) : List ℤ :=
  let first := makeTimestampFromTimeval start
  let last := makeTimestampFromTimeval stop
  let newest := (unexpired calls).reverse
  (((newest.filter fun w ↦ ¬w.timestamp < last) ++
    (newest.filter fun w ↦ w.timestamp < last).take 1).filter fun w ↦
      InWindow channel first last w).map Written.value

/-- The start value does not show in the mean: what the sum of the values seen, less one, leaves
over the mean of the window is smaller than their number and on the side of that sum. -/
def MeanKept (window seen : List ℤ) : Prop :=
  let mean := window.sum.tdiv window.length
  if seen = [] then mean = -1
  else
    let sum := int64 (seen.sum - 1)
    |sum - mean * seen.length| < seen.length ∧ 0 ≤ sum * (sum - mean * seen.length)

/-- The values seen stand for the window: they hold its extremes, which the start values do not
exceed, and their mean less the start value is that of the window. -/
structure SeenSuffice (window seen : List ℤ) : Prop where
  least : ∃ m, IsLeast {v | v ∈ window} m ∧ m ≤ 2 ^ 62 ∧ (m = 2 ^ 62 ∨ m ∈ seen)
  greatest : ∃ m, IsGreatest {v | v ∈ window} m ∧ -1 ≤ m ∧ (m = -1 ∨ m ∈ seen)
  average : MeanKept window seen

/-! ## Accumulators -/

section Order

variable {α : Type*} [LinearOrder α] {values seen : Set α} {c m : α}

/-- The least of some elements and a start value, as the least of more elements. -/
theorem isLeast_iff_of_insert (hseen : seen ⊆ values) (hm : IsLeast (insert c seen) m) :
    IsLeast values m ↔ ∃ l, IsLeast values l ∧ l ≤ c ∧ (l = c ∨ l ∈ seen) := by
  constructor
  · intro h
    exact ⟨m, h, hm.2 (Set.mem_insert c seen), hm.1⟩
  · rintro ⟨l, hl, hle, hfound⟩
    have hml : m ≤ l := hm.2 hfound
    have hlm : l ≤ m := by
      rcases hm.1 with rfl | hmem
      · exact hle
      · exact hl.2 (hseen hmem)
    rwa [le_antisymm hml hlm]

theorem isGreatest_iff_of_insert (hseen : seen ⊆ values) (hm : IsGreatest (insert c seen) m) :
    IsGreatest values m ↔ ∃ l, IsGreatest values l ∧ c ≤ l ∧ (l = c ∨ l ∈ seen) :=
  @isLeast_iff_of_insert αᵒᵈ _ values seen c m hseen hm

end Order

/-- Remainders of one number on its side of zero, both smaller than the divisor. -/
theorem abs_sub_lt_of_same_side {x n r s : ℤ} (hr : |r| < n) (hs : |s| < n) (hxr : 0 ≤ x * r)
    (hxs : 0 ≤ x * s) (hx : x ≠ 0) : |r - s| < n := by
  rw [abs_lt] at hr hs ⊢
  rcases lt_or_gt_of_ne hx with hneg | hpos
  · have hr' : r ≤ 0 := nonpos_of_mul_nonneg_right hxr hneg
    have hs' : s ≤ 0 := nonpos_of_mul_nonneg_right hxs hneg
    omega
  · have hr' : 0 ≤ r := nonneg_of_mul_nonneg_right hxr hpos
    have hs' : 0 ≤ s := nonneg_of_mul_nonneg_right hxs hpos
    omega

/-- Truncated division by its remainder. -/
theorem tdiv_eq_iff {x n q : ℤ} (hn : 0 < n) :
    x.tdiv n = q ↔ |x - q * n| < n ∧ 0 ≤ x * (x - q * n) := by
  have hrem : x - x.tdiv n * n = x.tmod n := by
    rw [Int.tmod_def, mul_comm]
  have hlt : |x.tmod n| < n := by
    have hmod := Nat.mod_lt x.natAbs (Int.natAbs_pos.mpr hn.ne')
    rw [Int.abs_eq_natAbs, Int.natAbs_tmod]
    omega
  have hside : 0 ≤ x * x.tmod n := by
    rcases le_total 0 x with hx | hx
    · exact mul_nonneg hx (Int.tmod_nonneg n hx)
    · have hneg := Int.tmod_nonneg n (neg_nonneg.mpr hx)
      rw [Int.neg_tmod] at hneg
      exact mul_nonneg_of_nonpos_of_nonpos hx (neg_nonneg.mp hneg)
  constructor
  · rintro rfl
    rw [hrem]
    exact ⟨hlt, hside⟩
  · rintro ⟨hlt', hside'⟩
    have hdiff : |(x.tdiv n - q) * n| < n := by
      by_cases hx : x = 0
      · subst hx
        simpa using hlt'
      · have heq : (x.tdiv n - q) * n = (x - q * n) - x.tmod n := by
          rw [← hrem]
          ring
        rw [heq]
        exact abs_sub_lt_of_same_side hlt' hlt hside' hside hx
    have hzero := Int.eq_zero_of_abs_lt_dvd (Dvd.intro_left _ rfl) hdiff
    have hq := (mul_eq_zero.mp hzero).resolve_right hn.ne'
    omega

/-- Behind the loop each extreme is that of the values and its start value. -/
theorem foldl_aggregate (values : List ℤ) :
    IsLeast (insert (2 ^ 62) {v | v ∈ values}) (values.foldl aggregate (sentinels, 0)).1.vmin ∧
      IsGreatest (insert (-1) {v | v ∈ values}) (values.foldl aggregate (sentinels, 0)).1.vmax ∧
        (values.foldl aggregate (sentinels, 0)).1.vavg = int64 (values.sum - 1) ∧
          (values.foldl aggregate (sentinels, 0)).2 = values.length := by
  induction values using List.reverseRecOn with
  | nil =>
      refine ⟨?_, ?_, by decide, rfl⟩
      · simp [sentinels]
      · simp [sentinels]
  | append_singleton values v ih =>
      obtain ⟨hleast, hgreatest, havg, hitems⟩ := ih
      have hset : ∀ c : ℤ, insert c {w | w ∈ values ++ [v]} =
          insert v (insert c {w | w ∈ values}) := by
        intro c
        ext w
        simp only [Set.mem_insert_iff, Set.mem_ofPred_eq, List.mem_append, List.mem_singleton]
        tauto
      rw [List.foldl_concat, hset, hset]
      refine ⟨?_, ?_, ?_, ?_⟩
      · have hmin := hleast.insert v
        rwa [min_def] at hmin
      · have hmax := hgreatest.insert v
        have hswap : max v (values.foldl aggregate (sentinels, 0)).1.vmax =
            if v > (values.foldl aggregate (sentinels, 0)).1.vmax then v
            else (values.foldl aggregate (sentinels, 0)).1.vmax := by
          rcases lt_or_ge (values.foldl aggregate (sentinels, 0)).1.vmax v with hlt | hge
          · rw [if_pos hlt, max_eq_left hlt.le]
          · rw [if_neg (not_lt.mpr hge), max_eq_right hge]
        rwa [hswap] at hmax
      · simp only [aggregate, havg, int64_add, List.sum_append, List.sum_singleton]
        ring_nf
      · simp [aggregate, hitems]

/-! ## The window -/

/-- The loop takes the values seen, newest first. -/
theorem foldUntil_seen (itemsPerSecond : ℤ) {calls : List Call} (hordered : Ordered calls)
    (channel : ℕ) (start stop : Timeval) :
    foldUntil
      (fun r e ↦ if InWindow channel (makeTimestampFromTimeval start)
        (makeTimestampFromTimeval stop) e.written then aggregate r e.written.value else r)
      (fun e ↦ e.written.timestamp < makeTimestampFromTimeval stop) (sentinels, 0)
      (run itemsPerSecond calls).itemsBusy =
    (seenValues calls channel start stop).foldl aggregate (sentinels, 0) := by
  have hkept := kept_run itemsPerSecond calls
  have hscanned : scanned (fun e : Item ↦ e.written.timestamp < makeTimestampFromTimeval stop)
      (run itemsPerSecond calls).itemsBusy = _ :=
    scanned_eq (hkept.sorted hordered) fun e e' hle hstop ↦ hle.trans_lt hstop
  have hseen : seenValues calls channel start stop =
      (((run itemsPerSecond calls).itemsBusy.filter (fun e ↦
          decide ¬e.written.timestamp < makeTimestampFromTimeval stop) ++
        ((run itemsPerSecond calls).itemsBusy.filter fun e ↦
          e.written.timestamp < makeTimestampFromTimeval stop).take 1).filter fun e ↦
            InWindow channel (makeTimestampFromTimeval start) (makeTimestampFromTimeval stop)
              e.written).map fun e ↦ e.written.value := by
    simp only [seenValues, ← hkept.busy, List.filter_map, ← List.map_take, ← List.map_append,
      List.map_map]
    rfl
  rw [foldUntil_eq, foldl_ite_eq, hscanned, hseen, List.foldl_map]

theorem seenValues_subset (calls : List Call) (channel : ℕ) (start stop : Timeval) :
    {v | v ∈ seenValues calls channel start stop} ⊆
      {v | v ∈ windowValues calls channel start stop} := by
  intro v hv
  obtain ⟨w, hw, rfl⟩ := List.mem_map.mp hv
  obtain ⟨hseen, hin⟩ := List.mem_filter.mp hw
  have hmem : w ∈ (unexpired calls).reverse := by
    rcases List.mem_append.mp hseen with hlate | hnewest
    · exact List.mem_of_mem_filter hlate
    · exact List.mem_of_mem_filter (List.mem_of_mem_take hnewest)
  exact List.mem_map_of_mem (List.mem_filter.mpr ⟨List.mem_reverse.mp hmem, hin⟩)

/-- While time goes on, the aggregates are those of the window exactly when the values seen
suffice. -/
theorem throughput_aggregates_iff (itemsPerSecond : ℤ) (calls : List Call)
    (hordered : Ordered calls) (channel : ℕ) (start stop : Timeval) :
    Exact (windowValues calls channel start stop)
        (throughputHiresMinmaxavg (run itemsPerSecond calls) channel start stop) ↔
      SeenSuffice (windowValues calls channel start stop)
        (seenValues calls channel start stop) := by
  obtain ⟨hleast, hgreatest, havg, hitems⟩ := foldl_aggregate (seenValues calls channel start stop)
  have hsubset := seenValues_subset calls channel start stop
  rw [← foldUntil_seen itemsPerSecond hordered channel start stop] at hleast hgreatest havg hitems
  have hmean : (throughputHiresMinmaxavg (run itemsPerSecond calls) channel start stop).vavg =
      (windowValues calls channel start stop).sum.tdiv
          (windowValues calls channel start stop).length
        ↔ MeanKept (windowValues calls channel start stop)
            (seenValues calls channel start stop) := by
    simp only [throughputHiresMinmaxavg, MeanKept, havg, hitems]
    by_cases hempty : seenValues calls channel start stop = []
    · simp [hempty, eq_comm]
    · have hpos : (0 : ℤ) < (seenValues calls channel start stop).length :=
        Int.natCast_pos.mpr (List.length_pos_iff.mpr hempty)
      rw [if_neg hempty, if_pos hpos.ne', tdiv_eq_iff hpos]
  constructor
  · intro h
    exact ⟨(isLeast_iff_of_insert hsubset hleast).mp h.least,
      (isGreatest_iff_of_insert hsubset hgreatest).mp h.greatest, hmean.mp h.average⟩
  · intro h
    exact ⟨(isLeast_iff_of_insert hsubset hleast).mpr h.least,
      (isGreatest_iff_of_insert hsubset hgreatest).mpr h.greatest, hmean.mpr h.average⟩

theorem throughput_aggregates_iff_same_time :
    Exact (windowValues [.write 0 3 ⟨2, 0⟩, .write 1 9 ⟨2, 0⟩, .write 0 1 ⟨2, 0⟩,
        .write 0 6 ⟨2, 0⟩] 0 ⟨1, 0⟩ ⟨2, 0⟩)
      (throughputHiresMinmaxavg (run 4 [.write 0 3 ⟨2, 0⟩, .write 1 9 ⟨2, 0⟩, .write 0 1 ⟨2, 0⟩,
        .write 0 6 ⟨2, 0⟩]) 0 ⟨1, 0⟩ ⟨2, 0⟩) := by
  refine (throughput_aggregates_iff 4 _ (by decide +kernel) 0 ⟨1, 0⟩ ⟨2, 0⟩).mpr ?_
  have hwindow : windowValues [.write 0 3 ⟨2, 0⟩, .write 1 9 ⟨2, 0⟩, .write 0 1 ⟨2, 0⟩,
      .write 0 6 ⟨2, 0⟩] 0 ⟨1, 0⟩ ⟨2, 0⟩ = [3, 1, 6] := by decide +kernel
  have hseen : seenValues [.write 0 3 ⟨2, 0⟩, .write 1 9 ⟨2, 0⟩, .write 0 1 ⟨2, 0⟩,
      .write 0 6 ⟨2, 0⟩] 0 ⟨1, 0⟩ ⟨2, 0⟩ = [6, 1, 3] := by decide +kernel
  rw [hwindow, hseen]
  have hleast : IsLeast {v : ℤ | v ∈ [3, 1, 6]} 1 := ⟨by decide, by
    rintro v hv
    have hv' : v = 3 ∨ v = 1 ∨ v = 6 := by simpa using hv
    omega⟩
  have hgreatest : IsGreatest {v : ℤ | v ∈ [3, 1, 6]} 6 := ⟨by decide, by
    rintro v hv
    have hv' : v = 3 ∨ v = 1 ∨ v = 6 := by simpa using hv
    omega⟩
  refine ⟨⟨1, hleast, by decide, .inr (by decide)⟩, ⟨6, hgreatest, by decide, .inr (by decide)⟩, ?_⟩
  rw [MeanKept]
  decide

/-- Two values in the window: the older one is not seen, and the start value is in the mean. -/
theorem throughput_aggregates_wrong :
    throughputHiresMinmaxavg (run 2 [.write 0 5 ⟨1, 0⟩, .write 0 8 ⟨2, 0⟩]) 0 ⟨0, 0⟩ ⟨3, 0⟩ =
        ⟨8, 8, 7⟩ ∧
      windowValues [.write 0 5 ⟨1, 0⟩, .write 0 8 ⟨2, 0⟩] 0 ⟨0, 0⟩ ⟨3, 0⟩ = [5, 8] ∧
        Ordered [.write 0 5 ⟨1, 0⟩, .write 0 8 ⟨2, 0⟩] ∧
          ¬Exact [5, 8] ⟨8, 8, 7⟩ := by
  refine ⟨by decide +kernel, by decide +kernel, by decide +kernel, fun h ↦ ?_⟩
  exact absurd h.average (by decide)

end LtnTsTools.ThroughputHires
