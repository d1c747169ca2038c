import LtnTsTools.Histogram

/-!
# The summary of a histogram

`ltn_histogram_summary_print` adds neighbouring buckets into wider ones.  A group of buckets goes
into the bucket of its last value, so its loop scatters the buckets of the source over a new
histogram of the same range.
-/

namespace LtnTsTools.Histogram

open PartialMachine Scatter

/-- `_compareTime`. -/
def compareTime (t1 t2 : Timeval) : ℤ :=
  if t1.sec > t2.sec then 1
  else if t1.sec < t2.sec then -1
  else if t1.usec > t2.usec then 1
  else if t1.usec < t2.usec then -1
  else 0

def Ctx.bucketAt (ctx : Ctx) (i : ℕ) : Bucket := ctx.buckets.getD i emptyBucket

def absorb (dst src : Bucket) : Bucket where
  count := (dst.count + src.count) % 2 ^ 64
  lastUpdate :=
    if compareTime src.lastUpdate dst.lastUpdate > 0 then src.lastUpdate else dst.lastUpdate

/-- The inner loop of `ltn_histogram_summary_print`; `none` if it leaves an array or its rounds
do not suffice. -/
def summaryInner (ctx : Ctx) (bucketMax : ℕ) : ℕ → ℕ → Ctx → Option Ctx
  | 0, _, _ => none
  | rounds + 1, j, h =>
      if j ≤ bucketMax then do
        let src ← histogramBucket ctx j
        let dst ← histogramBucket h bucketMax
        summaryInner ctx bucketMax rounds ((j + 1) % 2 ^ 64)
          { h with buckets := h.buckets.modify dst (absorb · (ctx.bucketAt src)) }
      else some h

/-- `bucketMax`, cut to the range. -/
def bucketMax (ctx : Ctx) (bucketSizeMs i : ℕ) : ℕ :=
  let bucketMax := uint64 (i + bucketSizeMs - 1)
  if bucketMax < i ∨ bucketMax > ctx.maxValMs then ctx.maxValMs else bucketMax

/-- The loop of `ltn_histogram_summary_print`, with a number of rounds for each inner loop. -/
def summaryLoop (ctx : Ctx) (bucketSizeMs rounds : ℕ) : ℕ → ℕ → Ctx → Option Ctx
  | 0, _, _ => none
  | fuel + 1, i, h =>
      if i ≤ ctx.maxValMs then do
        let h ← summaryInner ctx (bucketMax ctx bucketSizeMs i) rounds i h
        if uint64 (ctx.maxValMs - i) < bucketSizeMs then some h
        else summaryLoop ctx bucketSizeMs rounds fuel ((i + bucketSizeMs) % 2 ^ 64) h
      else some h

/-- What `ltn_histogram_summary_print` prints, if there is anything.  No loop that ends takes more
rounds than there are buckets. -/
def histogramSummary (ctx : Ctx) (bucketSizeMs : ℕ) (now : Timeval) : Option (Option Ctx) :=
  match histogramAlloc ctx.minValMs ctx.maxValMs now with
  | none => some none
  | some h => do
      let h ← summaryLoop ctx bucketSizeMs (ctx.bucketCount + 1) (ctx.bucketCount + 1)
        ctx.minValMs h
      some (some { h with
        bucketMissCount := ctx.bucketMissCount
        totalCount := ctx.totalCount })

/-- `ltn_histogram_summary_print`, with the histogram that it prints. -/
def histogramSummaryPrint (ctx : Ctx) (seconds bucketSizeMs : UInt32) (now allocNow : Timeval) :
    Option (Ctx × Option Ctx) :=
  if bucketSizeMs = 0 then some (ctx, none)
  else if seconds = 0 then
    (histogramSummary ctx bucketSizeMs.toNat allocNow).map (ctx, ·)
  else if uint32 (timevalSubtractMs now ctx.printSummaryLast) < uint32 (seconds.toNat * 1000) then
    some (ctx, none)
  else
    let ctx := { ctx with printSummaryLast := now }
    (histogramSummary ctx bucketSizeMs.toNat allocNow).map (ctx, ·)

/-! ## What a summary is -/

def destination (ctx : Ctx) (bucketSizeMs j : ℕ) : ℕ := groupEnd ctx.bucketCount bucketSizeMs j

/-- The number of measurements that go into bucket `k`. -/
def sourceCount (ctx : Ctx) (bucketSizeMs k : ℕ) : ℕ :=
  ∑ j ∈ Finset.range ctx.bucketCount with destination ctx bucketSizeMs j = k,
    (ctx.bucketAt j).count

/-- The times of the buckets that go into bucket `k`. -/
def sourceTimes (ctx : Ctx) (bucketSizeMs k : ℕ) : Set Timeval :=
  {t | ∃ j < ctx.bucketCount, destination ctx bucketSizeMs j = k ∧
    (ctx.bucketAt j).lastUpdate = t}

/-- One of the times, and none of the others is later. -/
structure Latest (times : Set Timeval) (t : Timeval) : Prop where
  mem : t ∈ times
  not_later : ∀ t' ∈ times, compareTime t' t ≤ 0

/-- Every bucket goes into one bucket of the summary.  The counts are cut to a `uint64_t`, and
the times start at zero. -/
structure Summarises (ctx : Ctx) (bucketSizeMs : ℕ) (h : Ctx) : Prop where
  bucketCount : h.bucketCount = ctx.bucketCount
  inside : ∀ j < ctx.bucketCount, destination ctx bucketSizeMs j < h.bucketCount
  count : ∀ k < ctx.bucketCount,
    (h.bucketAt k).count = sourceCount ctx bucketSizeMs k % 2 ^ 64
  total : ∑ k ∈ Finset.range h.bucketCount, (h.bucketAt k).count =
      ∑ j ∈ Finset.range ctx.bucketCount, (ctx.bucketAt j).count ↔
    ∀ k < ctx.bucketCount, sourceCount ctx bucketSizeMs k < 2 ^ 64
  lastUpdate : ∀ k < ctx.bucketCount,
    Latest (insert ⟨0, 0⟩ (sourceTimes ctx bucketSizeMs k)) (h.bucketAt k).lastUpdate
  latest : ∀ k < ctx.bucketCount,
    Latest (sourceTimes ctx bucketSizeMs k) (h.bucketAt k).lastUpdate ↔
      ∃ t ∈ sourceTimes ctx bucketSizeMs k, compareTime ⟨0, 0⟩ t ≤ 0

/-! ## Times -/

theorem compareTime_nonpos_iff {a b : Timeval} :
    compareTime a b ≤ 0 ↔ a.sec < b.sec ∨ a.sec = b.sec ∧ a.usec ≤ b.usec := by
  unfold compareTime
  split_ifs <;> omega

theorem compareTime_trans {a b c : Timeval} (hab : compareTime a b ≤ 0)
    (hbc : compareTime b c ≤ 0) : compareTime a c ≤ 0 := by
  rw [compareTime_nonpos_iff] at *
  omega

theorem compareTime_antisymm {a b : Timeval} (hab : compareTime a b ≤ 0)
    (hba : compareTime b a ≤ 0) : a = b := by
  rw [compareTime_nonpos_iff] at *
  obtain ⟨asec, ausec⟩ := a
  obtain ⟨bsec, busec⟩ := b
  simp only [Timeval.mk.injEq]
  dsimp only at hab hba
  omega

theorem absorb_lastUpdate (dst src : Bucket) : (absorb dst src).lastUpdate = src.lastUpdate ∧
      compareTime dst.lastUpdate src.lastUpdate ≤ 0 ∨
    (absorb dst src).lastUpdate = dst.lastUpdate ∧
      compareTime src.lastUpdate dst.lastUpdate ≤ 0 := by
  by_cases hlater : compareTime src.lastUpdate dst.lastUpdate > 0
  · refine .inl ⟨if_pos hlater, ?_⟩
    rw [gt_iff_lt, ← not_le, compareTime_nonpos_iff] at hlater
    rw [compareTime_nonpos_iff]
    omega
  · exact .inr ⟨if_neg hlater, not_lt.mp hlater⟩

theorem Latest.insert_earlier {times : Set Timeval} {a b t : Timeval}
    (h : Latest (insert b times) t) (hab : compareTime a b ≤ 0) :
    Latest (insert a (insert b times)) t := by
  refine ⟨.inr h.mem, ?_⟩
  rintro t' (rfl | ht')
  · exact compareTime_trans hab (h.not_later b (Set.mem_insert b times))
  · exact h.not_later t' ht'

theorem latest_foldl_absorb (srcs : List Bucket) (dst : Bucket) :
    Latest (insert dst.lastUpdate {t | ∃ src ∈ srcs, src.lastUpdate = t})
      (srcs.foldl absorb dst).lastUpdate := by
  induction srcs generalizing dst with
  | nil => exact ⟨.inl rfl, by simp [compareTime]⟩
  | cons src rest ih =>
      have hih := ih (absorb dst src)
      have htimes : {t | ∃ b ∈ src :: rest, b.lastUpdate = t} =
          insert src.lastUpdate {t | ∃ b ∈ rest, b.lastUpdate = t} := by
        ext t
        simp [eq_comm]
      rw [htimes, List.foldl_cons]
      rcases absorb_lastUpdate dst src with ⟨hnew, hle⟩ | ⟨hold, hle⟩
      · rw [hnew] at hih
        exact hih.insert_earlier hle
      · rw [hold] at hih
        rw [Set.insert_comm]
        exact hih.insert_earlier hle

/-- Beside an earlier time, the latest of some times is one of them if it is not that time. -/
theorem Latest.of_insert_iff {times : Set Timeval} {t₀ t : Timeval}
    (h : Latest (insert t₀ times) t) :
    Latest times t ↔ ∃ t' ∈ times, compareTime t₀ t' ≤ 0 := by
  have hle : ∀ t' ∈ times, compareTime t' t ≤ 0 :=
    fun t' ht' ↦ h.not_later t' (Set.mem_insert_of_mem _ ht')
  constructor
  · intro hlatest
    exact ⟨t, hlatest.mem, h.not_later t₀ (Set.mem_insert _ _)⟩
  · rintro ⟨t', ht', hfirst⟩
    refine ⟨?_, hle⟩
    rcases h.mem with rfl | hmem
    · exact compareTime_antisymm (hle t' ht') hfirst ▸ ht'
    · exact hmem

theorem count_foldl_absorb (srcs : List Bucket) {dst : Bucket} (hdst : dst.count < 2 ^ 64) :
    (srcs.foldl absorb dst).count = (dst.count + (srcs.map Bucket.count).sum) % 2 ^ 64 := by
  induction srcs generalizing dst with
  | nil => simpa using (Nat.mod_eq_of_lt hdst).symm
  | cons src rest ih =>
      have hlt : (absorb dst src).count < 2 ^ 64 := Nat.mod_lt _ (by norm_num)
      rw [List.foldl_cons, ih hlt, absorb, Nat.mod_add_mod, List.map_cons, List.sum_cons,
        Nat.add_assoc]

/-! ## The loops -/

theorem histogramBucket_congr {ctx h : Ctx} (hmin : h.minValMs = ctx.minValMs)
    (hcount : h.bucketCount = ctx.bucketCount) (ms : ℕ) :
    histogramBucket h ms = histogramBucket ctx ms := by
  rw [histogramBucket, histogramBucket, hmin, hcount]

section Loops

variable {ctx : Ctx} {size : ℕ}

/-- The inner loop absorbs each bucket from `j` on once. -/
theorem summaryInner_eq (hctx : Sound ctx) (hmax : ctx.maxValMs < 2 ^ 32) {last : ℕ}
    (hlow : ctx.minValMs ≤ last) (hlast : last ≤ ctx.maxValMs) (rounds : ℕ) :
    ∀ {j : ℕ} {h : Ctx}, ctx.minValMs ≤ j → last + 1 - j < rounds →
      h.minValMs = ctx.minValMs → h.bucketCount = ctx.bucketCount →
        summaryInner ctx last rounds j h = some { h with
          buckets := scatter absorb (fun _ ↦ last - ctx.minValMs) ctx.bucketAt h.buckets
            (List.range' (j - ctx.minValMs) (last + 1 - j)) } := by
  induction rounds with
  | zero =>
      intro j h _ hrounds
      omega
  | succ rounds ih =>
      intro j h hj hrounds hmin hcount
      rw [summaryInner]
      by_cases hle : j ≤ last
      · have hsrc : histogramBucket ctx j = some (j - ctx.minValMs) := by
          rw [hctx.histogramBucket_eq (by unfold Ctx.Misses; omega), if_pos (by omega)]
        have hdst : histogramBucket h last = some (last - ctx.minValMs) := by
          rw [histogramBucket_congr hmin hcount,
            hctx.histogramBucket_eq (by unfold Ctx.Misses; omega), if_pos (by omega)]
        have hnext : (j + 1) % 2 ^ 64 = j + 1 := Nat.mod_eq_of_lt (by omega)
        have hsplit : List.range' (j - ctx.minValMs) (last + 1 - j) =
            (j - ctx.minValMs) :: List.range' (j + 1 - ctx.minValMs) (last + 1 - (j + 1)) := by
          have hlen : last + 1 - j = last + 1 - (j + 1) + 1 := by omega
          rw [hlen, List.range'_succ, Nat.sub_add_comm hj]
        simp only [if_pos hle, hsrc, hdst, Option.bind_eq_bind, Option.bind_some, hnext]
        rw [hsplit, scatter_cons]
        exact ih (by omega) (by omega) hmin hcount
      · have hnone : last + 1 - j = 0 := by omega
        rw [if_neg hle, hnone]
        rfl

/-- The last value of the group that starts at a multiple of the size. -/
theorem bucketMax_eq (hctx : Sound ctx) (hmax : ctx.maxValMs < 2 ^ 32) (hsize : 0 < size)
    (hsize' : size < 2 ^ 32) {q : ℕ} (hq : q * size < ctx.bucketCount) :
    bucketMax ctx size (ctx.minValMs + q * size) =
      ctx.minValMs + min ((q + 1) * size - 1) (ctx.bucketCount - 1) := by
  have hrange := hctx.range
  have hcount := hctx.bucketCount_eq
  have hnext : (q + 1) * size = q * size + size := Nat.succ_mul q size
  have hend : uint64 ((ctx.minValMs + q * size : ℕ) + size - 1) =
      ctx.minValMs + q * size + size - 1 := by
    unfold uint64
    omega
  simp only [bucketMax, hend]
  split_ifs <;> omega

/-- A round of the loop absorbs the buckets of one group. -/
theorem summaryInner_group (hctx : Sound ctx) (hmax : ctx.maxValMs < 2 ^ 32) (hsize : 0 < size)
    (hsize' : size < 2 ^ 32) {rounds q : ℕ} (hrounds : ctx.bucketCount < rounds)
    (hq : q * size < ctx.bucketCount) {h : Ctx} (hmin : h.minValMs = ctx.minValMs)
    (hcount : h.bucketCount = ctx.bucketCount) :
    summaryInner ctx (bucketMax ctx size (ctx.minValMs + q * size)) rounds
        (ctx.minValMs + q * size) h = some { h with
      buckets := scatter absorb (destination ctx size) ctx.bucketAt h.buckets
        (List.range' (q * size) (min size (ctx.bucketCount - q * size))) } := by
  have hrange := hctx.range
  have hvalues := hctx.bucketCount_eq
  have hnext : (q + 1) * size = q * size + size := Nat.succ_mul q size
  have hlen : ctx.minValMs + min ((q + 1) * size - 1) (ctx.bucketCount - 1) + 1 -
      (ctx.minValMs + q * size) = min size (ctx.bucketCount - q * size) := by omega
  rw [bucketMax_eq hctx hmax hsize hsize' hq, summaryInner_eq hctx hmax (by omega) (by omega)
    rounds (by omega) (by omega) hmin hcount, hlen, Nat.add_sub_cancel_left,
    Nat.add_sub_cancel_left]
  congr 2
  refine scatter_congr fun j hj ↦ ?_
  rw [List.mem_range'_1] at hj
  exact (groupEnd_of_mem hj.1 (by omega)).symm

/-- The loop ends, and each bucket from the group `q` on is absorbed once. -/
theorem summaryLoop_eq (hctx : Sound ctx) (hmax : ctx.maxValMs < 2 ^ 32) (hsize : 0 < size)
    (hsize' : size < 2 ^ 32) {rounds : ℕ} (hrounds : ctx.bucketCount < rounds) (fuel : ℕ) :
    ∀ {q : ℕ} {h : Ctx}, q * size < ctx.bucketCount → ctx.bucketCount - q * size ≤ fuel →
      h.minValMs = ctx.minValMs → h.bucketCount = ctx.bucketCount →
        summaryLoop ctx size rounds fuel (ctx.minValMs + q * size) h = some { h with
          buckets := scatter absorb (destination ctx size) ctx.bucketAt h.buckets
            (List.range' (q * size) (ctx.bucketCount - q * size)) } := by
  have hrange := hctx.range
  have hvalues := hctx.bucketCount_eq
  induction fuel with
  | zero =>
      intro q h hq hfuel
      omega
  | succ fuel ih =>
      intro q h hq hfuel hmin hcount
      have hgroup := summaryInner_group hctx hmax hsize hsize' hrounds hq hmin hcount
      have hnext : (q + 1) * size = q * size + size := Nat.succ_mul q size
      have hleft : uint64 (ctx.maxValMs - (ctx.minValMs + q * size : ℕ)) =
          ctx.maxValMs - (ctx.minValMs + q * size) := by
        unfold uint64
        omega
      rw [summaryLoop, if_pos (by omega), hgroup]
      simp only [Option.bind_eq_bind, Option.bind_some, hleft]
      by_cases hlast : ctx.maxValMs - (ctx.minValMs + q * size) < size
      · have hall : min size (ctx.bucketCount - q * size) = ctx.bucketCount - q * size := by omega
        rw [if_pos hlast, hall]
      · have hwhole : min size (ctx.bucketCount - q * size) = size := by omega
        have hwrap : (ctx.minValMs + q * size + size) % 2 ^ 64 =
            ctx.minValMs + (q + 1) * size := by omega
        have hsplit : List.range' (q * size) (ctx.bucketCount - q * size) =
            List.range' (q * size) size ++
              List.range' ((q + 1) * size) (ctx.bucketCount - (q + 1) * size) := by
          have hlen : ctx.bucketCount - q * size =
              size + (ctx.bucketCount - (q + 1) * size) := by omega
          rw [hlen, ← List.range'_append_1, hnext]
        rw [if_neg hlast, hwhole, hwrap, hsplit, scatter_append]
        exact ih (by omega) (by omega) hmin hcount

end Loops

/-! ## Conservation -/

/-- The buckets that go into bucket `k`, in their order. -/
def sources (ctx : Ctx) (bucketSizeMs k : ℕ) : List Bucket :=
  ((List.range ctx.bucketCount).filter fun j ↦ destination ctx bucketSizeMs j = k).map
    ctx.bucketAt

theorem sum_sources (ctx : Ctx) (bucketSizeMs k : ℕ) :
    ((sources ctx bucketSizeMs k).map Bucket.count).sum = sourceCount ctx bucketSizeMs k := by
  rw [sources, List.map_map]
  rfl

theorem sourceTimes_eq (ctx : Ctx) (bucketSizeMs k : ℕ) : sourceTimes ctx bucketSizeMs k =
    {t | ∃ src ∈ sources ctx bucketSizeMs k, src.lastUpdate = t} := by
  ext t
  simp [sourceTimes, sources, and_assoc]

/-- A histogram whose buckets have absorbed their sources is a summary. -/
theorem summarises_of_bucketAt {ctx h : Ctx} {bucketSizeMs : ℕ}
    (hcount : h.bucketCount = ctx.bucketCount)
    (hbucket : ∀ k < ctx.bucketCount,
      h.bucketAt k = (sources ctx bucketSizeMs k).foldl absorb emptyBucket) :
    Summarises ctx bucketSizeMs h := by
  have hinside : ∀ j < ctx.bucketCount, destination ctx bucketSizeMs j < ctx.bucketCount :=
    fun j hj ↦ groupEnd_lt hj
  have hmod : ∀ k < ctx.bucketCount,
      (h.bucketAt k).count = sourceCount ctx bucketSizeMs k % 2 ^ 64 := by
    intro k hk
    have hempty : emptyBucket.count < 2 ^ 64 := by decide
    rw [hbucket k hk, count_foldl_absorb _ hempty, sum_sources, emptyBucket, Nat.zero_add]
  have hlatest : ∀ k < ctx.bucketCount,
      Latest (insert ⟨0, 0⟩ (sourceTimes ctx bucketSizeMs k)) (h.bucketAt k).lastUpdate := by
    intro k hk
    rw [hbucket k hk, sourceTimes_eq]
    exact latest_foldl_absorb _ emptyBucket
  refine ⟨hcount, fun j hj ↦ hcount ▸ hinside j hj, hmod, ?_, hlatest,
    fun k hk ↦ (hlatest k hk).of_insert_iff⟩
  have hsum : ∑ k ∈ Finset.range ctx.bucketCount, sourceCount ctx bucketSizeMs k =
      ∑ j ∈ Finset.range ctx.bucketCount, (ctx.bucketAt j).count := sum_cells _ hinside
  rw [hcount, ← hsum, Finset.sum_congr rfl fun k hk ↦ hmod k (Finset.mem_range.mp hk),
    sum_mod_eq_iff (by norm_num)]
  simp only [Finset.mem_range]

def summaryOf (ctx : Ctx) (bucketSizeMs : ℕ) (h : Ctx) : Ctx :=
  { h with
    buckets := scatter absorb (destination ctx bucketSizeMs) ctx.bucketAt h.buckets
      (List.range ctx.bucketCount) }

section Alloc

variable {ctx h : Ctx} {now : Timeval} {size : ℕ}

theorem Sound.exists_alloc (hctx : Sound ctx) (now : Timeval) :
    ∃ h, histogramAlloc ctx.minValMs ctx.maxValMs now = some h := by
  have hlt := hctx.bucketCount_lt
  have hcount := hctx.bucketCount_eq
  exact ⟨_, histogramAlloc_eq_some_iff.mpr ⟨hctx.range, by omega, rfl⟩⟩

theorem Sound.alloc_bucketCount (hctx : Sound ctx)
    (halloc : histogramAlloc ctx.minValMs ctx.maxValMs now = some h) :
    h.bucketCount = ctx.bucketCount := by
  obtain ⟨-, -, rfl⟩ := histogramAlloc_eq_some_iff.mp halloc
  exact hctx.bucketCount_eq.symm

theorem summaryLoop_of_alloc (hctx : Sound ctx) (hmax : ctx.maxValMs < 2 ^ 32) (hsize : 0 < size)
    (hsize' : size < 2 ^ 32)
    (halloc : histogramAlloc ctx.minValMs ctx.maxValMs now = some h) {rounds fuel : ℕ}
    (hrounds : ctx.bucketCount < rounds) (hfuel : ctx.bucketCount ≤ fuel) :
    summaryLoop ctx size rounds fuel ctx.minValMs h = some (summaryOf ctx size h) := by
  have hcount := hctx.bucketCount_eq
  have hmin : h.minValMs = ctx.minValMs := by
    obtain ⟨-, -, rfl⟩ := histogramAlloc_eq_some_iff.mp halloc
    rfl
  have hfirst : 0 * size < ctx.bucketCount := by omega
  have hloop := summaryLoop_eq hctx hmax hsize hsize' hrounds fuel hfirst (by omega) hmin
    (hctx.alloc_bucketCount halloc)
  rwa [Nat.zero_mul, Nat.add_zero, Nat.sub_zero, ← List.range_eq_range'] at hloop

theorem bucketAt_summaryOf (hctx : Sound ctx)
    (halloc : histogramAlloc ctx.minValMs ctx.maxValMs now = some h) {k : ℕ}
    (hk : k < ctx.bucketCount) :
    (summaryOf ctx size h).bucketAt k = (sources ctx size k).foldl absorb emptyBucket := by
  have hcount := hctx.bucketCount_eq
  obtain ⟨-, -, rfl⟩ := histogramAlloc_eq_some_iff.mp halloc
  have hempty : (List.replicate (ctx.maxValMs - ctx.minValMs + 1) emptyBucket)[k]? =
      some emptyBucket := by
    rw [List.getElem?_replicate, if_pos (by omega)]
  rw [summaryOf, Ctx.bucketAt, List.getD_eq_getElem?_getD, getElem?_scatter, hempty]
  rfl

end Alloc

/-- What is printed is a summary, with the misses and the total of the histogram. -/
theorem exists_histogramSummary {ctx : Ctx} (hctx : Sound ctx) (hmax : ctx.maxValMs < 2 ^ 32)
    {size : ℕ} (hsize : 0 < size) (hsize' : size < 2 ^ 32) (now : Timeval) :
    ∃ h, histogramSummary ctx size now = some (some h) ∧ Summarises ctx size h ∧
      h.totalCount = ctx.totalCount ∧ h.bucketMissCount = ctx.bucketMissCount := by
  obtain ⟨h₀, halloc⟩ := hctx.exists_alloc now
  have hloop := summaryLoop_of_alloc hctx hmax hsize hsize' halloc
    (Nat.lt_succ_self ctx.bucketCount) (Nat.le_succ ctx.bucketCount)
  refine ⟨{ summaryOf ctx size h₀ with
    bucketMissCount := ctx.bucketMissCount
    totalCount := ctx.totalCount }, ?_, ?_, rfl, rfl⟩
  · rw [histogramSummary, halloc]
    simp only [hloop, Option.bind_eq_bind, Option.bind_some]
  · exact summarises_of_bucketAt (hctx.alloc_bucketCount (h := h₀) halloc)
      fun k hk ↦ bucketAt_summaryOf hctx halloc hk

theorem exists_summaryPrint {ctx : Ctx} (hctx : Sound ctx) (hmax : ctx.maxValMs < 2 ^ 32)
    (seconds bucketSizeMs : UInt32) (now allocNow : Timeval) :
    ∃ r, histogramSummaryPrint ctx seconds bucketSizeMs now allocNow = some r ∧
      ∀ h ∈ r.2, Summarises ctx bucketSizeMs.toNat h ∧ h.totalCount = ctx.totalCount ∧
        h.bucketMissCount = ctx.bucketMissCount := by
  unfold histogramSummaryPrint
  by_cases hzero : bucketSizeMs = 0
  · exact ⟨_, if_pos hzero, by simp⟩
  have hsize : 0 < bucketSizeMs.toNat := by
    rw [Nat.pos_iff_ne_zero]
    exact fun h ↦ hzero (UInt32.toNat_inj.mp h)
  rw [if_neg hzero]
  split_ifs with hseconds hearly
  · obtain ⟨h, hprint, hsummary⟩ :=
      exists_histogramSummary hctx hmax hsize bucketSizeMs.toNat_lt allocNow
    refine ⟨(ctx, some h), by rw [hprint, Option.map_some], fun h' hh' ↦ ?_⟩
    exact Option.some.inj hh' ▸ hsummary
  · exact ⟨_, rfl, by simp⟩
  · have hsame : SameCounts ctx { ctx with printSummaryLast := now } :=
      ⟨rfl, rfl, rfl, rfl, rfl, rfl⟩
    obtain ⟨h, hprint, hsummary, htotal, hmiss⟩ :=
      exists_histogramSummary (hsame.sound hctx) hmax hsize bucketSizeMs.toNat_lt allocNow
    refine ⟨(_, some h), by simp only [hprint]; rfl, fun h' hh' ↦ ?_⟩
    obtain rfl := Option.some.inj hh'
    exact ⟨⟨hsummary.bucketCount, hsummary.inside, hsummary.count, hsummary.total,
      hsummary.lastUpdate, hsummary.latest⟩, htotal, hmiss⟩

/-- The loop ends in at most one round for each bucket, and what it makes is a summary. -/
theorem summary_conserves {ctx : Ctx} (hctx : Sound ctx) (hmax : ctx.maxValMs < 2 ^ 32)
    (bucketSizeMs : UInt32) (hsize : 1 ≤ bucketSizeMs.toNat) (now : Timeval) :
    ∃ h₀ h, histogramAlloc ctx.minValMs ctx.maxValMs now = some h₀ ∧
      (∀ rounds fuel, ctx.bucketCount < rounds → ctx.bucketCount ≤ fuel →
        summaryLoop ctx bucketSizeMs.toNat rounds fuel ctx.minValMs h₀ = some h) ∧
      Summarises ctx bucketSizeMs.toNat h := by
  obtain ⟨h₀, halloc⟩ := hctx.exists_alloc now
  refine ⟨h₀, summaryOf ctx bucketSizeMs.toNat h₀, halloc, fun rounds fuel hrounds hfuel ↦ ?_, ?_⟩
  · exact summaryLoop_of_alloc hctx hmax hsize bucketSizeMs.toNat_lt halloc hrounds hfuel
  · exact summarises_of_bucketAt (hctx.alloc_bucketCount (h := h₀) halloc)
      fun k hk ↦ bucketAt_summaryOf hctx halloc hk

/-- A range of five values in groups of two. -/
theorem summary_conserves_uneven :
    ∃ ctx : Ctx, ctx.bucketCount = 5 ∧ ctx.buckets.map Bucket.count = [1, 2, 3, 4, 5] ∧
      ∃ h₀ h, histogramAlloc ctx.minValMs ctx.maxValMs ⟨1000, 0⟩ = some h₀ ∧
        (∀ rounds fuel, ctx.bucketCount < rounds → ctx.bucketCount ≤ fuel →
          summaryLoop ctx (2 : UInt32).toNat rounds fuel ctx.minValMs h₀ = some h) ∧
        Summarises ctx (2 : UInt32).toNat h := by
  refine ⟨⟨10, 14, 0, 5, [⟨1, ⟨7, 0⟩⟩, ⟨2, ⟨6, 0⟩⟩, ⟨3, ⟨5, 0⟩⟩, ⟨4, ⟨5, 1⟩⟩, ⟨5, ⟨9, 0⟩⟩],
    ⟨9, 0⟩, 0, ⟨0, 0⟩, 0, ⟨0, 0⟩, ⟨0, 0⟩, 15⟩, rfl, rfl, ?_⟩
  have hctx : Sound
      ⟨10, 14, 0, 5, [⟨1, ⟨7, 0⟩⟩, ⟨2, ⟨6, 0⟩⟩, ⟨3, ⟨5, 0⟩⟩, ⟨4, ⟨5, 1⟩⟩, ⟨5, ⟨9, 0⟩⟩],
        ⟨9, 0⟩, 0, ⟨0, 0⟩, 0, ⟨0, 0⟩, ⟨0, 0⟩, 15⟩ := by
    constructor <;> decide
  exact summary_conserves hctx (by decide) 2 (by decide) ⟨1000, 0⟩

/-- An update from before 1970 is summarised with the time zero, and two counts of 2^63 with the
count zero. -/
theorem summary_inexact :
    (∃ ctx₀ ctx h₀ h, histogramAlloc 0 2 ⟨1000, 0⟩ = some ctx₀ ∧
      run (silent apply) ctx₀ [.intervalUpdate ⟨-10, 0⟩, .intervalUpdate ⟨-10, 1000⟩] =
        some ctx ∧ Sound ctx ∧
      histogramAlloc ctx.minValMs ctx.maxValMs ⟨1000, 0⟩ = some h₀ ∧
      summaryLoop ctx 1 4 4 ctx.minValMs h₀ = some h ∧
      (ctx.bucketAt 1).lastUpdate = ⟨-10, 1000⟩ ∧ (h.bucketAt 1).lastUpdate = ⟨0, 0⟩ ∧
      ¬Latest (sourceTimes ctx 1 1) (h.bucketAt 1).lastUpdate) ∧
    ∃ ctx h₀ h, Sound ctx ∧ (ctx.buckets.map Bucket.count).sum = 2 ^ 63 + 2 ^ 63 ∧
      histogramAlloc ctx.minValMs ctx.maxValMs ⟨1000, 0⟩ = some h₀ ∧
      summaryLoop ctx 2 3 3 ctx.minValMs h₀ = some h ∧
      (h.buckets.map Bucket.count).sum = 0 := by
  refine ⟨⟨_, _, _, _, rfl, rfl, ?_, rfl, rfl, by decide +kernel, by decide +kernel, ?_⟩, ?_⟩
  · constructor <;> decide +kernel
  · intro hlatest
    have hmem := hlatest.mem
    simp only [sourceTimes, Set.mem_ofPred_eq] at hmem
    revert hmem
    decide +kernel
  · refine ⟨⟨0, 1, 0, 2, [⟨2 ^ 63, ⟨1, 0⟩⟩, ⟨2 ^ 63, ⟨1, 0⟩⟩], ⟨1, 0⟩, 0, ⟨0, 0⟩, 0, ⟨0, 0⟩, ⟨0, 0⟩,
      2 ^ 64⟩, _, _, ?_, rfl, rfl, rfl, by decide +kernel⟩
    constructor <;> decide

end LtnTsTools.Histogram
