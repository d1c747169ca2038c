import LtnTsTools.CTypes
import LtnTsTools.PartialMachine
import LtnTsTools.Scatter

/-!
# The histogram

`histogram.h` counts measured milliseconds in buckets, one for each value of a range.  Four
functions repeat the test of the range, on values of 32 or 64 bits, in front of a look-up that
takes 32.  The name and the printing are left out.
-/

namespace LtnTsTools.Histogram

open PartialMachine

/-- `struct ltn_histogram_bucket_s`. -/
structure Bucket where
  count : ℕ
  lastUpdate : Timeval
deriving DecidableEq

def emptyBucket : Bucket := ⟨0, ⟨0, 0⟩⟩

/-- `struct ltn_histogram_s`. -/
structure Ctx where
  minValMs : ℕ
  maxValMs : ℕ
  bucketMissCount : ℕ
  bucketCount : ℕ
  buckets : List Bucket
  intervalLast : Timeval
  cumulativeMs : ℕ
  cumulativeLast : Timeval
  sampleMs : ℕ
  sampleLast : Timeval
  printSummaryLast : Timeval
  totalCount : ℤ
deriving DecidableEq

/-- `ltn_histogram_bucket`, as an index; `none` if the bucket lies outside of the array.  The
milliseconds are cut to a `uint32_t`, the difference is a `uint64_t`. -/
def histogramBucket (ctx : Ctx) (ms : ℕ) : Option ℕ :=
  let i := uint64 (uint32 ms - ctx.minValMs)
  if i < ctx.bucketCount then some i else none

/-- `ltn_histogram_reset`. -/
def histogramReset (ctx : Ctx) (now : Timeval) : Ctx :=
  { ctx with
    buckets := List.replicate ctx.bucketCount emptyBucket
    intervalLast := now
    bucketMissCount := 0
    cumulativeMs := 0
    totalCount := 0 }

/-- `ltn_histogram_alloc` with a name, while there is memory. -/
def histogramAlloc (minValMs maxValMs : ℕ) (now : Timeval) : Option Ctx :=
  if minValMs = maxValMs then none
  else if maxValMs < minValMs then none
  else if maxValMs = 0 then none
  else if maxValMs - minValMs > 2 ^ 32 - 1 - 1 then none
  else
    let ctx : Ctx := {
      minValMs := minValMs
      maxValMs := maxValMs
      bucketMissCount := 0
      bucketCount := uint32 (maxValMs - minValMs + 1)
      buckets := []
      intervalLast := ⟨0, 0⟩
      cumulativeMs := 0
      cumulativeLast := ⟨0, 0⟩
      sampleMs := 0
      sampleLast := ⟨0, 0⟩
      printSummaryLast := ⟨0, 0⟩
      totalCount := 0 }
    some (histogramReset ctx now)

def Ctx.Misses (ctx : Ctx) (ms : ℕ) : Prop := ms < ctx.minValMs ∨ ms > ctx.maxValMs

instance (ctx : Ctx) (ms : ℕ) : Decidable (ctx.Misses ms) :=
  inferInstanceAs (Decidable (_ ∨ _))

/-- What the four functions do with a value; `none` if they leave the array. -/
def countValue (ctx : Ctx) (ms : ℕ) (lastUpdate : Timeval) : Option Ctx :=
  if ctx.Misses ms then some { ctx with bucketMissCount := (ctx.bucketMissCount + 1) % 2 ^ 64 }
  else
    (histogramBucket ctx ms).map fun i ↦ { ctx with
      buckets := ctx.buckets.modify i fun b ↦ ⟨(b.count + 1) % 2 ^ 64, lastUpdate⟩
      totalCount := (ctx.totalCount + 1).bmod (2 ^ 128) }

/-- What `ltn_histogram_interval_update` returns, an `int`. -/
def intervalResult (ctx : Ctx) (diffMs : ℕ) : ℤ :=
  if ctx.Misses diffMs then -1 else (diffMs : ℤ).bmod (2 ^ 32)

/-- `ltn_histogram_interval_update_with_value`. -/
def histogramIntervalUpdateWithValue (ctx : Ctx) (diffMs : UInt32) (now : Timeval) :
    Option (Ctx × ℤ) :=
  (countValue ctx diffMs.toNat now).map (·, intervalResult ctx diffMs.toNat)

/-- `ltn_histogram_interval_update`. -/
def histogramIntervalUpdate (ctx : Ctx) (timestamp : Timeval) : Option (Ctx × ℤ) :=
  let diffMs := uint32 (timevalSubtractMs timestamp ctx.intervalLast)
  (countValue { ctx with intervalLast := timestamp } diffMs timestamp).map
    (·, intervalResult ctx diffMs)

/-- `ltn_histogram_cumulative_initialize`. -/
def histogramCumulativeInitialize (ctx : Ctx) : Ctx := { ctx with cumulativeMs := 0 }

/-- `ltn_histogram_cumulative_begin`. -/
def histogramCumulativeBegin (ctx : Ctx) (now : Timeval) : Ctx :=
  { ctx with cumulativeLast := now }

/-- `ltn_histogram_cumulative_end`. -/
def histogramCumulativeEnd (ctx : Ctx) (now : Timeval) : Ctx × ℕ :=
  let val := uint64 (timevalSubtractMs now ctx.cumulativeLast)
  ({ ctx with cumulativeMs := (ctx.cumulativeMs + val) % 2 ^ 64 }, val)

/-- `ltn_histogram_cumulative_finalize`. -/
def histogramCumulativeFinalize (ctx : Ctx) (now : Timeval) : Option (Ctx × ℕ) :=
  (countValue ctx ctx.cumulativeMs now).map (·, ctx.cumulativeMs)

/-- `ltn_histogram_sample_begin`. -/
def histogramSampleBegin (ctx : Ctx) (now : Timeval) : Ctx := { ctx with sampleLast := now }

/-- `ltn_histogram_sample_end`; the clock is read again for the bucket. -/
def histogramSampleEnd (ctx : Ctx) (now later : Timeval) : Option (Ctx × ℕ) :=
  let sampleMs := uint64 (timevalSubtractMs now ctx.sampleLast)
  (countValue { ctx with sampleMs := sampleMs } sampleMs later).map (·, sampleMs)

inductive Call
  | intervalUpdateWithValue (diffMs : UInt32) (now : Timeval)
  | intervalUpdate (timestamp : Timeval)
  | cumulativeInitialize
  | cumulativeBegin (now : Timeval)
  | cumulativeEnd (now : Timeval)
  | cumulativeFinalize (now : Timeval)
  | sampleBegin (now : Timeval)
  | sampleEnd (now later : Timeval)
  | reset (now : Timeval)
deriving DecidableEq

def apply (ctx : Ctx) : Call → Option Ctx
  | .intervalUpdateWithValue diffMs now =>
      (histogramIntervalUpdateWithValue ctx diffMs now).map Prod.fst
  | .intervalUpdate timestamp => (histogramIntervalUpdate ctx timestamp).map Prod.fst
  | .cumulativeInitialize => some (histogramCumulativeInitialize ctx)
  | .cumulativeBegin now => some (histogramCumulativeBegin ctx now)
  | .cumulativeEnd now => some (histogramCumulativeEnd ctx now).1
  | .cumulativeFinalize now => (histogramCumulativeFinalize ctx now).map Prod.fst
  | .sampleBegin now => some (histogramSampleBegin ctx now)
  | .sampleEnd now later => (histogramSampleEnd ctx now later).map Prod.fst
  | .reset now => some (histogramReset ctx now)

/-! ## What alloc promises -/

/-- A histogram as `ltn_histogram_alloc` makes it, with any counts. -/
structure Sound (ctx : Ctx) : Prop where
  range : ctx.minValMs < ctx.maxValMs
  max_lt : ctx.maxValMs < 2 ^ 64
  bucketCount_lt : ctx.bucketCount < 2 ^ 32
  bucketCount_eq : ctx.bucketCount = ctx.maxValMs - ctx.minValMs + 1
  length_eq : ctx.buckets.length = ctx.bucketCount
  count_lt : ∀ b ∈ ctx.buckets, b.count < 2 ^ 64
  miss_lt : ctx.bucketMissCount < 2 ^ 64

theorem Sound.reset {ctx : Ctx} (h : Sound ctx) (now : Timeval) :
    Sound (histogramReset ctx now) where
  range := h.range
  max_lt := h.max_lt
  bucketCount_lt := h.bucketCount_lt
  bucketCount_eq := h.bucketCount_eq
  length_eq := List.length_replicate
  count_lt := by
    intro b hb
    rw [List.eq_of_mem_replicate hb, emptyBucket]
    norm_num
  miss_lt := by
    rw [histogramReset]
    norm_num

/-- What alloc accepts, and what it makes of it. -/
theorem histogramAlloc_eq_some_iff {minValMs maxValMs : ℕ} {now : Timeval} {ctx : Ctx} :
    histogramAlloc minValMs maxValMs now = some ctx ↔
      minValMs < maxValMs ∧ maxValMs - minValMs ≤ 2 ^ 32 - 2 ∧
        ctx = {
          minValMs := minValMs
          maxValMs := maxValMs
          bucketMissCount := 0
          bucketCount := maxValMs - minValMs + 1
          buckets := List.replicate (maxValMs - minValMs + 1) emptyBucket
          intervalLast := now
          cumulativeMs := 0
          cumulativeLast := ⟨0, 0⟩
          sampleMs := 0
          sampleLast := ⟨0, 0⟩
          printSummaryLast := ⟨0, 0⟩
          totalCount := 0 } := by
  by_cases hrange : minValMs < maxValMs ∧ maxValMs - minValMs ≤ 2 ^ 32 - 2
  · obtain ⟨hless, hnarrow⟩ := hrange
    have hcount : uint32 (maxValMs - minValMs + 1) = maxValMs - minValMs + 1 := by
      unfold uint32
      omega
    rw [histogramAlloc, if_neg (by omega), if_neg (by omega), if_neg (by omega),
      if_neg (by omega)]
    simp only [histogramReset, hcount, Option.some.injEq, hless, hnarrow, true_and]
    exact eq_comm
  · refine iff_of_false ?_ fun h ↦ hrange ⟨h.1, h.2.1⟩
    unfold histogramAlloc
    split_ifs with hsame hless hzero hwide
    · simp
    · simp
    · simp
    · simp
    · exact absurd ⟨by omega, by omega⟩ hrange

theorem sound_of_alloc {minValMs maxValMs : ℕ} {now : Timeval} {ctx : Ctx}
    (hmax : maxValMs < 2 ^ 64) (h : histogramAlloc minValMs maxValMs now = some ctx) :
    Sound ctx := by
  obtain ⟨hless, hnarrow, rfl⟩ := histogramAlloc_eq_some_iff.mp h
  refine ⟨hless, hmax, ?_, rfl, List.length_replicate, ?_, by norm_num⟩
  · change maxValMs - minValMs + 1 < 2 ^ 32
    omega
  · intro b hb
    rw [List.eq_of_mem_replicate hb, emptyBucket]
    norm_num

/-- A value of the range is found exactly if it keeps its bits. -/
theorem Sound.histogramBucket_eq {ctx : Ctx} (h : Sound ctx) {ms : ℕ} (hin : ¬ctx.Misses ms) :
    histogramBucket ctx ms = if ms < 2 ^ 32 then some (ms - ctx.minValMs) else none := by
  have hmax := h.max_lt
  have hlt := h.bucketCount_lt
  have hcount := h.bucketCount_eq
  simp only [Ctx.Misses, not_or, not_lt] at hin
  rw [histogramBucket]
  by_cases hms : ms < 2 ^ 32
  · have hindex : uint64 (uint32 ms - ctx.minValMs) = ms - ctx.minValMs := by
      unfold uint64 uint32
      omega
    rw [if_pos hms, hindex, if_pos (by omega)]
  · have hbehind : ¬uint64 (uint32 ms - ctx.minValMs) < ctx.bucketCount := by
      unfold uint64 uint32
      omega
    rw [if_neg hms, if_neg hbehind]

/-! ## Accounting -/

def Call.counted? (ctx : Ctx) : Call → Option ℕ
  | .intervalUpdateWithValue diffMs _ => some diffMs.toNat
  | .intervalUpdate timestamp => some (uint32 (timevalSubtractMs timestamp ctx.intervalLast))
  | .cumulativeFinalize _ => some ctx.cumulativeMs
  | .sampleEnd now _ => some (uint64 (timevalSubtractMs now ctx.sampleLast))
  | _ => none

def updatesSinceReset (ctx : Ctx) (updates : ℕ) : Call → ℕ
  | .reset _ => 0
  | c => if (c.counted? ctx).isSome then updates + 1 else updates

def countedStep : Ctx × ℕ → Call → Option ((Ctx × ℕ) × Unit) :=
  recorded (silent apply) updatesSinceReset

/-- The total is the sum of the buckets, and with the misses it is the number of updates. -/
structure Accounted (s : Ctx × ℕ) : Prop where
  total : s.1.totalCount = (s.1.buckets.map Bucket.count).sum
  updates : s.1.totalCount + s.1.bucketMissCount = s.2

instance (s : Ctx × ℕ) : Decidable (Accounted s) :=
  decidable_of_iff (s.1.totalCount = (s.1.buckets.map Bucket.count).sum ∧
      s.1.totalCount + s.1.bucketMissCount = s.2)
    ⟨fun h ↦ ⟨h.1, h.2⟩, fun h ↦ ⟨h.total, h.updates⟩⟩

/-- The value keeps its bits in the look-up, and the counter that counts it is not full. -/
def Countable (ctx : Ctx) (ms : ℕ) : Prop :=
  if ctx.Misses ms then ctx.bucketMissCount + 1 < 2 ^ 64
  else ms < 2 ^ 32 ∧ ∀ b ∈ ctx.buckets[ms - ctx.minValMs]?, b.count + 1 < 2 ^ 64

instance (ctx : Ctx) (ms : ℕ) : Decidable (Countable ctx ms) :=
  inferInstanceAs (Decidable (ite _ _ _))

def Fits (s : Ctx × ℕ) (c : Call) : Prop := ∀ ms ∈ c.counted? s.1, Countable s.1 ms

instance (s : Ctx × ℕ) (c : Call) : Decidable (Fits s c) :=
  inferInstanceAs (Decidable (∀ ms ∈ c.counted? s.1, _))

/-- Only fields that counting neither reads nor writes differ. -/
structure SameCounts (ctx ctx' : Ctx) : Prop where
  minValMs : ctx'.minValMs = ctx.minValMs
  maxValMs : ctx'.maxValMs = ctx.maxValMs
  bucketMissCount : ctx'.bucketMissCount = ctx.bucketMissCount
  bucketCount : ctx'.bucketCount = ctx.bucketCount
  buckets : ctx'.buckets = ctx.buckets
  totalCount : ctx'.totalCount = ctx.totalCount

theorem SameCounts.refl (ctx : Ctx) : SameCounts ctx ctx := ⟨rfl, rfl, rfl, rfl, rfl, rfl⟩

theorem SameCounts.sound {ctx ctx' : Ctx} (h : SameCounts ctx ctx') (hctx : Sound ctx) :
    Sound ctx' where
  range := by rw [h.minValMs, h.maxValMs]; exact hctx.range
  max_lt := by rw [h.maxValMs]; exact hctx.max_lt
  bucketCount_lt := by rw [h.bucketCount]; exact hctx.bucketCount_lt
  bucketCount_eq := by rw [h.bucketCount, h.maxValMs, h.minValMs]; exact hctx.bucketCount_eq
  length_eq := by rw [h.buckets, h.bucketCount]; exact hctx.length_eq
  count_lt := by rw [h.buckets]; exact hctx.count_lt
  miss_lt := by rw [h.bucketMissCount]; exact hctx.miss_lt

theorem SameCounts.accounted {ctx ctx' : Ctx} (h : SameCounts ctx ctx') {updates : ℕ}
    (hctx : Accounted (ctx, updates)) : Accounted (ctx', updates) where
  total := by rw [h.totalCount, h.buckets]; exact hctx.total
  updates := by rw [h.totalCount, h.bucketMissCount]; exact hctx.updates

theorem SameCounts.countable_iff {ctx ctx' : Ctx} (h : SameCounts ctx ctx') (ms : ℕ) :
    Countable ctx' ms ↔ Countable ctx ms := by
  have hmisses : ctx'.Misses ms ↔ ctx.Misses ms := by
    rw [Ctx.Misses, Ctx.Misses, h.minValMs, h.maxValMs]
  unfold Countable
  by_cases hin : ctx.Misses ms
  · rw [if_pos hin, if_pos (hmisses.mpr hin), h.bucketMissCount]
  · rw [if_neg hin, if_neg (mt hmisses.mp hin), h.buckets, h.minValMs]

/-- A call counts a value, only touches other fields, or resets the histogram. -/
inductive Effect (ctx : Ctx) (updates : ℕ) (c : Call) : Option Ctx → ℕ → Prop
  | counts {ctx' : Ctx} {ms : ℕ} (lastUpdate : Timeval) (hvalue : c.counted? ctx = some ms)
      (hsame : SameCounts ctx ctx') :
      Effect ctx updates c (countValue ctx' ms lastUpdate) (updates + 1)
  | keeps {ctx' : Ctx} (hvalue : c.counted? ctx = none) (hsame : SameCounts ctx ctx') :
      Effect ctx updates c (some ctx') updates
  | resets (now : Timeval) (hvalue : c.counted? ctx = none) :
      Effect ctx updates c (some (histogramReset ctx now)) 0

theorem apply_effect (ctx : Ctx) (updates : ℕ) (c : Call) :
    Effect ctx updates c (apply ctx c) (updatesSinceReset ctx updates c) := by
  have hmap : ∀ {γ : Type} (r : Option Ctx) (x : γ), (r.map (·, x)).map Prod.fst = r := by
    intro γ r x
    cases r <;> rfl
  cases c with
  | intervalUpdateWithValue diffMs now =>
      rw [apply, histogramIntervalUpdateWithValue, hmap]
      exact .counts now rfl (.refl ctx)
  | intervalUpdate timestamp =>
      rw [apply, histogramIntervalUpdate, hmap]
      exact .counts timestamp rfl ⟨rfl, rfl, rfl, rfl, rfl, rfl⟩
  | cumulativeInitialize => exact .keeps rfl ⟨rfl, rfl, rfl, rfl, rfl, rfl⟩
  | cumulativeBegin now => exact .keeps rfl ⟨rfl, rfl, rfl, rfl, rfl, rfl⟩
  | cumulativeEnd now => exact .keeps rfl ⟨rfl, rfl, rfl, rfl, rfl, rfl⟩
  | cumulativeFinalize now =>
      rw [apply, histogramCumulativeFinalize, hmap]
      exact .counts now rfl (.refl ctx)
  | sampleBegin now => exact .keeps rfl ⟨rfl, rfl, rfl, rfl, rfl, rfl⟩
  | sampleEnd now later =>
      rw [apply, histogramSampleEnd, hmap]
      exact .counts later rfl ⟨rfl, rfl, rfl, rfl, rfl, rfl⟩
  | reset now => exact .resets now rfl

theorem countValue_of_misses {ctx : Ctx} {ms : ℕ} (h : ctx.Misses ms) (lastUpdate : Timeval) :
    countValue ctx ms lastUpdate =
      some { ctx with bucketMissCount := (ctx.bucketMissCount + 1) % 2 ^ 64 } := if_pos h

theorem Sound.exists_bucket {ctx : Ctx} (h : Sound ctx) {ms : ℕ} (hin : ¬ctx.Misses ms) :
    ∃ b, ctx.buckets[ms - ctx.minValMs]? = some b := by
  have hcount := h.bucketCount_eq
  simp only [Ctx.Misses, not_or, not_lt] at hin
  have hlt : ms - ctx.minValMs < ctx.buckets.length := by
    rw [h.length_eq]
    omega
  exact ⟨_, List.getElem?_eq_getElem hlt⟩

theorem Sound.countValue_eq {ctx : Ctx} (h : Sound ctx) {ms : ℕ} (hin : ¬ctx.Misses ms)
    (lastUpdate : Timeval) : countValue ctx ms lastUpdate =
      if ms < 2 ^ 32 then some { ctx with
        buckets := ctx.buckets.modify (ms - ctx.minValMs)
          fun b ↦ ⟨(b.count + 1) % 2 ^ 64, lastUpdate⟩
        totalCount := (ctx.totalCount + 1).bmod (2 ^ 128) }
      else none := by
  rw [countValue, if_neg hin, h.histogramBucket_eq hin]
  split_ifs <;> rfl

/-- No sum of the buckets comes near the width of the total. -/
theorem Sound.sum_lt {ctx : Ctx} (h : Sound ctx) :
    (ctx.buckets.map Bucket.count).sum < 2 ^ 96 := by
  have hle := List.sum_le_card_nsmul (ctx.buckets.map Bucket.count) (2 ^ 64) (by
    intro x hx
    obtain ⟨b, hb, rfl⟩ := List.mem_map.mp hx
    exact (h.count_lt b hb).le)
  have hlt := h.bucketCount_lt
  rw [List.length_map, h.length_eq, smul_eq_mul] at hle
  omega

theorem Sound.countValue {ctx ctx' : Ctx} (h : Sound ctx) {ms : ℕ} {lastUpdate : Timeval}
    (hcount : countValue ctx ms lastUpdate = some ctx') : Sound ctx' := by
  by_cases hin : ctx.Misses ms
  · obtain rfl := Option.some.inj ((countValue_of_misses hin lastUpdate).symm.trans hcount)
    exact ⟨h.range, h.max_lt, h.bucketCount_lt, h.bucketCount_eq, h.length_eq, h.count_lt,
      Nat.mod_lt _ (by norm_num)⟩
  · rw [h.countValue_eq hin] at hcount
    split_ifs at hcount with hms
    obtain rfl := Option.some.inj hcount
    refine ⟨h.range, h.max_lt, h.bucketCount_lt, h.bucketCount_eq,
      (List.length_modify _ _ _).trans h.length_eq, ?_, h.miss_lt⟩
    intro b hb
    obtain ⟨i, hi⟩ := List.mem_iff_getElem?.mp hb
    rw [List.getElem?_modify, Option.map_eq_map, Option.map_eq_some_iff] at hi
    obtain ⟨b', hb', rfl⟩ := hi
    split_ifs
    · exact Nat.mod_lt _ (by norm_num)
    · exact h.count_lt b' (List.mem_of_getElem? hb')

theorem Sound.misses_accounted_iff {ctx : Ctx} (h : Sound ctx) {updates : ℕ}
    (hacc : Accounted (ctx, updates)) :
    Accounted ({ ctx with bucketMissCount := (ctx.bucketMissCount + 1) % 2 ^ 64 },
      updates + 1) ↔ ctx.bucketMissCount + 1 < 2 ^ 64 := by
  have hmiss := h.miss_lt
  have hupdates := hacc.updates
  dsimp only at hupdates
  constructor
  · rintro ⟨-, hsum⟩
    dsimp only at hsum
    omega
  · intro hfree
    refine ⟨hacc.total, ?_⟩
    dsimp only
    rw [Nat.mod_eq_of_lt hfree]
    omega

theorem Sound.hit_accounted_iff {ctx : Ctx} (h : Sound ctx) {updates : ℕ}
    (hacc : Accounted (ctx, updates)) {i : ℕ} {b : Bucket} (hb : ctx.buckets[i]? = some b)
    (lastUpdate : Timeval) :
    Accounted ({ ctx with
        buckets := ctx.buckets.modify i fun b ↦ ⟨(b.count + 1) % 2 ^ 64, lastUpdate⟩
        totalCount := (ctx.totalCount + 1).bmod (2 ^ 128) }, updates + 1) ↔
      b.count + 1 < 2 ^ 64 := by
  have hlt := h.count_lt b (List.mem_of_getElem? hb)
  have hwide := h.sum_lt
  obtain ⟨htotal, hupdates⟩ := hacc
  dsimp only at htotal hupdates
  have hsum := Scatter.sum_map_modify (c := Bucket.count)
    (g := fun b ↦ ⟨(b.count + 1) % 2 ^ 64, lastUpdate⟩) hb
  have hbmod : (ctx.totalCount + 1).bmod (2 ^ 128) = ctx.totalCount + 1 := by
    apply Int.bmod_eq_of_le <;> omega
  rw [hbmod]
  dsimp only at hsum
  constructor
  · rintro ⟨hnext, -⟩
    dsimp only at hnext
    omega
  · intro hfree
    rw [Nat.mod_eq_of_lt hfree] at hsum
    constructor
    · dsimp only
      omega
    · dsimp only
      omega

/-- A value is accounted for exactly if it can be counted. -/
theorem Sound.countValue_accounted_iff {ctx : Ctx} (h : Sound ctx) {updates : ℕ}
    (hacc : Accounted (ctx, updates)) (ms : ℕ) (lastUpdate : Timeval) :
    (∃ ctx', Histogram.countValue ctx ms lastUpdate = some ctx' ∧
      Accounted (ctx', updates + 1)) ↔ Countable ctx ms := by
  unfold Countable
  by_cases hin : ctx.Misses ms
  · rw [countValue_of_misses hin, if_pos hin, ← h.misses_accounted_iff hacc]
    simp only [Option.some.injEq, exists_eq_left']
  · obtain ⟨b, hb⟩ := h.exists_bucket hin
    rw [h.countValue_eq hin, if_neg hin]
    by_cases hms : ms < 2 ^ 32
    · have hhit := h.hit_accounted_iff hacc hb lastUpdate
      simp only [hms, if_true, Option.some.injEq, exists_eq_left', true_and, hb,
        Option.mem_some_iff, forall_eq']
      exact hhit
    · rw [if_neg hms]
      exact iff_of_false (by simp) fun hfree ↦ hms hfree.1

theorem accounted_reset (ctx : Ctx) (now : Timeval) : Accounted (histogramReset ctx now, 0) where
  total := by simp [histogramReset, emptyBucket]
  updates := by simp [histogramReset]

/-- A call is accounted for exactly if what it counts can be counted. -/
theorem Sound.apply_accounted_iff {ctx : Ctx} (h : Sound ctx) {updates : ℕ}
    (hacc : Accounted (ctx, updates)) (c : Call) :
    (∃ ctx', apply ctx c = some ctx' ∧ Accounted (ctx', updatesSinceReset ctx updates c)) ↔
      Fits (ctx, updates) c := by
  have heffect := apply_effect ctx updates c
  revert heffect
  generalize apply ctx c = result, updatesSinceReset ctx updates c = updates'
  intro heffect
  cases heffect with
  | counts lastUpdate hvalue hsame =>
      rw [(hsame.sound h).countValue_accounted_iff (hsame.accounted hacc), hsame.countable_iff]
      simp [Fits, hvalue]
  | keeps hvalue hsame =>
      refine iff_of_true ⟨_, rfl, hsame.accounted hacc⟩ ?_
      simp [Fits, hvalue]
  | resets now hvalue =>
      refine iff_of_true ⟨_, rfl, accounted_reset ctx now⟩ ?_
      simp [Fits, hvalue]

theorem exists_of_apply {ctx ctx' : Ctx} {c : Call} (h : apply ctx c = some ctx') :
    (∃ mid ms lastUpdate, SameCounts ctx mid ∧ countValue mid ms lastUpdate = some ctx') ∨
      SameCounts ctx ctx' ∨ ∃ now, histogramReset ctx now = ctx' := by
  have heffect := apply_effect ctx 0 c
  revert heffect
  rw [h]
  generalize updatesSinceReset ctx 0 c = updates, hresult : some ctx' = result
  intro heffect
  cases heffect with
  | @counts mid ms lastUpdate hvalue hsame =>
      exact .inl ⟨mid, ms, lastUpdate, hsame, rfl⟩
  | keeps hvalue hsame => exact .inr (.inl (Option.some.inj hresult ▸ hsame))
  | resets now hvalue => exact .inr (.inr ⟨now, (Option.some.inj hresult).symm⟩)

theorem Sound.apply {ctx ctx' : Ctx} (h : Sound ctx) {c : Call}
    (happly : Histogram.apply ctx c = some ctx') : Sound ctx' := by
  rcases exists_of_apply happly with ⟨mid, ms, lastUpdate, hsame, hcount⟩ | hsame | ⟨now, rfl⟩
  · exact (hsame.sound h).countValue hcount
  · exact hsame.sound h
  · exact h.reset now

/-- In every run from a new histogram, no bucket outside of the array is touched and all counts
are accounted for, exactly when everything that the calls count can be counted. -/
theorem histogram_accounts_iff (minValMs maxValMs : UInt64) (now : Timeval) {ctx : Ctx}
    (halloc : histogramAlloc minValMs.toNat maxValMs.toNat now = some ctx) (calls : List Call) :
    Accounted (ctx, 0) ∧ Safe countedStep (fun _ _ r ↦ Accounted r.1) (ctx, 0) calls ↔
      Meets countedStep Fits (ctx, 0) calls := by
  have hsound := sound_of_alloc maxValMs.toNat_lt halloc
  have hstart : Accounted (ctx, 0) := by
    obtain ⟨-, -, rfl⟩ := histogramAlloc_eq_some_iff.mp halloc
    constructor <;> simp [emptyBucket]
  rw [and_iff_right hstart]
  refine safe_iff_meets (fun s ↦ Sound s.1 ∧ Accounted s) ?_ ?_ calls _ ⟨hsound, hstart⟩
  · rintro ⟨ctx, updates⟩ c r ⟨h, -⟩ hstep hgood
    simp only [countedStep, recorded, silent, Option.map_map, Option.map_eq_some_iff] at hstep
    obtain ⟨ctx', happly, rfl⟩ := hstep
    exact ⟨h.apply happly, hgood⟩
  · rintro ⟨ctx, updates⟩ c ⟨h, hacc⟩
    rw [← h.apply_accounted_iff hacc c]
    simp [countedStep, recorded, silent]

theorem Accounted.fits {ctx : Ctx} {updates : ℕ} (h : Accounted (ctx, updates))
    (hmax : ctx.maxValMs < 2 ^ 32) (hupdates : updates + 1 < 2 ^ 64) (c : Call) :
    Fits (ctx, updates) c := by
  obtain ⟨htotal, hsum⟩ := h
  dsimp only at htotal hsum
  intro ms _
  unfold Countable
  split_ifs with hin
  · change ctx.bucketMissCount + 1 < 2 ^ 64
    omega
  · simp only [Ctx.Misses, not_or, not_lt] at hin
    refine ⟨by omega, fun b hb ↦ ?_⟩
    have hle : b.count ≤ (ctx.buckets.map Bucket.count).sum :=
      List.le_sum_of_mem (List.mem_map_of_mem (List.mem_of_getElem? hb))
    omega

theorem countValue_maxValMs {ctx ctx' : Ctx} {ms : ℕ} {lastUpdate : Timeval}
    (h : countValue ctx ms lastUpdate = some ctx') : ctx'.maxValMs = ctx.maxValMs := by
  unfold countValue at h
  split_ifs at h
  · rw [← Option.some.inj h]
  · obtain ⟨i, -, hcounted⟩ := Option.map_eq_some_iff.mp h
    rw [← hcounted]

theorem apply_maxValMs {ctx ctx' : Ctx} {c : Call} (h : apply ctx c = some ctx') :
    ctx'.maxValMs = ctx.maxValMs := by
  rcases exists_of_apply h with ⟨mid, ms, lastUpdate, hsame, hcount⟩ | hsame | ⟨now, rfl⟩
  · exact (countValue_maxValMs hcount).trans hsame.maxValMs
  · exact hsame.maxValMs
  · rfl

/-- A range of less than 2^32 ms accounts for every run of less than 2^64 calls. -/
theorem accounts_of_small (calls : List Call) :
    ∀ {ctx : Ctx} {updates : ℕ}, Sound ctx → ctx.maxValMs < 2 ^ 32 → Accounted (ctx, updates) →
      updates + calls.length < 2 ^ 64 →
        Safe countedStep (fun _ _ r ↦ Accounted r.1) (ctx, updates) calls := by
  induction calls with
  | nil => exact fun _ _ _ _ ↦ trivial
  | cons c rest ih =>
      intro ctx updates h hmax hacc hlength
      rw [List.length_cons] at hlength
      obtain ⟨ctx', happly, hacc'⟩ :=
        (h.apply_accounted_iff hacc c).mpr (hacc.fits hmax (by omega) c)
      have hnext : updatesSinceReset ctx updates c ≤ updates + 1 := by
        cases c <;> simp [updatesSinceReset, Call.counted?]
      have hmax' : ctx'.maxValMs < 2 ^ 32 := by rwa [apply_maxValMs happly]
      simp only [Safe, countedStep, recorded, silent, happly, Option.map_some]
      exact ⟨hacc', ih (h.apply happly) hmax' hacc' (by omega)⟩

/-- Updates on all paths, misses among them, and a reset. -/
theorem histogram_accounts_calls :
    ∃ ctx, histogramAlloc (10 : UInt64).toNat (13 : UInt64).toNat ⟨1000, 0⟩ = some ctx ∧
      Accounted (ctx, 0) ∧ Safe countedStep (fun _ _ r ↦ Accounted r.1) (ctx, 0)
        [.intervalUpdate ⟨1000, 12000⟩, .intervalUpdateWithValue 9 ⟨1000, 12000⟩,
          .cumulativeBegin ⟨1001, 0⟩, .cumulativeEnd ⟨1001, 10000⟩,
          .cumulativeFinalize ⟨1001, 10000⟩, .reset ⟨1002, 0⟩, .sampleBegin ⟨1003, 0⟩,
          .sampleEnd ⟨1003, 13999⟩ ⟨1003, 14000⟩] :=
  ⟨_, rfl, (histogram_accounts_iff 10 13 ⟨1000, 0⟩ rfl _).mpr (by decide +kernel)⟩

/-- A cumulative time of 2^32 + 4 ms lies in a range of eleven buckets, but its bucket is looked
up with 4 ms. -/
theorem histogram_index_escapes :
    ∃ ctx, histogramAlloc (4294967296 : UInt64).toNat (4294967306 : UInt64).toNat ⟨1000, 0⟩ =
        some ctx ∧
      ¬(Accounted (ctx, 0) ∧ Safe countedStep (fun _ _ r ↦ Accounted r.1) (ctx, 0)
        [.cumulativeBegin ⟨1000, 0⟩, .cumulativeEnd ⟨4295967, 300000⟩,
          .cumulativeFinalize ⟨4295967, 300000⟩]) :=
  ⟨_, rfl, by decide +kernel⟩

end LtnTsTools.Histogram
