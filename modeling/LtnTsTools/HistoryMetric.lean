import Mathlib.Tactic

/-!
# The history of continuity errors

The collection of `history-metric.c`, newest entry first, and the part of `stats.c`
that keeps the continuity errors of a stream in it.  Counting takes a window as an
absolute time but compares it with the clock, not with the entries, so that no entry
is ever counted.
-/

namespace LtnTsTools.History

/-- `struct ltntstools_history_metric_s`. -/
structure HistoryMetric where
  ts : ℤ
  count : UInt64
deriving DecidableEq

/-- `ltntstools_history_metric_alloc`. -/
def historyMetricAlloc (now : ℤ) (value : UInt64) : HistoryMetric := ⟨now, value⟩

/-- The expiry loop of `ltntstools_history_metric_collection_add`: every entry before
the window has the new entry unlinked and freed, the second one for the second time,
and that is an error.  The result says whether the new entry is gone. -/
def expireLoop (window : ℤ) : List HistoryMetric → Bool → Option Bool
  | [], freed => some freed
  | e :: rest, freed =>
      if e.ts < window then
        if freed then none else expireLoop window rest true
      else expireLoop window rest freed

/-- `ltntstools_history_metric_collection_add`, with the reading of its clock. -/
def historyMetricCollectionAdd (c : List HistoryMetric) (m : HistoryMetric) (now : ℤ) :
    Option (List HistoryMetric) :=
  (expireLoop (now - 25 * 60 * 60) (m :: c) false).map fun freed ↦ if freed then c else m :: c

/-- `ltntstools_history_metric_collection_count_until`, with the reading of its
clock. -/
def historyMetricCollectionCountUntil (c : List HistoryMetric) (window now : ℤ) : UInt64 :=
  c.foldl (fun total m ↦ if now ≤ window then total + m.count else total) 0

/-- `ltntstools_history_metric_collection_count_until_1hr`; the clock is read here,
and again for the count. -/
def historyMetricCollectionCountUntil1hr (c : List HistoryMetric) (now now' : ℤ) : UInt64 :=
  historyMetricCollectionCountUntil c (now - 3600) now'

/-- `ltntstools_history_metric_collection_count_until_24hr`. -/
def historyMetricCollectionCountUntil24hr (c : List HistoryMetric) (now now' : ℤ) : UInt64 :=
  historyMetricCollectionCountUntil c (now - 86400) now'

/-! ## The errors of a stream -/

structure CcErrors where
  internalCcErrors : ℕ
  lastCcError : ℤ
  ccErrorHistory : List HistoryMetric
deriving DecidableEq

def ccErrorsStart : CcErrors := ⟨0, 0, []⟩

/-- An error at a time, and the reading of the clock when it is kept. -/
structure CcErrorAt where
  ts : ℤ
  now : ℤ
deriving DecidableEq

/-- `_stream_increment_cc_errors`. -/
def streamIncrementCcErrors (stream : CcErrors) (e : CcErrorAt) : Option CcErrors :=
  (historyMetricCollectionAdd stream.ccErrorHistory (historyMetricAlloc e.ts 1) e.now).map
    fun history ↦
      { internalCcErrors := stream.internalCcErrors + 1
        lastCcError := e.ts
        ccErrorHistory := history }

def streamAfter (errors : List CcErrorAt) : Option CcErrors :=
  errors.foldlM streamIncrementCcErrors ccErrorsStart

/-- `ltntstools_pid_stats_stream_get_ccerror_count_1hr`. -/
def streamGetCcErrorCount1hr (stream : CcErrors) (now now' : ℤ) : UInt64 :=
  historyMetricCollectionCountUntil1hr stream.ccErrorHistory now now'

/-! ## Windows -/

/-- A time in the last seconds before `now`. -/
def WithinLast (seconds now ts : ℤ) : Prop := now - seconds ≤ ts ∧ ts ≤ now

instance (seconds now ts : ℤ) : Decidable (WithinLast seconds now ts) :=
  inferInstanceAs (Decidable (_ ∧ _))

def windowSum (seconds now : ℤ) (c : List HistoryMetric) : ℕ :=
  ((c.filter fun m ↦ WithinLast seconds now m.ts).map fun m ↦ m.count.toNat).sum

/-- A window that ends before the clock is read counts nothing. -/
theorem countUntil_eq_zero {window now : ℤ} (h : window < now) (c : List HistoryMetric) :
    historyMetricCollectionCountUntil c window now = 0 := by
  have hfold : ∀ total, c.foldl (fun total m ↦
      if now ≤ window then total + m.count else total) total = total := by
    induction c with
    | nil => exact fun _ ↦ rfl
    | cons m rest ih =>
        intro total
        rw [List.foldl_cons, if_neg (by omega)]
        exact ih total
  exact hfold 0

theorem windowSum_eq_zero_iff {seconds now : ℤ} {c : List HistoryMetric} :
    windowSum seconds now c = 0 ↔ ∀ m ∈ c, WithinLast seconds now m.ts → m.count = 0 := by
  rw [windowSum, List.sum_eq_zero_iff]
  constructor
  · intro h m hm hin
    have hmem : m ∈ c.filter fun m ↦ WithinLast seconds now m.ts :=
      List.mem_filter.mpr ⟨hm, decide_eq_true hin⟩
    exact UInt64.toNat_inj.mp (h _ (List.mem_map_of_mem hmem))
  · intro h n hn
    obtain ⟨m, hmem, rfl⟩ := List.mem_map.mp hn
    obtain ⟨hm, hin⟩ := List.mem_filter.mp hmem
    rw [h m hm (of_decide_eq_true hin)]
    rfl

structure ErrorRun where
  errors : List CcErrorAt
  stream : CcErrors
  reached : streamAfter errors = some stream

/-- The two windows of a collection hold what is counted for them, and the count of
a stream is the number of its errors in the last hour. -/
def WindowsExact (c : List HistoryMetric) (run : ErrorRun) (now now' : ℤ) : Prop :=
  (historyMetricCollectionCountUntil1hr c now now').toNat = windowSum 3600 now c ∧
    (historyMetricCollectionCountUntil24hr c now now').toNat = windowSum 86400 now c ∧
    (streamGetCcErrorCount1hr run.stream now now').toNat =
      run.errors.countP fun e ↦ WithinLast 3600 now e.ts

/-- On a clock that does not go back, the windows are counted exactly when there is
nothing to count in them. -/
theorem windowsExact_iff (c : List HistoryMetric) (run : ErrorRun) {now now' : ℤ}
    (hclock : now ≤ now') :
    WindowsExact c run now now' ↔
      (∀ m ∈ c, WithinLast 86400 now m.ts → m.count = 0) ∧
        ∀ e ∈ run.errors, ¬WithinLast 3600 now e.ts := by
  have hhour : ∀ c, historyMetricCollectionCountUntil1hr c now now' = 0 :=
    countUntil_eq_zero (by omega)
  have hday : historyMetricCollectionCountUntil24hr c now now' = 0 :=
    countUntil_eq_zero (by omega) c
  unfold WindowsExact streamGetCcErrorCount1hr
  rw [hhour, hhour, hday, UInt64.toNat_zero, @eq_comm ℕ 0, @eq_comm ℕ 0, @eq_comm ℕ 0,
    windowSum_eq_zero_iff, windowSum_eq_zero_iff, List.countP_eq_zero]
  simp only [decide_eq_true_eq]
  constructor
  · rintro ⟨-, hcounts, herrors⟩
    exact ⟨hcounts, herrors⟩
  · rintro ⟨hcounts, herrors⟩
    refine ⟨fun m hm hin ↦ hcounts m hm ?_, hcounts, herrors⟩
    have hlow := hin.1
    exact ⟨by omega, hin.2⟩

/-- A stream whose only error is two hours old, and a collection with an entry from
the day before. -/
theorem windowsExact_old :
    WindowsExact [⟨-90000, 3⟩] ⟨[⟨0, 0⟩], ⟨1, 0, [⟨0, 1⟩]⟩, rfl⟩ 7200 7201 :=
  (windowsExact_iff _ _ (by norm_num)).mpr (by decide)

/-- An error ten seconds ago is not counted. -/
theorem windows_miss_recent_error :
    ¬WindowsExact [⟨7190, 1⟩] ⟨[⟨7190, 7190⟩], ⟨1, 7190, [⟨7190, 1⟩]⟩, rfl⟩ 7200 7200 ∧
      streamGetCcErrorCount1hr ⟨1, 7190, [⟨7190, 1⟩]⟩ 7200 7200 = 0 := by
  refine ⟨fun h ↦ ?_, by decide⟩
  exact absurd h.2.2 (by decide)

end LtnTsTools.History
