import LtnTsTools.HistoryExpiry
import LtnTsTools.PidTable

/-!
# Clones of the history

`ltntstools_pid_stats_clone` with the history of continuity errors.  The history is
walked from its newest entry on, and every copy is added at the front of the new one,
which therefore ends up the other way round.
-/

namespace LtnTsTools.History

open PidTable

/-- `ltntstools_history_metric_collection_clone_into`, into a collection that is
emptied first; `clock` are the readings of the clock, one for each copy. -/
def historyMetricCollectionCloneInto (src : List HistoryMetric) (clock : ℕ → ℤ) :
    Option (List HistoryMetric) :=
  src.zipIdx.foldlM (fun dst x ↦
    historyMetricCollectionAdd dst (historyMetricAlloc x.1.ts x.1.count) (clock x.2)) []

/-- `struct ltntstools_stream_statistics_s` with its history. -/
structure StreamContext where
  table : Context
  ccErrorHistory : List HistoryMetric

/-- `ltntstools_pid_stats_clone`; the grants say whether the copies of the history can
be allocated too. -/
def streamClone (src : StreamContext) (g : CloneGrants) (clock : ℕ → ℤ) : Option StreamContext :=
  match pidStatsClone src.table g with
  | none => none
  | some table => (historyMetricCollectionCloneInto src.ccErrorHistory clock).map fun history ↦
      { table := table, ccErrorHistory := history }

theorem add_of_young {c : List HistoryMetric} {m : HistoryMetric} {now : ℤ}
    (h : ∀ e ∈ m :: c, ¬Old now e) : historyMetricCollectionAdd c m now = some (m :: c) := by
  rw [historyMetricCollectionAdd, expireLoop_of_young false h]
  rfl

/-- Copies that are all young end up in front of what was there, the last one first. -/
theorem cloneLoop_eq {clock : ℕ → ℤ} {n : ℕ} (src : List HistoryMetric) :
    ∀ {k : ℕ} {dst : List HistoryMetric}, k + src.length ≤ n →
      (∀ i < n, ∀ e ∈ src ++ dst, ¬Old (clock i) e) →
      (src.zipIdx k).foldlM (fun dst x ↦
        historyMetricCollectionAdd dst (historyMetricAlloc x.1.ts x.1.count) (clock x.2)) dst =
        some (src.reverse ++ dst) := by
  induction src with
  | nil => exact fun _ _ ↦ rfl
  | cons m rest ih =>
      intro k dst hn hyoung
      rw [List.length_cons] at hn
      have hadd : historyMetricCollectionAdd dst (historyMetricAlloc m.ts m.count) (clock k) =
          some (m :: dst) := by
        refine add_of_young fun e he ↦ hyoung k (by omega) e ?_
        rcases List.mem_cons.mp he with rfl | hdst
        · exact List.mem_cons_self
        · exact List.mem_append_right _ hdst
      rw [List.zipIdx_cons, List.foldlM_cons, hadd]
      refine (ih (by omega) fun i hi e he ↦ hyoung i hi e ?_).trans ?_
      · simpa [or_left_comm] using he
      · rw [List.reverse_cons, List.append_assoc]
        rfl

theorem cloneInto_eq {src : List HistoryMetric} {clock : ℕ → ℤ}
    (h : ∀ i < src.length, ∀ e ∈ src, ¬Old (clock i) e) :
    historyMetricCollectionCloneInto src clock = some src.reverse := by
  have hloop := @cloneLoop_eq clock src.length src 0 [] (by omega) (by simpa using h)
  rwa [List.append_nil] at hloop

def ClonesHistory (src : StreamContext) (g : CloneGrants) (clock : ℕ → ℤ) : Prop :=
  ∃ dst, streamClone src g clock = some dst ∧ dst.ccErrorHistory = src.ccErrorHistory

theorem streamClone_eq {src : StreamContext} {g : CloneGrants} {clock : ℕ → ℤ} {table : Context}
    (htable : pidStatsClone src.table g = some table)
    (hyoung : ∀ i < src.ccErrorHistory.length, ∀ m ∈ src.ccErrorHistory,
      clock i - m.ts < 25 * 60 * 60) :
    streamClone src g clock = some ⟨table, src.ccErrorHistory.reverse⟩ := by
  rw [streamClone, htable, cloneInto_eq fun i hi m hm hold ↦ ?_]
  · rfl
  · have hage := hyoung i hi m hm
    unfold Old at hold
    omega

/-- A history of entries younger than 25 hours is cloned as it is exactly when it reads
the same from both ends. -/
theorem clonesHistory_iff (src : StreamContext) {g : CloneGrants} {clock : ℕ → ℤ}
    (hgranted : (pidStatsClone src.table g).isSome)
    (hyoung : ∀ i < src.ccErrorHistory.length, ∀ m ∈ src.ccErrorHistory,
      clock i - m.ts < 25 * 60 * 60) :
    ClonesHistory src g clock ↔ src.ccErrorHistory.reverse = src.ccErrorHistory := by
  obtain ⟨table, htable⟩ := Option.isSome_iff_exists.mp hgranted
  simp [ClonesHistory, streamClone_eq htable hyoung]

def everyGrant : CloneGrants := ⟨true, true, true, true, fun _ ↦ true⟩

theorem clone_granted (stream : Context) : (pidStatsClone stream everyGrant).isSome := by
  simp [pidStatsClone, everyGrant]

theorem clonesHistory_same_second :
    ClonesHistory ⟨PidTable.pidStatsAlloc, [⟨100, 1⟩, ⟨100, 1⟩, ⟨100, 1⟩]⟩ everyGrant fun _ ↦ 200 :=
  (clonesHistory_iff _ (clone_granted _) (by simp)).mpr rfl

/-- Of two errors, the older one comes first in a clone. -/
theorem clone_reverses_history :
    ¬ClonesHistory ⟨PidTable.pidStatsAlloc, [⟨110, 1⟩, ⟨100, 1⟩]⟩ everyGrant fun _ ↦ 200 := by
  rintro ⟨dst, hdst, hsame⟩
  obtain ⟨table, htable⟩ := Option.isSome_iff_exists.mp (clone_granted PidTable.pidStatsAlloc)
  have hclone := @streamClone_eq ⟨PidTable.pidStatsAlloc, [⟨110, 1⟩, ⟨100, 1⟩]⟩ everyGrant
    (fun _ ↦ 200) table htable (by simp)
  rw [hclone] at hdst
  cases hdst
  simp at hsame

end LtnTsTools.History
