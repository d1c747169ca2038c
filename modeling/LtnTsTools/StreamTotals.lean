import LtnTsTools.PidTable

/-!
# Totals of a stream

The counters of the stream against those of its pids.  Both are counted packet by
packet, in two loops, and reset together; over any run of updates, resets and
announcements of clock references the totals are the sums of the counters of the
pids, up to the packets without a sync byte, which are errors of the stream and
packets of a pid.
-/

namespace LtnTsTools.PidTable

open Stats

/-! ## The counters are those of the statistics -/

/-- The counters, with zeros for the pids that have no record. -/
def Context.counters (stream : Context) : StreamStatistics where
  pids := fun p ↦ (stream.internalPids p).elim PidStatistics.zero PidRecord.counters
  packetCount := stream.packetCount
  ccErrors := stream.ccErrors
  notMultipleOfSevenError := stream.notMultipleOfSevenError
  payloadPUSIErrors := stream.payloadPUSIErrors
  scrambledCount := stream.scrambledCount
  teiErrors := stream.teiErrors
  bc := stream.bc

theorem counters_alloc : pidStatsAlloc.counters = Stats.pidStatsAlloc := rfl

theorem counters_countPacket (stream : Context) (pkt : Packet) :
    (countPacket stream pkt).counters = Stats.countPacket stream.counters pkt := by
  unfold countPacket Stats.countPacket
  split_ifs <;> rfl

theorem counters_foldl_countPacket (pkts : List Packet) (stream : Context) :
    (pkts.foldl countPacket stream).counters = pkts.foldl Stats.countPacket stream.counters := by
  induction pkts generalizing stream with
  | nil => rfl
  | cons pkt rest ih => rw [List.foldl_cons, ih, counters_countPacket, List.foldl_cons]

theorem counters_discover {stream stream' : Context} {p : ℕ} {g : Grants}
    (h : discover stream p g = some stream') : stream'.counters = stream.counters := by
  rcases discover_cases h with ⟨-, rfl⟩ | ⟨hnew, rfl⟩
  · rfl
  · have hpids : (fun q ↦ (Function.update stream.internalPids p
        (some (pidStatisticsAlloc p)) q).elim PidStatistics.zero PidRecord.counters) =
        fun q ↦ (stream.internalPids q).elim PidStatistics.zero PidRecord.counters := by
      funext q
      rcases eq_or_ne q p with rfl | hne
      · rw [Function.update_self, hnew]
        rfl
      · rw [Function.update_of_ne hne]
    simp only [Context.counters, hpids]

theorem counters_noteRecord {stream : Context} {pid : PidRecord} {pkt : Packet}
    (h : stream.internalPids (Ts.pid pkt) = some pid) :
    (noteRecord stream pid pkt).counters = Stats.notePacket stream.counters pkt := by
  have hself : stream.counters.pids (Ts.pid pkt) = pid.counters := by
    simp only [Context.counters, h, Option.elim_some]
  have hpids : (noteRecord stream pid pkt).counters.pids =
      Function.update stream.counters.pids (Ts.pid pkt) (updatePid pid.counters pkt) := by
    funext q
    rcases eq_or_ne q (Ts.pid pkt) with rfl | hne
    · simp [Context.counters, noteRecord, counters_measurePcr]
    · simp [Context.counters, noteRecord, Function.update_of_ne hne]
  simp only [Stats.notePacket, hself, ← hpids]
  rfl

/-- With all allocations granted, the counters of the context are those of the
stream statistics. -/
theorem counters_pidStatsUpdate {stream : Context} (h : Indexed stream) (hb : Bounded stream)
    (pkts : List Packet) :
    (pidStatsUpdate stream (pkts.map (·, ⟨true, true⟩))).counters =
      Stats.pidStatsUpdate stream.counters pkts := by
  have hnote : ∀ (pkts : List Packet) (stream : Context), Indexed stream → Bounded stream →
      ((pkts.map (·, (⟨true, true⟩ : Grants))).foldl notePacket stream).counters =
        pkts.foldl Stats.notePacket stream.counters := by
    intro pkts
    induction pkts with
    | nil => exact fun _ _ _ ↦ rfl
    | cons pkt rest ih =>
        intro stream h hb
        obtain ⟨hnext, hbnext⟩ := h.notePacket hb (pkt, ⟨true, true⟩)
        rw [List.map_cons, List.foldl_cons, ih _ hnext hbnext, List.foldl_cons]
        congr 1
        rcases notePacket_cases stream (pkt, ⟨true, true⟩) with ⟨hd, -⟩ | ⟨mid, pid, hd, hpid, heq⟩
        · obtain ⟨stream', hd'⟩ := discover_granted h hb (pid_lt_maxPid pkt)
          exact absurd (hd.symm.trans hd') (by simp)
        · rw [heq, counters_noteRecord hpid, counters_discover hd]
  have hfst : (pkts.map (·, (⟨true, true⟩ : Grants))).map Prod.fst = pkts := by
    simp [Function.comp_def]
  obtain ⟨hpids, harray⟩ := foldl_countPacket_table pkts (noteCall stream pkts)
  unfold pidStatsUpdate Stats.pidStatsUpdate
  rw [hfst, hnote pkts _ (h.congr hpids harray) fun p hp ↦ hb p (by rw [hpids] at hp; exact hp),
    counters_foldl_countPacket]
  rfl

/-! ## Sums over the pids -/

def total (f : PidRecord → ℕ) (stream : Context) : ℕ :=
  ∑ p ∈ Finset.range maxPid, (stream.internalPids p).elim 0 f

/-- One record is filed: the sum changes by its counter. -/
theorem total_of_update {f : PidRecord → ℕ} {stream stream' : Context} {p : ℕ} {r : PidRecord}
    (hp : p < maxPid)
    (hpids : stream'.internalPids = Function.update stream.internalPids p (some r)) :
    total f stream' + (stream.internalPids p).elim 0 f = total f stream + f r := by
  have hmem : p ∈ Finset.range maxPid := Finset.mem_range.mpr hp
  have hrest : ∑ q ∈ (Finset.range maxPid).erase p, (stream'.internalPids q).elim 0 f =
      ∑ q ∈ (Finset.range maxPid).erase p, (stream.internalPids q).elim 0 f := by
    refine Finset.sum_congr rfl fun q hq ↦ ?_
    rw [hpids, Function.update_of_ne (Finset.ne_of_mem_erase hq)]
  have hself : (stream'.internalPids p).elim 0 f = f r := by
    rw [hpids, Function.update_self]
    rfl
  unfold total
  rw [← Finset.add_sum_erase _ _ hmem, ← Finset.add_sum_erase _ _ hmem, hrest, hself]
  omega

/-- The totals, with `pending` packets that the first loop has counted and the
second has not, and `n` packets without a sync byte. -/
structure Balanced (stream : Context) (pending n : ℕ) : Prop where
  teiErrors : stream.teiErrors = total (·.counters.teiErrors) stream
  scrambledCount : stream.scrambledCount = total (·.counters.scrambledCount) stream
  payloadPUSIErrors : stream.payloadPUSIErrors = total (·.counters.payloadPUSIErrors) stream
  pcrExceeds40ms : stream.pcrExceeds40ms = total (·.pcrExceeds40ms) stream
  packetCount : total (·.counters.packetCount) stream + pending = stream.packetCount + n
  ccErrors : stream.ccErrors = total (·.counters.ccErrors) stream + n

theorem Balanced.discover {stream stream' : Context} {pending n p : ℕ} {g : Grants}
    (h : Balanced stream pending n) (hp : p < maxPid) (hd : discover stream p g = some stream') :
    Balanced stream' pending n := by
  rcases discover_cases hd with ⟨-, rfl⟩ | ⟨hnew, rfl⟩
  · exact h
  · have hsame : ∀ f : PidRecord → ℕ, f (pidStatisticsAlloc p) = 0 →
        total f { stream with
          internalPids := Function.update stream.internalPids p (some (pidStatisticsAlloc p))
          pidArray := stream.pidArray ++ [p &&& 0x1fff] } = total f stream := by
      intro f hf
      have hupdate := @total_of_update f stream { stream with
        internalPids := Function.update stream.internalPids p (some (pidStatisticsAlloc p))
        pidArray := stream.pidArray ++ [p &&& 0x1fff] } p (pidStatisticsAlloc p) hp rfl
      rw [hnew, hf] at hupdate
      simpa using hupdate
    constructor
    · rw [hsame _ rfl]
      exact h.teiErrors
    · rw [hsame _ rfl]
      exact h.scrambledCount
    · rw [hsame _ rfl]
      exact h.payloadPUSIErrors
    · rw [hsame _ rfl]
      exact h.pcrExceeds40ms
    · rw [hsame _ rfl]
      exact h.packetCount
    · rw [hsame _ rfl]
      exact h.ccErrors

/-- The reference that is measured counts for the pid and for the stream. -/
theorem pcrExceeds40ms_measurePcr (pid : PidRecord) (pkt : Packet) :
    (measurePcr pid pkt).1.pcrExceeds40ms =
      pid.pcrExceeds40ms + ((measurePcr pid pkt).2.getD false).toNat := by
  rcases measurePcr_cases pid pkt with ⟨n, heq⟩ | ⟨n, clk, exceeds, heq⟩ <;> rw [heq] <;> rfl

theorem Balanced.noteRecord {stream : Context} {pid : PidRecord} {pkt : Packet} {pending n : ℕ}
    (h : Balanced stream (pending + 1) n) (hpid : stream.internalPids (Ts.pid pkt) = some pid) :
    Balanced (noteRecord stream pid pkt) pending n := by
  have hupdate : ∀ f : PidRecord → ℕ,
      total f (PidTable.noteRecord stream pid pkt) + f pid =
        total f stream +
          f (measurePcr { pid with counters := updatePid pid.counters pkt } pkt).1 := by
    intro f
    have htotal := @total_of_update f stream (PidTable.noteRecord stream pid pkt) (Ts.pid pkt) _
      (pid_lt_maxPid pkt) rfl
    rwa [hpid] at htotal
  have hcount : ∀ g : PidStatistics → ℕ,
      total (fun r ↦ g r.counters) (PidTable.noteRecord stream pid pkt) + g pid.counters =
        total (fun r ↦ g r.counters) stream + g (updatePid pid.counters pkt) := by
    intro g
    have hone := hupdate fun r ↦ g r.counters
    rwa [counters_measurePcr] at hone
  constructor
  · have hone := hcount (·.teiErrors)
    have htotal := h.teiErrors
    change stream.teiErrors + _ = _
    simp only [updatePid] at hone
    omega
  · have hone := hcount (·.scrambledCount)
    have htotal := h.scrambledCount
    change stream.scrambledCount + _ = _
    simp only [updatePid] at hone
    omega
  · have hone := hcount (·.payloadPUSIErrors)
    have htotal := h.payloadPUSIErrors
    change stream.payloadPUSIErrors + _ = _
    simp only [updatePid] at hone
    omega
  · have hone := hupdate (·.pcrExceeds40ms)
    have htotal := h.pcrExceeds40ms
    change stream.pcrExceeds40ms + _ = _
    simp only [pcrExceeds40ms_measurePcr] at hone
    omega
  · have hone := hcount (·.packetCount)
    have htotal := h.packetCount
    change _ = stream.packetCount + n
    simp only [updatePid] at hone
    omega
  · have hone := hcount (·.ccErrors)
    have htotal := h.ccErrors
    change stream.ccErrors + _ = _
    simp only [updatePid] at hone
    omega

def unsynced (pkts : List Packet) : ℕ := pkts.countP fun pkt ↦ !Ts.syncPresent pkt

theorem Balanced.countPacket {stream : Context} {pending n : ℕ} (h : Balanced stream pending n)
    (pkt : Packet) :
    Balanced (countPacket stream pkt) (pending + 1) (n + (!Ts.syncPresent pkt).toNat) := by
  have hpackets := h.packetCount
  have herrors := h.ccErrors
  unfold PidTable.countPacket
  split_ifs with hsync
  · refine ⟨h.teiErrors, h.scrambledCount, h.payloadPUSIErrors, h.pcrExceeds40ms, ?_, ?_⟩
    · change total _ stream + (pending + 1) = stream.packetCount + 1 + _
      simp only [hsync, Bool.not_true, Bool.toNat_false]
      omega
    · simp only [hsync, Bool.not_true, Bool.toNat_false, Nat.add_zero]
      exact herrors
  · refine ⟨h.teiErrors, h.scrambledCount, h.payloadPUSIErrors, h.pcrExceeds40ms, ?_, ?_⟩
    · change total _ stream + (pending + 1) = stream.packetCount + _
      simp only [hsync, Bool.not_false, Bool.toNat_true]
      omega
    · change stream.ccErrors + 1 = total _ stream + _
      simp only [hsync, Bool.not_false, Bool.toNat_true]
      omega

theorem Balanced.foldl_countPacket (pkts : List Packet) {stream : Context} {pending n : ℕ}
    (h : Balanced stream pending n) :
    Balanced (pkts.foldl PidTable.countPacket stream) (pending + pkts.length)
      (n + unsynced pkts) := by
  induction pkts generalizing stream pending n with
  | nil => exact h
  | cons pkt rest ih =>
      have hrest := ih (h.countPacket pkt)
      have hcons : unsynced (pkt :: rest) = (!Ts.syncPresent pkt).toNat + unsynced rest := by
        unfold unsynced
        rw [List.countP_cons]
        cases Ts.syncPresent pkt <;> simp [Nat.add_comm]
      rw [List.length_cons, List.foldl_cons, hcons, ← Nat.add_assoc n, Nat.add_comm rest.length 1,
        ← Nat.add_assoc]
      exact hrest

theorem Balanced.foldl_notePacket (pkts : List Packet) {stream : Context} {n : ℕ}
    (hi : Indexed stream) (hb : Bounded stream) (h : Balanced stream pkts.length n) :
    Balanced ((pkts.map (·, (⟨true, true⟩ : Grants))).foldl PidTable.notePacket stream) 0 n := by
  induction pkts generalizing stream with
  | nil => exact h
  | cons pkt rest ih =>
      obtain ⟨hnext, hbnext⟩ := hi.notePacket hb (pkt, ⟨true, true⟩)
      refine ih hnext hbnext ?_
      rcases notePacket_cases stream (pkt, ⟨true, true⟩) with ⟨hd, -⟩ | ⟨mid, pid, hd, hpid, heq⟩
      · obtain ⟨stream', hd'⟩ := discover_granted hi hb (pid_lt_maxPid pkt)
        exact absurd (hd.symm.trans hd') (by simp)
      · rw [heq]
        exact (h.discover (pid_lt_maxPid pkt) hd).noteRecord hpid

theorem Balanced.pidStatsUpdate {stream : Context} {n : ℕ} (hi : Indexed stream)
    (hb : Bounded stream) (h : Balanced stream 0 n) (pkts : List Packet) :
    Balanced (pidStatsUpdate stream (pkts.map (·, ⟨true, true⟩))) 0 (n + unsynced pkts) := by
  have hfst : (pkts.map (·, (⟨true, true⟩ : Grants))).map Prod.fst = pkts := by
    simp [Function.comp_def]
  have hcall : Balanced (noteCall stream pkts) 0 n :=
    ⟨h.teiErrors, h.scrambledCount, h.payloadPUSIErrors, h.pcrExceeds40ms, h.packetCount,
      h.ccErrors⟩
  obtain ⟨hpids, harray⟩ := foldl_countPacket_table pkts (noteCall stream pkts)
  have hcounted := hcall.foldl_countPacket pkts
  rw [Nat.zero_add] at hcounted
  unfold PidTable.pidStatsUpdate
  rw [hfst]
  refine hcounted.foldl_notePacket pkts (hi.congr hpids harray) fun p hp ↦ hb p ?_
  rw [hpids] at hp
  exact hp

theorem balanced_reset (stream : Context) : Balanced (pidStatsReset stream) 0 0 := by
  have hzero : ∀ f : PidRecord → ℕ, (∀ r, f (pidStatisticsReset r) = 0) →
      total f (pidStatsReset stream) = 0 := by
    intro f hf
    refine Finset.sum_eq_zero fun p hp ↦ ?_
    change Option.elim (if p < maxPid then _ else _) 0 f = 0
    rw [if_pos (Finset.mem_range.mp hp)]
    cases stream.internalPids p with
    | none => rfl
    | some r => exact hf r
  constructor
  · exact (hzero _ fun _ ↦ rfl).symm
  · exact (hzero _ fun _ ↦ rfl).symm
  · exact (hzero _ fun _ ↦ rfl).symm
  · exact (hzero _ fun _ ↦ rfl).symm
  · rw [hzero _ fun _ ↦ rfl]
    rfl
  · rw [hzero _ fun _ ↦ rfl]
    rfl

theorem Balanced.setContainsPcr {stream : Context} {n : ℕ} (h : Balanced stream 0 n)
    (pidnr : ℕ) (g : Grants) : Balanced (pidStatsPidSetContainsPcr stream pidnr g) 0 n := by
  cases hd : PidTable.discover stream (pidnr &&& 0x1fff) g with
  | none =>
      simp only [pidStatsPidSetContainsPcr, hd]
      exact h
  | some mid =>
      have hmid := h.discover (masked_lt pidnr) hd
      obtain ⟨pid, hpid⟩ := Option.isSome_iff_exists.mp (discover_isSome hd)
      simp only [pidStatsPidSetContainsPcr, hd, hpid, Option.map_some]
      generalize hnext : ({ mid with
        internalPids := Function.update mid.internalPids (pidnr &&& 0x1fff)
          (some { pid with hasPCR := true })
        bc := _ } : Context) = next
      have hsame : ∀ f : PidRecord → ℕ, f { pid with hasPCR := true } = f pid →
          total f next = total f mid := by
        intro f hf
        have hupdate := @total_of_update f mid next (pidnr &&& 0x1fff) { pid with hasPCR := true }
          (masked_lt pidnr) (by rw [← hnext])
        rw [hpid, hf, Option.elim_some] at hupdate
        omega
      subst hnext
      refine ⟨?_, ?_, ?_, ?_, ?_, ?_⟩
      · exact hmid.teiErrors.trans (hsame _ rfl).symm
      · exact hmid.scrambledCount.trans (hsame _ rfl).symm
      · exact hmid.payloadPUSIErrors.trans (hsame _ rfl).symm
      · exact hmid.pcrExceeds40ms.trans (hsame _ rfl).symm
      · rw [hsame _ rfl]
        exact hmid.packetCount
      · rw [hsame _ rfl]
        exact hmid.ccErrors

/-! ## Whole runs -/

inductive StreamCall where
  | update (pkts : List Packet)
  | reset
  | setContainsPcr (pidnr : ℕ)

def performGranted (stream : Context) : StreamCall → Context
  | .update pkts => pidStatsUpdate stream (pkts.map (·, ⟨true, true⟩))
  | .reset => pidStatsReset stream
  | .setContainsPcr pidnr => pidStatsPidSetContainsPcr stream pidnr ⟨true, true⟩

def unsyncedSince (n : ℕ) : StreamCall → ℕ
  | .update pkts => n + unsynced pkts
  | .reset => 0
  | .setContainsPcr _ => n

/-- The counters of the stream are the sums over its pids; packets without a sync
byte are packets of a pid, and errors of the stream. -/
structure TotalsAgree (stream : Context) (n : ℕ) : Prop where
  teiErrors : stream.teiErrors = total (·.counters.teiErrors) stream
  scrambledCount : stream.scrambledCount = total (·.counters.scrambledCount) stream
  payloadPUSIErrors : stream.payloadPUSIErrors = total (·.counters.payloadPUSIErrors) stream
  pcrExceeds40ms : stream.pcrExceeds40ms = total (·.pcrExceeds40ms) stream
  packets : (total (·.counters.packetCount) stream : ℤ) - stream.packetCount = n
  errors : (stream.ccErrors : ℤ) - total (·.counters.ccErrors) stream = n

theorem balanced_run (calls : List StreamCall) {stream : Context} {n : ℕ} (hi : Indexed stream)
    (hb : Bounded stream) (h : Balanced stream 0 n) :
    Balanced (calls.foldl performGranted stream) 0 (calls.foldl unsyncedSince n) := by
  induction calls generalizing stream n with
  | nil => exact h
  | cons call rest ih =>
      cases call with
      | update pkts =>
          obtain ⟨hi', hb'⟩ := hi.pidStatsUpdate hb (pkts.map (·, ⟨true, true⟩))
          exact ih hi' hb' (Balanced.pidStatsUpdate hi hb h pkts)
      | reset =>
          obtain ⟨hi', hb'⟩ := hi.pidStatsReset hb
          exact ih hi' hb' (balanced_reset stream)
      | setContainsPcr pidnr =>
          obtain ⟨hi', hb'⟩ := hi.setContainsPcr hb pidnr ⟨true, true⟩
          exact ih hi' hb' (h.setContainsPcr pidnr ⟨true, true⟩)

/-- After every run of calls the totals agree. -/
theorem totals_agree (calls : List StreamCall) :
    TotalsAgree (calls.foldl performGranted pidStatsAlloc) (calls.foldl unsyncedSince 0) := by
  have hempty : ∀ f : PidRecord → ℕ, total f pidStatsAlloc = 0 :=
    fun f ↦ Finset.sum_eq_zero fun _ _ ↦ rfl
  have hstart : Balanced pidStatsAlloc 0 0 := by
    refine ⟨(hempty _).symm, (hempty _).symm, (hempty _).symm, (hempty _).symm, ?_, ?_⟩
    · rw [hempty]
      rfl
    · rw [hempty]
      rfl
  have hrun := balanced_run calls indexed_alloc bounded_alloc hstart
  have hpackets := hrun.packetCount
  have herrors := hrun.ccErrors
  exact ⟨hrun.teiErrors, hrun.scrambledCount, hrun.payloadPUSIErrors, hrun.pcrExceeds40ms,
    by omega, by omega⟩

end LtnTsTools.PidTable
