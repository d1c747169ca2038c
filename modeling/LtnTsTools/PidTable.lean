import LtnTsTools.StreamStatistics
import LtnTsTools.TickClock
import Mathlib.Algebra.BigOperators.Group.Finset.Piecewise

/-!
# The table of pids

The context of `stats.c` with the records it allocates: a sparse table of pids
and a dense list of those that were seen, which several functions keep beside
each other while any allocation may fail.  The counters are those of
`StreamStatistics`; here a pid that has not been seen has no record, and the
clock of a pid that carries references is followed.  Rates, histograms and the
history of errors are left out.
-/

namespace LtnTsTools.PidTable

open Stats Clocks

/-- `MAX_PID`. -/
def maxPid : ℕ := 8192

/-- `struct ltntstools_pid_statistics_s`. -/
structure PidRecord where
  pidNr : ℕ
  counters : PidStatistics
  hasPCR : Bool
  seenPCR : ℕ
  pcrExceeds40ms : ℕ
  prevPcrExceeds40ms : ℕ
  clock : Clock
deriving DecidableEq

/-- `struct ltntstools_stream_statistics_s`. -/
structure Context where
  internalPids : ℕ → Option PidRecord
  pidArray : List ℕ
  packetCount : ℕ
  ccErrors : ℕ
  notMultipleOfSevenError : ℕ
  payloadPUSIErrors : ℕ
  scrambledCount : ℕ
  teiErrors : ℕ
  pcrExceeds40ms : ℕ
  prevPcrExceeds40ms : ℕ
  bc : BitrateCalculator

/-- Which allocations succeed when a pid is new: its record, and one more place in
the list. -/
structure Grants where
  record : Bool
  index : Bool
deriving DecidableEq

/-! ## Records -/

/-- `ltntstools_pid_statistics_reset`. -/
def pidStatisticsReset (pid : PidRecord) : PidRecord :=
  { pid with
    counters := PidStatistics.zero
    seenPCR := 0
    pcrExceeds40ms := 0
    prevPcrExceeds40ms := 0
    clock := { pid.clock with establishedWT := false } }

/-- `ltntstools_pid_statistics_alloc`. -/
def pidStatisticsAlloc (pidNr : ℕ) : PidRecord :=
  pidStatisticsReset
    { pidNr := pidNr, counters := PidStatistics.zero, hasPCR := false, seenPCR := 0,
      pcrExceeds40ms := 0, prevPcrExceeds40ms := 0, clock := clockInitialize }

/-- The clock of a pid, established by its first reference if need be. -/
def establishedClock (clk : Clock) (pcr : ℕ) : Clock :=
  let clk := if clk.establishedTimebase then clk
    else clockEstablishTimebase clockInitialize 27000000
  if clk.establishedWT then clk else clockEstablishWallclock clk pcr

def exceeds40ms (clk : Clock) (pcr : ℕ) : Bool :=
  decide (clockComputeDelta clk pcr (clockGetTicks clk) > 27000 * 40)

/-- The clock references of a pid that was said to carry them; the first hundred
are passed over.  The result says whether an interval was measured, and whether
it was too long. -/
def measurePcr (pid : PidRecord) (pkt : Packet) : PidRecord × Option Bool :=
  if pid.hasPCR = false then (pid, none)
  else
    match Ts.scr pkt with
    | none => (pid, none)
    | some pcr =>
        if pid.seenPCR < 100 then ({ pid with seenPCR := pid.seenPCR + 1 }, none)
        else
          let clk := establishedClock pid.clock pcr
          ({ pid with
              seenPCR := pid.seenPCR + 1
              pcrExceeds40ms := pid.pcrExceeds40ms + (exceeds40ms clk pcr).toNat
              prevPcrExceeds40ms := pid.pcrExceeds40ms
              clock := clockSetTicks clk pcr }, some (exceeds40ms clk pcr))

/-! ## The context -/

/-- `ltntstools_pid_stats_alloc`. -/
def pidStatsAlloc : Context where
  internalPids := fun _ ↦ none
  pidArray := []
  packetCount := 0
  ccErrors := 0
  notMultipleOfSevenError := 0
  payloadPUSIErrors := 0
  scrambledCount := 0
  teiErrors := 0
  pcrExceeds40ms := 0
  prevPcrExceeds40ms := 0
  bc := Stats.pidStatsAlloc.bc

/-- `stream->internal_pids[pidnr] = pid`. -/
def Context.file (stream : Context) (pidnr : ℕ) (pid : PidRecord) : Context :=
  { stream with internalPids := Function.update stream.internalPids pidnr (some pid) }

/-- `_pidArrayAdd`. -/
def pidArrayAdd (stream : Context) (pidNr : ℕ) (granted : Bool) : Option Context :=
  if stream.pidArray.length ≥ maxPid ∨ granted = false then none
  else some { stream with pidArray := stream.pidArray ++ [pidNr &&& 0x1fff] }

/-- Makes sure that there is a record for a pid.  Where one of the two allocations
fails, the context stays as it was. -/
def discover (stream : Context) (pidnr : ℕ) (g : Grants) : Option Context :=
  if (stream.internalPids pidnr).isSome then some stream
  else if g.record = false then none
  else pidArrayAdd (stream.file pidnr (pidStatisticsAlloc pidnr)) pidnr g.index

def countPacket (stream : Context) (pkt : Packet) : Context :=
  if Ts.syncPresent pkt then { stream with packetCount := stream.packetCount + 1 }
  else { stream with ccErrors := stream.ccErrors + 1 }

def noteRecord (stream : Context) (pid : PidRecord) (pkt : Packet) : Context :=
  let m := measurePcr { pid with counters := updatePid pid.counters pkt } pkt
  { stream with
    internalPids := Function.update stream.internalPids (Ts.pid pkt) (some m.1)
    ccErrors := stream.ccErrors + (breaksContinuity pid.counters pkt).toNat
    payloadPUSIErrors := stream.payloadPUSIErrors + (isPayloadPUSIInError pkt).toNat
    scrambledCount := stream.scrambledCount + (Ts.transportScramblingControl pkt != 0).toNat
    teiErrors := stream.teiErrors + (Ts.teiSet pkt).toNat
    pcrExceeds40ms := stream.pcrExceeds40ms + (m.2.getD false).toNat
    prevPcrExceeds40ms := if m.2.isSome then stream.pcrExceeds40ms
      else stream.prevPcrExceeds40ms }

/-- A packet of the second loop; it is passed over when there is no room for its
pid. -/
def notePacket (stream : Context) (x : Packet × Grants) : Context :=
  match discover stream (Ts.pid x.1) x.2 with
  | none => stream
  | some stream =>
      match stream.internalPids (Ts.pid x.1) with
      | none => stream
      | some pid => noteRecord stream pid x.1

/-- The part of `ltntstools_pid_stats_update` in front of its loops. -/
def noteCall (stream : Context) (pkts : List Packet) : Context :=
  { stream with
    notMultipleOfSevenError := stream.notMultipleOfSevenError + (pkts.length != 7).toNat
    bc := if stream.bc.pcrpidnr ≠ 0 then bitrateCalculatorWrite stream.bc stream.ccErrors pkts
      else stream.bc }

/-- `ltntstools_pid_stats_update`. -/
def pidStatsUpdate (stream : Context) (pkts : List (Packet × Grants)) : Context :=
  pkts.foldl notePacket
    ((pkts.map Prod.fst).foldl countPacket (noteCall stream (pkts.map Prod.fst)))

/-- `ltntstools_pid_stats_reset`. -/
def pidStatsReset (stream : Context) : Context where
  internalPids := fun p ↦ if p < maxPid then (stream.internalPids p).map pidStatisticsReset
    else stream.internalPids p
  pidArray := stream.pidArray
  packetCount := 0
  ccErrors := 0
  notMultipleOfSevenError := 0
  payloadPUSIErrors := 0
  scrambledCount := 0
  teiErrors := 0
  pcrExceeds40ms := 0
  prevPcrExceeds40ms := 0
  bc := bitrateCalculatorReset stream.bc

/-- `ltntstools_pid_stats_pid_set_contains_pcr`. -/
def pidStatsPidSetContainsPcr (stream : Context) (pidnr : ℕ) (g : Grants) : Context :=
  match discover stream (pidnr &&& 0x1fff) g with
  | none => stream
  | some stream =>
      { stream with
        internalPids := Function.update stream.internalPids (pidnr &&& 0x1fff)
          ((stream.internalPids (pidnr &&& 0x1fff)).map fun pid ↦ { pid with hasPCR := true })
        bc := bitrateCalculatorReset { stream.bc with
          pcrpidnr := (pidnr &&& 0x1fff) &&& 0x1fff
          ccErrorsStreamLastWrite := stream.ccErrors } }

/-- Which allocations of a clone succeed: the new context, its list of pids, its
histogram, its history, and the record of each pid. -/
structure CloneGrants where
  context : Bool
  array : Bool
  packetIntervals : Bool
  ccErrorHistory : Bool
  record : ℕ → Bool

/-- `ltntstools_pid_stats_clone`; what was allocated is freed again when a later
allocation fails. -/
def pidStatsClone (src : Context) (g : CloneGrants) : Option Context :=
  if g.context = false then none
  else if src.pidArray.length ≠ 0 ∧ g.array = false then none
  else if g.packetIntervals = false then none
  else if g.ccErrorHistory = false then none
  else if (List.range maxPid).any fun p ↦ (src.internalPids p).isSome && !g.record p then none
  else some { src with internalPids := fun p ↦ if p < maxPid then src.internalPids p else none }

/-! ## The list follows the table -/

/-- The list holds exactly the pids that have a record, each once, and every
record is filed under its own number. -/
structure Indexed (stream : Context) : Prop where
  nodup : stream.pidArray.Nodup
  mem_iff : ∀ p, p ∈ stream.pidArray ↔ (stream.internalPids p).isSome
  count_le : stream.pidArray.length ≤ maxPid
  pidNr_eq : ∀ p r, stream.internalPids p = some r → r.pidNr = p

def Bounded (stream : Context) : Prop := ∀ p, (stream.internalPids p).isSome → p < maxPid

theorem indexed_alloc : Indexed pidStatsAlloc :=
  ⟨List.nodup_nil, by simp [pidStatsAlloc], Nat.zero_le _, by simp [pidStatsAlloc]⟩

theorem bounded_alloc : Bounded pidStatsAlloc := by
  intro p hp
  simp [pidStatsAlloc] at hp

theorem masked_lt (p : ℕ) : p &&& 0x1fff < maxPid := by
  rw [and_1fff]
  exact Nat.mod_lt _ (by norm_num)

theorem masked_of_lt {p : ℕ} (h : p < maxPid) : p &&& 0x1fff = p := by
  rw [and_1fff]
  exact Nat.mod_eq_of_lt h

theorem pid_lt_maxPid (pkt : Packet) : Ts.pid pkt < maxPid := masked_lt _

/-- A list of pids without duplicates leaves room for one more. -/
theorem Indexed.length_lt {stream : Context} (h : Indexed stream) (hb : Bounded stream) {p : ℕ}
    (hp : p < maxPid) (hnew : stream.internalPids p = none) :
    stream.pidArray.length < maxPid := by
  have hnot : p ∉ stream.pidArray := by
    rw [h.mem_iff, hnew]
    simp
  have hsub : (p :: stream.pidArray) ⊆ List.range maxPid := by
    intro q hq
    rw [List.mem_range]
    rcases List.mem_cons.mp hq with rfl | hq
    · exact hp
    · exact hb q ((h.mem_iff q).mp hq)
  have hle := ((List.nodup_cons.mpr ⟨hnot, h.nodup⟩).subperm hsub).length_le
  rw [List.length_cons, List.length_range] at hle
  omega

/-- What `discover` can do: nothing, or a new record at the end of the list. -/
theorem discover_cases {stream stream' : Context} {p : ℕ} {g : Grants}
    (h : discover stream p g = some stream') :
    ((stream.internalPids p).isSome ∧ stream' = stream) ∨
      (stream.internalPids p = none ∧ stream' = { stream with
        internalPids := Function.update stream.internalPids p (some (pidStatisticsAlloc p))
        pidArray := stream.pidArray ++ [p &&& 0x1fff] }) := by
  unfold discover at h
  split_ifs at h with hknown hrecord
  · exact .inl ⟨hknown, (Option.some.inj h).symm⟩
  · unfold pidArrayAdd at h
    split_ifs at h
    exact .inr ⟨by simpa using hknown, (Option.some.inj h).symm⟩

theorem discover_isSome {stream stream' : Context} {p : ℕ} {g : Grants}
    (h : discover stream p g = some stream') : (stream'.internalPids p).isSome := by
  rcases discover_cases h with ⟨hknown, rfl⟩ | ⟨-, rfl⟩
  · exact hknown
  · simp

/-- With all allocations granted a pid always finds room. -/
theorem discover_granted {stream : Context} (h : Indexed stream) (hb : Bounded stream) {p : ℕ}
    (hp : p < maxPid) : ∃ stream', discover stream p ⟨true, true⟩ = some stream' := by
  unfold discover
  split_ifs with hknown hrecord
  · exact ⟨_, rfl⟩
  · exact absurd hrecord (by simp)
  · have hroom := h.length_lt hb hp (by simpa using hknown)
    refine ⟨_, if_neg ?_⟩
    rintro (hfull | hno)
    · exact absurd hroom (Nat.not_lt.mpr hfull)
    · exact absurd hno (by simp)

theorem Indexed.update {stream : Context} (h : Indexed stream) {p : ℕ} {r : PidRecord}
    (hp : (stream.internalPids p).isSome) (hr : r.pidNr = p) {stream' : Context}
    (hpids : stream'.internalPids = Function.update stream.internalPids p (some r))
    (harray : stream'.pidArray = stream.pidArray) : Indexed stream' := by
  refine ⟨harray ▸ h.nodup, fun q ↦ ?_, harray ▸ h.count_le, fun q s hs ↦ ?_⟩
  · rw [harray, hpids, h.mem_iff]
    rcases eq_or_ne q p with rfl | hne
    · simp [hp]
    · rw [Function.update_of_ne hne]
  · rw [hpids] at hs
    rcases eq_or_ne q p with rfl | hne
    · rw [Function.update_self] at hs
      rw [← Option.some.inj hs, hr]
    · rw [Function.update_of_ne hne] at hs
      exact h.pidNr_eq q s hs

theorem Bounded.update {stream stream' : Context} (h : Bounded stream) {p : ℕ}
    {r : PidRecord} (hp : p < maxPid)
    (hpids : stream'.internalPids = Function.update stream.internalPids p (some r)) :
    Bounded stream' := by
  intro q hq
  rcases eq_or_ne q p with rfl | hne
  · exact hp
  · rw [hpids, Function.update_of_ne hne] at hq
    exact h q hq

theorem Indexed.discover {stream stream' : Context} (h : Indexed stream) (hb : Bounded stream)
    {p : ℕ} (hp : p < maxPid) {g : Grants} (hd : discover stream p g = some stream') :
    Indexed stream' ∧ Bounded stream' := by
  rcases discover_cases hd with ⟨-, rfl⟩ | ⟨hnew, rfl⟩
  · exact ⟨h, hb⟩
  · have hnot : p ∉ stream.pidArray := by
      rw [h.mem_iff, hnew]
      simp
    have hroom := h.length_lt hb hp hnew
    rw [masked_of_lt hp]
    refine ⟨⟨?_, fun q ↦ ?_, ?_, fun q s hs ↦ ?_⟩, hb.update hp rfl⟩
    · exact List.nodup_append.mpr ⟨h.nodup, List.nodup_singleton p, by
        rintro a ha b hb rfl
        exact hnot (List.mem_singleton.mp hb ▸ ha)⟩
    · dsimp only
      rw [List.mem_append, List.mem_singleton, h.mem_iff]
      rcases eq_or_ne q p with rfl | hne
      · simp
      · simp [hne]
    · rw [List.length_append, List.length_singleton]
      exact hroom
    · dsimp only at hs
      rcases eq_or_ne q p with rfl | hne
      · rw [Function.update_self] at hs
        rw [← Option.some.inj hs]
        rfl
      · rw [Function.update_of_ne hne] at hs
        exact h.pidNr_eq q s hs

/-- What the clock reference of a packet can do to the record. -/
theorem measurePcr_cases (pid : PidRecord) (pkt : Packet) :
    (∃ n, measurePcr pid pkt = ({ pid with seenPCR := n }, none)) ∨
      ∃ n clk exceeds, measurePcr pid pkt = ({ pid with
        seenPCR := n
        pcrExceeds40ms := pid.pcrExceeds40ms + exceeds.toNat
        prevPcrExceeds40ms := pid.pcrExceeds40ms
        clock := clk }, some exceeds) := by
  unfold measurePcr
  by_cases hpcr : pid.hasPCR = false
  · rw [if_pos hpcr]
    exact .inl ⟨_, rfl⟩
  · rw [if_neg hpcr]
    cases Ts.scr pkt with
    | none => exact .inl ⟨_, rfl⟩
    | some pcr =>
        by_cases hseen : pid.seenPCR < 100
        · exact .inl ⟨_, by simp only [if_pos hseen]; rfl⟩
        · exact .inr ⟨_, _, _, by simp only [if_neg hseen]; rfl⟩

theorem counters_measurePcr (pid : PidRecord) (pkt : Packet) :
    (measurePcr pid pkt).1.counters = pid.counters := by
  rcases measurePcr_cases pid pkt with ⟨n, heq⟩ | ⟨n, clk, exceeds, heq⟩ <;> rw [heq]

theorem pidNr_measurePcr (pid : PidRecord) (pkt : Packet) :
    (measurePcr pid pkt).1.pidNr = pid.pidNr := by
  rcases measurePcr_cases pid pkt with ⟨n, heq⟩ | ⟨n, clk, exceeds, heq⟩ <;> rw [heq]

/-- What a packet of the second loop can do: nothing, or an update of the record of
its pid, which may be new. -/
theorem notePacket_cases (stream : Context) (x : Packet × Grants) :
    (discover stream (Ts.pid x.1) x.2 = none ∧ notePacket stream x = stream) ∨
      ∃ mid pid, discover stream (Ts.pid x.1) x.2 = some mid ∧
        mid.internalPids (Ts.pid x.1) = some pid ∧
        notePacket stream x = noteRecord mid pid x.1 := by
  cases hd : discover stream (Ts.pid x.1) x.2 with
  | none => exact .inl ⟨rfl, by simp [notePacket, hd]⟩
  | some mid =>
      obtain ⟨pid, hpid⟩ := Option.isSome_iff_exists.mp (discover_isSome hd)
      exact .inr ⟨mid, pid, rfl, hpid, by simp [notePacket, hd, hpid]⟩

theorem Indexed.notePacket {stream : Context} (h : Indexed stream) (hb : Bounded stream)
    (x : Packet × Grants) : Indexed (notePacket stream x) ∧ Bounded (notePacket stream x) := by
  rcases notePacket_cases stream x with ⟨-, heq⟩ | ⟨mid, pid, hd, hpid, heq⟩
  · rw [heq]
    exact ⟨h, hb⟩
  · obtain ⟨hmid, hbmid⟩ := h.discover hb (pid_lt_maxPid x.1) hd
    rw [heq]
    refine ⟨hmid.update (discover_isSome hd) ?_ rfl rfl, hbmid.update (pid_lt_maxPid x.1) rfl⟩
    rw [pidNr_measurePcr]
    exact hmid.pidNr_eq _ pid hpid

theorem Indexed.congr {stream stream' : Context} (h : Indexed stream)
    (hpids : stream'.internalPids = stream.internalPids)
    (harray : stream'.pidArray = stream.pidArray) : Indexed stream' := by
  refine ⟨harray ▸ h.nodup, ?_, harray ▸ h.count_le, ?_⟩
  · rw [harray, hpids]
    exact h.mem_iff
  · rw [hpids]
    exact h.pidNr_eq

theorem countPacket_table (stream : Context) (pkt : Packet) :
    (countPacket stream pkt).internalPids = stream.internalPids ∧
      (countPacket stream pkt).pidArray = stream.pidArray := by
  unfold countPacket
  split_ifs <;> exact ⟨rfl, rfl⟩

theorem foldl_countPacket_table (pkts : List Packet) (stream : Context) :
    (pkts.foldl countPacket stream).internalPids = stream.internalPids ∧
      (pkts.foldl countPacket stream).pidArray = stream.pidArray := by
  induction pkts generalizing stream with
  | nil => exact ⟨rfl, rfl⟩
  | cons pkt rest ih =>
      obtain ⟨hpids, harray⟩ := ih (countPacket stream pkt)
      obtain ⟨hpids', harray'⟩ := countPacket_table stream pkt
      exact ⟨hpids.trans hpids', harray.trans harray'⟩

theorem Indexed.foldl_notePacket {stream : Context} (h : Indexed stream) (hb : Bounded stream)
    (pkts : List (Packet × Grants)) :
    Indexed (pkts.foldl PidTable.notePacket stream) ∧
      Bounded (pkts.foldl PidTable.notePacket stream) := by
  induction pkts generalizing stream with
  | nil => exact ⟨h, hb⟩
  | cons x rest ih =>
      obtain ⟨hnext, hbnext⟩ := h.notePacket hb x
      exact ih hnext hbnext

theorem Indexed.pidStatsUpdate {stream : Context} (h : Indexed stream) (hb : Bounded stream)
    (pkts : List (Packet × Grants)) :
    Indexed (pidStatsUpdate stream pkts) ∧ Bounded (pidStatsUpdate stream pkts) := by
  obtain ⟨hpids, harray⟩ := foldl_countPacket_table (pkts.map Prod.fst)
    (noteCall stream (pkts.map Prod.fst))
  refine (h.congr hpids harray).foldl_notePacket (fun p hp ↦ hb p ?_) pkts
  rw [hpids] at hp
  exact hp

theorem Indexed.pidStatsReset {stream : Context} (h : Indexed stream) (hb : Bounded stream) :
    Indexed (pidStatsReset stream) ∧ Bounded (pidStatsReset stream) := by
  have hpids : ∀ p, (PidTable.pidStatsReset stream).internalPids p =
      (stream.internalPids p).map pidStatisticsReset := by
    intro p
    change (if p < maxPid then _ else _) = _
    split_ifs with hp
    · rfl
    · have hnone : stream.internalPids p = none := by
        by_contra hsome
        exact hp (hb p (Option.isSome_iff_ne_none.mpr hsome))
      rw [hnone]
      rfl
  refine ⟨⟨h.nodup, fun p ↦ ?_, h.count_le, fun p r hr ↦ ?_⟩, fun p hp ↦ hb p ?_⟩
  · rw [hpids, Option.isSome_map]
    exact h.mem_iff p
  · rw [hpids] at hr
    obtain ⟨r', hr', rfl⟩ := Option.map_eq_some_iff.mp hr
    exact h.pidNr_eq p r' hr'
  · rwa [hpids, Option.isSome_map] at hp

theorem Indexed.setContainsPcr {stream : Context} (h : Indexed stream) (hb : Bounded stream)
    (pidnr : ℕ) (g : Grants) :
    Indexed (pidStatsPidSetContainsPcr stream pidnr g) ∧
      Bounded (pidStatsPidSetContainsPcr stream pidnr g) := by
  cases hd : PidTable.discover stream (pidnr &&& 0x1fff) g with
  | none =>
      simp only [pidStatsPidSetContainsPcr, hd]
      exact ⟨h, hb⟩
  | some mid =>
      have hsome := discover_isSome hd
      obtain ⟨hmid, hbmid⟩ := h.discover hb (masked_lt pidnr) hd
      obtain ⟨pid, hpid⟩ := Option.isSome_iff_exists.mp hsome
      simp only [pidStatsPidSetContainsPcr, hd, hpid, Option.map_some]
      exact ⟨hmid.update (r := { pid with hasPCR := true }) hsome
        (hmid.pidNr_eq _ pid hpid) rfl rfl,
        hbmid.update (masked_lt pidnr) rfl⟩

theorem Indexed.pidStatsClone {src dst : Context} (h : Indexed src) (hb : Bounded src)
    {g : CloneGrants} (hclone : pidStatsClone src g = some dst) : Indexed dst ∧ Bounded dst := by
  have hpids : (fun p ↦ if p < maxPid then src.internalPids p else none) = src.internalPids := by
    funext p
    split_ifs with hp
    · rfl
    · by_contra hsome
      exact hp (hb p (Option.isSome_iff_ne_none.mpr fun hnone ↦ hsome hnone.symm))
  unfold PidTable.pidStatsClone at hclone
  split_ifs at hclone
  rw [← Option.some.inj hclone, hpids]
  exact ⟨h, hb⟩

inductive Call where
  | update (i : ℕ) (pkts : List (Packet × Grants))
  | setContainsPcr (i pidnr : ℕ) (g : Grants)
  | reset (i : ℕ)
  | clone (i : ℕ) (g : CloneGrants)

def perform (live : List Context) : Call → List Context
  | .update i pkts => live.modify i fun stream ↦ pidStatsUpdate stream pkts
  | .setContainsPcr i pidnr g =>
      live.modify i fun stream ↦ pidStatsPidSetContainsPcr stream pidnr g
  | .reset i => live.modify i pidStatsReset
  | .clone i g => live ++ (live[i]?.bind fun src ↦ pidStatsClone src g).toList

theorem forall_mem_modify {α : Type*} {P : α → Prop} {f : α → α} (hf : ∀ a, P a → P (f a))
    {l : List α} (h : ∀ a ∈ l, P a) (i : ℕ) : ∀ a ∈ l.modify i f, P a := by
  intro a ha
  obtain ⟨j, hj, rfl⟩ := List.getElem_of_mem ha
  rw [List.getElem_modify]
  split_ifs
  · exact hf _ (h _ (List.getElem_mem _))
  · exact h _ (List.getElem_mem _)

theorem perform_indexed {live : List Context} (h : ∀ stream ∈ live, Indexed stream ∧ Bounded stream)
    (call : Call) : ∀ stream ∈ perform live call, Indexed stream ∧ Bounded stream := by
  cases call with
  | update i pkts => exact forall_mem_modify (fun s hs ↦ hs.1.pidStatsUpdate hs.2 pkts) h i
  | setContainsPcr i pidnr g =>
      exact forall_mem_modify (fun s hs ↦ hs.1.setContainsPcr hs.2 pidnr g) h i
  | reset i => exact forall_mem_modify (fun s hs ↦ hs.1.pidStatsReset hs.2) h i
  | clone i g =>
      intro stream hstream
      rcases List.mem_append.mp hstream with hold | hnew
      · exact h stream hold
      · obtain ⟨src, hsrc, hclone⟩ := Option.bind_eq_some_iff.mp (Option.mem_toList.mp hnew)
        obtain ⟨hi, hb⟩ := h src (List.mem_of_getElem? hsrc)
        exact hi.pidStatsClone hb hclone

/-- In every run, whatever allocations fail, the list of every live context follows
its table. -/
theorem pidArray_indexes_pids (calls : List Call) :
    ∀ stream ∈ calls.foldl perform [pidStatsAlloc], Indexed stream := by
  have hrun : ∀ (calls : List Call) (live : List Context),
      (∀ stream ∈ live, Indexed stream ∧ Bounded stream) →
        ∀ stream ∈ calls.foldl perform live, Indexed stream ∧ Bounded stream := by
    intro calls
    induction calls with
    | nil => exact fun _ h ↦ h
    | cons call rest ih => exact fun live h ↦ ih _ (perform_indexed h call)
  intro stream hstream
  refine (hrun calls [pidStatsAlloc] ?_ stream hstream).1
  intro s hs
  rw [List.mem_singleton.mp hs]
  exact ⟨indexed_alloc, bounded_alloc⟩

/-- A packet without payload, and the memory for its pid. -/
def onPidWithGrants (pid : ℕ) : Packet × Grants :=
  (((Packet.filled 0).set 0 0x47).set 2 pid, ⟨true, true⟩)

/-- Updates of two streams, the second of which is a clone of the first. -/
def cloneSample : List Call :=
  [.setContainsPcr 0 0x31 ⟨true, true⟩,
    .update 0 [onPidWithGrants 0x40, onPidWithGrants 0x31, onPidWithGrants 0x20],
    .clone 0 ⟨true, true, true, true, fun _ ↦ true⟩, .update 1 [onPidWithGrants 0x11], .reset 0,
    .update 0 [onPidWithGrants 0x12]]

theorem pidArray_indexes_clone :
    (cloneSample.foldl perform [pidStatsAlloc]).map Context.pidArray =
        [[0x31, 0x40, 0x20, 0x12], [0x31, 0x40, 0x20, 0x11]] ∧
      ∀ stream ∈ cloneSample.foldl perform [pidStatsAlloc], Indexed stream :=
  ⟨by decide +kernel, pidArray_indexes_pids cloneSample⟩

end LtnTsTools.PidTable
