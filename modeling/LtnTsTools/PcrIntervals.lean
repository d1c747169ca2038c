import LtnTsTools.ContinuityAccounting
import LtnTsTools.Neighbours
import LtnTsTools.StreamTotals

/-!
# Clock reference intervals

A pid that is said to carry clock references has its intervals measured: the first hundred
references are passed over, and from then on each interval of more than 40 ms is counted.  A
reference that is less than the one before it counts as one behind the wrap of the clock.
-/

namespace LtnTsTools.PidTable

open Stats Clocks Neighbours

/-- The interval from a clock reference to the next is longer than 40 ms. -/
def late40ms (a b : ℕ) : Bool :=
  decide ((if b ≥ a then (b - a : ℤ) else maxScrValue - a + b) > 27000 * 40)

def measuredPcrs (pcrs : List ℕ) : List ℕ := pcrs.drop 100

/-- `ltntstools_pid_stats_pid_did_violate_pcr_timing`. -/
def pidDidViolatePcrTiming (stream : Context) (pidnr : ℕ) : Bool :=
  match stream.internalPids (pidnr &&& 0x1fff) with
  | none => true
  | some pid => pid.prevPcrExceeds40ms != pid.pcrExceeds40ms

/-! ## The references of a pid -/

/-- Whether a pid is measured, and its references since then or since the last reset. -/
def referencesStep (p : ℕ) (s : Bool × List ℕ) : StreamCall → Bool × List ℕ
  | .update pkts => if s.1 then (true, s.2 ++ (onPid p pkts).filterMap Ts.scr) else s
  | .reset => (s.1, [])
  | .setContainsPcr pidnr => if pidnr &&& 0x1fff = p then (true, s.2) else s

def references (p : ℕ) (calls : List StreamCall) : List ℕ :=
  (calls.foldl (referencesStep p) (false, [])).2

/-! ## What a record tells -/

/-- A clock that no reference was given to since the last reset. -/
structure Waiting (clk : Clock) : Prop where
  establishedWT : clk.establishedWT = false
  wrap : clk.establishedTimebase = true → clk.clockWrapValue = maxScrValue
  settled : clk.pendingDiscontinuity = false

structure StandsAt (clk : Clock) (a : ℕ) : Prop where
  establishedWT : clk.establishedWT = true
  establishedTimebase : clk.establishedTimebase = true
  wrap : clk.clockWrapValue = maxScrValue
  settled : clk.pendingDiscontinuity = false
  ticks : clk.currentTimeTicks = a

structure Timed (r : PidRecord) (measured : Bool) (pcrs : List ℕ) : Prop where
  hasPCR : r.hasPCR = measured
  seen : r.seenPCR = pcrs.length
  exceeds : r.pcrExceeds40ms = countNeighbours late40ms (measuredPcrs pcrs)
  prev : r.prevPcrExceeds40ms = countNeighbours late40ms (measuredPcrs pcrs).dropLast
  waiting : measuredPcrs pcrs = [] → Waiting r.clock
  stands : ∀ a ∈ (measuredPcrs pcrs).getLast?, StandsAt r.clock a

theorem Timed.congr {r r' : PidRecord} {measured : Bool} {pcrs : List ℕ}
    (h : Timed r measured pcrs) (hpcr : r'.hasPCR = r.hasPCR) (hseen : r'.seenPCR = r.seenPCR)
    (hexceeds : r'.pcrExceeds40ms = r.pcrExceeds40ms)
    (hprev : r'.prevPcrExceeds40ms = r.prevPcrExceeds40ms) (hclock : r'.clock = r.clock) :
    Timed r' measured pcrs :=
  ⟨hpcr.trans h.hasPCR, hseen.trans h.seen, hexceeds.trans h.exceeds, hprev.trans h.prev,
    fun hnone ↦ hclock ▸ h.waiting hnone, fun a ha ↦ hclock ▸ h.stands a ha⟩

/-- The last measured interval is too long exactly when the count has just changed. -/
theorem Timed.violates {r : PidRecord} {measured : Bool} {pcrs : List ℕ}
    (h : Timed r measured pcrs) :
    (r.prevPcrExceeds40ms != r.pcrExceeds40ms) = lastNeighbours late40ms (measuredPcrs pcrs) := by
  rw [h.prev, h.exceeds, countNeighbours_eq late40ms (measuredPcrs pcrs)]
  cases lastNeighbours late40ms (measuredPcrs pcrs) with
  | false => simp
  | true => simp

theorem waiting_initialized : Waiting clockInitialize := by
  refine ⟨rfl, fun h ↦ ?_, rfl⟩
  cases h

theorem timed_alloc (p : ℕ) : Timed (pidStatisticsAlloc p) false [] := by
  refine ⟨rfl, rfl, rfl, rfl, fun _ ↦ ?_, fun a ha ↦ ?_⟩
  · exact waiting_initialized
  · cases ha

/-- A reset makes the clock wait for a reference again. -/
theorem Timed.reset {r : PidRecord} {measured : Bool} {pcrs : List ℕ} (h : Timed r measured pcrs) :
    Timed (pidStatisticsReset r) measured [] := by
  refine ⟨h.hasPCR, rfl, rfl, rfl, fun _ ↦ ⟨rfl, ?_, ?_⟩, fun a ha ↦ ?_⟩
  · intro hbase
    cases hlast : (measuredPcrs pcrs).getLast? with
    | none => exact (h.waiting (List.getLast?_eq_none_iff.mp hlast)).wrap hbase
    | some a => exact (h.stands a hlast).wrap
  · cases hlast : (measuredPcrs pcrs).getLast? with
    | none => exact (h.waiting (List.getLast?_eq_none_iff.mp hlast)).settled
    | some a => exact (h.stands a hlast).settled
  · cases ha

theorem standsAt_established {clk : Clock} (h : Waiting clk) (pcr : ℕ) :
    StandsAt (establishedClock clk pcr) pcr := by
  unfold establishedClock
  by_cases hbase : clk.establishedTimebase = true
  · simp only [hbase, if_true, h.establishedWT]
    exact ⟨rfl, hbase, h.wrap hbase, rfl, rfl⟩
  · simp only [hbase]
    exact ⟨rfl, rfl, rfl, rfl, rfl⟩

theorem StandsAt.established {clk : Clock} {a : ℕ} (h : StandsAt clk a) (pcr : ℕ) :
    establishedClock clk pcr = clk := by
  unfold establishedClock
  simp only [h.establishedTimebase, h.establishedWT, if_true]

/-- A reference moves the clock, whichever way it goes. -/
theorem StandsAt.setTicks {clk : Clock} {a : ℕ} (h : StandsAt clk a) (pcr : ℕ) :
    StandsAt (clockSetTicks clk pcr) pcr := by
  have hsettled : ¬clk.pendingDiscontinuity = true := by
    rw [h.settled]
    exact Bool.false_ne_true
  unfold clockSetTicks clockWrap clockAdvance
  rw [if_neg hsettled]
  dsimp only
  split_ifs <;>
    exact ⟨h.establishedWT, h.establishedTimebase, h.wrap, h.settled, rfl⟩

theorem StandsAt.exceeds {clk : Clock} {a : ℕ} (h : StandsAt clk a) (pcr : ℕ) :
    exceeds40ms clk pcr = late40ms a pcr := by
  simp only [exceeds40ms, late40ms, clockComputeDelta, clockGetTicks, h.ticks, h.wrap, ge_iff_le,
    Nat.cast_le]

theorem late40ms_self (a : ℕ) : late40ms a a = false := by
  simp [late40ms]

/-- A reference that is measured: the first one against itself, the others against the last one. -/
theorem Timed.measured {r : PidRecord} {pcrs : List ℕ} (h : Timed r true pcrs)
    (hseen : 100 ≤ pcrs.length) (pcr : ℕ) :
    Timed { r with
      seenPCR := r.seenPCR + 1
      pcrExceeds40ms :=
        r.pcrExceeds40ms + (exceeds40ms (establishedClock r.clock pcr) pcr).toNat
      prevPcrExceeds40ms := r.pcrExceeds40ms
      clock := clockSetTicks (establishedClock r.clock pcr) pcr } true (pcrs ++ [pcr]) := by
  have hgrown : measuredPcrs (pcrs ++ [pcr]) = measuredPcrs pcrs ++ [pcr] :=
    List.drop_append_of_le_length hseen
  have hclock : ∃ a, StandsAt (establishedClock r.clock pcr) a ∧
      countNeighbours late40ms (measuredPcrs pcrs ++ [pcr]) =
        countNeighbours late40ms (measuredPcrs pcrs) + (late40ms a pcr).toNat := by
    cases hlast : (measuredPcrs pcrs).getLast? with
    | none =>
        have hnone := List.getLast?_eq_none_iff.mp hlast
        refine ⟨pcr, standsAt_established (h.waiting hnone) pcr, ?_⟩
        rw [hnone, late40ms_self]
        rfl
    | some a =>
        refine ⟨a, ?_, countNeighbours_concat_of_last late40ms hlast pcr⟩
        rw [(h.stands a hlast).established]
        exact h.stands a hlast
  obtain ⟨a, hstands, hcount⟩ := hclock
  refine ⟨h.hasPCR, ?_, ?_, ?_, fun hnone ↦ ?_, fun b hb ↦ ?_⟩
  · rw [List.length_append, List.length_singleton, h.seen]
  · rw [hgrown, hcount, hstands.exceeds, h.exceeds]
  · rw [hgrown, List.dropLast_concat, h.exceeds]
  · rw [hgrown] at hnone
    exact absurd hnone (by simp)
  · rw [hgrown, List.getLast?_concat] at hb
    obtain rfl := Option.some.inj hb
    exact hstands.setTicks pcr

theorem Timed.measurePcr {r : PidRecord} {measured : Bool} {pcrs : List ℕ}
    (h : Timed r measured pcrs) (pkt : Packet) :
    Timed (measurePcr r pkt).1 measured
      (if measured then pcrs ++ (Ts.scr pkt).toList else pcrs) := by
  unfold PidTable.measurePcr
  cases measured with
  | false =>
      rw [if_pos h.hasPCR]
      exact h
  | true =>
      rw [if_neg (by rw [h.hasPCR]; simp), if_pos rfl]
      cases hscr : Ts.scr pkt with
      | none => simpa using h
      | some pcr =>
          by_cases hseen : r.seenPCR < 100
          · have hlen := h.seen
            have hnone : measuredPcrs pcrs = [] := List.drop_eq_nil_of_le (by omega)
            have hnone' : measuredPcrs (pcrs ++ [pcr]) = [] :=
              List.drop_eq_nil_of_le (by simp; omega)
            have hexceeds := h.exceeds
            have hprev := h.prev
            rw [hnone] at hexceeds hprev
            simp only [if_pos hseen, Option.toList_some]
            refine ⟨h.hasPCR, ?_, ?_, ?_, fun _ ↦ h.waiting hnone, ?_⟩
            · simp [h.seen]
            · rw [hnone']
              exact hexceeds
            · rw [hnone']
              exact hprev
            · rw [hnone']
              simp
          · simp only [if_neg hseen, Option.toList_some]
            exact h.measured (by rw [← h.seen]; omega) pcr

/-! ## Runs -/

def recordOf (stream : Context) (p : ℕ) : PidRecord :=
  (stream.internalPids p).getD (pidStatisticsAlloc p)

theorem recordOf_eq {stream : Context} {p : ℕ} {r : PidRecord}
    (hr : stream.internalPids p = some r) : recordOf stream p = r := by
  rw [recordOf, hr]
  rfl

theorem recordOf_discover {stream mid : Context} {p : ℕ} {g : Grants}
    (h : discover stream p g = some mid) (q : ℕ) : recordOf mid q = recordOf stream q := by
  rcases discover_cases h with ⟨-, rfl⟩ | ⟨hnew, rfl⟩
  · rfl
  · by_cases hq : q = p
    · subst hq
      simp [recordOf, hnew]
    · simp [recordOf, Function.update_of_ne hq]

theorem recordOf_notePacket {stream : Context} (hi : Indexed stream) (hb : Bounded stream)
    (pkt : Packet) (p : ℕ) :
    recordOf (notePacket stream (pkt, ⟨true, true⟩)) p =
      if Ts.pid pkt = p then (PidTable.measurePcr { recordOf stream p with
        counters := updatePid (recordOf stream p).counters pkt } pkt).1
      else recordOf stream p := by
  rcases notePacket_cases stream (pkt, ⟨true, true⟩) with ⟨hnone, -⟩ | ⟨mid, pid, hd, hpid, heq⟩
  · obtain ⟨mid, hmid⟩ := discover_granted hi hb (pid_lt_maxPid pkt)
    exact absurd (hnone.symm.trans hmid) (by simp)
  · have hsame := recordOf_discover hd p
    rw [heq]
    by_cases hp : Ts.pid pkt = p
    · subst hp
      have hrecord : recordOf stream (Ts.pid pkt) = pid := by
        rw [← hsame, recordOf, hpid]
        rfl
      rw [if_pos rfl, hrecord]
      simp [recordOf, noteRecord]
    · rw [if_neg hp, ← hsame]
      simp [recordOf, noteRecord, Function.update_of_ne (Ne.symm hp)]

theorem timed_foldl_notePacket (p : ℕ) (pkts : List Packet) {stream : Context} {measured : Bool}
    {pcrs : List ℕ} (hi : Indexed stream) (hb : Bounded stream)
    (h : Timed (recordOf stream p) measured pcrs) :
    Timed (recordOf ((pkts.map (·, ⟨true, true⟩)).foldl notePacket stream) p) measured
      (if measured then pcrs ++ (onPid p pkts).filterMap Ts.scr else pcrs) := by
  induction pkts generalizing stream pcrs with
  | nil => simpa [onPid] using h
  | cons pkt rest ih =>
      obtain ⟨hi', hb'⟩ := hi.notePacket hb (pkt, ⟨true, true⟩)
      have hrecord := recordOf_notePacket hi hb pkt p
      rw [List.map_cons, List.foldl_cons]
      by_cases hp : Ts.pid pkt = p
      · rw [if_pos hp] at hrecord
        have hcounted : Timed { recordOf stream p with
            counters := updatePid (recordOf stream p).counters pkt } measured pcrs :=
          h.congr rfl rfl rfl rfl rfl
        have hnext := hcounted.measurePcr pkt
        rw [← hrecord] at hnext
        have hrest := ih hi' hb' hnext
        cases measured with
        | false => exact hrest
        | true =>
            have hown : onPid p (pkt :: rest) = pkt :: onPid p rest := by
              simp [onPid, hp]
            rw [if_pos rfl, hown, List.filterMap_cons]
            rw [if_pos rfl, if_pos rfl] at hrest
            cases hscr : Ts.scr pkt with
            | none => simpa [hscr] using hrest
            | some pcr => simpa [hscr] using hrest
      · rw [if_neg hp] at hrecord
        rw [← hrecord] at h
        have hown : onPid p (pkt :: rest) = onPid p rest := by
          simp [onPid, hp]
        rw [hown]
        exact ih hi' hb' h

theorem recordOf_reset {stream : Context} (hb : Bounded stream) (p : ℕ) :
    recordOf (pidStatsReset stream) p = pidStatisticsReset (recordOf stream p) := by
  by_cases hp : p < maxPid
  · cases hpid : stream.internalPids p with
    | none =>
        simp only [recordOf, pidStatsReset, if_pos hp, hpid, Option.map_none]
        rfl
    | some r => simp [recordOf, pidStatsReset, hp, hpid]
  · have hnone : stream.internalPids p = none := by
      by_contra hsome
      exact hp (hb p (Option.isSome_iff_ne_none.mpr hsome))
    simp only [recordOf, pidStatsReset, if_neg hp, hnone]
    rfl

theorem recordOf_setContainsPcr {stream : Context} (hi : Indexed stream) (hb : Bounded stream)
    (pidnr p : ℕ) :
    recordOf (pidStatsPidSetContainsPcr stream pidnr ⟨true, true⟩) p =
      if pidnr &&& 0x1fff = p then { recordOf stream p with hasPCR := true }
      else recordOf stream p := by
  obtain ⟨mid, hmid⟩ := discover_granted hi hb (masked_lt pidnr)
  obtain ⟨pid, hpid⟩ := Option.isSome_iff_exists.mp (discover_isSome hmid)
  have hsame := recordOf_discover hmid p
  rw [pidStatsPidSetContainsPcr, hmid]
  by_cases hp : pidnr &&& 0x1fff = p
  · subst hp
    rw [if_pos rfl, ← hsame]
    simp [recordOf, hpid]
  · rw [if_neg hp, ← hsame]
    simp [recordOf, Function.update_of_ne (Ne.symm hp)]

theorem timed_performGranted {p : ℕ} {stream : Context} {s : Bool × List ℕ} (hi : Indexed stream)
    (hb : Bounded stream) (h : Timed (recordOf stream p) s.1 s.2) (call : StreamCall) :
    Timed (recordOf (performGranted stream call) p) (referencesStep p s call).1
      (referencesStep p s call).2 := by
  cases call with
  | update pkts =>
      obtain ⟨hpids, harray⟩ := foldl_countPacket_table pkts (noteCall stream pkts)
      have hmap : (pkts.map (·, (⟨true, true⟩ : Grants))).map Prod.fst = pkts := by
        simp [Function.comp_def]
      have hstart : recordOf (pkts.foldl countPacket (noteCall stream pkts)) p =
          recordOf stream p := by
        rw [recordOf, hpids]
        rfl
      have hloop := timed_foldl_notePacket p pkts (hi.congr hpids harray)
        (fun q hq ↦ hb q (by rw [hpids] at hq; exact hq)) (hstart ▸ h)
      rw [performGranted, pidStatsUpdate, hmap]
      obtain ⟨measured, pcrs⟩ := s
      cases measured with
      | false => exact hloop
      | true => exact hloop
  | reset =>
      rw [performGranted, recordOf_reset hb]
      exact h.reset
  | setContainsPcr pidnr =>
      rw [performGranted, recordOf_setContainsPcr hi hb, referencesStep]
      split_ifs
      · exact ⟨rfl, h.seen, h.exceeds, h.prev, h.waiting, h.stands⟩
      · exact h

theorem timed_run (p : ℕ) (calls : List StreamCall) {stream : Context} {s : Bool × List ℕ}
    (hi : Indexed stream) (hb : Bounded stream) (h : Timed (recordOf stream p) s.1 s.2) :
    Timed (recordOf (calls.foldl performGranted stream) p)
        (calls.foldl (referencesStep p) s).1 (calls.foldl (referencesStep p) s).2 ∧
      Bounded (calls.foldl performGranted stream) := by
  induction calls generalizing stream s with
  | nil => exact ⟨h, hb⟩
  | cons call rest ih =>
      have hnext := timed_performGranted hi hb h call
      obtain ⟨hi', hb'⟩ : Indexed (performGranted stream call) ∧
          Bounded (performGranted stream call) := by
        cases call with
        | update pkts => exact hi.pidStatsUpdate hb (pkts.map (·, ⟨true, true⟩))
        | reset => exact hi.pidStatsReset hb
        | setContainsPcr pidnr => exact hi.setContainsPcr hb pidnr ⟨true, true⟩
      exact ih hi' hb' hnext

/-- In every run the record of a pid counts the intervals between its references that are longer
than 40 ms, from the hundred and first reference on, and its timing is reported as violated exactly
when the last interval that was measured is one of these. -/
theorem pcr_intervals_told (calls : List StreamCall) {p : ℕ} {r : PidRecord}
    (hr : (calls.foldl performGranted pidStatsAlloc).internalPids p = some r) :
    r.pcrExceeds40ms = countNeighbours late40ms (measuredPcrs (references p calls)) ∧
      pidDidViolatePcrTiming (calls.foldl performGranted pidStatsAlloc) p =
        lastNeighbours late40ms (measuredPcrs (references p calls)) := by
  obtain ⟨htimed, hbound⟩ :=
    @timed_run p calls pidStatsAlloc (false, []) indexed_alloc bounded_alloc (timed_alloc p)
  rw [recordOf_eq hr] at htimed
  have hmasked : p &&& 0x1fff = p := masked_of_lt (hbound p (by rw [hr]; rfl))
  refine ⟨htimed.exceeds, ?_⟩
  rw [pidDidViolatePcrTiming, hmasked, hr]
  exact htimed.violates

/-- A packet of pid 49 with a clock reference of `k` times 153600 ticks. -/
def referencePacket (k : ℕ) : Packet :=
  ((((((Packet.filled 0).set 0 0x47).set 2 49).set 3 0x20).set 4 183).set 5 0x10).set 8 k

/-- A hundred and one equal references, one 45 ms behind them, and a call without any. -/
def referenceSample : List StreamCall :=
  [.setContainsPcr 49, .update (List.replicate 101 (referencePacket 0)),
    .update [referencePacket 8], .update [Packet.filled 0xff]]

/-- The last call does not end the violation. -/
theorem pcr_intervals_told_sample :
    ∃ r, (referenceSample.foldl performGranted pidStatsAlloc).internalPids 49 = some r ∧
      r.pcrExceeds40ms = 1 ∧
        pidDidViolatePcrTiming (referenceSample.foldl performGranted pidStatsAlloc) 49 = true := by
  obtain ⟨r, hr⟩ := Option.isSome_iff_exists.mp
    (show ((referenceSample.foldl performGranted pidStatsAlloc).internalPids 49).isSome = true by
      decide +kernel)
  obtain ⟨hcount, hviolates⟩ := pcr_intervals_told referenceSample hr
  exact ⟨r, hr, hcount.trans (by decide +kernel), hviolates.trans (by decide +kernel)⟩

end LtnTsTools.PidTable
