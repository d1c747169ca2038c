import LtnTsTools.HistoryMetric
import LtnTsTools.Metering
import LtnTsTools.Neighbours
import Mathlib.Data.UInt

/-!
# Frame statistics

The statistics that `stats.c` keeps of a stream of whole frames: those of
`ltntstools_bytestream_stats_update`, and those of `ltntstools_ctp_stats_update`, which also follows
the sequence number in the header of the frame.  Their bitrate is set when a second closes, and
only then: a query more than two seconds behind the last frame drops the bytes of the open second,
but not the rate.
-/

namespace LtnTsTools.Frames

open Metering History Neighbours

/-- The fields of `struct ltntstools_stream_statistics_s` that frames are counted in. -/
structure FrameStatistics where
  packetCount : ℕ
  ccErrors : CcErrors
  notMultipleOfSevenError : ℕ
  lastNotMultipleOfSevenError : ℤ
  a324SequenceNumber : UInt16
  bpsLastUpdate : ℤ
  bps : UInt32
  bpsWindow : UInt32
  a324Bps : UInt32
deriving DecidableEq

/-- These fields from `ltntstools_pid_stats_alloc`. -/
def frameStatsAlloc : FrameStatistics := ⟨0, ccErrorsStart, 0, 0, 0, 0, 0, 0, 0⟩

def noteLength (stream : FrameStatistics) (lengthBytes : UInt32) (now : ℤ) : FrameStatistics :=
  if lengthBytes ≠ 7 * 188 then
    { stream with
      notMultipleOfSevenError := stream.notMultipleOfSevenError + 1
      lastNotMultipleOfSevenError := now }
  else stream

def noteBytes (stream : FrameStatistics) (lengthBytes : UInt32) (now : ℤ) : FrameStatistics :=
  let stream := if now ≠ stream.bpsLastUpdate then
    { stream with
      bps := stream.bpsWindow
      bpsWindow := 0
      a324Bps := stream.bpsWindow * 8
      bpsLastUpdate := now } else stream
  { stream with bpsWindow := stream.bpsWindow + lengthBytes }

/-- `ltntstools_bytestream_stats_update`. -/
def bytestreamStatsUpdate (stream : FrameStatistics) (lengthBytes : UInt32) (now : ℤ) :
    FrameStatistics :=
  let stream := noteLength { stream with packetCount := stream.packetCount + 1 } lengthBytes now
  noteBytes stream lengthBytes now

/-- The number in bytes 2 and 3 of a frame. -/
def sequenceNumber (buf : List UInt8) : UInt16 :=
  (buf.getD 2 0).toUInt16 <<< 8 ||| (buf.getD 3 0).toUInt16

/-- The check of the sequence; the first frame that is counted raises no error. -/
def noteSequence (stream : FrameStatistics) (number : UInt16) (e : CcErrorAt) :
    Option FrameStatistics :=
  if stream.a324SequenceNumber + 1 ≠ number ∧ stream.packetCount ≠ 0 then
    (streamIncrementCcErrors stream.ccErrors e).map fun ccErrors ↦
      { stream with ccErrors := ccErrors, a324SequenceNumber := number }
  else some { stream with a324SequenceNumber := number }

/-- `ltntstools_ctp_stats_update`; the clock is read again for an error. -/
def ctpStatsUpdate (stream : FrameStatistics) (buf : List UInt8) (now : ℤ) (e : CcErrorAt) :
    Option FrameStatistics :=
  let lengthBytes := UInt32.ofNat buf.length
  let stream := noteLength stream lengthBytes now
  if lengthBytes < 4 then some stream
  else (noteSequence stream (sequenceNumber buf) e).map fun stream ↦
    noteBytes { stream with packetCount := stream.packetCount + 1 } lengthBytes now

/-- `_expire_per_second_stream_stats`, as far as frames are concerned. -/
def expirePerSecondFrameStats (stream : FrameStatistics) (now : ℤ) : FrameStatistics :=
  if stream.bpsWindow ≠ 0 ∧ now > stream.bpsLastUpdate + 2 then
    { stream with bps := 0, bpsWindow := 0 }
  else stream

/-- `ltntstools_ctp_stats_stream_get_bps`, and `ltntstools_bytestream_stats_stream_get_bps`. -/
def streamGetBps (stream : FrameStatistics) (now : ℤ) : UInt32 × FrameStatistics :=
  let stream := expirePerSecondFrameStats stream now
  (stream.a324Bps, stream)

inductive Call
  | bytestream (lengthBytes : UInt32) (now : ℤ)
  | ctp (buf : List UInt8) (now : ℤ) (e : CcErrorAt)
  | getMbps (now : ℤ)
  | getBps (now : ℤ)

def perform (stream : FrameStatistics) : Call → Option FrameStatistics
  | .bytestream lengthBytes now => some (bytestreamStatsUpdate stream lengthBytes now)
  | .ctp buf now e => ctpStatsUpdate stream buf now e
  | .getMbps now => some (expirePerSecondFrameStats stream now)
  | .getBps now => some (streamGetBps stream now).2

def framesAfter (calls : List Call) : Option FrameStatistics := calls.foldlM perform frameStatsAlloc

theorem framesAfter_concat (calls : List Call) (call : Call) :
    framesAfter (calls ++ [call]) = (framesAfter calls).bind fun stream ↦ perform stream call := by
  rw [framesAfter, List.foldlM_append]
  simp [framesAfter]

/-! ## What a run is about -/

/-- The times a call reads the clock at for the rate. -/
def Call.times : Call → List ℤ
  | .bytestream _ now | .ctp _ now _ | .getMbps now | .getBps now => [now]

def Call.length? : Call → Option UInt32
  | .bytestream lengthBytes _ => some lengthBytes
  | .ctp buf _ _ => some (UInt32.ofNat buf.length)
  | .getMbps _ | .getBps _ => none

def Call.counts : Call → Bool
  | .bytestream _ _ => true
  | .ctp buf _ _ => decide (4 ≤ UInt32.ofNat buf.length)
  | .getMbps _ | .getBps _ => false

def Call.number? : Call → Option UInt16
  | .ctp buf _ _ => if UInt32.ofNat buf.length < 4 then none else some (sequenceNumber buf)
  | .bytestream _ _ | .getMbps _ | .getBps _ => none

def Call.ops : Call → List (Op ℤ UInt32)
  | .bytestream lengthBytes now => [.write now lengthBytes]
  | .ctp buf now _ =>
      if UInt32.ofNat buf.length < 4 then [] else [.write now (UInt32.ofNat buf.length)]
  | .getMbps now | .getBps now => [.read now]

/-- The frames of another length than that of seven packets. -/
def oddFrames (calls : List Call) : ℕ :=
  (calls.filterMap Call.length?).countP fun lengthBytes ↦ lengthBytes ≠ 7 * 188

/-- The places in a sequence where a number does not follow the one before it. -/
def gaps (numbers : List UInt16) : ℕ := countNeighbours (fun a b ↦ a + 1 != b) numbers

/-! ## Counts and rates -/

structure Tells (stream : FrameStatistics) (calls : List Call) : Prop where
  packetCount : stream.packetCount = calls.countP Call.counts
  odd : stream.notMultipleOfSevenError = oddFrames calls
  lastUpdate : stream.bpsLastUpdate =
    (metered (After 2) false 0 (calls.flatMap Call.ops)).lastUpdate
  rate : stream.a324Bps = (metered (After 2) false 0 (calls.flatMap Call.ops)).rate * 8
  window : stream.bpsWindow = (metered (After 2) false 0 (calls.flatMap Call.ops)).window

theorem oddFrames_concat (calls : List Call) (call : Call) :
    oddFrames (calls ++ [call]) =
      oddFrames calls + if ∃ n ∈ call.length?, n ≠ 7 * 188 then 1 else 0 := by
  cases hlength : call.length? with
  | none => simp [oddFrames, hlength]
  | some n => simp [oddFrames, hlength, List.countP_singleton]

theorem notMultiple_noteLength (stream : FrameStatistics) (n : UInt32) (now : ℤ) :
    (noteLength stream n now).notMultipleOfSevenError =
      stream.notMultipleOfSevenError + if n ≠ 7 * 188 then 1 else 0 := by
  unfold noteLength
  split_ifs <;> rfl

/-- A frame in the rates: the write of a meter that holds the bytes where the statistics hold the
bits. -/
theorem rates_noteBytes {stream : FrameStatistics} {m : Meter ℤ UInt32}
    (hlast : stream.bpsLastUpdate = m.lastUpdate) (hrate : stream.a324Bps = m.rate * 8)
    (hwindow : stream.bpsWindow = m.window) (n : UInt32) (now : ℤ) :
    (noteBytes stream n now).bpsLastUpdate = (m.write now n).lastUpdate ∧
      (noteBytes stream n now).a324Bps = (m.write now n).rate * 8 ∧
      (noteBytes stream n now).bpsWindow = (m.write now n).window := by
  by_cases h : now = m.lastUpdate
  · simp [noteBytes, Meter.write, h, hlast, hrate, hwindow]
  · simp [noteBytes, Meter.write, h, hlast, hwindow]

/-- A query in the rates.  That the source looks for bytes in the open second first makes no
difference to a meter that keeps its rate. -/
theorem rates_expire {stream : FrameStatistics} {m : Meter ℤ UInt32}
    (hlast : stream.bpsLastUpdate = m.lastUpdate) (hrate : stream.a324Bps = m.rate * 8)
    (hwindow : stream.bpsWindow = m.window) (now : ℤ) :
    (expirePerSecondFrameStats stream now).bpsLastUpdate =
        (m.expire (After 2) false now).lastUpdate ∧
      (expirePerSecondFrameStats stream now).a324Bps = (m.expire (After 2) false now).rate * 8 ∧
      (expirePerSecondFrameStats stream now).bpsWindow =
        (m.expire (After 2) false now).window := by
  by_cases hlate : m.lastUpdate + 2 < now
  · by_cases hempty : m.window = 0
    · simp [expirePerSecondFrameStats, Meter.expire, After, hlast, hrate, hwindow, hlate, hempty]
    · simp [expirePerSecondFrameStats, Meter.expire, After, hlast, hrate, hwindow, hlate, hempty]
  · simp [expirePerSecondFrameStats, Meter.expire, After, hlast, hrate, hwindow, hlate]

theorem Tells.frame {stream counted : FrameStatistics} {calls : List Call} {call : Call}
    (h : Tells stream calls) {n : UInt32} {now : ℤ} (hlength : call.length? = some n)
    (hcounts : call.counts = true) (hops : call.ops = [.write now n])
    (hcount : counted.packetCount = stream.packetCount + 1)
    (hodd : counted.notMultipleOfSevenError = (noteLength stream n now).notMultipleOfSevenError)
    (hlast : counted.bpsLastUpdate = stream.bpsLastUpdate)
    (hrate : counted.a324Bps = stream.a324Bps) (hwindow : counted.bpsWindow = stream.bpsWindow) :
    Tells (noteBytes counted n now) (calls ++ [call]) := by
  have hrates := rates_noteBytes (hlast.trans h.lastUpdate) (hrate.trans h.rate)
    (hwindow.trans h.window) n now
  have hsame : (noteBytes counted n now).packetCount = counted.packetCount ∧
      (noteBytes counted n now).notMultipleOfSevenError = counted.notMultipleOfSevenError := by
    unfold noteBytes
    split_ifs <;> exact ⟨rfl, rfl⟩
  refine ⟨?_, ?_, ?_, ?_, ?_⟩
  · rw [hsame.1, hcount, h.packetCount]
    simp [List.countP_append, hcounts]
  · rw [hsame.2, hodd, notMultiple_noteLength, h.odd, oddFrames_concat, hlength]
    simp
  · rw [metered_flatMap_concat, hops]
    exact hrates.1
  · rw [metered_flatMap_concat, hops]
    exact hrates.2.1
  · rw [metered_flatMap_concat, hops]
    exact hrates.2.2

theorem Tells.query {stream : FrameStatistics} {calls : List Call} {call : Call}
    (h : Tells stream calls) {now : ℤ} (hlength : call.length? = none)
    (hcounts : call.counts = false) (hops : call.ops = [.read now]) :
    Tells (expirePerSecondFrameStats stream now) (calls ++ [call]) := by
  have hrates := rates_expire h.lastUpdate h.rate h.window now
  have hsame : (expirePerSecondFrameStats stream now).packetCount = stream.packetCount ∧
      (expirePerSecondFrameStats stream now).notMultipleOfSevenError =
        stream.notMultipleOfSevenError := by
    unfold expirePerSecondFrameStats
    split_ifs <;> exact ⟨rfl, rfl⟩
  refine ⟨?_, ?_, ?_, ?_, ?_⟩
  · rw [hsame.1, h.packetCount]
    simp [List.countP_append, hcounts]
  · rw [hsame.2, h.odd, oddFrames_concat, hlength]
    simp
  · rw [metered_flatMap_concat, hops]
    exact hrates.1
  · rw [metered_flatMap_concat, hops]
    exact hrates.2.1
  · rw [metered_flatMap_concat, hops]
    exact hrates.2.2

/-- The check of the sequence changes the number and the errors only. -/
theorem noteSequence_spec {stream next : FrameStatistics} {number : UInt16} {e : CcErrorAt}
    (h : noteSequence stream number e = some next) :
    next = { stream with ccErrors := next.ccErrors, a324SequenceNumber := number } ∧
      next.ccErrors.internalCcErrors = stream.ccErrors.internalCcErrors +
        if stream.a324SequenceNumber + 1 ≠ number ∧ stream.packetCount ≠ 0 then 1 else 0 := by
  unfold noteSequence at h
  split_ifs at h with hgap
  · obtain ⟨ccErrors, herrors, rfl⟩ := Option.map_eq_some_iff.mp h
    obtain ⟨history, -, rfl⟩ := Option.map_eq_some_iff.mp herrors
    exact ⟨rfl, by rw [if_pos hgap]⟩
  · obtain rfl := Option.some.inj h
    exact ⟨rfl, by rw [if_neg hgap]; rfl⟩

theorem ctpStatsUpdate_short {stream : FrameStatistics} {buf : List UInt8} {now : ℤ} {e : CcErrorAt}
    (hshort : UInt32.ofNat buf.length < 4) :
    ctpStatsUpdate stream buf now e = some (noteLength stream (UInt32.ofNat buf.length) now) :=
  if_pos hshort

theorem ctpStatsUpdate_whole {stream next : FrameStatistics} {buf : List UInt8} {now : ℤ}
    {e : CcErrorAt} (hwhole : ¬UInt32.ofNat buf.length < 4)
    (h : ctpStatsUpdate stream buf now e = some next) :
    ∃ checked,
      noteSequence (noteLength stream (UInt32.ofNat buf.length) now) (sequenceNumber buf) e =
        some checked ∧
      noteBytes { checked with packetCount := checked.packetCount + 1 } (UInt32.ofNat buf.length)
        now = next := by
  rw [ctpStatsUpdate, if_neg hwhole] at h
  exact Option.map_eq_some_iff.mp h

theorem noteLength_eq (stream : FrameStatistics) (n : UInt32) (now : ℤ) :
    ∃ errors last, noteLength stream n now = { stream with
      notMultipleOfSevenError := errors, lastNotMultipleOfSevenError := last } := by
  unfold noteLength
  split_ifs
  · exact ⟨_, _, rfl⟩
  · exact ⟨_, _, rfl⟩

/-- A frame without a whole header adds to the odd frames only. -/
theorem Tells.short {stream : FrameStatistics} {calls : List Call} (h : Tells stream calls)
    {buf : List UInt8} {now : ℤ} {e : CcErrorAt} (hshort : UInt32.ofNat buf.length < 4) :
    Tells (noteLength stream (UInt32.ofNat buf.length) now) (calls ++ [.ctp buf now e]) := by
  have hodd := notMultiple_noteLength stream (UInt32.ofNat buf.length) now
  obtain ⟨errors, last, heq⟩ := noteLength_eq stream (UInt32.ofNat buf.length) now
  have hops : Call.ops (.ctp buf now e) = [] := if_pos hshort
  refine ⟨?_, ?_, ?_, ?_, ?_⟩
  · rw [heq, List.countP_append, ← h.packetCount]
    simp [Call.counts, hshort]
  · rw [hodd, h.odd, oddFrames_concat]
    simp [Call.length?]
  · rw [metered_flatMap_concat, hops, heq]
    exact h.lastUpdate
  · rw [metered_flatMap_concat, hops, heq]
    exact h.rate
  · rw [metered_flatMap_concat, hops, heq]
    exact h.window

theorem Tells.perform {stream next : FrameStatistics} {calls : List Call} (h : Tells stream calls)
    {call : Call} (hnext : perform stream call = some next) : Tells next (calls ++ [call]) := by
  cases call with
  | bytestream n now =>
      obtain rfl := Option.some.inj hnext
      obtain ⟨errors, last, heq⟩ :=
        noteLength_eq { stream with packetCount := stream.packetCount + 1 } n now
      apply h.frame rfl rfl rfl
      · rw [heq]
      · rw [notMultiple_noteLength, notMultiple_noteLength]
      · rw [heq]
      · rw [heq]
      · rw [heq]
  | ctp buf now e =>
      by_cases hshort : UInt32.ofNat buf.length < 4
      · rw [Frames.perform, ctpStatsUpdate_short hshort] at hnext
        obtain rfl := Option.some.inj hnext
        exact h.short hshort
      · obtain ⟨checked, hchecked, rfl⟩ := ctpStatsUpdate_whole hshort hnext
        obtain ⟨errors, last, heq⟩ := noteLength_eq stream (UInt32.ofNat buf.length) now
        have hsame := (noteSequence_spec hchecked).1
        apply h.frame rfl
        · simpa [Call.counts] using hshort
        · exact if_neg hshort
        · rw [hsame, heq]
        · rw [hsame]
        · rw [hsame, heq]
        · rw [hsame, heq]
        · rw [hsame, heq]
  | getMbps now =>
      obtain rfl := Option.some.inj hnext
      exact h.query rfl rfl rfl
  | getBps now =>
      obtain rfl := Option.some.inj hnext
      exact h.query rfl rfl rfl

/-- Four frames, the third of them without a whole header and the last one after a gap. -/
def frameSample : List Call :=
  [.ctp [0, 0, 0, 5] 10 ⟨10, 10⟩, .ctp [0, 0, 0, 6] 10 ⟨10, 10⟩, .ctp [7] 10 ⟨10, 10⟩,
    .ctp [0, 0, 0, 9] 11 ⟨11, 11⟩, .getBps 14]

def numbers (calls : List Call) : List UInt16 := calls.filterMap Call.number?

def CtpOnly (calls : List Call) : Prop := ∀ call ∈ calls, ∀ n now, call ≠ .bytestream n now

structure TellsSequence (stream : FrameStatistics) (calls : List Call) : Prop where
  packetCount : stream.packetCount = (numbers calls).length
  last : ∀ a ∈ (numbers calls).getLast?, stream.a324SequenceNumber = a
  errors : stream.ccErrors.internalCcErrors = gaps (numbers calls)

theorem numbers_concat (calls : List Call) (call : Call) :
    numbers (calls ++ [call]) = numbers calls ++ call.number?.toList := by
  rw [numbers, List.filterMap_append, ← numbers]
  cases hnumber : call.number? with
  | none => simp [hnumber]
  | some n => simp [hnumber]

/-- A call without a number leaves the sequence alone. -/
theorem TellsSequence.skip {stream next : FrameStatistics} {calls : List Call}
    (h : TellsSequence stream calls) {call : Call} (hnumber : call.number? = none)
    (hcount : next.packetCount = stream.packetCount)
    (hlast : next.a324SequenceNumber = stream.a324SequenceNumber)
    (herrors : next.ccErrors = stream.ccErrors) : TellsSequence next (calls ++ [call]) := by
  have hsame : numbers (calls ++ [call]) = numbers calls := by
    rw [numbers_concat, hnumber]
    exact List.append_nil _
  constructor
  · rw [hsame, hcount, h.packetCount]
  · rw [hsame, hlast]
    exact h.last
  · rw [hsame, herrors, h.errors]

theorem TellsSequence.query {stream : FrameStatistics} {calls : List Call}
    (h : TellsSequence stream calls) {call : Call} (hnumber : call.number? = none) (now : ℤ) :
    TellsSequence (expirePerSecondFrameStats stream now) (calls ++ [call]) := by
  apply h.skip hnumber
  · rw [expirePerSecondFrameStats]
    split_ifs <;> rfl
  · rw [expirePerSecondFrameStats]
    split_ifs <;> rfl
  · rw [expirePerSecondFrameStats]
    split_ifs <;> rfl

theorem TellsSequence.frame {stream next : FrameStatistics} {calls : List Call}
    (h : TellsSequence stream calls) (counted : FrameStatistics) {call : Call} {n : UInt16}
    (hnumber : call.number? = some n) (hcount : counted.packetCount = stream.packetCount)
    (hlast : counted.a324SequenceNumber = stream.a324SequenceNumber)
    (herrors : counted.ccErrors = stream.ccErrors)
    (hnextCount : next.packetCount = counted.packetCount + 1)
    (hnextLast : next.a324SequenceNumber = n)
    (hnextErrors : next.ccErrors.internalCcErrors = counted.ccErrors.internalCcErrors +
      if counted.a324SequenceNumber + 1 ≠ n ∧ counted.packetCount ≠ 0 then 1 else 0) :
    TellsSequence next (calls ++ [call]) := by
  have hgrown : numbers (calls ++ [call]) = numbers calls ++ [n] := by
    rw [numbers_concat, hnumber]
    rfl
  constructor
  · rw [hgrown, hnextCount, hcount, h.packetCount, List.length_append, List.length_singleton]
  · rw [hgrown, List.getLast?_concat, hnextLast]
    exact fun a ha ↦ Option.some.inj ha
  · rw [hgrown, hnextErrors, herrors, h.errors, hlast, hcount, h.packetCount]
    -- the packet count says whether there is a number before this one
    cases hfirst : (numbers calls).getLast? with
    | none =>
        rw [List.getLast?_eq_none_iff.mp hfirst]
        simp [gaps, countNeighbours, List.consecutivePairs]
    | some a =>
        have hne : (numbers calls).length ≠ 0 := by
          intro hzero
          rw [List.length_eq_zero_iff.mp hzero] at hfirst
          cases hfirst
        rw [gaps, gaps, countNeighbours_concat_of_last _ hfirst, h.last a hfirst]
        by_cases hfollows : a + 1 = n
        · simp [hfollows]
        · simp [hfollows, bne_iff_ne.mpr hfollows, List.length_eq_zero_iff.not.mp hne]

theorem TellsSequence.perform {stream next : FrameStatistics} {calls : List Call}
    (h : TellsSequence stream calls) {call : Call} (hctp : ∀ n now, call ≠ .bytestream n now)
    (hnext : perform stream call = some next) : TellsSequence next (calls ++ [call]) := by
  cases call with
  | bytestream n now => exact absurd rfl (hctp n now)
  | ctp buf now e =>
      obtain ⟨errors, last, heq⟩ := noteLength_eq stream (UInt32.ofNat buf.length) now
      by_cases hshort : UInt32.ofNat buf.length < 4
      · rw [Frames.perform, ctpStatsUpdate_short hshort] at hnext
        obtain rfl := Option.some.inj hnext
        have hnumber : Call.number? (.ctp buf now e) = none := if_pos hshort
        apply h.skip hnumber
        · rw [heq]
        · rw [heq]
        · rw [heq]
      · obtain ⟨checked, hchecked, rfl⟩ := ctpStatsUpdate_whole hshort hnext
        obtain ⟨hsame, herrors⟩ := noteSequence_spec hchecked
        have hbytes : ∀ stream n now, (noteBytes stream n now).packetCount = stream.packetCount ∧
            (noteBytes stream n now).a324SequenceNumber = stream.a324SequenceNumber ∧
            (noteBytes stream n now).ccErrors = stream.ccErrors := by
          intro stream n now
          unfold noteBytes
          split_ifs <;> exact ⟨rfl, rfl, rfl⟩
        have hnumber : Call.number? (.ctp buf now e) = some (sequenceNumber buf) := if_neg hshort
        apply h.frame (noteLength stream (UInt32.ofNat buf.length) now) hnumber
        · rw [heq]
        · rw [heq]
        · rw [heq]
        · rw [(hbytes _ _ _).1, hsame]
        · rw [(hbytes _ _ _).2.1, hsame]
        · rw [(hbytes _ _ _).2.2, herrors]
  | getMbps now =>
      obtain rfl := Option.some.inj hnext
      exact h.query rfl now
  | getBps now =>
      obtain rfl := Option.some.inj hnext
      exact h.query rfl now

/-- The errors of a stream of the transport protocol are the gaps between the numbers of
neighbouring frames, short frames left out and the first one free. -/
theorem sequence_told {calls : List Call} {stream : FrameStatistics}
    (h : framesAfter calls = some stream) (hctp : CtpOnly calls) :
    stream.ccErrors.internalCcErrors = gaps (numbers calls) := by
  suffices hall : TellsSequence stream calls from hall.errors
  induction calls using List.reverseRecOn generalizing stream with
  | nil =>
      obtain rfl := Option.some.inj h
      refine ⟨rfl, fun a ha ↦ ?_, rfl⟩
      cases ha
  | append_singleton calls call ih =>
      rw [framesAfter_concat] at h
      obtain ⟨before, hbefore, hlast⟩ := Option.bind_eq_some_iff.mp h
      have hearlier := ih hbefore fun c hc ↦ hctp c (List.mem_append_left _ hc)
      exact hearlier.perform (hctp call (List.mem_append_right _ (List.mem_singleton_self _))) hlast

theorem sequence_told_sample :
    ∃ stream, framesAfter frameSample = some stream ∧ stream.ccErrors.internalCcErrors = 1 := by
  obtain ⟨stream, h⟩ := Option.isSome_iff_exists.mp
    (show (framesAfter frameSample).isSome = true by decide)
  have hctp : CtpOnly frameSample := by
    intro call hcall n now heq
    simp [frameSample, heq] at hcall
  exact ⟨stream, h, (sequence_told h hctp).trans (by decide)⟩

end LtnTsTools.Frames
