import LtnTsTools.RtpFrames
import LtnTsTools.SmootherWriter

/-!
# The smoother for RTP

`smoother-rtp.c`: `smoother_rtp_write` collects bytes in an array, takes the frames off
it that are followed by a header, and queues each as an item with the timestamp of its
header; the output thread takes the items that are due off the queue.  The output thread
is taken to run between the calls of the writer.  Histograms and the debugging output are
left out.
-/

namespace LtnTsTools.SmootherRtp

open Rtp Ts

/-- `struct smoother_rtp_item_s`. -/
structure Item where
  seqno : ℕ
  buf : List UInt8
  lengthBytes : ℕ
  maxLengthBytes : ℕ
  tsComputed : Bool
  pcrdata : PcrPosition
  receivedTSuS : ℕ
  scheduledTSuS : ℕ
deriving DecidableEq

def Item.bytes (item : Item) : List UInt8 := item.buf.take item.lengthBytes

/-- `itemReset`; the sequence number and the buffer stay. -/
def itemReset (item : Item) : Item :=
  { item with
    lengthBytes := 0
    receivedTSuS := 0
    scheduledTSuS := 0
    tsComputed := false
    pcrdata := pcrPositionReset }

/-- `itemAlloc`. -/
def itemAlloc (lengthBytes : ℕ) : Item :=
  itemReset ⟨0, List.replicate lengthBytes 0, 0, lengthBytes, false, ⟨0, 0, 0⟩, 0, 0⟩

/-- `struct smoother_rtp_context_s`; the lists hold the items themselves. -/
structure Context where
  itemsFree : List Item
  itemsBusy : List Item
  outputCb : Bool
  walltimeFirstTimestampuS : ℕ
  tsFirst : ℤ
  tsTail : ℤ
  tsHead : ℤ
  latencyuS : ℤ
  bitsReceivedSinceLastPCR : ℕ
  seqno : ℕ
  lastSeqno : ℕ
  voteCompleteSSRC : Bool
  expectedSSRC : UInt32
  expectedCount : ℕ
  expectedValidateConditions : ℕ
  itemLengthBytes : ℕ
  totalSizeBytes : ℤ
  ba : List UInt8
  didTimestampReset : Bool
  lastTimestampResetTime : ℤ
  measuredLatencyMs : ℤ

/-- `smoother_rtp_alloc`; `time` is what `time(NULL)` returned. -/
def smootherRtpAlloc (outputCb : Bool) (itemsPerSecond itemLengthBytes : ℕ) (latencyMS time : ℤ) :
    Context where
  itemsFree := List.replicate itemsPerSecond (itemAlloc (max itemLengthBytes (12 + 7 * 188)))
  itemsBusy := []
  outputCb := outputCb
  walltimeFirstTimestampuS := 0
  tsFirst := -1
  tsTail := -1
  tsHead := -1
  latencyuS := (latencyMS * 1000).bmod (2 ^ 32)
  bitsReceivedSinceLastPCR := 0
  seqno := 0
  lastSeqno := 0
  voteCompleteSSRC := false
  expectedSSRC := 0
  expectedCount := 0
  expectedValidateConditions := 0
  itemLengthBytes := max itemLengthBytes (12 + 7 * 188)
  totalSizeBytes := 0
  ba := []
  didTimestampReset := false
  lastTimestampResetTime := time
  measuredLatencyMs := 0

/-- `getScheduledOutputuS`; the sum is one of `uint64_t`. -/
def getScheduledOutputuS (ctx : Context) (tsValue : ℤ) : ℕ :=
  ((ctx.walltimeFirstTimestampuS + (ptsDiff ctx.tsFirst tsValue * 300).tdiv 27 + ctx.latencyuS) %
    2 ^ 64).toNat

/-- The item that `smoother_rtp_write2` takes, and the free list behind it, which grows by
64 items when it is empty. -/
def takeItem (ctx : Context) : Item × List Item :=
  match ctx.itemsFree with
  | item :: rest => (item, rest)
  | [] => (itemAlloc ctx.itemLengthBytes, List.replicate (64 - 1) (itemAlloc ctx.itemLengthBytes))

def fillItem (item : Item) (buf : List UInt8) (tsValue : ℤ) (now : ℕ) : Item :=
  { item with
    receivedTSuS := now
    maxLengthBytes := max item.maxLengthBytes buf.length
    buf := buf ++ item.buf.drop buf.length
    lengthBytes := buf.length
    pcrdata := { item.pcrdata with pcr := tsValue } }

/-- The time base of `smoother_rtp_write2`: the first timestamp and the time it was
received. -/
def setTimebase (ctx : Context) (tsValue : ℤ) (now : ℕ) : Context :=
  { ctx with
    tsFirst := if ctx.tsFirst = -1 then tsValue else ctx.tsFirst
    walltimeFirstTimestampuS := if ctx.tsFirst = -1 then now else ctx.walltimeFirstTimestampuS
    bitsReceivedSinceLastPCR := 0
    tsTail := tsValue }

/-- The schedule of an item that is queued: behind that of the last one, where it would go
backwards. -/
def correctSchedule (itemsBusy : List Item) (scheduledTSuS : ℕ) : ℕ :=
  match itemsBusy.getLast? with
  | none => scheduledTSuS
  | some last =>
      if last.scheduledTSuS > scheduledTSuS then (last.scheduledTSuS + 1) % 2 ^ 64
      else scheduledTSuS

/-- `smoother_rtp_write2`, with the item it queues. -/
def smootherRtpWrite2 (ctx : Context) (buf : List UInt8) (tsValue : ℤ) (now : ℕ) :
    Context × Item :=
  let taken := takeItem ctx
  let ctx := setTimebase { ctx with itemsFree := taken.2 } tsValue now
  let item :=
    { fillItem taken.1 buf tsValue now with
      seqno := ctx.seqno
      tsComputed := false
      scheduledTSuS := correctSchedule ctx.itemsBusy (getScheduledOutputuS ctx tsValue) }
  ({ ctx with
      seqno := ctx.seqno + 1
      totalSizeBytes := ctx.totalSizeBytes + buf.length
      itemsBusy := ctx.itemsBusy ++ [item] }, item)

/-- The vote on the source at the front of `smoother_rtp_write`. -/
def voteSSRC (ctx : Context) (buf : List UInt8) : Context :=
  if ctx.voteCompleteSSRC then ctx
  else
    let hdr := rtpHdrAt buf
    let first := ctx.expectedValidateConditions = 0
    let validated := ctx.expectedValidateConditions +
      if first ∨ ctx.expectedSSRC = hdr.ssrc then 1 else 0
    { ctx with
      expectedCount := ctx.expectedCount + 1
      expectedSSRC := if first then hdr.ssrc else ctx.expectedSSRC
      expectedValidateConditions := validated
      voteCompleteSSRC := validated == 10 }

/-- An entry with the timestamp of its header in the order of the host. -/
def adjust (e : RtpFramePosition) : RtpFramePosition :=
  { e with frame := { e.frame with ts := ntohl e.frame.ts } }

/-- The detection of a significant jump, on adjusted entries. -/
def jumps (first second : RtpFramePosition) : Bool :=
  decide (ptsDiff first.frame.ts.toNat second.frame.ts.toNat > 15 * 90000)

/-- The loop of `smoother_rtp_write` over the entries, with the items it queues and the
number of bytes to trim. -/
def queueFrames (ba : List UInt8) (now : ℕ → ℕ) :
    List RtpFramePosition → ℕ → Context → ℕ → Context × List Item × ℕ
  | [], _, ctx, trimOffset => (ctx, [], trimOffset)
  | e :: rest, turn, ctx, trimOffset =>
      if e.lengthBytes = 0 then (ctx, [], trimOffset)
      else
        let w := smootherRtpWrite2 ctx ((ba.drop e.offset).take e.lengthBytes) e.frame.ts.toNat
          (now turn)
        let r := queueFrames ba now rest (turn + 1) w.1 (e.offset + e.lengthBytes)
        (r.1, w.2 :: r.2.1, r.2.2)

/-- The end of `smoother_rtp_write`: the time base is taken anew behind a jump, and after
a minute. -/
def settle (ctx : Context) (time : ℤ) : Context :=
  let due := decide (time ≥ ctx.lastTimestampResetTime + 60)
  { ctx with
    lastTimestampResetTime := if due then time else ctx.lastTimestampResetTime
    tsFirst := if ctx.didTimestampReset || due then -1 else ctx.tsFirst
    didTimestampReset := false }

/-- `smoother_rtp_write` behind the search, where it has found two headers at least; `now`
are the clock readings of `smoother_rtp_write2`. -/
def writeFound (ctx : Context) (first second : RtpFramePosition) (others : List RtpFramePosition)
    (now : ℕ → ℕ) (time : ℤ) : Context × List Item :=
  let based :=
    { ctx with
      didTimestampReset := ctx.didTimestampReset || jumps (adjust first) (adjust second)
      measuredLatencyMs := (ptsDiff ctx.tsHead ctx.tsTail).tdiv 90 }
  let r := queueFrames ctx.ba now (adjust first :: adjust second :: others) 0 based 0
  (settle { r.1 with ba := Smoother.byteArrayTrim r.1.ba r.2.2 } time, r.2.1)

/-- `smoother_rtp_write` from the search on. -/
def writeAppended (ctx : Context) (now : ℕ → ℕ) (time : ℤ) : Context × List Item :=
  match rtpFrameQueryPositions ctx.ba 0 ctx.expectedSSRC with
  | first :: second :: others => writeFound ctx first second others now time
  | _ => (ctx, [])

/-- `smoother_rtp_write`, with the items it queues; `none` when the array does not fit into
an `int`. -/
def smootherRtpWrite (ctx : Context) (buf : List UInt8) (now : ℕ → ℕ) (time : ℤ) :
    Option (Context × List Item) :=
  let ctx := voteSSRC ctx buf
  (Smoother.byteArrayAppend ctx.ba buf).map fun ba ↦ writeAppended { ctx with ba := ba } now time

/-- `_queueProcess`: the items that are due leave the busy list, in its order, and go back
to the free list when the callback has seen them. -/
def queueProcess (ctx : Context) (uS : ℕ) : Context × List Item :=
  let loclist := ctx.itemsBusy.filter fun e ↦ e.scheduledTSuS ≤ uS
  ({ ctx with
      tsHead := (ctx.itemsBusy.head?.map fun e ↦ e.pcrdata.pcr).getD ctx.tsHead
      itemsBusy := ctx.itemsBusy.filter fun e ↦ ¬e.scheduledTSuS ≤ uS
      totalSizeBytes :=
        if ctx.outputCb then
          ctx.totalSizeBytes - ((loclist.map Item.lengthBytes).sum : ℕ)
        else ctx.totalSizeBytes
      lastSeqno :=
        if ctx.outputCb then (loclist.getLast?.map Item.seqno).getD ctx.lastSeqno
        else ctx.lastSeqno
      itemsFree := ctx.itemsFree ++ loclist.map itemReset }, loclist)

inductive Event
  | write (buf : List UInt8) (now : ℕ → ℕ) (time : ℤ)
  | process (uS : ℕ)

def Event.bytes : Event → List UInt8
  | write buf _ _ => buf
  | process _ => []

/-- Events in a row: the context behind them, the items that were queued, and those that
the output thread has taken; `none` when an array does not fit into an `int`. -/
def run : Context → List Event → Option (Context × List Item × List Item)
  | ctx, [] => some (ctx, [], [])
  | ctx, .write buf now time :: rest =>
      match smootherRtpWrite ctx buf now time with
      | none => none
      | some w => (run w.1 rest).map fun r ↦ (r.1, w.2 ++ r.2.1, r.2.2)
  | ctx, .process uS :: rest =>
      (run (queueProcess ctx uS).1 rest).map fun r ↦
        (r.1, r.2.1, (queueProcess ctx uS).2 ++ r.2.2)

end LtnTsTools.SmootherRtp
