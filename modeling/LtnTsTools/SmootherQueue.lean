import LtnTsTools.PcrSearch
import LtnTsTools.PartialMachine

/-!
# The queue of the clock reference smoother

The queue half of `smoother-pcr.c`.  Items live at fixed addresses and move
between the free list, the writer, the busy list and the private list of the
output thread.  A step of the machine is one critical section, or one stretch of
code between two of them, so that its runs are the interleavings of the writer,
the output thread and calls of `smoother_pcr_reset`.  Histograms, the measured
latency and the debugging output are left out.
-/

namespace LtnTsTools.Smoother

/-- `struct smoother_pcr_item_s`. -/
structure Item where
  seqno : ℕ
  buf : List UInt8
  lengthBytes : ℕ
  maxLengthBytes : ℕ
  pcrComputed : Bool
  pcrIntervalPerPacketTicks : ℤ
  pcrdata : PcrPosition
  receivedTSuS : ℕ
  scheduledTSuS : ℕ
deriving DecidableEq

def Item.bytes (item : Item) : List UInt8 := item.buf.take item.lengthBytes

/-- `itemReset`; the sequence number and the buffer stay. -/
def itemReset (item : Item) : Item :=
  { item with
    lengthBytes := 0
    receivedTSuS := 0
    scheduledTSuS := 0
    pcrComputed := false
    pcrdata := pcrPositionReset }

/-- `itemAlloc`. -/
def itemAlloc (lengthBytes : ℕ) : Item :=
  itemReset ⟨0, List.replicate lengthBytes 0, 0, lengthBytes, false, 0, ⟨0, 0, 0⟩, 0, 0⟩

/-- `struct smoother_pcr_context_s`, the part that the writer, the output thread
and `smoother_pcr_reset` share.  `items` is the memory of the items, the lists
hold their addresses. -/
structure Context where
  items : ℕ → Item
  itemsFree : List ℕ
  qFreeCount : ℕ
  itemsBusy : List ℕ
  qBusyCount : ℕ
  totalUserBytes : ℤ
  itemLengthBytes : ℕ
  outputCb : Bool
  walltimeFirstPCRuS : ℕ
  pcrFirst : ℤ
  blockingWrites : Bool
  latencyuS : ℤ
  seqno : ℕ
  lastSeqno : ℕ
  pcrIntervalPerPacketTicksLast : ℤ
  totalAllocFootprintBytes : ℕ
  totalItemGrowth : ℕ
  totalItems : ℕ

def addItem (ctx : Context) : Context :=
  { ctx with
    items := Function.update ctx.items ctx.totalItems (itemAlloc ctx.itemLengthBytes)
    itemsFree := ctx.itemsFree ++ [ctx.totalItems]
    qFreeCount := ctx.qFreeCount + 1
    totalItems := ctx.totalItems + 1 }

/-- One item of the growth loop of `smoother_pcr_write2`. -/
def growItem (ctx : Context) : Context :=
  { addItem ctx with totalItemGrowth := ctx.totalItemGrowth + 1 }

/-- One item of the loop of `smoother_pcr_alloc`. -/
def allocItem (ctx : Context) : Context :=
  { addItem ctx with
    totalAllocFootprintBytes := ctx.totalAllocFootprintBytes + ctx.itemLengthBytes }

def emptyContext (outputCb : Bool) (itemLengthBytes : ℕ) (latencyMS : ℤ) : Context where
  items := fun _ ↦ itemAlloc 0
  itemsFree := []
  qFreeCount := 0
  itemsBusy := []
  qBusyCount := 0
  totalUserBytes := 0
  itemLengthBytes := itemLengthBytes
  outputCb := outputCb
  walltimeFirstPCRuS := 0
  pcrFirst := -1
  blockingWrites := false
  latencyuS := (latencyMS * 1000).bmod (2 ^ 32)
  seqno := 0
  lastSeqno := 0
  pcrIntervalPerPacketTicksLast := 0
  totalAllocFootprintBytes := 0
  totalItemGrowth := 0
  totalItems := 0

/-- `smoother_pcr_alloc`; `none` is the error return. -/
def smootherPcrAlloc (outputCb : Bool) (itemsPerSecond : ℤ) (itemLengthBytes pcrPID : ℕ)
    (latencyMS : ℤ) : Option Context :=
  if pcrPID ≤ 16 ∨ pcrPID > 0x1ffe ∨ latencyMS < 50 ∨ itemLengthBytes ≠ 7 * 188 then none
  else some (allocItem^[itemsPerSecond.toNat] (emptyContext outputCb itemLengthBytes latencyMS))

/-! ## The writer -/

/-- The arguments of `smoother_pcr_write2`. -/
structure Write2 where
  buf : List UInt8
  pcrValue : ℤ
  pcrIntervalPerPacketTicks : ℤ
  pcrIntervalTicks : ℤ
deriving DecidableEq

/-- `getScheduledOutputuS`; the sum is one of `uint64_t`, the reduction by
`pcrIntervalTicks` is disabled in the source. -/
def getScheduledOutputuS (ctx : Context) (pcr : ℤ) : ℕ :=
  ((ctx.walltimeFirstPCRuS + (Ts.scrDiff ctx.pcrFirst pcr).tdiv 27 + ctx.latencyuS) %
    2 ^ 64).toNat

/-- `smoother_pcr_write2`, up to the first unlock: the free list grows when it is
empty, unless the writes block, and its first item is taken. -/
def takeItem (ctx : Context) : Option (ℕ × Context) :=
  let grown :=
    if ctx.blockingWrites = false ∧ ctx.itemsFree = [] then growItem^[64] ctx else ctx
  match grown.itemsFree with
  | [] => none
  | e :: rest =>
      some (e, { grown with itemsFree := rest, qFreeCount := grown.qFreeCount - 1 })

/-- The time base of `smoother_pcr_write2`: the first clock reference and the time
it was received. -/
def setTimebase (ctx : Context) (pcrValue : ℤ) (now : ℕ) : Context :=
  { ctx with
    pcrFirst := if ctx.pcrFirst = -1 then pcrValue else ctx.pcrFirst
    walltimeFirstPCRuS := if ctx.pcrFirst = -1 then now else ctx.walltimeFirstPCRuS }

/-- The item with the buffer copied into it; `realloc` keeps the bytes that fit,
and all of these are copied over. -/
def fillBuffer (item : Item) (call : Write2) (now : ℕ) : Item :=
  { item with
    receivedTSuS := now
    pcrIntervalPerPacketTicks := call.pcrIntervalPerPacketTicks
    maxLengthBytes := max item.maxLengthBytes call.buf.length
    buf := call.buf ++ item.buf.drop call.buf.length
    lengthBytes := call.buf.length
    pcrdata := { item.pcrdata with pcr := call.pcrValue } }

/-- The bytes by which `smoother_pcr_write2` grows the buffer of an item. -/
def bufferGrowth (item : Item) (call : Write2) : ℕ :=
  if item.maxLengthBytes < call.buf.length then call.buf.length else 0

/-- `smoother_pcr_write2` between its two critical sections. -/
def fillItem (ctx : Context) (e : ℕ) (call : Write2) (now : ℕ) : Context :=
  let based := setTimebase ctx call.pcrValue now
  { based with
    items := Function.update ctx.items e
      { fillBuffer (ctx.items e) call now with
        scheduledTSuS := getScheduledOutputuS based call.pcrValue
        pcrComputed := false }
    totalAllocFootprintBytes := ctx.totalAllocFootprintBytes + bufferGrowth (ctx.items e) call }

/-- The schedule of an item that is queued: never before the last item of the
busy list, but behind it by the length of the item. -/
def correctSchedule (ctx : Context) (item : Item) : ℕ :=
  match ctx.itemsBusy.getLast? with
  | none => item.scheduledTSuS
  | some l =>
      let last := ctx.items l
      if last.scheduledTSuS > item.scheduledTSuS then
        let tuS := (ctx.pcrIntervalPerPacketTicksLast * (item.lengthBytes / 188 : ℕ)).tdiv 27
        ((last.scheduledTSuS + tuS) % 2 ^ 64).toNat
      else item.scheduledTSuS

/-- The second critical section of `smoother_pcr_write2`. -/
def queueItem (ctx : Context) (e : ℕ) : Context :=
  let item := ctx.items e
  { ctx with
    items := Function.update ctx.items e
      { item with seqno := ctx.seqno, scheduledTSuS := correctSchedule ctx item }
    seqno := ctx.seqno + 1
    totalUserBytes := ctx.totalUserBytes + item.lengthBytes
    itemsBusy := ctx.itemsBusy ++ [e]
    qBusyCount := ctx.qBusyCount + 1 }

/-- What `smoother_pcr_write` leaves behind an interval. -/
def settleInterval (ctx : Context) (pcrIntervalPerPacketTicks : ℤ) (didPcrReset : Bool) :
    Context :=
  { ctx with
    pcrIntervalPerPacketTicksLast := pcrIntervalPerPacketTicks
    pcrFirst := if didPcrReset then -1 else ctx.pcrFirst }

/-! ## The output thread -/

/-- `_queueProcess_makeloc`: the items from the front of the busy list up to the
first one that is not due. -/
def queueProcessMakeloc (ctx : Context) (uS : ℕ) : List ℕ × Context :=
  let due := fun e ↦ decide ((ctx.items e).scheduledTSuS ≤ uS)
  (ctx.itemsBusy.takeWhile due,
    { ctx with
      itemsBusy := ctx.itemsBusy.dropWhile due
      qBusyCount := ctx.qBusyCount - (ctx.itemsBusy.takeWhile due).length })

theorem makeloc_append (ctx : Context) (uS : ℕ) :
    (queueProcessMakeloc ctx uS).1 ++ (queueProcessMakeloc ctx uS).2.itemsBusy = ctx.itemsBusy :=
  List.takeWhile_append_dropWhile

/-- The clock references that `_queueProcess` makes up, one for every packet. -/
def packetClocks (item : Item) : List PcrPosition :=
  (List.range (item.lengthBytes / 188)).map fun (i : ℕ) ↦
    { offset := i * 188
      pcr := item.pcrdata.pcr + i * item.pcrIntervalPerPacketTicks
      pid := Ts.pid (Ts.packetAt item.buf (i * 188)) }

structure Delivery where
  seqno : ℕ
  bytes : List UInt8
  array : List PcrPosition
deriving DecidableEq

def deliver (item : Item) : Delivery := ⟨item.seqno, item.bytes, packetClocks item⟩

/-- The critical section of `_queueProcess` behind a callback. -/
def accountItem (ctx : Context) (e : ℕ) : Context :=
  { ctx with
    totalUserBytes := ctx.totalUserBytes - (ctx.items e).lengthBytes
    lastSeqno := (ctx.items e).seqno }

def releaseItem (ctx : Context) (e : ℕ) : Context :=
  { ctx with
    items := Function.update ctx.items e (itemReset (ctx.items e))
    itemsFree := ctx.itemsFree ++ [e]
    qFreeCount := ctx.qFreeCount + 1 }

/-- The last critical section of `_queueProcess`. -/
def releaseItems (ctx : Context) (loclist : List ℕ) : Context :=
  loclist.foldl releaseItem ctx

/-! ## The application -/

/-- `smoother_pcr_reset`. -/
def smootherPcrReset (ctx : Context) : Context :=
  releaseItems
    { ctx with
      walltimeFirstPCRuS := 0
      pcrFirst := -1
      totalUserBytes := 0
      itemsBusy := []
      qBusyCount := ctx.qBusyCount - ctx.itemsBusy.length }
    ctx.itemsBusy

/-- `smoother_pcr_get_size`. -/
def smootherPcrGetSize (ctx : Context) : ℤ :=
  if ctx.totalUserBytes > 0 then ctx.totalUserBytes else 0

/-! ## Interleavings -/

inductive Writer
  | idle
  | taken (e : ℕ) (call : Write2)
  | filled (e : ℕ) (call : Write2)

def Writer.held : Writer → List ℕ
  | idle => []
  | taken e _ => [e]
  | filled e _ => [e]

/-- Where the output thread stands in its private list: the items behind it, and
those from the current one on, whose callback may have returned. -/
inductive Output
  | waiting
  | serving (served pending : List ℕ) (called : Bool)

/-- `loclist`. -/
def Output.loclist : Output → List ℕ
  | waiting => []
  | serving served pending _ => served ++ pending

def Output.unaccounted : Output → List ℕ
  | waiting => []
  | serving _ pending _ => pending

def Output.undelivered : Output → List ℕ
  | waiting => []
  | serving _ pending called => if called then pending.tail else pending

/-- The output thread with its private list, which it returns at once if it is
empty. -/
def Output.begin (loclist : List ℕ) : Output :=
  if loclist = [] then .waiting else .serving [] loclist false

@[simp] theorem Output.loclist_begin (l : List ℕ) : (Output.begin l).loclist = l := by
  unfold begin
  split_ifs with hnil
  · exact hnil.symm
  · rfl

@[simp] theorem Output.unaccounted_begin (l : List ℕ) : (Output.begin l).unaccounted = l := by
  unfold begin
  split_ifs with hnil
  · exact hnil.symm
  · rfl

@[simp] theorem Output.undelivered_begin (l : List ℕ) : (Output.begin l).undelivered = l := by
  unfold begin
  split_ifs with hnil
  · exact hnil.symm
  · rfl

/-- The context and the threads, with the buffers queued and the calls of the
callback so far. -/
structure State where
  ctx : Context
  writer : Writer
  output : Output
  written : List (List UInt8)
  delivered : List Delivery

def start (ctx : Context) : State := ⟨ctx, .idle, .waiting, [], []⟩

/-- A critical section, or the code between two of them. -/
inductive Event
  | take (call : Write2)
  | fill (now : ℕ)
  | queue
  | settle (pcrIntervalPerPacketTicks : ℤ) (didPcrReset : Bool)
  | makeloc (uS : ℕ)
  | callback
  | account
  | release
  | reset
  | setBlockingWrites (tf : Bool)
deriving DecidableEq

/-- One step; `none` when the thread does not stand there.  Without a callback the
output thread passes over its private list. -/
def step (s : State) : Event → Option (State × Unit)
  | .take call =>
      match s.writer with
      | .idle => (takeItem s.ctx).map fun r ↦
          ({ s with ctx := r.2, writer := .taken r.1 call }, ())
      | _ => none
  | .fill now =>
      match s.writer with
      | .taken e call =>
          some ({ s with ctx := fillItem s.ctx e call now, writer := .filled e call }, ())
      | _ => none
  | .queue =>
      match s.writer with
      | .filled e call =>
          some ({ s with
            ctx := queueItem s.ctx e, writer := .idle, written := s.written ++ [call.buf] }, ())
      | _ => none
  | .settle ticks didPcrReset =>
      match s.writer with
      | .idle => some ({ s with ctx := settleInterval s.ctx ticks didPcrReset }, ())
      | _ => none
  | .makeloc uS =>
      match s.output with
      | .waiting =>
          let r := queueProcessMakeloc s.ctx uS
          some ({ s with ctx := r.2, output := .begin r.1 }, ())
      | _ => none
  | .callback =>
      match s.output with
      | .serving served (e :: rest) false =>
          if s.ctx.outputCb then
            some ({ s with
              output := .serving served (e :: rest) true
              delivered := s.delivered ++ [deliver (s.ctx.items e)] }, ())
          else none
      | _ => none
  | .account =>
      match s.output with
      | .serving served (e :: rest) true =>
          some ({ s with
            ctx := accountItem s.ctx e, output := .serving (served ++ [e]) rest false }, ())
      | _ => none
  | .release =>
      match s.output with
      | .serving served pending false =>
          if pending = [] ∨ s.ctx.outputCb = false then
            some ({ s with
              ctx := releaseItems s.ctx (served ++ pending), output := .waiting }, ())
          else none
      | _ => none
  | .reset => some ({ s with ctx := smootherPcrReset s.ctx }, ())
  | .setBlockingWrites tf => some ({ s with ctx := { s.ctx with blockingWrites := tf } }, ())

inductive Moves (s : State) : Event → State → Prop
  | take {call : Write2} {e : ℕ} {ctx : Context} (hidle : s.writer = .idle)
      (htake : takeItem s.ctx = some (e, ctx)) :
      Moves s (.take call) { s with ctx := ctx, writer := .taken e call }
  | fill {now e : ℕ} {call : Write2} (htaken : s.writer = .taken e call) :
      Moves s (.fill now) { s with ctx := fillItem s.ctx e call now, writer := .filled e call }
  | queue {e : ℕ} {call : Write2} (hfilled : s.writer = .filled e call) :
      Moves s .queue
        { s with ctx := queueItem s.ctx e, writer := .idle, written := s.written ++ [call.buf] }
  | settle {ticks : ℤ} {didPcrReset : Bool} (hidle : s.writer = .idle) :
      Moves s (.settle ticks didPcrReset)
        { s with ctx := settleInterval s.ctx ticks didPcrReset }
  | makeloc {uS : ℕ} (hwaiting : s.output = .waiting) :
      Moves s (.makeloc uS)
        { s with
          ctx := (queueProcessMakeloc s.ctx uS).2
          output := .begin (queueProcessMakeloc s.ctx uS).1 }
  | callback {served rest : List ℕ} {e : ℕ}
      (hserving : s.output = .serving served (e :: rest) false) (hcb : s.ctx.outputCb = true) :
      Moves s .callback
        { s with
          output := .serving served (e :: rest) true
          delivered := s.delivered ++ [deliver (s.ctx.items e)] }
  | account {served rest : List ℕ} {e : ℕ}
      (hserving : s.output = .serving served (e :: rest) true) :
      Moves s .account
        { s with ctx := accountItem s.ctx e, output := .serving (served ++ [e]) rest false }
  | release {served pending : List ℕ} (hserving : s.output = .serving served pending false)
      (hdone : pending = [] ∨ s.ctx.outputCb = false) :
      Moves s .release { s with ctx := releaseItems s.ctx (served ++ pending), output := .waiting }
  | reset : Moves s .reset { s with ctx := smootherPcrReset s.ctx }
  | setBlockingWrites {tf : Bool} :
      Moves s (.setBlockingWrites tf) { s with ctx := { s.ctx with blockingWrites := tf } }

theorem moves_of_step {s s' : State} {i : Event} {out : Unit} (h : step s i = some (s', out)) :
    Moves s i s' := by
  cases i with
  | take call =>
      simp only [step] at h
      split at h
      case h_1 hidle =>
        cases htake : takeItem s.ctx with
        | none => simp [htake] at h
        | some r =>
            simp only [htake, Option.map_some, Option.some.injEq, Prod.mk.injEq, and_true] at h
            subst h
            exact .take hidle htake
      case h_2 => cases h
  | fill now =>
      simp only [step] at h
      split at h
      case h_1 e call htaken =>
        cases h
        exact .fill htaken
      case h_2 => cases h
  | queue =>
      simp only [step] at h
      split at h
      case h_1 e call hfilled =>
        cases h
        exact .queue hfilled
      case h_2 => cases h
  | settle ticks didPcrReset =>
      simp only [step] at h
      split at h
      case h_1 hidle =>
        cases h
        exact .settle hidle
      case h_2 => cases h
  | makeloc uS =>
      simp only [step] at h
      split at h
      case h_1 hwaiting =>
        cases h
        exact .makeloc hwaiting
      case h_2 => cases h
  | callback =>
      simp only [step] at h
      split at h
      case h_1 served e rest hserving =>
        split_ifs at h with hcb
        cases h
        exact .callback hserving hcb
      case h_2 => cases h
  | account =>
      simp only [step] at h
      split at h
      case h_1 served e rest hserving =>
        cases h
        exact .account hserving
      case h_2 => cases h
  | release =>
      simp only [step] at h
      split at h
      case h_1 served pending hserving =>
        split_ifs at h with hdone
        cases h
        exact .release hserving hdone
      case h_2 => cases h
  | reset =>
      cases h
      exact .reset
  | setBlockingWrites tf =>
      cases h
      exact .setBlockingWrites

end LtnTsTools.Smoother
