import LtnTsTools.CTypes
import LtnTsTools.ContinuityAccounting
import LtnTsTools.OrderedOutput
import LtnTsTools.RingBufferOverflow

/-!
# The PES extractor

The model of `pes-extractor.c`.  A packet passes the filters of the loop in
`ltntstools_pes_extractor_write` or is dropped; one that passes either continues
the PES in the ring or closes it and starts the next one.  The process can end
on the way: by one of the three calls of `abort`, or by a copy that leaves the
packet or the ring.

Left out are the stream id and the arrival time, which nothing here reads.  An
`int` that counts bytes of the ring is a number without bound; the ring itself
is limited by an `int`.
-/

namespace LtnTsTools.PesExtractor

open RingBuffer Stats Pes PartialMachine BitReader

/-- How the process ends inside a write. -/
inductive Halt
  /-- `abort`: the ring does not hold what was counted. -/
  | sizeMismatch
  /-- `abort`: a PES of less than 16 bytes. -/
  | shortPes
  /-- `abort`: the ring overflows at the start of a PES. -/
  | ringOverflow
  /-- A negative length is handed to the ring. -/
  | outsidePacket
  /-- A copy leaves the ring. -/
  | outsideRing
deriving DecidableEq

/-- `struct pcr_item_s`. -/
structure PcrItem where
  pcr : ℤ
  ringPos : ℕ
deriving DecidableEq

/-- `MAX_PCR_ITEMS`. -/
def maxPcrItems : ℕ := 12

/-- `struct pes_extractor_s`; `cb` tells whether a callback is set. -/
structure Ctx where
  pid : ℕ
  rb : KLRingBuffer
  appending : Bool
  skipDataExtraction : Bool
  cb : Bool
  orderedOutput : Bool
  ordered : OrderedOutput.State
  computedRingSize : ℤ
  largestRingFrame : ℕ
  lastCCCounter : ℕ
  libstats : StreamStatistics
  pcrList : List PcrItem
  preventWrites : Bool

def orDefault (value dflt : ℤ) : ℤ := if value = -1 then dflt else value

/-- `ltntstools_pes_extractor_alloc`.  `none` is an extractor without a ring: the
source keeps the null pointer and faults on it later.  A negative size is one
that no allocation grants. -/
def pesExtractorAlloc (pid : ℕ) (cb : Bool) (bufferMin bufferMax : ℤ) : Option Ctx :=
  let bufferMin := orDefault bufferMin (4 * 1048576)
  let bufferMax := orDefault bufferMax (32 * 1048576)
  if maxObject < uint64 bufferMin then none
  else (rbNew (uint64 bufferMin) (uint64 bufferMax)).map fun rb ↦
    { pid := pid
      rb := rb
      appending := false
      skipDataExtraction := false
      cb := cb
      orderedOutput := false
      ordered := OrderedOutput.State.fresh
      computedRingSize := 0
      largestRingFrame := 0
      lastCCCounter := 0
      libstats := pidStatsAlloc
      pcrList := List.replicate maxPcrItems ⟨0, 0⟩
      preventWrites := false }

theorem pesExtractorAlloc_isSome (pid : ℕ) (cb : Bool) {bufferMin bufferMax : ℤ}
    (hmin : 0 < orDefault bufferMin (4 * 1048576))
    (hle : orDefault bufferMin (4 * 1048576) ≤ orDefault bufferMax (32 * 1048576))
    (hmax : orDefault bufferMax (32 * 1048576) < 2 ^ 31) :
    ∃ ctx, pesExtractorAlloc pid cb bufferMin bufferMax = some ctx ∧ ctx.pid = pid := by
  unfold pesExtractorAlloc
  generalize orDefault bufferMin (4 * 1048576) = low at *
  generalize orDefault bufferMax (32 * 1048576) = high at *
  have hsize : ¬maxObject < uint64 low := by
    unfold maxObject uint64
    omega
  have hfit : ¬(uint64 low = 0 ∨ uint64 low > uint64 high) := by
    unfold uint64
    omega
  simp only [if_neg hsize, rbNew, if_neg hfit, Option.map_some]
  exact ⟨_, rfl, rfl⟩

def pesExtractorSetOrderedOutput (ctx : Ctx) (tf : Bool) : Ctx := { ctx with orderedOutput := tf }

def pesExtractorSetSkipData (ctx : Ctx) (tf : Bool) : Ctx := { ctx with skipDataExtraction := tf }

def pesExtractorSetPcrPid (ctx : Ctx) (pcrpidnr : ℕ) : Ctx :=
  { ctx with libstats := pidSetContainsPcr ctx.libstats (pcrpidnr &&& 0x1fff) }

def configured (ctx : Ctx) (orderedOutput skipData : Bool) (pcrPid : Option ℕ) : Ctx :=
  let ctx := pesExtractorSetSkipData (pesExtractorSetOrderedOutput ctx orderedOutput) skipData
  pcrPid.elim ctx (pesExtractorSetPcrPid ctx)

/-- `updatePcrList`: the last item is rewritten and moves to the front. -/
def updatePcrList (ctx : Ctx) (pcr : ℤ) (ringPos : ℕ) : Ctx :=
  if ctx.pcrList = [] then ctx
  else { ctx with pcrList := ⟨pcr, ringPos⟩ :: ctx.pcrList.dropLast }

def findPcrFromPosition (ctx : Ctx) (ringPos : ℕ) : ℤ :=
  match ctx.pcrList.find? fun e ↦ e.ringPos = ringPos with
  | some e => e.pcr
  | none => -1

/-! ## Closing a PES -/

def parseRing (ctx : Ctx) (buf : List UInt8) : ParseState :=
  pesPacketParse pesPacketAlloc (klbsReadSetBuffer buf) ctx.skipDataExtraction

/-- The parsed PES goes to the callback: there is one, the reader was not overrun
and the count of bits, stored in an `int`, is not zero. -/
def isDelivered (ctx : Ctx) (buf : List UInt8) : Bool :=
  !(parseRing ctx buf).bs.overrun && (parseRing ctx buf).bits % 2 ^ 32 != 0 && ctx.cb

/-- The packet that is handed out for the bytes of the ring. -/
def deliveredPes (ctx : Ctx) (buf : List UInt8) : PesPacket :=
  { (parseRing ctx buf).pkt with
    pcr := findPcrFromPosition ctx (rbGetReadPos ctx.rb % 2 ^ 32)
    rawBuffer := buf }

def deliverPes (ctx : Ctx) (buf : List UInt8) : Ctx × List PesPacket :=
  if isDelivered ctx buf then
    if ctx.orderedOutput then
      let d := OrderedOutput.deliver ctx.ordered (deliveredPes ctx buf)
      ({ ctx with ordered := d.1 }, d.2)
    else (ctx, [deliveredPes ctx buf])
  else (ctx, [])

/-- `_processRing`, with the packets given to the callback. -/
def processRing (ctx : Ctx) : Except Halt (Ctx × List PesPacket) :=
  let rlen := rbUsed ctx.rb
  if rlen = 0 then .ok (ctx, [])
  else if ctx.computedRingSize ≠ rlen then .error .sizeMismatch
  else if rlen < 16 then .error .shortPes
  else
    match rbPeek ctx.rb rlen with
    | none => .error .outsideRing
    | some (rb, buf) =>
        let ctx := { ctx with rb := rb }
        if buf.length = rlen then
          .ok (deliverPes { ctx with largestRingFrame := max ctx.largestRingFrame rlen } buf)
        else .ok (ctx, [])

/-! ## One packet -/

structure RingWrite where
  offset : ℕ
  wsize : ℤ
deriving DecidableEq

/-- What a packet hands to the ring: everything behind the adaption field. -/
def payloadWrite (pkt : Packet) : RingWrite where
  offset := Ts.payloadOffset pkt
  wsize := 188 - Ts.payloadOffset pkt

/-- What a packet brings about: the callbacks, the ranges handed to the ring and
the context, unless the process ends. -/
structure Outcome where
  callbacks : List PesPacket
  handed : List RingWrite
  next : Except Halt Ctx

def Outcome.halted (o : Outcome) : Option Halt :=
  match o.next with
  | .error h => some h
  | .ok _ => none

def Outcome.idle (ctx : Ctx) : Outcome := ⟨[], [], .ok ctx⟩

/-- One outcome and then another, unless the first ends the process. -/
def Outcome.andThen (o : Outcome) (f : Ctx → Outcome) : Outcome :=
  match o.next with
  | .error _ => o
  | .ok ctx =>
      { callbacks := o.callbacks ++ (f ctx).callbacks
        handed := o.handed ++ (f ctx).handed
        next := (f ctx).next }

/-- The write of a payload, with `didOverflow`. -/
def writePayload (ctx : Ctx) (pkt : Packet) : Except Halt (Ctx × Bool) :=
  let w := payloadWrite pkt
  if w.wsize < 0 then .error .outsidePacket
  else
    let r := rbWriteWithState ctx.rb (pkt.bytes.drop w.offset)
    match r.buf with
    | none => .error .outsideRing
    | some rb =>
        .ok ({ ctx with rb := rb, computedRingSize := ctx.computedRingSize + w.wsize },
          r.didOverflow)

/-- The branch for a packet in the middle of a PES; an overflow goes unnoticed. -/
def continuePes (ctx : Ctx) (pkt : Packet) : Outcome where
  callbacks := []
  handed := [payloadWrite pkt]
  next := (writePayload ctx pkt).map Prod.fst

/-- The ring emptied for the next PES, with the clock at its start. -/
def clearRing (ctx : Ctx) : Ctx :=
  let ctx := { ctx with rb := rbEmpty ctx.rb, computedRingSize := 0 }
  updatePcrList ctx ctx.libstats.bc.stc (rbGetWritePos ctx.rb % 2 ^ 32)

def startPes (ctx : Ctx) (pkt : Packet) : Outcome :=
  match processRing ctx with
  | .error h => ⟨[], [], .error h⟩
  | .ok (ctx, pess) =>
      { callbacks := pess
        handed := [payloadWrite pkt]
        next := (writePayload (clearRing ctx) pkt).bind fun r ↦
          if r.2 then .error .ringOverflow else .ok r.1 }

/-- The two branches of the loop that use the ring. -/
inductive Branch
  | continues
  | starts
deriving DecidableEq

def restart (ctx : Ctx) (appending : Bool) : Ctx :=
  { ctx with appending := appending, rb := rbEmpty ctx.rb, computedRingSize := 0 }

/-- The reaction to the error counter of the multiplex. -/
def checkContinuity (ctx : Ctx) : Ctx :=
  let c := ctx.libstats.ccErrors
  { (if ctx.lastCCCounter ≠ c then restart ctx false else ctx) with lastCCCounter := c }

/-- The loop up to its two branches: the context there, and the branch that is
taken, if any. -/
def chooseBranch (ctx : Ctx) (pkt : Packet) : Ctx × Option Branch :=
  let ctx := { ctx with libstats := pidStatsUpdate ctx.libstats [pkt] }
  if Ts.pid pkt ≠ ctx.pid then (ctx, none)
  else
    let ctx := checkContinuity ctx
    let pusi := Ts.payloadUnitStartIndicator pkt
    if Ts.adaptionFieldControl pkt = 2 then (ctx, none)
    else if pusi = false ∧ ctx.appending = false then (ctx, none)
    else
      let ctx := if pusi = true ∧ ctx.appending = false then restart ctx true else ctx
      (ctx, some (if pusi then .starts else .continues))

def writePacket (ctx : Ctx) (pkt : Packet) : Outcome :=
  match chooseBranch ctx pkt with
  | (ctx, none) => .idle ctx
  | (ctx, some .continues) => continuePes ctx pkt
  | (ctx, some .starts) => startPes ctx pkt

def writeLoop : Ctx → List Packet → Outcome
  | ctx, [] => .idle ctx
  | ctx, pkt :: rest => (writePacket ctx pkt).andThen fun ctx ↦ writeLoop ctx rest

/-- `ltntstools_pes_extractor_write`. -/
def pesExtractorWrite (ctx : Ctx) (pkts : List Packet) : Outcome :=
  if ctx.preventWrites then .idle ctx else writeLoop ctx pkts

def pesExtractorWrites : Ctx → List (List Packet) → Outcome
  | ctx, [] => .idle ctx
  | ctx, pkts :: rest =>
      (pesExtractorWrite ctx pkts).andThen fun ctx ↦ pesExtractorWrites ctx rest

/-! ## What a packet does -/

/-- The context with a packet counted and the error counter read. -/
def noted (ctx : Ctx) (pkt : Packet) : Ctx :=
  { ctx with
    libstats := pidStatsUpdate ctx.libstats [pkt]
    lastCCCounter := (pidStatsUpdate ctx.libstats [pkt]).ccErrors }

/-- The packet finds a PES in the making, and the multiplex has no new error. -/
def keepsAppending (ctx : Ctx) (pkt : Packet) : Bool :=
  ctx.appending && decide (ctx.lastCCCounter = (pidStatsUpdate ctx.libstats [pkt]).ccErrors)

/-- The context in which a packet reaches the branch that starts a PES. -/
def opened (ctx : Ctx) (pkt : Packet) : Ctx :=
  if keepsAppending ctx pkt then noted ctx pkt else restart (noted ctx pkt) true

/-- A packet of the extracted pid that is not all adaption field. -/
def Wanted (ctx : Ctx) (pkt : Packet) : Prop :=
  Ts.pid pkt = ctx.pid ∧ Ts.adaptionFieldControl pkt ≠ 2

instance (ctx : Ctx) (pkt : Packet) : Decidable (Wanted ctx pkt) :=
  inferInstanceAs (Decidable (_ ∧ _))

theorem checkContinuity_noted (ctx : Ctx) (pkt : Packet) :
    checkContinuity { ctx with libstats := pidStatsUpdate ctx.libstats [pkt] } =
      if ctx.lastCCCounter = (pidStatsUpdate ctx.libstats [pkt]).ccErrors then noted ctx pkt
      else restart (noted ctx pkt) false := by
  by_cases h : ctx.lastCCCounter = (pidStatsUpdate ctx.libstats [pkt]).ccErrors
  · simp [checkContinuity, h, noted]
  · simp [checkContinuity, h, noted, restart]

theorem writePacket_foreign {ctx : Ctx} {pkt : Packet} (h : Ts.pid pkt ≠ ctx.pid) :
    writePacket ctx pkt =
      .idle { ctx with libstats := pidStatsUpdate ctx.libstats [pkt] } := by
  simp [writePacket, chooseBranch, h]

theorem chooseBranch_starts {ctx : Ctx} {pkt : Packet} (h : Wanted ctx pkt)
    (hpusi : Ts.payloadUnitStartIndicator pkt = true) :
    chooseBranch ctx pkt = (opened ctx pkt, some .starts) := by
  have hchecked := checkContinuity_noted ctx pkt
  unfold chooseBranch
  simp only [h.1, ne_eq, not_true_eq_false, if_false, hchecked, h.2, hpusi]
  unfold opened keepsAppending
  by_cases hcc : ctx.lastCCCounter = (pidStatsUpdate ctx.libstats [pkt]).ccErrors
  · cases happ : ctx.appending <;> simp [hcc, noted, happ, restart]
  · simp [hcc, restart, rbEmpty]

theorem chooseBranch_continues {ctx : Ctx} {pkt : Packet} (h : Wanted ctx pkt)
    (hpusi : Ts.payloadUnitStartIndicator pkt = false) (hkeep : keepsAppending ctx pkt = true) :
    chooseBranch ctx pkt = (noted ctx pkt, some .continues) := by
  have hchecked := checkContinuity_noted ctx pkt
  obtain ⟨happ, hcc⟩ : ctx.appending = true ∧
      ctx.lastCCCounter = (pidStatsUpdate ctx.libstats [pkt]).ccErrors := by
    simpa [keepsAppending] using hkeep
  unfold chooseBranch
  simp only [h.1, ne_eq, not_true_eq_false, if_false, hchecked, h.2, hpusi]
  simp [hcc, noted, happ]

def passedOver (ctx : Ctx) (pkt : Packet) : Ctx :=
  if ctx.lastCCCounter = (pidStatsUpdate ctx.libstats [pkt]).ccErrors then noted ctx pkt
  else restart (noted ctx pkt) false

/-- A packet of the pid without payload, or outside a PES. -/
theorem chooseBranch_passedOver {ctx : Ctx} {pkt : Packet} (hpid : Ts.pid pkt = ctx.pid)
    (h : Ts.adaptionFieldControl pkt = 2 ∨
      Ts.payloadUnitStartIndicator pkt = false ∧ keepsAppending ctx pkt = false) :
    chooseBranch ctx pkt = (passedOver ctx pkt, none) := by
  have hchecked := checkContinuity_noted ctx pkt
  unfold chooseBranch
  simp only [hpid, ne_eq, not_true_eq_false, if_false, hchecked]
  rcases h with hafc | ⟨hpusi, hkeep⟩
  · rw [if_pos hafc]
    rfl
  · have happ : (passedOver ctx pkt).appending = false := by
      unfold passedOver
      unfold keepsAppending at hkeep
      split_ifs with hcc
      · simpa [hcc, noted] using hkeep
      · rfl
    unfold passedOver at happ ⊢
    simp only [hpusi, happ]
    split_ifs <;> simp_all

/-- A packet is counted only, passed over, or taken by one of the two branches. -/
theorem writePacket_cases (ctx : Ctx) (pkt : Packet) :
    (Ts.pid pkt ≠ ctx.pid ∧ writePacket ctx pkt =
      .idle { ctx with libstats := pidStatsUpdate ctx.libstats [pkt] }) ∨
    (Ts.pid pkt = ctx.pid ∧ (Ts.adaptionFieldControl pkt = 2 ∨
      Ts.payloadUnitStartIndicator pkt = false ∧ keepsAppending ctx pkt = false) ∧
      writePacket ctx pkt = .idle (passedOver ctx pkt)) ∨
    (Wanted ctx pkt ∧ Ts.payloadUnitStartIndicator pkt = false ∧ keepsAppending ctx pkt = true ∧
      writePacket ctx pkt = continuePes (noted ctx pkt) pkt) ∨
    (Wanted ctx pkt ∧ Ts.payloadUnitStartIndicator pkt = true ∧
      writePacket ctx pkt = startPes (opened ctx pkt) pkt) := by
  by_cases hpid : Ts.pid pkt = ctx.pid
  · right
    by_cases hafc : Ts.adaptionFieldControl pkt = 2
    · exact .inl ⟨hpid, .inl hafc, by rw [writePacket, chooseBranch_passedOver hpid (.inl hafc)]⟩
    · have hwanted : Wanted ctx pkt := ⟨hpid, hafc⟩
      cases hpusi : Ts.payloadUnitStartIndicator pkt with
      | true =>
          exact .inr (.inr ⟨hwanted, rfl, by rw [writePacket, chooseBranch_starts hwanted hpusi]⟩)
      | false =>
          cases hkeep : keepsAppending ctx pkt with
          | true =>
              exact .inr (.inl ⟨hwanted, rfl, rfl, by
                rw [writePacket, chooseBranch_continues hwanted hpusi hkeep]⟩)
          | false =>
              exact .inl ⟨hpid, .inr ⟨rfl, rfl⟩, by
                rw [writePacket, chooseBranch_passedOver hpid (.inr ⟨hpusi, hkeep⟩)]⟩
  · exact .inl ⟨hpid, writePacket_foreign hpid⟩

/-! ## What is left alone -/

/-- The fields that only the setters change. -/
structure Settings where
  pid : ℕ
  skipDataExtraction : Bool
  cb : Bool
  orderedOutput : Bool
  preventWrites : Bool

def Ctx.settings (ctx : Ctx) : Settings :=
  ⟨ctx.pid, ctx.skipDataExtraction, ctx.cb, ctx.orderedOutput, ctx.preventWrites⟩

/-- The fields that the two branches leave alone. -/
structure Frame where
  settings : Settings
  appending : Bool
  lastCCCounter : ℕ
  libstats : StreamStatistics

def Ctx.frame (ctx : Ctx) : Frame :=
  ⟨ctx.settings, ctx.appending, ctx.lastCCCounter, ctx.libstats⟩

theorem frame_deliverPes (ctx : Ctx) (buf : List UInt8) :
    (deliverPes ctx buf).1.frame = ctx.frame := by
  unfold deliverPes
  split_ifs <;> rfl

theorem frame_processRing {ctx : Ctx} {r : Ctx × List PesPacket}
    (h : processRing ctx = .ok r) : r.1.frame = ctx.frame := by
  unfold processRing at h
  simp only at h
  split_ifs at h
  · rw [← Except.ok.inj h]
  · cases hpeek : rbPeek ctx.rb (rbUsed ctx.rb) with
    | none => simp [hpeek] at h
    | some x =>
        simp only [hpeek] at h
        split_ifs at h
        · rw [← Except.ok.inj h, frame_deliverPes]
          rfl
        · rw [← Except.ok.inj h]
          rfl

theorem frame_clearRing (ctx : Ctx) : (clearRing ctx).frame = ctx.frame := by
  unfold clearRing updatePcrList
  simp only
  split_ifs <;> rfl

theorem frame_writePayload {ctx : Ctx} {pkt : Packet} {r : Ctx × Bool}
    (h : writePayload ctx pkt = .ok r) : r.1.frame = ctx.frame := by
  unfold writePayload at h
  simp only at h
  split_ifs at h
  cases hbuf : (rbWriteWithState ctx.rb (pkt.bytes.drop (payloadWrite pkt).offset)).buf with
  | none => simp [hbuf] at h
  | some rb =>
      simp only [hbuf] at h
      rw [← Except.ok.inj h]
      rfl

theorem frame_continuePes {ctx ctx' : Ctx} {pkt : Packet}
    (h : (continuePes ctx pkt).next = .ok ctx') : ctx'.frame = ctx.frame := by
  cases hwrite : writePayload ctx pkt with
  | error e => simp [continuePes, hwrite, Except.map] at h
  | ok r =>
      obtain rfl : r.1 = ctx' := by simpa [continuePes, hwrite, Except.map] using h
      exact frame_writePayload hwrite

theorem frame_startPes {ctx ctx' : Ctx} {pkt : Packet}
    (h : (startPes ctx pkt).next = .ok ctx') : ctx'.frame = ctx.frame := by
  unfold startPes at h
  cases hring : processRing ctx with
  | error e => simp [hring] at h
  | ok out =>
      simp only [hring] at h
      cases hwrite : writePayload (clearRing out.1) pkt with
      | error e => simp [hwrite, Except.bind] at h
      | ok r =>
          simp only [hwrite, Except.bind] at h
          split_ifs at h
          obtain rfl : r.1 = ctx' := by simpa using h
          rw [frame_writePayload hwrite, frame_clearRing, frame_processRing hring]

@[simp] theorem rb_deliverPes (ctx : Ctx) (buf : List UInt8) :
    (deliverPes ctx buf).1.rb = ctx.rb := by
  unfold deliverPes
  split_ifs <;> rfl

@[simp] theorem rb_clearRing (ctx : Ctx) : (clearRing ctx).rb = rbEmpty ctx.rb := by
  unfold clearRing updatePcrList
  simp only
  split_ifs <;> rfl

@[simp] theorem computedRingSize_clearRing (ctx : Ctx) : (clearRing ctx).computedRingSize = 0 := by
  unfold clearRing updatePcrList
  simp only
  split_ifs <;> rfl

theorem settings_opened (ctx : Ctx) (pkt : Packet) : (opened ctx pkt).settings = ctx.settings := by
  unfold opened
  split_ifs <;> rfl

theorem settings_passedOver (ctx : Ctx) (pkt : Packet) :
    (passedOver ctx pkt).settings = ctx.settings := by
  unfold passedOver
  split_ifs <;> rfl

theorem settings_writePacket {ctx ctx' : Ctx} {pkt : Packet}
    (h : (writePacket ctx pkt).next = .ok ctx') : ctx'.settings = ctx.settings := by
  rcases writePacket_cases ctx pkt with
    ⟨-, heq⟩ | ⟨-, -, heq⟩ | ⟨-, -, -, heq⟩ | ⟨-, -, heq⟩ <;> rw [heq] at h
  · rw [← Except.ok.inj h]
    rfl
  · rw [← Except.ok.inj h, settings_passedOver]
  · exact (congrArg Frame.settings (frame_continuePes h)).trans rfl
  · exact (congrArg Frame.settings (frame_startPes h)).trans (settings_opened ctx pkt)

/-! ## Runs -/

theorem Outcome.andThen_assoc (o : Outcome) (f g : Ctx → Outcome) :
    (o.andThen f).andThen g = o.andThen fun ctx ↦ (f ctx).andThen g := by
  cases hnext : o.next with
  | error e => simp [Outcome.andThen, hnext]
  | ok ctx =>
      cases hmid : (f ctx).next with
      | error e => simp [Outcome.andThen, hnext, hmid]
      | ok ctx' => simp [Outcome.andThen, hnext, hmid]

theorem Outcome.idle_andThen (ctx : Ctx) (f : Ctx → Outcome) :
    (Outcome.idle ctx).andThen f = f ctx := by
  simp [Outcome.idle, Outcome.andThen]

theorem writeLoop_append (ctx : Ctx) (xs ys : List Packet) :
    writeLoop ctx (xs ++ ys) = (writeLoop ctx xs).andThen fun ctx ↦ writeLoop ctx ys := by
  induction xs generalizing ctx with
  | nil => rw [List.nil_append, writeLoop, Outcome.idle_andThen]
  | cons pkt rest ih =>
      simp only [List.cons_append, writeLoop, ih]
      exact (Outcome.andThen_assoc _ _ _).symm

theorem writeLoop_foreign (pkts : List Packet) {ctx : Ctx}
    (h : ∀ pkt ∈ pkts, Ts.pid pkt ≠ ctx.pid) :
    ∃ last, writeLoop ctx pkts = .idle last := by
  induction pkts generalizing ctx with
  | nil => exact ⟨ctx, rfl⟩
  | cons pkt rest ih =>
      rw [writeLoop, writePacket_foreign (h pkt List.mem_cons_self), Outcome.idle_andThen]
      exact ih fun x hx ↦ h x (List.mem_cons_of_mem pkt hx)

theorem Outcome.andThen_congr {o : Outcome} {f g : Ctx → Outcome}
    (h : ∀ ctx, o.next = .ok ctx → f ctx = g ctx) : o.andThen f = o.andThen g := by
  unfold Outcome.andThen
  cases hnext : o.next with
  | error e => rfl
  | ok ctx => simp [h ctx hnext]

theorem Outcome.andThen_next {o : Outcome} {f : Ctx → Outcome} {ctx' : Ctx}
    (h : (o.andThen f).next = .ok ctx') : ∃ ctx, o.next = .ok ctx ∧ (f ctx).next = .ok ctx' := by
  cases hnext : o.next with
  | error e => simp [Outcome.andThen, hnext] at h
  | ok ctx => exact ⟨ctx, rfl, by simpa [Outcome.andThen, hnext] using h⟩

theorem settings_writeLoop {ctx ctx' : Ctx} {pkts : List Packet}
    (h : (writeLoop ctx pkts).next = .ok ctx') : ctx'.settings = ctx.settings := by
  induction pkts generalizing ctx with
  | nil => rw [← Except.ok.inj h]
  | cons pkt rest ih =>
      obtain ⟨mid, hmid, hrest⟩ := Outcome.andThen_next h
      rw [ih hrest, settings_writePacket hmid]

/-- How the packets are cut into calls makes no difference. -/
theorem pesExtractorWrites_eq {ctx : Ctx} (calls : List (List Packet))
    (h : ctx.preventWrites = false) :
    pesExtractorWrites ctx calls = writeLoop ctx calls.flatten := by
  induction calls generalizing ctx with
  | nil => rfl
  | cons pkts rest ih =>
      rw [pesExtractorWrites, pesExtractorWrite, h, if_neg (by simp), List.flatten_cons,
        writeLoop_append]
      apply Outcome.andThen_congr
      intro ctx' hnext
      exact ih ((congrArg Settings.preventWrites (settings_writeLoop hnext)).trans h)

/-- One packet as a step that fails when the process ends. -/
def step (ctx : Ctx) (pkt : Packet) : Option (Ctx × List PesPacket) :=
  match (writePacket ctx pkt).next with
  | .error _ => none
  | .ok ctx' => some (ctx', (writePacket ctx pkt).callbacks)

theorem step_of_next {ctx ctx' : Ctx} {pkt : Packet} (h : (writePacket ctx pkt).next = .ok ctx') :
    step ctx pkt = some (ctx', (writePacket ctx pkt).callbacks) := by
  simp [step, h]

theorem writeLoop_of_safe {good : Ctx → Packet → Ctx × List PesPacket → Prop} {pkts : List Packet}
    {ctx : Ctx} (h : Safe step good ctx pkts) : (writeLoop ctx pkts).halted = none := by
  induction pkts generalizing ctx with
  | nil => rfl
  | cons pkt rest ih =>
      cases hnext : (writePacket ctx pkt).next with
      | error e => simp [Safe, step, hnext] at h
      | ok ctx' =>
          simp only [Safe, step, hnext] at h
          have hrest := ih h.2
          simpa [writeLoop, Outcome.andThen, Outcome.halted, hnext] using hrest

/-! ## New extractors -/

/-- A size argument that gets a ring is a size or asks for the default. -/
theorem bufferMin_of_alloc {pid : ℕ} {cb : Bool} {bufferMin bufferMax : ℤ} {ctx : Ctx}
    (hint : -2 ^ 31 ≤ bufferMin) (h : pesExtractorAlloc pid cb bufferMin bufferMax = some ctx) :
    -1 ≤ bufferMin := by
  unfold pesExtractorAlloc at h
  simp only at h
  split_ifs at h with hobj
  unfold maxObject uint64 orDefault at hobj
  split_ifs at hobj <;> omega

/-- A new extractor waits for a start, with an empty ring. -/
theorem alloc_fields {pid : ℕ} {cb : Bool} {bufferMin bufferMax : ℤ} {ctx : Ctx}
    (h : pesExtractorAlloc pid cb bufferMin bufferMax = some ctx) :
    ctx = { ctx with
      pid := pid
      rb := rbEmpty ctx.rb
      appending := false
      skipDataExtraction := false
      cb := cb
      orderedOutput := false
      computedRingSize := 0
      lastCCCounter := 0
      libstats := pidStatsAlloc
      preventWrites := false } := by
  unfold pesExtractorAlloc at h
  simp only at h
  split_ifs at h
  obtain ⟨rb, hrb, rfl⟩ := Option.map_eq_some_iff.mp h
  unfold rbNew at hrb
  split_ifs at hrb
  rw [← Option.some.inj hrb]
  rfl

theorem alloc_ring {pid : ℕ} {cb : Bool} {bufferMin bufferMax : ℤ} {ctx : Ctx}
    (hint : -2 ^ 31 ≤ bufferMin ∧ bufferMin < 2 ^ 31)
    (hmax : -1 ≤ bufferMax ∧ bufferMax < 2 ^ 31)
    (h : pesExtractorAlloc pid cb bufferMin bufferMax = some ctx) :
    Inv ctx.rb ∧ (ctx.rb.size : ℤ) = orDefault bufferMin (4 * 1048576) := by
  have hmin := bufferMin_of_alloc hint.1 h
  unfold pesExtractorAlloc at h
  simp only at h
  split_ifs at h with hobj
  obtain ⟨rb, hrb, rfl⟩ := Option.map_eq_some_iff.mp h
  have hobj' : uint64 (orDefault bufferMax (32 * 1048576)) ≤ maxObject := by
    unfold maxObject uint64 orDefault
    split_ifs <;> omega
  refine ⟨inv_rbNew hobj' hrb, ?_⟩
  unfold rbNew at hrb
  split_ifs at hrb with hbad
  rw [← Option.some.inj hrb]
  simp only [KLRingBuffer.size, List.length_replicate]
  unfold uint64 orDefault
  split_ifs <;> omega

end LtnTsTools.PesExtractor
