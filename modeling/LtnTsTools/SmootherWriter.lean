import LtnTsTools.SmootherDelivery
import LtnTsTools.Draining

/-!
# The writer of the smoother

The input half of `smoother-pcr.c`: `smoother_pcr_write` collects packets in a
byte array, searches it for the first two clock references on the chosen pid,
cuts the packets between them into items and drops them from the array, as long
as it finds more.  What it does to the queue is a list of calls of
`smoother_pcr_write2`, with the clock state it leaves behind each interval.
-/

namespace LtnTsTools.Smoother

open PartialMachine Draining Ts

/-! ## The code -/

/-- `struct smoother_pcr_context_s`, the part that only the writer uses. -/
structure WriterContext where
  pcrPID : ℕ
  ba : List UInt8
  didPcrReset : Bool
  lastPcrResetTime : ℤ
  pcrIntervalPerPacketTicksLast : ℤ
  pcrIntervalTicksLast : ℤ

/-- The writer's part of a new context; `time` is what `time(NULL)` returned. -/
def writerAlloc (pcrPID : ℕ) (time : ℤ) : WriterContext where
  pcrPID := pcrPID
  ba := []
  didPcrReset := false
  lastPcrResetTime := time
  pcrIntervalPerPacketTicksLast := 0
  pcrIntervalTicksLast := 0

/-- What `smoother_pcr_write` does to the queue. -/
inductive WriterOp
  | write2 (call : Write2)
  | settle (pcrIntervalPerPacketTicks : ℤ) (didPcrReset : Bool)
deriving DecidableEq

/-- `byte_array_append`; `none` when the length does not fit into an `int`. -/
def byteArrayAppend (ba buf : List UInt8) : Option (List UInt8) :=
  if ba.length + buf.length < 2 ^ 31 then some (ba ++ buf) else none

/-- `byte_array_trim`. -/
def byteArrayTrim (ba : List UInt8) (lengthBytes : ℕ) : List UInt8 :=
  if lengthBytes > ba.length then ba else ba.drop lengthBytes

/-- The inner loop of `smoother_pcr_write`; `data` is the buffer from the current
position on.  Every turn takes something off `rem`, which is fuel enough. -/
def cutInterval (pcrIntervalPerPacketTicks pcrIntervalTicks : ℤ) :
    ℕ → List UInt8 → ℕ → ℤ → List Write2
  | 0, _, _, _ => []
  | fuel + 1, data, rem, pcrValue =>
      if rem > 0 then
        let cplen := min (7 * 188) rem
        ⟨data.take cplen, pcrValue, pcrIntervalPerPacketTicks, pcrIntervalTicks⟩ ::
          cutInterval pcrIntervalPerPacketTicks pcrIntervalTicks fuel (data.drop cplen)
            (rem - cplen) (scrAdd pcrValue (pcrIntervalPerPacketTicks * (cplen / 188 : ℕ)))
      else []

def jumps (first second : ℤ) : Bool := decide (scrDiff first second > 15 * 27000000)

/-- `pcrIntervalTicks`: behind a jump that of the interval before. -/
def intervalTicks (w : WriterContext) (first second : ℤ) : ℤ :=
  if jumps first second then w.pcrIntervalTicksLast else scrDiff first second

/-- `pcrIntervalPerPacketTicks`: behind a jump that of the interval before. -/
def perPacketTicks (w : WriterContext) (first second : ℤ) (pktCount : ℕ) : ℤ :=
  if jumps first second then w.pcrIntervalPerPacketTicksLast
  else (scrDiff first second).tdiv pktCount

/-- The ten seconds after which the time base is taken anew. -/
def timebaseDue (w : WriterContext) (now : ℤ) : Bool := decide (now ≥ w.lastPcrResetTime + 10)

/-- The clock state behind an interval. -/
def closeInterval (w : WriterContext) (first second : ℤ) (pktCount : ℕ) (now : ℤ) :
    WriterContext :=
  { w with
    lastPcrResetTime := if timebaseDue w now then now else w.lastPcrResetTime
    didPcrReset := false
    pcrIntervalPerPacketTicksLast := perPacketTicks w first second pktCount
    pcrIntervalTicksLast := intervalTicks w first second }

def intervalOps (w : WriterContext) (data : List UInt8) (byteCount : ℕ) (first second : ℤ)
    (pktCount : ℕ) (now : ℤ) : List WriterOp :=
  (cutInterval (perPacketTicks w first second pktCount) (intervalTicks w first second) byteCount
    data byteCount first).map .write2 ++
    [.settle (perPacketTicks w first second pktCount)
      (w.didPcrReset || jumps first second || timebaseDue w now)]

/-- One turn of the loop of `smoother_pcr_write`, behind the search; `none` is a
division by zero. -/
def writeInterval (w : WriterContext) (first second : PcrPosition) (now : ℤ) :
    Option (WriterContext × List WriterOp) :=
  let byteCount := second.offset - first.offset
  let pktCount := byteCount / 188
  if pktCount = 0 then none
  else
    some ({ closeInterval w first.pcr second.pcr pktCount now with
        ba := byteArrayTrim w.ba second.offset },
      intervalOps w (w.ba.drop first.offset) byteCount first.pcr second.pcr pktCount now)

/-- The loop of `smoother_pcr_write`; `time` are the readings of `time(NULL)`, one a
turn.  The first two clock references on the pid are used, a third one makes the
loop go on. -/
def writeLoop (time : ℕ → ℤ) : ℕ → ℕ → WriterContext → Option (WriterContext × List WriterOp)
  | 0, _, _ => none
  | fuel + 1, turn, w =>
      match queryPcrs w.ba 0 with
      | none => some (w, [])
      | some array =>
          match array.filter fun e ↦ e.pid = w.pcrPID with
          | first :: second :: others =>
              match writeInterval w first second (time turn) with
              | none => none
              | some (w', ops) =>
                  if others = [] then some (w', ops)
                  else (writeLoop time fuel (turn + 1) w').map fun r ↦ (r.1, ops ++ r.2)
          | _ => some (w, [])

/-- `smoother_pcr_write`. -/
def smootherPcrWrite (w : WriterContext) (buf : List UInt8) (time : ℕ → ℤ) :
    Option (WriterContext × List WriterOp) :=
  match byteArrayAppend w.ba buf with
  | none => none
  | some ba => writeLoop time (ba.length + 2) 0 { w with ba := ba }

/-- Calls of `smoother_pcr_write` in a row. -/
def smootherPcrWrites :
    WriterContext → List (List UInt8 × (ℕ → ℤ)) → Option (WriterContext × List WriterOp)
  | w, [] => some (w, [])
  | w, (buf, time) :: rest =>
      match smootherPcrWrite w buf time with
      | none => none
      | some (w', ops) => (smootherPcrWrites w' rest).map fun r ↦ (r.1, ops ++ r.2)

/-! ## Intervals of packets -/

def clock (pcrPID : ℕ) (pkt : Packet) : Option ℤ :=
  if pid pkt = pcrPID then (scr pkt).map fun (v : ℕ) ↦ (v : ℤ) else none

/-- The packets before the first clock reference, its value, and the packets from
there on. -/
def splitClock (pcrPID : ℕ) : List Packet → Option (List Packet × ℤ × List Packet)
  | [] => none
  | pkt :: rest =>
      match clock pcrPID pkt with
      | some v => some ([], v, pkt :: rest)
      | none => (splitClock pcrPID rest).map fun r ↦ (pkt :: r.1, r.2)

theorem splitClock_eq_none_iff {pcrPID : ℕ} {pkts : List Packet} :
    splitClock pcrPID pkts = none ↔ ∀ pkt ∈ pkts, clock pcrPID pkt = none := by
  induction pkts with
  | nil => simp [splitClock]
  | cons pkt rest ih =>
      cases hc : clock pcrPID pkt with
      | none => simp [splitClock, hc, ih]
      | some v => simp [splitClock, hc]

theorem splitClock_eq_some {pcrPID : ℕ} {pkts pre tail : List Packet} {v : ℤ}
    (h : splitClock pcrPID pkts = some (pre, v, tail)) :
    pkts = pre ++ tail ∧ (∀ pkt ∈ pre, clock pcrPID pkt = none) ∧
      ∃ a t, tail = a :: t ∧ clock pcrPID a = some v := by
  induction pkts generalizing pre with
  | nil => simp [splitClock] at h
  | cons pkt rest ih =>
      cases hc : clock pcrPID pkt with
      | some x =>
          simp only [splitClock, hc, Option.some.injEq, Prod.mk.injEq] at h
          obtain ⟨rfl, rfl, rfl⟩ := h
          exact ⟨rfl, by simp, pkt, rest, rfl, hc⟩
      | none =>
          simp only [splitClock, hc, Option.map_eq_some_iff, Prod.mk.injEq] at h
          obtain ⟨⟨pre', v', tail'⟩, hrest, rfl, rfl, rfl⟩ := h
          obtain ⟨rfl, hpre, htail⟩ := ih hrest
          refine ⟨rfl, ?_, htail⟩
          rintro p hp
          rcases List.mem_cons.mp hp with rfl | hp
          · exact hc
          · exact hpre p hp

theorem splitClock_append {pcrPID : ℕ} {pkts pre tail : List Packet} {v : ℤ} (more : List Packet)
    (h : splitClock pcrPID pkts = some (pre, v, tail)) :
    splitClock pcrPID (pkts ++ more) = some (pre, v, tail ++ more) := by
  induction pkts generalizing pre with
  | nil => simp [splitClock] at h
  | cons pkt rest ih =>
      cases hc : clock pcrPID pkt with
      | some x =>
          simp only [splitClock, hc, Option.some.injEq, Prod.mk.injEq] at h
          obtain ⟨rfl, rfl, rfl⟩ := h
          simp [splitClock, hc]
      | none =>
          simp only [splitClock, hc, Option.map_eq_some_iff, Prod.mk.injEq] at h
          obtain ⟨⟨pre', v', tail'⟩, hrest, rfl, rfl, rfl⟩ := h
          simp [splitClock, hc, ih hrest]

/-- The packets from a clock reference up to the next one, and both values. -/
structure Interval where
  packets : List Packet
  first : ℤ
  next : ℤ

def nextInterval (pcrPID : ℕ) (pkts : List Packet) : Option (Interval × List Packet) :=
  if pkts.length < 3 then none
  else
    match splitClock pcrPID pkts with
    | some (_, x, a :: tail) =>
        match splitClock pcrPID tail with
        | some (mid, y, rest) => some (⟨a :: mid, x, y⟩, rest)
        | none => none
    | _ => none

structure Cuts (pcrPID : ℕ) (pkts : List Packet) (i : Interval) (rest : List Packet)
    (pre mid post : List Packet) (a b : Packet) : Prop where
  three : 3 ≤ pkts.length
  first : splitClock pcrPID pkts = some (pre, i.first, a :: (mid ++ b :: post))
  next : splitClock pcrPID (mid ++ b :: post) = some (mid, i.next, b :: post)
  packets : i.packets = a :: mid
  rest : rest = b :: post

theorem cuts_of_nextInterval {pcrPID : ℕ} {pkts rest : List Packet} {i : Interval}
    (h : nextInterval pcrPID pkts = some (i, rest)) :
    ∃ pre mid post a b, Cuts pcrPID pkts i rest pre mid post a b := by
  unfold nextInterval at h
  split_ifs at h with hlen
  cases hfirst : splitClock pcrPID pkts with
  | none => simp [hfirst] at h
  | some r =>
      obtain ⟨pre, x, tail⟩ := r
      obtain ⟨-, -, a, t, rfl, -⟩ := splitClock_eq_some hfirst
      simp only [hfirst] at h
      cases hnext : splitClock pcrPID t with
      | none => simp [hnext] at h
      | some r =>
          obtain ⟨mid, y, rest'⟩ := r
          obtain ⟨rfl, -, b, post, rfl, -⟩ := splitClock_eq_some hnext
          simp only [hnext, Option.some.injEq, Prod.mk.injEq] at h
          obtain ⟨rfl, rfl⟩ := h
          exact ⟨pre, mid, post, a, b, by omega, hfirst, hnext, rfl, rfl⟩

theorem Cuts.nextInterval {pcrPID : ℕ} {pkts rest pre mid post : List Packet} {i : Interval}
    {a b : Packet} (h : Cuts pcrPID pkts i rest pre mid post a b) :
    nextInterval pcrPID pkts = some (i, rest) := by
  have hthree := h.three
  rw [Smoother.nextInterval, if_neg (by omega), h.first]
  simp only [h.next, h.rest, ← h.packets]

/-- The packets before the interval, in it and behind it. -/
theorem Cuts.split {pcrPID : ℕ} {pkts rest pre mid post : List Packet} {i : Interval}
    {a b : Packet} (h : Cuts pcrPID pkts i rest pre mid post a b) :
    pkts = pre ++ (i.packets ++ rest) ∧ (∀ pkt ∈ pre, clock pcrPID pkt = none) ∧
      clock pcrPID a = some i.first ∧ (∀ pkt ∈ mid, clock pcrPID pkt = none) ∧
      clock pcrPID b = some i.next := by
  obtain ⟨hsplit, hpre, a', t, heq, ha⟩ := splitClock_eq_some h.first
  obtain ⟨-, hmid, b', t', heq', hb⟩ := splitClock_eq_some h.next
  cases heq
  cases heq'
  refine ⟨?_, hpre, ha, hmid, hb⟩
  rw [hsplit, h.packets, h.rest, List.cons_append]

theorem incremental_nextInterval (pcrPID : ℕ) : Incremental (nextInterval pcrPID) where
  shrinks := by
    intro pkts i rest h
    obtain ⟨pre, mid, post, a, b, hcuts⟩ := cuts_of_nextInterval h
    rw [hcuts.split.1, hcuts.packets]
    simp only [List.length_append, List.length_cons]
    omega
  extends_ := by
    intro pkts i rest more h
    obtain ⟨pre, mid, post, a, b, hcuts⟩ := cuts_of_nextInterval h
    have hmore : Cuts pcrPID (pkts ++ more) i (rest ++ more) pre mid (post ++ more) a b := by
      refine ⟨?_, ?_, ?_, hcuts.packets, ?_⟩
      · exact hcuts.three.trans (by simp)
      · simpa using splitClock_append more hcuts.first
      · simpa using splitClock_append more hcuts.next
      · rw [hcuts.rest, List.cons_append]
    exact hmore.nextInterval

/-! ## The loop on whole packets -/

/-- The clock references on the pid that the search of packets returns. -/
def marks (pcrPID k : ℕ) (pkts : List Packet) : List PcrPosition :=
  (clockPositions k pkts).filter fun e ↦ e.pid = pcrPID

theorem marks_cons_of_none {pcrPID k : ℕ} {pkt : Packet} {rest : List Packet}
    (h : clock pcrPID pkt = none) : marks pcrPID k (pkt :: rest) = marks pcrPID (k + 1) rest := by
  unfold clock at h
  unfold marks
  rw [clockPositions]
  cases hscr : scr pkt with
  | none => rfl
  | some v =>
      have hpid : pid pkt ≠ pcrPID := by
        intro hpid
        simp [hpid, hscr] at h
      simp [hpid]

theorem marks_cons_of_some {pcrPID k : ℕ} {pkt : Packet} {rest : List Packet} {v : ℤ}
    (h : clock pcrPID pkt = some v) :
    marks pcrPID k (pkt :: rest) = ⟨v, 188 * k, pcrPID⟩ :: marks pcrPID (k + 1) rest := by
  unfold clock at h
  split_ifs at h with hpid
  obtain ⟨n, hscr, rfl⟩ := Option.map_eq_some_iff.mp h
  unfold marks
  rw [clockPositions, hscr]
  simp [hpid]

theorem marks_append_of_none {pcrPID : ℕ} {pre : List Packet} (rest : List Packet)
    (h : ∀ pkt ∈ pre, clock pcrPID pkt = none) :
    ∀ k, marks pcrPID k (pre ++ rest) = marks pcrPID (k + pre.length) rest := by
  induction pre with
  | nil => exact fun _ ↦ rfl
  | cons pkt pre ih =>
      intro k
      rw [List.cons_append, marks_cons_of_none (h pkt List.mem_cons_self),
        ih (fun p hp ↦ h p (List.mem_cons_of_mem pkt hp)), List.length_cons]
      congr 1
      omega

theorem marks_eq_nil {pcrPID k : ℕ} {pkts : List Packet} (h : splitClock pcrPID pkts = none) :
    marks pcrPID k pkts = [] := by
  have hskip := marks_append_of_none [] (splitClock_eq_none_iff.mp h) k
  rw [List.append_nil] at hskip
  exact hskip

theorem marks_ne_nil {pcrPID k : ℕ} {pkts pre tail : List Packet} {v : ℤ}
    (h : splitClock pcrPID pkts = some (pre, v, tail)) :
    ∃ t, marks pcrPID k pkts = ⟨v, 188 * (k + pre.length), pcrPID⟩ :: t := by
  obtain ⟨rfl, hpre, a, t, rfl, ha⟩ := splitClock_eq_some h
  exact ⟨_, (marks_append_of_none (a :: t) hpre k).trans (marks_cons_of_some ha)⟩

theorem Cuts.marks {pcrPID : ℕ} {pkts rest pre mid post : List Packet} {i : Interval}
    {a b : Packet} (h : Cuts pcrPID pkts i rest pre mid post a b) :
    marks pcrPID 0 pkts = ⟨i.first, 188 * pre.length, pcrPID⟩ ::
      ⟨i.next, 188 * (pre.length + i.packets.length), pcrPID⟩ ::
      marks pcrPID (pre.length + i.packets.length + 1) post := by
  obtain ⟨hsplit, hpre, ha, hmid, hb⟩ := h.split
  rw [hsplit, marks_append_of_none _ hpre, h.packets, h.rest, List.cons_append,
    marks_cons_of_some ha, marks_append_of_none _ hmid, marks_cons_of_some hb]
  have hlen : 0 + pre.length + 1 + mid.length = pre.length + (a :: mid).length := by
    rw [List.length_cons]
    omega
  rw [hlen, Nat.zero_add]

/-- An interval is followed by another one exactly if there is a clock reference
behind it and there are three packets. -/
theorem nextInterval_rest_of_none {pcrPID : ℕ} {post : List Packet} {b : Packet} {y : ℤ}
    (hb : clock pcrPID b = some y) (h : splitClock pcrPID post = none) :
    nextInterval pcrPID (b :: post) = none := by
  unfold nextInterval
  split_ifs
  · rfl
  · simp [splitClock, hb, h]

theorem cutInterval_append (pp it : ℤ) (fuel : ℕ) :
    ∀ (data more : List UInt8) (rem : ℕ) (v : ℤ), rem ≤ data.length →
      cutInterval pp it fuel (data ++ more) rem v = cutInterval pp it fuel data rem v := by
  induction fuel with
  | zero => exact fun _ _ _ _ _ ↦ rfl
  | succ fuel ih =>
      intro data more rem v hrem
      unfold cutInterval
      split_ifs with hpos
      · have hcut : min (7 * 188) rem ≤ data.length := by omega
        have hnext := ih (data.drop (min (7 * 188) rem)) more (rem - min (7 * 188) rem)
          (scrAdd v (pp * (min (7 * 188) rem / 188 : ℕ))) (by rw [List.length_drop]; omega)
        simp only [List.take_append_of_le_length hcut, List.drop_append_of_le_length hcut, hnext]
      · rfl

theorem Cuts.writeInterval {pcrPID : ℕ} {pkts rest pre mid post : List Packet} {i : Interval}
    {a b : Packet} (h : Cuts pcrPID pkts i rest pre mid post a b) {w : WriterContext}
    (hba : w.ba = packetBytes pkts) (now : ℤ) :
    writeInterval w ⟨i.first, 188 * pre.length, pcrPID⟩
        ⟨i.next, 188 * (pre.length + i.packets.length), pcrPID⟩ now =
      some ({ closeInterval w i.first i.next i.packets.length now with ba := packetBytes rest },
        intervalOps w (packetBytes i.packets) (188 * i.packets.length) i.first i.next
          i.packets.length now) := by
  obtain ⟨hsplit, -⟩ := h.split
  have hpos : 0 < i.packets.length := by
    rw [h.packets]
    simp
  have hbytes : 188 * (pre.length + i.packets.length) - 188 * pre.length =
      188 * i.packets.length := by
    omega
  have hcount : 188 * i.packets.length / 188 = i.packets.length := by omega
  have htrim : byteArrayTrim w.ba (188 * (pre.length + i.packets.length)) = packetBytes rest := by
    have hdrop := drop_packetBytes (pre ++ i.packets) rest
    rw [List.append_assoc, ← hsplit, List.length_append, ← hba] at hdrop
    rw [byteArrayTrim, if_neg ?_, hdrop]
    rw [hba, hsplit, length_packetBytes]
    simp only [List.length_append]
    omega
  have hdata : w.ba.drop (188 * pre.length) = packetBytes i.packets ++ packetBytes rest := by
    rw [hba, hsplit, drop_packetBytes, packetBytes_append]
  unfold Smoother.writeInterval
  simp only [hbytes, hcount]
  rw [if_neg (by omega), htrim, hdata]
  unfold intervalOps
  rw [cutInterval_append _ _ _ _ _ _ _ (by rw [length_packetBytes])]

def emit (time : ℕ → ℤ) : ℕ → WriterContext → List Interval → WriterContext × List WriterOp
  | _, w, [] => (w, [])
  | turn, w, i :: rest =>
      let r := emit time (turn + 1) (closeInterval w i.first i.next i.packets.length (time turn))
        rest
      (r.1, intervalOps w (packetBytes i.packets) (188 * i.packets.length) i.first i.next
        i.packets.length (time turn) ++ r.2)

/-- The byte array plays no part in the clock state. -/
theorem emit_ba (time : ℕ → ℤ) (is : List Interval) : ∀ (turn : ℕ) (w : WriterContext)
    (ba : List UInt8), emit time turn { w with ba := ba } is =
      ({ (emit time turn w is).1 with ba := ba }, (emit time turn w is).2) := by
  induction is with
  | nil => exact fun _ _ _ ↦ rfl
  | cons i rest ih =>
      intro turn w ba
      have hrest := ih (turn + 1) (closeInterval w i.first i.next i.packets.length (time turn)) ba
      exact congrArg (fun r ↦ (r.1, intervalOps w (packetBytes i.packets) (188 * i.packets.length)
        i.first i.next i.packets.length (time turn) ++ r.2)) hrest

theorem emit_pcrPID (time : ℕ → ℤ) (is : List Interval) : ∀ (turn : ℕ) (w : WriterContext),
    (emit time turn w is).1.pcrPID = w.pcrPID := by
  induction is with
  | nil => exact fun _ _ ↦ rfl
  | cons i rest ih => exact fun turn w ↦ ih (turn + 1) _

/-- A loop that is stuck ends. -/
theorem writeLoop_stuck {time : ℕ → ℤ} {fuel turn : ℕ} {w : WriterContext} {pkts : List Packet}
    (hba : w.ba = packetBytes pkts) (hsync : ∀ pkt ∈ pkts, syncPresent pkt = true)
    (h : nextInterval w.pcrPID pkts = none) :
    writeLoop time (fuel + 1) turn w = some (w, []) := by
  rw [writeLoop, hba, queryPcrs_packetBytes hsync]
  by_cases hlen : pkts.length < 3
  · simp [hlen]
  · rw [if_neg hlen]
    unfold nextInterval at h
    rw [if_neg hlen] at h
    cases hfirst : splitClock w.pcrPID pkts with
    | none =>
        have hnil := marks_eq_nil (k := 0) hfirst
        unfold marks at hnil
        simp only [hnil]
    | some r =>
        obtain ⟨pre, x, tail⟩ := r
        obtain ⟨rfl, hpre, a, t, rfl, ha⟩ := splitClock_eq_some hfirst
        simp only [hfirst] at h
        have hnext : splitClock w.pcrPID t = none := by
          cases hnext : splitClock w.pcrPID t with
          | none => rfl
          | some r => simp [hnext] at h
        have hone : marks w.pcrPID 0 (pre ++ a :: t) = [⟨x, 188 * (0 + pre.length), w.pcrPID⟩] := by
          rw [marks_append_of_none _ hpre, marks_cons_of_some ha, marks_eq_nil hnext]
        unfold marks at hone
        simp only [hone]

/-- The loop takes interval after interval until it is stuck. -/
theorem writeLoop_drains (time : ℕ → ℤ) {pcrPID : ℕ} {pkts left : List Packet}
    {is : List Interval} (h : Drains (nextInterval pcrPID) pkts is left) :
    ∀ (fuel turn : ℕ) {w : WriterContext}, w.pcrPID = pcrPID → w.ba = packetBytes pkts →
      (∀ pkt ∈ pkts, syncPresent pkt = true) → pkts.length < fuel →
      writeLoop time (fuel + 1) turn w =
        some ({ (emit time turn w is).1 with ba := packetBytes left },
          (emit time turn w is).2) := by
  induction h with
  | stuck h =>
      intro fuel turn w hpid hba hsync _
      subst hpid
      rw [writeLoop_stuck hba hsync h, ← hba]
      rfl
  | @take pkts rest left i is h hrest ih =>
      intro fuel turn w hpid hba hsync hfuel
      subst hpid
      obtain ⟨pre, mid, post, a, b, hcuts⟩ := cuts_of_nextInterval h
      obtain ⟨hsplit, -, -, -, hb⟩ := hcuts.split
      have hthree := hcuts.three
      have hmarks := hcuts.marks
      unfold marks at hmarks
      obtain ⟨fuel, rfl⟩ : ∃ n, fuel = n + 1 := ⟨fuel - 1, by omega⟩
      have hsyncrest : ∀ pkt ∈ rest, syncPresent pkt = true :=
        fun pkt hp ↦ hsync pkt (by rw [hsplit]; simp [hp])
      have hshort := (incremental_nextInterval w.pcrPID).shrinks h
      rw [writeLoop, hba, queryPcrs_packetBytes hsync, if_neg (by omega)]
      simp only [hmarks, hcuts.writeInterval hba]
      split_ifs with hnone
      · -- no third clock reference: the loop is left, and a further turn would do nothing
        have hpost : splitClock w.pcrPID post = none := by
          cases hpost : splitClock w.pcrPID post with
          | none => rfl
          | some r =>
              obtain ⟨t, ht⟩ := marks_ne_nil (k := pre.length + i.packets.length + 1) hpost
              unfold marks at ht
              rw [hnone] at ht
              cases ht
        have hstuck : nextInterval w.pcrPID rest = none := by
          rw [hcuts.rest]
          exact nextInterval_rest_of_none hb hpost
        obtain ⟨rfl, rfl⟩ := hrest.unique (.stuck hstuck)
        simp [emit]
      · have hloop := ih fuel (turn + 1)
          (w := { closeInterval w i.first i.next i.packets.length (time turn) with
            ba := packetBytes rest }) rfl rfl hsyncrest (by omega)
        rw [hloop, emit_ba]
        simp [emit]

/-! ## Writes in a row -/

theorem drains_suffix {pcrPID : ℕ} {pkts left : List Packet} {is : List Interval}
    (h : Drains (nextInterval pcrPID) pkts is left) : left <:+ pkts := by
  induction h with
  | stuck _ => exact List.suffix_refl _
  | take h _ ih =>
      obtain ⟨pre, mid, post, a, b, hcuts⟩ := cuts_of_nextInterval h
      rw [hcuts.split.1, ← List.append_assoc]
      exact ih.trans (List.suffix_append _ _)

/-- The result of a write of whole packets, if the array can hold them. -/
theorem smootherPcrWrite_packets {w : WriterContext} {pkts more left : List Packet}
    {is : List Interval} (hba : w.ba = packetBytes pkts)
    (hsync : ∀ pkt ∈ pkts ++ more, syncPresent pkt = true)
    (h : Drains (nextInterval w.pcrPID) (pkts ++ more) is left) (time : ℕ → ℤ) :
    smootherPcrWrite w (packetBytes more) time =
      if 188 * (pkts ++ more).length < 2 ^ 31 then
        some ({ (emit time 0 w is).1 with ba := packetBytes left }, (emit time 0 w is).2)
      else none := by
  have hlen : w.ba.length + (packetBytes more).length = 188 * (pkts ++ more).length := by
    rw [hba, length_packetBytes, length_packetBytes, List.length_append]
    ring
  unfold smootherPcrWrite byteArrayAppend
  rw [hlen]
  split_ifs with hfits
  · rw [hba, ← packetBytes_append]
    have hloop := writeLoop_drains time h ((packetBytes (pkts ++ more)).length + 1) 0
      (w := { w with ba := packetBytes (pkts ++ more) }) rfl rfl hsync
      (by rw [length_packetBytes]; omega)
    rw [emit_ba] at hloop
    exact hloop
  · rfl

def emits : WriterContext → List ((ℕ → ℤ) × List Interval) → WriterContext × List WriterOp
  | w, [] => (w, [])
  | w, (time, is) :: rest =>
      let r := emits (emit time 0 w is).1 rest
      (r.1, (emit time 0 w is).2 ++ r.2)

theorem emits_ba (turns : List ((ℕ → ℤ) × List Interval)) : ∀ (w : WriterContext)
    (ba : List UInt8), emits { w with ba := ba } turns =
      ({ (emits w turns).1 with ba := ba }, (emits w turns).2) := by
  induction turns with
  | nil => exact fun _ _ ↦ rfl
  | cons turn rest ih =>
      intro w ba
      have hone := emit_ba turn.1 turn.2 0 w ba
      have hrest := ih (emit turn.1 0 w turn.2).1 ba
      rw [emits, hone, hrest]
      rfl

/-- Writes of packets, as calls of `smoother_pcr_write`. -/
def asBytes (writes : List (List Packet × (ℕ → ℤ))) : List (List UInt8 × (ℕ → ℤ)) :=
  writes.map fun r ↦ (packetBytes r.1, r.2)

/-- Writes of whole packets take the intervals of their portions, and succeed if
all packets together fit into the array. -/
theorem smootherPcrWrites_packets (writes : List (List Packet × (ℕ → ℤ))) :
    ∀ (w : WriterContext) (pkts : List Packet) {left : List Packet} {yss : List (List Interval)},
      w.ba = packetBytes pkts →
      (∀ pkt ∈ pkts ++ (writes.map Prod.fst).flatten, syncPresent pkt = true) →
      Portions (nextInterval w.pcrPID) pkts (writes.map Prod.fst) yss left →
      (∀ r, smootherPcrWrites w (asBytes writes) = some r →
        r = ({ (emits w ((writes.map Prod.snd).zip yss)).1 with ba := packetBytes left },
          (emits w ((writes.map Prod.snd).zip yss)).2)) ∧
      (188 * (pkts ++ (writes.map Prod.fst).flatten).length < 2 ^ 31 →
        ∃ r, smootherPcrWrites w (asBytes writes) = some r) := by
  induction writes with
  | nil =>
      intro w pkts left yss hba _ h
      cases h
      simp only [asBytes, List.map_nil, smootherPcrWrites, Option.some.injEq, exists_eq',
        implies_true, and_true]
      rintro r rfl
      rw [← hba]
      rfl
  | cons write rest ih =>
      intro w pkts left yss hba hsync h
      obtain ⟨more, time⟩ := write
      simp only [List.map_cons, List.flatten_cons, ← List.append_assoc] at h hsync ⊢
      cases h with
      | @more _ mid _ _ _ is yss hdrain hrest =>
          have hone := smootherPcrWrite_packets hba
            (fun pkt hp ↦ hsync pkt (List.mem_append_left _ hp)) hdrain time
          have hsuffix := drains_suffix hdrain
          have hpid : (emit time 0 w is).1.pcrPID = w.pcrPID := emit_pcrPID time is 0 w
          have hsyncmid : ∀ pkt ∈ mid ++ (rest.map Prod.fst).flatten, syncPresent pkt = true := by
            intro pkt hp
            rcases List.mem_append.mp hp with hp | hp
            · exact hsync pkt (List.mem_append_left _ (hsuffix.subset hp))
            · exact hsync pkt (List.mem_append_right _ hp)
          obtain ⟨hexact, hsome⟩ := ih { (emit time 0 w is).1 with ba := packetBytes mid } mid rfl
            hsyncmid (hpid.symm ▸ hrest)
          simp only [asBytes, List.map_cons, smootherPcrWrites, hone]
          constructor
          · intro r hr
            split_ifs at hr with hfits
            · simp only [Option.map_eq_some_iff] at hr
              obtain ⟨r', hr', rfl⟩ := hr
              rw [hexact r' hr', emits_ba]
              rfl
          · intro hfits
            have hlen := hsuffix.length_le
            rw [List.length_append] at hfits
            obtain ⟨r', hr'⟩ := hsome (by rw [List.length_append]; omega)
            rw [if_pos (by omega)]
            simp only [asBytes] at hr'
            simp [hr']

end LtnTsTools.Smoother
