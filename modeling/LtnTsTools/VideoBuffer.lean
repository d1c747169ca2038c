import LtnTsTools.TickClock
import LtnTsTools.PartialMachine

/-!
# The video buffer verifier

The model of `vbv.c`: a caller writes packets into a bounded buffer, a thread plays
the decoder and takes them out when they are due.  A step is one critical section of
`pktListMutex`; readings of the clock are parameters.  The occupancy is counted in
32 bits: it is exact as long as no packet makes the sum of a write wrap.  The event
callbacks, the fullness events and the diagnostics are left out, no occupancy depends
on them.
-/

namespace LtnTsTools.VideoBuffer

open PartialMachine

/-- The fields of `struct ltn_pes_packet_s` that the buffer uses. -/
structure VbvPacket where
  ptsDtsFlags : ℕ
  pts : ℤ
  dts : ℤ
  rawBufferLengthBytes : UInt32
deriving DecidableEq

/-- `pktClock`. -/
def pktClock (pkt : VbvPacket) : ℤ :=
  if pkt.ptsDtsFlags &&& 1 ≠ 0 then pkt.dts
  else if pkt.ptsDtsFlags &&& 2 ≠ 0 then pkt.pts
  else 0

/-- `INT64_MAX`. -/
def int64Max : ℤ := 9223372036854775807

/-- `DEFAULT_VBV_SIZE`. -/
def defaultVbvSize : UInt32 := 800 * 1024

/-- Where the decoder thread stands in a round of its loop. -/
inductive Phase
  | generation
  | permit
  | drain
deriving DecidableEq

/-- `struct vbv_ctx_s`, with the local state of `vbv_threadFunc`.  Times are in
nanoseconds. -/
structure Vbv where
  vbvBufferSize : UInt32
  pktList : List VbvPacket
  usedBytes : UInt32
  dtsLwm : ℤ
  dtsHwm : ℤ
  dtsLast : ℤ
  decoderStc : ℤ
  encoderStc : ℤ
  lastInputTs : ℤ
  resetGeneration : ℕ
  phase : Phase
  permitVbvDrain : Bool
  threadGeneration : ℕ
deriving DecidableEq

/-- `ltntstools_vbv_alloc`. -/
def vbvAlloc (vbvBufferSize : UInt32) : Vbv where
  vbvBufferSize := if vbvBufferSize = 0 then defaultVbvSize else vbvBufferSize
  pktList := []
  usedBytes := 0
  dtsLwm := int64Max
  dtsHwm := 0
  dtsLast := int64Max
  decoderStc := int64Max
  encoderStc := 0
  lastInputTs := 0
  resetGeneration := 0
  phase := .generation
  permitVbvDrain := false
  threadGeneration := 0

/-- `resetModelLocked`. -/
def resetModelLocked (ctx : Vbv) : Vbv :=
  { ctx with
    pktList := []
    usedBytes := 0
    dtsHwm := 0
    dtsLwm := int64Max
    dtsLast := int64Max
    decoderStc := int64Max
    encoderStc := 0
    lastInputTs := 0
    resetGeneration := ctx.resetGeneration + 1 }

/-- `addItem`, the first part: a clock that goes back by a second resets the model. -/
def resetOnClock (ctx : Vbv) (pkt : VbvPacket) : Vbv :=
  if pktClock pkt ≠ 0 ∧ ctx.dtsLast ≠ int64Max ∧ ctx.dtsLast - pktClock pkt ≥ 90000 then
    resetModelLocked ctx
  else ctx

def encoderClock (ctx : Vbv) (clk : ℤ) : ℤ :=
  if ctx.dtsLast = int64Max then clk * 300
  else if clk = ctx.dtsLast then ctx.encoderStc
  else if clk > ctx.dtsLast then ctx.encoderStc + (clk - ctx.dtsLast) * 300
  else ctx.encoderStc + (Clocks.maxPtsValue - ctx.dtsLast) * 300 + clk * 300

/-- `addItem`, the second part: the packet at the end of the list. -/
def appendPacket (ctx : Vbv) (pkt : VbvPacket) (now : ℤ) : Vbv :=
  { ctx with
    pktList := ctx.pktList ++ [pkt]
    usedBytes := ctx.usedBytes + pkt.rawBufferLengthBytes
    lastInputTs := now
    encoderStc := encoderClock ctx (pktClock pkt)
    dtsLast := pktClock pkt
    dtsHwm := if pktClock pkt > ctx.dtsHwm then pktClock pkt else ctx.dtsHwm
    dtsLwm := if pktClock pkt ≠ 0 ∧ pktClock pkt ≤ ctx.dtsLwm then pktClock pkt else ctx.dtsLwm }

inductive Output
  | accepted
  | overflow
  | quiet
  | popped
  | underflow
deriving DecidableEq

/-- `ltntstools_vbv_write`: `addItem`, with the sum of two `uint32_t`. -/
def vbvWrite (ctx : Vbv) (pkt : VbvPacket) (now : ℤ) : Vbv × Output :=
  let ctx := resetOnClock ctx pkt
  if ctx.usedBytes + pkt.rawBufferLengthBytes < ctx.vbvBufferSize then
    (appendPacket ctx pkt now, .accepted)
  else (ctx, .overflow)

/-- `elapsedTicks90k`. -/
def elapsedTicks90k (start finish : ℤ) : ℤ :=
  if finish < start then 0 else (finish - start) * 90000 / 1000000000

/-- `initial_cpb_removal_delay`. -/
def initialCpbRemovalDelay : ℤ := 90000 / 100 * 60

/-- The last critical section of a round of `vbv_threadFunc`: the first packet is
taken out if it is due. -/
def drainFirst (ctx : Vbv) (now : ℤ) : Vbv × Output :=
  match ctx.pktList with
  | [] => (ctx, .underflow)
  | pkt :: rest =>
      let dtsHwm := if ctx.lastInputTs ≠ 0 then ctx.dtsHwm + elapsedTicks90k ctx.lastInputTs now
        else ctx.dtsHwm
      if pktClock pkt - (dtsHwm - initialCpbRemovalDelay) ≤ 0 then
        ({ ctx with
          decoderStc := pktClock pkt
          pktList := rest
          usedBytes := ctx.usedBytes - pkt.rawBufferLengthBytes }, .popped)
      else (ctx, .quiet)

/-- `vbv_threadFunc`, one critical section. -/
def vbvThreadFunc (ctx : Vbv) (now : ℤ) : Vbv × Output :=
  match ctx.phase with
  | .generation =>
      (if ctx.threadGeneration ≠ ctx.resetGeneration then
        { ctx with
          threadGeneration := ctx.resetGeneration
          permitVbvDrain := false
          phase := .permit }
      else { ctx with phase := .permit }, .quiet)
  | .permit =>
      let permit := ctx.permitVbvDrain || decide (ctx.dtsLwm ≠ int64Max ∧ ctx.dtsHwm ≠ 0 ∧
        ctx.dtsHwm - ctx.dtsLwm > initialCpbRemovalDelay)
      ({ ctx with
        permitVbvDrain := permit
        phase := if permit then .drain else .generation }, .quiet)
  | .drain =>
      let r := drainFirst ctx now
      ({ r.1 with phase := .generation }, r.2)

inductive Action
  | write (pkt : VbvPacket) (now : ℤ)
  | thread (now : ℤ)
deriving DecidableEq

def step (ctx : Vbv) : Action → Option (Vbv × Output)
  | .write pkt now => some (vbvWrite ctx pkt now)
  | .thread now => some (vbvThreadFunc ctx now)

/-! ## Occupancy -/

def queuedBytes (pkts : List VbvPacket) : ℕ := (pkts.map fun p ↦ p.rawBufferLengthBytes.toNat).sum

/-- The counter is the sum of the packets, and less than the size of the buffer. -/
structure Occupied (ctx : Vbv) : Prop where
  exact : ctx.usedBytes.toNat = queuedBytes ctx.pktList
  bounded : ctx.usedBytes.toNat < ctx.vbvBufferSize.toNat

instance (ctx : Vbv) : Decidable (Occupied ctx) :=
  decidable_of_iff (ctx.usedBytes.toNat = queuedBytes ctx.pktList ∧
    ctx.usedBytes.toNat < ctx.vbvBufferSize.toNat)
    ⟨fun h ↦ ⟨h.1, h.2⟩, fun h ↦ ⟨h.exact, h.bounded⟩⟩

def WouldReach (ctx : Vbv) (pkt : VbvPacket) : Prop :=
  ctx.vbvBufferSize.toNat ≤
    queuedBytes (resetOnClock ctx pkt).pktList + pkt.rawBufferLengthBytes.toNat

instance (ctx : Vbv) (pkt : VbvPacket) : Decidable (WouldReach ctx pkt) :=
  inferInstanceAs (Decidable (_ ≤ _))

/-- The occupancy behind a step is right, and a write overflows exactly when it
should. -/
def RightStep (ctx : Vbv) : Action → Vbv × Output → Prop
  | .write pkt _, r => Occupied r.1 ∧ (r.2 = .overflow ↔ WouldReach ctx pkt)
  | .thread _, r => Occupied r.1

instance (ctx : Vbv) : ∀ action r, Decidable (RightStep ctx action r)
  | .write _ _, _ => inferInstanceAs (Decidable (_ ∧ _))
  | .thread _, r => inferInstanceAs (Decidable (Occupied r.1))

/-- The sum that a write compares with the size is one of 32 bits. -/
def SumFits (ctx : Vbv) : Action → Prop
  | .write pkt _ =>
      (resetOnClock ctx pkt).usedBytes.toNat + pkt.rawBufferLengthBytes.toNat < 2 ^ 32
  | .thread _ => True

instance (ctx : Vbv) : ∀ action, Decidable (SumFits ctx action)
  | .write _ _ => inferInstanceAs (Decidable (_ < _))
  | .thread _ => inferInstanceAs (Decidable True)

@[simp] theorem queuedBytes_nil : queuedBytes [] = 0 := rfl

@[simp] theorem queuedBytes_cons (pkt : VbvPacket) (rest : List VbvPacket) :
    queuedBytes (pkt :: rest) = pkt.rawBufferLengthBytes.toNat + queuedBytes rest := by
  simp [queuedBytes]

@[simp] theorem queuedBytes_concat (pkts : List VbvPacket) (pkt : VbvPacket) :
    queuedBytes (pkts ++ [pkt]) = queuedBytes pkts + pkt.rawBufferLengthBytes.toNat := by
  simp [queuedBytes]

theorem resetOnClock_size (ctx : Vbv) (pkt : VbvPacket) :
    (resetOnClock ctx pkt).vbvBufferSize = ctx.vbvBufferSize := by
  unfold resetOnClock
  split_ifs <;> rfl

theorem Occupied.resetOnClock {ctx : Vbv} (h : Occupied ctx) (pkt : VbvPacket) :
    Occupied (resetOnClock ctx pkt) := by
  unfold VideoBuffer.resetOnClock
  split_ifs
  · exact ⟨rfl, (Nat.zero_le _).trans_lt h.bounded⟩
  · exact h

theorem vbvWrite_of_room {ctx : Vbv} {pkt : VbvPacket} (now : ℤ)
    (h : ((resetOnClock ctx pkt).usedBytes + pkt.rawBufferLengthBytes).toNat <
      ctx.vbvBufferSize.toNat) :
    vbvWrite ctx pkt now = (appendPacket (resetOnClock ctx pkt) pkt now, .accepted) := by
  simp only [vbvWrite]
  rw [if_pos (UInt32.lt_iff_toNat_lt.mpr (by rwa [resetOnClock_size]))]

theorem vbvWrite_of_full {ctx : Vbv} {pkt : VbvPacket} (now : ℤ)
    (h : ctx.vbvBufferSize.toNat ≤
      ((resetOnClock ctx pkt).usedBytes + pkt.rawBufferLengthBytes).toNat) :
    vbvWrite ctx pkt now = (resetOnClock ctx pkt, .overflow) := by
  simp only [vbvWrite]
  rw [if_neg (fun hlt ↦ ?_)]
  rw [UInt32.lt_iff_toNat_lt, resetOnClock_size] at hlt
  omega

/-- A write is right exactly when the sum it computes does not wrap: a sum that
wraps comes out below the occupancy, so the packet is taken. -/
theorem vbvWrite_right_iff {ctx : Vbv} (h : Occupied ctx) (pkt : VbvPacket) (now : ℤ) :
    RightStep ctx (.write pkt now) (vbvWrite ctx pkt now) ↔ SumFits ctx (.write pkt now) := by
  have hreset := h.resetOnClock pkt
  have hbounded := hreset.bounded
  rw [resetOnClock_size] at hbounded
  have hlen := pkt.rawBufferLengthBytes.toNat_lt
  have hsize := ctx.vbvBufferSize.toNat_lt
  have hsum := UInt32.toNat_add (resetOnClock ctx pkt).usedBytes pkt.rawBufferLengthBytes
  simp only [RightStep, SumFits, WouldReach, ← hreset.exact]
  rcases lt_or_ge ((resetOnClock ctx pkt).usedBytes.toNat + pkt.rawBufferLengthBytes.toNat)
    (2 ^ 32) with hfit | hwrap
  · rw [Nat.mod_eq_of_lt hfit] at hsum
    refine iff_of_true ?_ hfit
    rcases lt_or_ge ((resetOnClock ctx pkt).usedBytes + pkt.rawBufferLengthBytes).toNat
      ctx.vbvBufferSize.toNat with hroom | hfull
    · rw [vbvWrite_of_room now hroom]
      refine ⟨⟨?_, ?_⟩, iff_of_false (by simp) (by omega)⟩
      · simp only [appendPacket, queuedBytes_concat, ← hreset.exact]
        exact hsum
      · simp only [appendPacket, resetOnClock_size]
        exact hroom
    · rw [vbvWrite_of_full now hfull]
      exact ⟨hreset, iff_of_true rfl (by omega)⟩
  · have hroom : ((resetOnClock ctx pkt).usedBytes + pkt.rawBufferLengthBytes).toNat <
        ctx.vbvBufferSize.toNat := by
      rw [hsum]
      omega
    rw [vbvWrite_of_room now hroom]
    refine iff_of_false (fun hright ↦ ?_) (by omega)
    exact absurd (hright.2.mpr (by omega)) (by simp)

theorem Occupied.drainFirst {ctx : Vbv} (h : Occupied ctx) (now : ℤ) :
    Occupied (drainFirst ctx now).1 := by
  unfold VideoBuffer.drainFirst
  cases hlist : ctx.pktList with
  | nil => exact h
  | cons pkt rest =>
      have hexact := h.exact
      rw [hlist, queuedBytes_cons] at hexact
      have hle : pkt.rawBufferLengthBytes ≤ ctx.usedBytes := by
        rw [UInt32.le_iff_toNat_le]
        omega
      have hsub := UInt32.toNat_sub_of_le _ _ hle
      dsimp only
      split_ifs
      · exact ⟨by dsimp only; omega, by have hbounded := h.bounded; dsimp only; omega⟩
      · exact h
      · exact ⟨by dsimp only; omega, by have hbounded := h.bounded; dsimp only; omega⟩
      · exact h

theorem Occupied.thread {ctx : Vbv} (h : Occupied ctx) (now : ℤ) :
    Occupied (vbvThreadFunc ctx now).1 := by
  unfold vbvThreadFunc
  cases ctx.phase with
  | generation =>
      dsimp only
      split_ifs
      · exact ⟨h.exact, h.bounded⟩
      · exact ⟨h.exact, h.bounded⟩
  | permit => exact ⟨h.exact, h.bounded⟩
  | drain =>
      have hdrain := h.drainFirst now
      exact ⟨hdrain.exact, hdrain.bounded⟩

theorem vbvAlloc_occupied (vbvBufferSize : UInt32) : Occupied (vbvAlloc vbvBufferSize) := by
  refine ⟨rfl, ?_⟩
  unfold vbvAlloc
  dsimp only
  split_ifs with hzero
  · decide
  · have hne : vbvBufferSize.toNat ≠ 0 := fun hnat ↦ hzero (UInt32.toNat_inj.mp hnat)
    exact Nat.pos_of_ne_zero hne

/-- In every run of writes and decoder steps the occupancy is exact and bounded and
the overflows are those that should be, exactly when the sum of no write wraps. -/
theorem vbv_occupancy_iff (vbvBufferSize : UInt32) (actions : List Action) :
    Safe step RightStep (vbvAlloc vbvBufferSize) actions ↔
      Meets step SumFits (vbvAlloc vbvBufferSize) actions := by
  refine safe_iff_meets Occupied ?_ ?_ actions _ (vbvAlloc_occupied vbvBufferSize)
  · intro ctx action r _ hs hright
    cases action with
    | write pkt now => exact hright.1
    | thread now => exact hright
  · intro ctx action hocc
    cases action with
    | write pkt now =>
        rw [← vbvWrite_right_iff hocc pkt now]
        simp [step]
    | thread now =>
        refine iff_of_true ⟨_, rfl, hocc.thread now⟩ trivial

-- a length of close to 2^32 bytes makes the sum wrap: the packet is taken
example :
    ¬Safe step RightStep (vbvAlloc 819200)
      [.write ⟨3, 90000, 90000, 100⟩ 1, .write ⟨3, 93000, 93000, 4294967246⟩ 2] := by
  decide +kernel

/-! ## Packets of ordinary size -/

theorem step_size (ctx : Vbv) (action : Action) (r : Vbv × Output)
    (hs : step ctx action = some r) : r.1.vbvBufferSize = ctx.vbvBufferSize := by
  cases action with
  | write pkt now =>
      obtain rfl : vbvWrite ctx pkt now = r := by simpa [step] using hs
      simp only [vbvWrite]
      split_ifs <;> exact resetOnClock_size ctx pkt
  | thread now =>
      obtain rfl : vbvThreadFunc ctx now = r := by simpa [step] using hs
      unfold vbvThreadFunc drainFirst
      cases ctx.phase <;> grind

/-- The size of a packet, as a guard of its write. -/
def SmallPacket (_ : Vbv) : Action → Prop
  | .write pkt _ => pkt.rawBufferLengthBytes.toNat < 2 ^ 31
  | .thread _ => True

/-- Packets and a buffer of less than `2^31` bytes never make a sum wrap: in every run of
writes and decoder steps the occupancy is exact and bounded, and the overflows are those
that should be. -/
theorem vbv_occupancy_of_small {vbvBufferSize : UInt32} (hsize : vbvBufferSize.toNat < 2 ^ 31)
    (actions : List Action)
    (hsmall : ∀ pkt now, .write pkt now ∈ actions → pkt.rawBufferLengthBytes.toNat < 2 ^ 31) :
    Safe step RightStep (vbvAlloc vbvBufferSize) actions := by
  have hinit : (vbvAlloc vbvBufferSize).vbvBufferSize.toNat < 2 ^ 31 := by
    unfold vbvAlloc
    dsimp only
    split_ifs
    · decide
    · exact hsize
  have hmeets : Meets step SmallPacket (vbvAlloc vbvBufferSize) actions := by
    refine meets_of_forall (fun action hmem s ↦ ?_) _
    cases action with
    | write pkt now => exact hsmall pkt now hmem
    | thread now => trivial
  refine safe_of_step (fun ctx ↦ Occupied ctx ∧ ctx.vbvBufferSize.toNat < 2 ^ 31) ?_ actions _
    ⟨vbvAlloc_occupied vbvBufferSize, hinit⟩ hmeets
  rintro ctx action ⟨hocc, hbuffer⟩ hguard
  cases action with
  | write pkt now =>
      have hreset := (hocc.resetOnClock pkt).bounded
      rw [resetOnClock_size] at hreset
      have hlen : pkt.rawBufferLengthBytes.toNat < 2 ^ 31 := hguard
      have hright := (vbvWrite_right_iff hocc pkt now).mpr (by simp only [SumFits]; omega)
      exact ⟨_, rfl, hright, hright.1, by rw [step_size ctx (.write pkt now) _ rfl]; exact hbuffer⟩
  | thread now =>
      exact ⟨_, rfl, hocc.thread now, hocc.thread now,
        by rw [step_size ctx (.thread now) _ rfl]; exact hbuffer⟩

/-- Writes and critical sections of the decoder, in turns. -/
def sampleActions : List Action :=
  [.write ⟨3, 90000, 90000, 300⟩ 1, .thread 2, .write ⟨3, 180000, 180000, 300⟩ 3,
    .write ⟨3, 183000, 183000, 400⟩ 4, .thread 5, .thread 6, .thread 7, .thread 8,
    .write ⟨3, 183000, 183000, 400⟩ 9, .write ⟨3, 90000, 90000, 999⟩ 10]

/-- A packet that would fill the buffer is refused, and fits when the decoder has taken out
the first one; the last packet goes back by more than a second and finds the buffer empty. -/
theorem vbv_occupancy_of_small_sample :
    Safe step RightStep (vbvAlloc 1000) sampleActions ∧
      (trace step (vbvAlloc 1000) sampleActions).map (·.2) = some
        [.accepted, .quiet, .accepted, .overflow, .quiet, .popped, .quiet, .quiet, .accepted,
          .accepted] := by
  refine ⟨vbv_occupancy_of_small (by decide) sampleActions fun pkt now hmem ↦ ?_,
    by decide +kernel⟩
  simp only [sampleActions, List.mem_cons, Action.write.injEq, List.not_mem_nil, reduceCtorEq,
    or_false, false_or] at hmem
  rcases hmem with ⟨rfl, -⟩ | ⟨rfl, -⟩ | ⟨rfl, -⟩ | ⟨rfl, -⟩ | ⟨rfl, -⟩ <;> decide

end LtnTsTools.VideoBuffer
