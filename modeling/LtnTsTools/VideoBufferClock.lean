import LtnTsTools.VideoBuffer

/-!
# The clock of the video buffer verifier

What `addItem` makes of the clock of a packet.  A clock that lies a second or more behind the
last one resets the model, before it is known whether the packet fits; any other clock moves
`encoder_stc`, which is meant to go on beyond 33 bits.
-/

namespace LtnTsTools.VideoBuffer

open PartialMachine

/-! ## Rejected writes -/

/-- The clock of the packet makes `addItem` reset the model. -/
def ClockReset (ctx : Vbv) (pkt : VbvPacket) : Prop :=
  pktClock pkt ≠ 0 ∧ ctx.dtsLast ≠ int64Max ∧ ctx.dtsLast - pktClock pkt ≥ 90000

instance (ctx : Vbv) (pkt : VbvPacket) : Decidable (ClockReset ctx pkt) :=
  inferInstanceAs (Decidable (_ ∧ _ ∧ _))

structure SameModel (ctx ctx' : Vbv) : Prop where
  pktList : ctx'.pktList = ctx.pktList
  usedBytes : ctx'.usedBytes = ctx.usedBytes
  dtsLast : ctx'.dtsLast = ctx.dtsLast
  dtsHwm : ctx'.dtsHwm = ctx.dtsHwm
  dtsLwm : ctx'.dtsLwm = ctx.dtsLwm
  encoderStc : ctx'.encoderStc = ctx.encoderStc
  decoderStc : ctx'.decoderStc = ctx.decoderStc
  resetGeneration : ctx'.resetGeneration = ctx.resetGeneration

theorem resetOnClock_of_reset {ctx : Vbv} {pkt : VbvPacket} (h : ClockReset ctx pkt) :
    resetOnClock ctx pkt = resetModelLocked ctx := if_pos h

theorem resetOnClock_of_not {ctx : Vbv} {pkt : VbvPacket} (h : ¬ClockReset ctx pkt) :
    resetOnClock ctx pkt = ctx := if_neg h

/-- What comes out of a rejected write, and why it was rejected. -/
theorem of_overflow {ctx : Vbv} {pkt : VbvPacket} {now : ℤ}
    (h : (vbvWrite ctx pkt now).2 = .overflow) :
    (vbvWrite ctx pkt now).1 = resetOnClock ctx pkt ∧
      ctx.vbvBufferSize ≤ (resetOnClock ctx pkt).usedBytes + pkt.rawBufferLengthBytes := by
  simp only [vbvWrite, resetOnClock_size] at h ⊢
  split_ifs at h ⊢ with hroom
  exact ⟨rfl, UInt32.not_lt.mp hroom⟩

theorem of_accepted {ctx : Vbv} {pkt : VbvPacket} {now : ℤ}
    (h : (vbvWrite ctx pkt now).2 = .accepted) :
    (vbvWrite ctx pkt now).1 = appendPacket (resetOnClock ctx pkt) pkt now := by
  simp only [vbvWrite] at h ⊢
  split_ifs at h ⊢
  rfl

theorem size_of_reachable {vbvBufferSize : UInt32} {ctx : Vbv}
    (h : Reachable step (fun _ _ ↦ True) (vbvAlloc vbvBufferSize) ctx) :
    ctx.vbvBufferSize = (vbvAlloc vbvBufferSize).vbvBufferSize :=
  h.invariant (P := fun ctx ↦ ctx.vbvBufferSize = (vbvAlloc vbvBufferSize).vbvBufferSize) rfl
    fun s s' i out hs _ hstep ↦ (step_size s i (s', out) hstep).trans hs

/-- A rejected write leaves the model as it was, or, if the clock of the packet lies a second
behind and the packet does not even fit the empty buffer, as a fresh one. -/
theorem rejected_write {vbvBufferSize : UInt32} {ctx : Vbv}
    (hreach : Reachable step (fun _ _ ↦ True) (vbvAlloc vbvBufferSize) ctx) (pkt : VbvPacket)
    (now : ℤ) (hrejected : (vbvWrite ctx pkt now).2 = .overflow) :
    (SameModel ctx (vbvWrite ctx pkt now).1 ↔ ¬ClockReset ctx pkt) ∧
      (ClockReset ctx pkt →
        (vbvAlloc vbvBufferSize).vbvBufferSize ≤ pkt.rawBufferLengthBytes ∧
          SameModel { vbvAlloc vbvBufferSize with resetGeneration := ctx.resetGeneration + 1 }
            (vbvWrite ctx pkt now).1) := by
  obtain ⟨hstate, hfull⟩ := of_overflow hrejected
  rw [hstate]
  by_cases hreset : ClockReset ctx pkt
  · rw [resetOnClock_of_reset hreset] at hfull ⊢
    refine ⟨iff_of_false (fun hsame ↦ ?_) (not_not_intro hreset), fun _ ↦ ⟨?_, ?_⟩⟩
    · exact absurd hsame.resetGeneration (Nat.succ_ne_self _)
    · rw [size_of_reachable hreach] at hfull
      simpa [resetModelLocked] using hfull
    · exact ⟨rfl, rfl, rfl, rfl, rfl, rfl, rfl, rfl⟩
  · rw [resetOnClock_of_not hreset]
    exact ⟨iff_of_true ⟨rfl, rfl, rfl, rfl, rfl, rfl, rfl, rfl⟩ hreset, fun h ↦ absurd h hreset⟩

/-- The state behind one packet of 100 bytes in a buffer of 1000. -/
def onePacket : Vbv := (vbvWrite (vbvAlloc 1000) ⟨3, 180000, 180000, 100⟩ 1).1

theorem onePacket_reachable : Reachable step (fun _ _ ↦ True) (vbvAlloc 1000) onePacket :=
  .step (i := .write ⟨3, 180000, 180000, 100⟩ 1) .init trivial rfl

theorem rejected_write_same :
    (vbvWrite onePacket ⟨3, 183000, 183000, 950⟩ 2).2 = .overflow ∧
      SameModel onePacket (vbvWrite onePacket ⟨3, 183000, 183000, 950⟩ 2).1 :=
  ⟨by decide +kernel, (rejected_write onePacket_reachable ⟨3, 183000, 183000, 950⟩ 2
    (by decide +kernel)).1.mpr (by decide +kernel)⟩

/-- A packet that does not fit, with a clock a second behind, is rejected and empties the
model. -/
theorem rejected_write_resets :
    Reachable step (fun _ _ ↦ True) (vbvAlloc 1000) onePacket ∧
      (vbvWrite onePacket ⟨3, 90000, 90000, 1000⟩ 2).2 = .overflow ∧
        onePacket.pktList.length = 1 ∧ onePacket.resetGeneration = 0 ∧
          (vbvWrite onePacket ⟨3, 90000, 90000, 1000⟩ 2).1.pktList = [] ∧
            (vbvWrite onePacket ⟨3, 90000, 90000, 1000⟩ 2).1.resetGeneration = 1 ∧
              ¬SameModel onePacket (vbvWrite onePacket ⟨3, 90000, 90000, 1000⟩ 2).1 := by
  refine ⟨onePacket_reachable, by decide +kernel, by decide +kernel, by decide +kernel,
    by decide +kernel, by decide +kernel, fun h ↦ ?_⟩
  exact absurd h.resetGeneration (by decide +kernel)

/-! ## The clock of the encoder -/

structure Timeline where
  first : ℤ
  last : ℤ
deriving DecidableEq

structure TimedAction where
  action : Action
  time : ℤ
deriving DecidableEq

def extend (ctx : Vbv) (timeline : Option Timeline) (a : TimedAction) : Option Timeline :=
  match a.action with
  | .write pkt now =>
      if (vbvWrite ctx pkt now).2 = .accepted then
        some ⟨(timeline.map Timeline.first).getD a.time, a.time⟩
      else timeline
  | .thread _ => timeline

def timedStep : Vbv × Option Timeline → TimedAction → Option ((Vbv × Option Timeline) × Output) :=
  recorded (fun ctx a ↦ step ctx a.action) extend

/-- The packet fits and carries its time modulo 2^33, which is less than a second from the
last one. -/
def InDomain (s : Vbv × Option Timeline) (a : TimedAction) : Prop :=
  match a.action with
  | .write pkt now =>
      (vbvWrite s.1 pkt now).2 = .accepted ∧ 1 ≤ a.time ∧ pktClock pkt = a.time % 2 ^ 33 ∧
        ∀ timeline ∈ s.2, |a.time - timeline.last| < 90000
  | .thread _ => True

/-- The clock of the encoder is as far from that of the first packet as the times are. -/
def Follows (_ : Vbv × Option Timeline) (_ : TimedAction)
    (r : (Vbv × Option Timeline) × Output) : Prop :=
  ∀ timeline ∈ r.1.2,
    r.1.1.encoderStc = 300 * (timeline.last - timeline.first + timeline.first % 2 ^ 33)

/-- The time of a packet does not go back, and not across a multiple of 2^33. -/
def Steady (s : Vbv × Option Timeline) (a : TimedAction) : Prop :=
  match a.action with
  | .write _ _ => ∀ timeline ∈ s.2,
      timeline.last ≤ a.time ∧ a.time / 2 ^ 33 = timeline.last / 2 ^ 33
  | .thread _ => True

instance (s : Vbv × Option Timeline) : ∀ a, Decidable (InDomain s a)
  | ⟨.write _ _, _⟩ => inferInstanceAs (Decidable (_ ∧ _ ∧ _ ∧ _))
  | ⟨.thread _, _⟩ => isTrue trivial

instance (s : Vbv × Option Timeline) (a : TimedAction) (r : (Vbv × Option Timeline) × Output) :
    Decidable (Follows s a r) :=
  inferInstanceAs (Decidable (∀ timeline ∈ r.1.2, _ = _))

instance (s : Vbv × Option Timeline) : ∀ a, Decidable (Steady s a)
  | ⟨.write _ _, _⟩ => inferInstanceAs (Decidable (∀ timeline ∈ s.2, _ ∧ _))
  | ⟨.thread _, _⟩ => isTrue trivial

structure OnTime (s : Vbv × Option Timeline) : Prop where
  start : s.2 = none → s.1.dtsLast = int64Max
  last : ∀ timeline ∈ s.2, s.1.dtsLast = timeline.last % 2 ^ 33
  clock : ∀ timeline ∈ s.2,
    s.1.encoderStc = 300 * (timeline.last - timeline.first + timeline.first % 2 ^ 33)
  turn : ∀ timeline ∈ s.2, timeline.last / 2 ^ 33 = timeline.first / 2 ^ 33

theorem vbvThreadFunc_clocks (ctx : Vbv) (now : ℤ) :
    (vbvThreadFunc ctx now).1.dtsLast = ctx.dtsLast ∧
      (vbvThreadFunc ctx now).1.encoderStc = ctx.encoderStc := by
  unfold vbvThreadFunc drainFirst
  cases ctx.phase <;> grind

/-- One more packet: the clock follows exactly when the time goes on within its turn of 33
bits.  A step back adds a whole turn, and a wrap starts the clock again. -/
theorem encoderClock_eq_iff {ctx : Vbv} {pkt : VbvPacket} {first last time : ℤ}
    (hlast : ctx.dtsLast = last % 2 ^ 33)
    (hclock : ctx.encoderStc = 300 * (last - first + first % 2 ^ 33))
    (hturn : last / 2 ^ 33 = first / 2 ^ 33) (hpkt : pktClock pkt = time % 2 ^ 33)
    (hnear : |time - last| < 90000) :
    encoderClock (resetOnClock ctx pkt) (pktClock pkt) =
        300 * (time - first + first % 2 ^ 33) ↔
      last ≤ time ∧ time / 2 ^ 33 = last / 2 ^ 33 := by
  rw [abs_lt] at hnear
  by_cases hreset : ClockReset ctx pkt
  · rw [resetOnClock_of_reset hreset]
    obtain ⟨-, -, hback⟩ := hreset
    simp only [encoderClock, resetModelLocked, if_true]
    omega
  · rw [resetOnClock_of_not hreset]
    have hnot : ctx.dtsLast ≠ int64Max := by
      rw [hlast, int64Max]
      omega
    simp only [ClockReset, not_and_or, not_not, ge_iff_le, not_le] at hreset
    simp only [encoderClock, if_neg hnot, Clocks.maxPtsValue]
    split_ifs <;> omega

theorem timedStep_write {s : Vbv × Option Timeline} {pkt : VbvPacket} {now time : ℤ}
    (h : (vbvWrite s.1 pkt now).2 = .accepted) :
    timedStep s ⟨.write pkt now, time⟩ = some ((appendPacket (resetOnClock s.1 pkt) pkt now,
      some ⟨(s.2.map Timeline.first).getD time, time⟩), .accepted) := by
  have hpair : vbvWrite s.1 pkt now = (appendPacket (resetOnClock s.1 pkt) pkt now, .accepted) :=
    Prod.ext (of_accepted h) h
  simp [timedStep, recorded, step, extend, hpair]

theorem timedStep_thread (s : Vbv × Option Timeline) (now time : ℤ) :
    timedStep s ⟨.thread now, time⟩ =
      some (((vbvThreadFunc s.1 now).1, s.2), (vbvThreadFunc s.1 now).2) := rfl

/-- A packet of the domain is followed exactly when it is steady. -/
theorem follows_write_iff {s : Vbv × Option Timeline} (h : OnTime s) {pkt : VbvPacket}
    {now time : ℤ} (hdomain : InDomain s ⟨.write pkt now, time⟩) :
    (appendPacket (resetOnClock s.1 pkt) pkt now).encoderStc =
        300 * (time - (s.2.map Timeline.first).getD time +
          (s.2.map Timeline.first).getD time % 2 ^ 33) ↔
      Steady s ⟨.write pkt now, time⟩ := by
  obtain ⟨-, -, hpkt, hnear⟩ := hdomain
  obtain ⟨ctx, timeline⟩ := s
  cases timeline with
  | none =>
      have hstart := h.start rfl
      have hreset : ¬ClockReset ctx pkt := fun hreset ↦ hreset.2.1 hstart
      refine iff_of_true ?_ (by simp [Steady])
      simp only [appendPacket, resetOnClock_of_not hreset, encoderClock, if_pos hstart, hpkt,
        Option.map_none, Option.getD_none]
      ring
  | some timeline =>
      have hiff := encoderClock_eq_iff (h.last _ rfl) (h.clock _ rfl) (h.turn _ rfl) hpkt
        (hnear _ rfl)
      simpa [Steady, appendPacket] using hiff

theorem OnTime.step {s : Vbv × Option Timeline} (h : OnTime s) {a : TimedAction}
    {r : (Vbv × Option Timeline) × Output} (hdomain : InDomain s a)
    (hs : timedStep s a = some r) (hfollows : Follows s a r) : OnTime r.1 := by
  obtain ⟨action, time⟩ := a
  cases action with
  | thread now =>
      obtain rfl := Option.some.inj ((timedStep_thread s now time).symm.trans hs)
      obtain ⟨hlast, hclock⟩ := vbvThreadFunc_clocks s.1 now
      exact ⟨fun hnone ↦ hlast.trans (h.start hnone), fun t ht ↦ hlast.trans (h.last t ht),
        fun t ht ↦ hclock.trans (h.clock t ht), h.turn⟩
  | write pkt now =>
      obtain rfl := Option.some.inj ((timedStep_write hdomain.1).symm.trans hs)
      have hsteady := (follows_write_iff h hdomain).mp (hfollows _ rfl)
      refine ⟨fun hnone ↦ by simp at hnone, ?_, hfollows, ?_⟩
      · rintro t ⟨⟩
        exact hdomain.2.2.1
      · rintro t ⟨⟩
        cases htimeline : s.2 with
        | none => rfl
        | some timeline =>
            exact (hsteady timeline htimeline).2.trans (h.turn timeline htimeline)

/-- In every run of writes of the domain and of decoder steps, the clock of the encoder follows
the packets exactly when no time goes back or crosses a multiple of 2^33. -/
theorem encoder_clock_iff (vbvBufferSize : UInt32) (actions : List TimedAction)
    (hdomain : Meets timedStep InDomain (vbvAlloc vbvBufferSize, none) actions) :
    Safe timedStep Follows (vbvAlloc vbvBufferSize, none) actions ↔
      Meets timedStep Steady (vbvAlloc vbvBufferSize, none) actions := by
  have hstart : OnTime (vbvAlloc vbvBufferSize, none) :=
    ⟨fun _ ↦ rfl, fun _ h ↦ by simp at h, fun _ h ↦ by simp at h, fun _ h ↦ by simp at h⟩
  refine safe_iff_meets_within OnTime (fun s a r h hdom hs hf ↦ h.step hdom hs hf) ?_ actions _
    hstart hdomain
  intro s a h hdom
  obtain ⟨action, time⟩ := a
  cases action with
  | thread now =>
      rw [timedStep_thread]
      obtain ⟨-, hclock⟩ := vbvThreadFunc_clocks s.1 now
      exact iff_of_true ⟨_, rfl, fun t ht ↦ hclock.trans (h.clock t ht)⟩ trivial
  | write pkt now =>
      rw [timedStep_write hdom.1, ← follows_write_iff h hdom]
      simp [Follows]

/-- Packets with a repeated time, and a round of the decoder between them. -/
theorem encoder_clock_follows :
    Safe timedStep Follows (vbvAlloc 1000, none) [⟨.write ⟨3, 90000, 90000, 100⟩ 1, 90000⟩,
      ⟨.thread 2, 0⟩, ⟨.write ⟨3, 93000, 93000, 100⟩ 3, 93000⟩,
      ⟨.write ⟨3, 93000, 93000, 100⟩ 4, 93000⟩] :=
  (encoder_clock_iff 1000 _ (by decide +kernel)).mpr (by decide +kernel)

/-- A step back of 1000 ticks moves the clock on by 26 hours, and a wrap moves it back. -/
theorem encoder_clock_jumps :
    (Meets timedStep InDomain (vbvAlloc 1000, none) [⟨.write ⟨3, 93000, 93000, 100⟩ 1, 93000⟩,
        ⟨.write ⟨3, 92000, 92000, 100⟩ 2, 92000⟩] ∧
      ¬Safe timedStep Follows (vbvAlloc 1000, none) [⟨.write ⟨3, 93000, 93000, 100⟩ 1, 93000⟩,
        ⟨.write ⟨3, 92000, 92000, 100⟩ 2, 92000⟩]) ∧
    Meets timedStep InDomain (vbvAlloc 1000, none)
        [⟨.write ⟨3, 8589934000, 8589934000, 100⟩ 1, 8589934000⟩,
          ⟨.write ⟨3, 408, 408, 100⟩ 2, 8589935000⟩] ∧
      ¬Safe timedStep Follows (vbvAlloc 1000, none)
        [⟨.write ⟨3, 8589934000, 8589934000, 100⟩ 1, 8589934000⟩,
          ⟨.write ⟨3, 408, 408, 100⟩ 2, 8589935000⟩] := by
  decide +kernel

end LtnTsTools.VideoBuffer
