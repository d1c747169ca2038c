import LtnTsTools.ClockArithmetic

/-!
# Analysis of RTP headers

`rtp_hdr_write` of `rtp-analyzer.c`.  A header is kept as it stands in memory, with
its numbers in network order.  The test for a gap in the sequence numbers also stores
the header, and the tests behind it compare the header with itself; a header with the
sequence number zero is taken for none.  The histograms are left out.
-/

namespace LtnTsTools.Rtp

open Ts

/-- `ntohs` of a little-endian host: the bytes the other way round. -/
def ntohs (v : UInt16) : UInt16 := .ofNat (v.toNat % 256 * 256 + v.toNat / 256)

/-- `ntohl` of a little-endian host. -/
def ntohl (v : UInt32) : UInt32 :=
  .ofNat (v.toNat % 256 * 2 ^ 24 + v.toNat / 2 ^ 8 % 256 * 2 ^ 16 +
    v.toNat / 2 ^ 16 % 256 * 2 ^ 8 + v.toNat / 2 ^ 24)

/-- `struct rtp_hdr`. -/
structure RtpHdr where
  cc : ℕ
  x : ℕ
  p : ℕ
  version : ℕ
  pt : ℕ
  m : ℕ
  seq : UInt16
  ts : UInt32
  ssrc : UInt32
deriving DecidableEq

/-- `struct rtp_hdr_analyzer_s`. -/
structure RtpHdrAnalyzer where
  last : RtpHdr
  totalPackets : ℕ
  totalFrames : ℕ
  discontinuityEvents : ℕ
  illegalPayloadTypeEvents : ℕ
  illegal2110TimestampMovementEvents : ℕ
  illegal2110TimestampStallEvents : ℕ
  illegalTSTimestampMovementEvents : ℕ
  illegalTSTimestampStallEvents : ℕ
  illegalTSCounterMovementEvents : ℕ
deriving DecidableEq

/-- `rtp_analyzer_init`. -/
def rtpAnalyzerInit : RtpHdrAnalyzer := ⟨⟨0, 0, 0, 0, 0, 0, 0, 0, 0⟩, 0, 0, 0, 0, 0, 0, 0, 0, 0⟩

/-- `rtp_hdr_is_payload_type_valid`. -/
def rtpHdrIsPayloadTypeValid (hdr : RtpHdr) : Bool :=
  if hdr.pt < 96 ∨ hdr.pt > 127 then hdr.pt == 33 else true

/-- `rtp_hdr_is_continious`, which stores the header. -/
def rtpHdrIsContinious (ctx : RtpHdrAnalyzer) (hdr : RtpHdr) : Bool × RtpHdrAnalyzer :=
  let follows :=
    if ctx.last.seq > 0 then ((ntohs ctx.last.seq).toNat + 1) % 65536 == (ntohs hdr.seq).toNat
    else true
  (follows, { ctx with last := hdr })

/-- The timestamp checks of `rtp_hdr_write`, in front of the sequence numbers. -/
def checkTimestamp (ctx : RtpHdrAnalyzer) (hdr : RtpHdr) : RtpHdrAnalyzer :=
  let ticks := (ptsDiff (ntohl ctx.last.ts).toNat (ntohl hdr.ts).toNat).tdiv 90
  let seen := ctx.last.ts != 0
  { ctx with
    illegalTSTimestampStallEvents :=
      ctx.illegalTSTimestampStallEvents + (seen && ticks == 0).toNat
    illegalTSTimestampMovementEvents :=
      ctx.illegalTSTimestampMovementEvents + (seen && decide (ticks ≥ 3)).toNat
    illegal2110TimestampMovementEvents :=
      ctx.illegal2110TimestampMovementEvents +
        (seen && ctx.last.ts != hdr.ts && ctx.last.m == 0 &&
          decide (96 ≤ hdr.pt ∧ hdr.pt ≤ 127)).toNat
    illegal2110TimestampStallEvents :=
      ctx.illegal2110TimestampStallEvents +
        (seen && ctx.last.ts == hdr.ts && ctx.last.m == 1).toNat }

/-- The sequence number checks of `rtp_hdr_write`. -/
def checkSequence (ctx : RtpHdrAnalyzer) (hdr : RtpHdr) : RtpHdrAnalyzer :=
  let r := rtpHdrIsContinious ctx hdr
  let ctx := { r.2 with discontinuityEvents := r.2.discontinuityEvents + (!r.1).toNat }
  { ctx with
    illegalTSCounterMovementEvents := ctx.illegalTSCounterMovementEvents +
      (ctx.last.ts != 0 && (ntohs hdr.seq != 0 && ntohs hdr.seq < ntohs ctx.last.seq)).toNat }

/-- `rtp_hdr_write`. -/
def rtpHdrWrite (ctx : RtpHdrAnalyzer) (hdr : RtpHdr) : RtpHdrAnalyzer :=
  let ctx := checkSequence
    (checkTimestamp { ctx with totalPackets := ctx.totalPackets + 1 } hdr) hdr
  { ctx with
    illegalPayloadTypeEvents :=
      ctx.illegalPayloadTypeEvents + (!rtpHdrIsPayloadTypeValid hdr).toNat
    totalFrames := ctx.totalFrames + (hdr.m != 0).toNat }

/-! ## Sequence numbers -/

def RtpHdr.sequenceNumber (hdr : RtpHdr) : ℕ := (ntohs hdr.seq).toNat

def Gap (pair : RtpHdr × RtpHdr) : Prop :=
  pair.2.sequenceNumber ≠ (pair.1.sequenceNumber + 1) % 65536

def Fall (pair : RtpHdr × RtpHdr) : Prop :=
  pair.2.sequenceNumber ≠ 0 ∧ pair.2.sequenceNumber < pair.1.sequenceNumber

instance (pair : RtpHdr × RtpHdr) : Decidable (Gap pair) := inferInstanceAs (Decidable (_ ≠ _))

instance (pair : RtpHdr × RtpHdr) : Decidable (Fall pair) := inferInstanceAs (Decidable (_ ∧ _))

def adjacent (hdrs : List RtpHdr) : List (RtpHdr × RtpHdr) := hdrs.zip hdrs.tail

theorem toNat_ntohs (v : UInt16) : (ntohs v).toNat = v.toNat % 256 * 256 + v.toNat / 256 := by
  have hv := v.toNat_lt
  rw [ntohs, UInt16.toNat_ofNat']
  omega

theorem sequenceNumber_eq_zero {hdr : RtpHdr} : hdr.sequenceNumber = 0 ↔ ¬hdr.seq > 0 := by
  have hv := hdr.seq.toNat_lt
  rw [RtpHdr.sequenceNumber, toNat_ntohs, gt_iff_lt, UInt16.lt_iff_toNat_lt]
  simp only [UInt16.toNat_zero]
  omega

/-- A gap is not seen behind the number zero. -/
theorem rtpHdrIsContinious_eq (ctx : RtpHdrAnalyzer) (hdr : RtpHdr) :
    (rtpHdrIsContinious ctx hdr).1 =
      !decide (ctx.last.sequenceNumber ≠ 0 ∧ Gap (ctx.last, hdr)) := by
  have hzero := @sequenceNumber_eq_zero ctx.last
  unfold rtpHdrIsContinious Gap
  by_cases hseq : ctx.last.seq > 0
  · have hne : ctx.last.sequenceNumber ≠ 0 := fun h ↦ hzero.mp h hseq
    simp only [hseq, if_true, hne, ne_eq, not_false_eq_true, true_and, decide_not, Bool.not_not]
    rw [Bool.beq_eq_decide_eq, decide_eq_decide]
    exact eq_comm
  · simp [hseq, hzero.mpr hseq]

/-- What a header does to the counters of its sequence number: a fall is never
seen. -/
theorem rtpHdrWrite_sequence (ctx : RtpHdrAnalyzer) (hdr : RtpHdr) :
    (rtpHdrWrite ctx hdr).last = hdr ∧
      (rtpHdrWrite ctx hdr).discontinuityEvents = ctx.discontinuityEvents +
        (if ctx.last.sequenceNumber ≠ 0 ∧ Gap (ctx.last, hdr) then 1 else 0) ∧
      (rtpHdrWrite ctx hdr).illegalTSCounterMovementEvents =
        ctx.illegalTSCounterMovementEvents := by
  refine ⟨rfl, ?_, ?_⟩
  · simp only [rtpHdrWrite, checkSequence, rtpHdrIsContinious_eq, Bool.not_not]
    change _ + (decide (ctx.last.sequenceNumber ≠ 0 ∧ Gap (ctx.last, hdr))).toNat = _
    split_ifs with h
    · rw [decide_eq_true h]
      rfl
    · rw [decide_eq_false h]
      rfl
  · simp only [rtpHdrWrite, checkSequence, rtpHdrIsContinious]
    simp [checkTimestamp]

def rtpHdrWrites (ctx : RtpHdrAnalyzer) (hdrs : List RtpHdr) : RtpHdrAnalyzer :=
  hdrs.foldl rtpHdrWrite ctx

theorem rtpHdrWrites_sequence (hdrs : List RtpHdr) : ∀ ctx : RtpHdrAnalyzer,
    (rtpHdrWrites ctx hdrs).discontinuityEvents = ctx.discontinuityEvents +
        (adjacent (ctx.last :: hdrs)).countP
          (fun pair ↦ pair.1.sequenceNumber ≠ 0 ∧ Gap pair) ∧
      (rtpHdrWrites ctx hdrs).illegalTSCounterMovementEvents =
        ctx.illegalTSCounterMovementEvents := by
  induction hdrs with
  | nil => exact fun _ ↦ ⟨rfl, rfl⟩
  | cons hdr rest ih =>
      intro ctx
      obtain ⟨hlast, hgaps, hfalls⟩ := rtpHdrWrite_sequence ctx hdr
      obtain ⟨hgaps', hfalls'⟩ := ih (rtpHdrWrite ctx hdr)
      refine ⟨hgaps'.trans ?_, hfalls'.trans hfalls⟩
      have hpairs : adjacent (ctx.last :: hdr :: rest) =
          (ctx.last, hdr) :: adjacent (hdr :: rest) := rfl
      rw [hgaps, hlast, hpairs, List.countP_cons, Nat.add_assoc]
      simp only [decide_eq_true_eq]
      ring

/-- Both counters say how many pairs of neighbours are out of order. -/
def SequenceExact (hdrs : List RtpHdr) : Prop :=
  (rtpHdrWrites rtpAnalyzerInit hdrs).discontinuityEvents =
      (adjacent hdrs).countP (fun pair ↦ Gap pair) ∧
    (rtpHdrWrites rtpAnalyzerInit hdrs).illegalTSCounterMovementEvents =
      (adjacent hdrs).countP fun pair ↦ Fall pair

instance (hdrs : List RtpHdr) : Decidable (SequenceExact hdrs) :=
  inferInstanceAs (Decidable (_ ∧ _))

/-- A stricter count is the same when it leaves nothing out. -/
theorem countP_eq_countP_iff {α : Type*} {p q : α → Bool} {l : List α}
    (hpq : ∀ a ∈ l, p a → q a) : l.countP p = l.countP q ↔ ∀ a ∈ l, q a → p a := by
  refine ⟨fun h ↦ ?_, fun h ↦ List.countP_congr fun a ha ↦ ⟨hpq a ha, h a ha⟩⟩
  induction l with
  | nil => simp
  | cons x rest ih =>
      obtain ⟨hx, hrest⟩ := List.forall_mem_cons.mp hpq
      have hle := List.countP_mono_left hrest
      rw [List.countP_cons, List.countP_cons] at h
      have hsame : q x → p x := by
        intro hq
        by_contra hp
        simp only [hq, if_true, hp, if_false] at h
        omega
      refine List.forall_mem_cons.mpr ⟨hsame, ih hrest ?_⟩
      have hiff : p x ↔ q x := ⟨hx, hsame⟩
      simp only [hiff] at h
      omega

theorem gap_behind_zero {pair : RtpHdr × RtpHdr} :
    (Gap pair → pair.1.sequenceNumber ≠ 0 ∧ Gap pair) ↔
      (pair.1.sequenceNumber = 0 → pair.2.sequenceNumber = 1) := by
  unfold Gap
  omega

/-- The counters are right exactly when no number falls and the one behind zero is
one. -/
theorem sequenceExact_iff (hdrs : List RtpHdr) :
    SequenceExact hdrs ↔ ∀ pair ∈ adjacent hdrs,
      (pair.1.sequenceNumber = 0 → pair.2.sequenceNumber = 1) ∧ ¬Fall pair := by
  obtain ⟨hgaps, hfalls⟩ := rtpHdrWrites_sequence hdrs rtpAnalyzerInit
  have hfresh : (adjacent (rtpAnalyzerInit.last :: hdrs)).countP
      (fun pair ↦ pair.1.sequenceNumber ≠ 0 ∧ Gap pair) =
      (adjacent hdrs).countP fun pair ↦ pair.1.sequenceNumber ≠ 0 ∧ Gap pair := by
    cases hdrs with
    | nil => rfl
    | cons hdr rest =>
        have hzero : rtpAnalyzerInit.last.sequenceNumber = 0 := by decide
        have hpairs : adjacent (rtpAnalyzerInit.last :: hdr :: rest) =
            (rtpAnalyzerInit.last, hdr) :: adjacent (hdr :: rest) := rfl
        rw [hpairs, List.countP_cons_of_neg (by simp [hzero])]
  have hstart : rtpAnalyzerInit.discontinuityEvents = 0 ∧
      rtpAnalyzerInit.illegalTSCounterMovementEvents = 0 := ⟨rfl, rfl⟩
  rw [SequenceExact, hgaps, hfalls, hfresh, hstart.1, hstart.2, Nat.zero_add,
    countP_eq_countP_iff (by simp), eq_comm (a := 0), List.countP_eq_zero, ← forall₂_and]
  refine forall₂_congr fun pair hpair ↦ and_congr ?_ (by simp)
  rw [decide_eq_true_eq, decide_eq_true_eq]
  exact gap_behind_zero

/-- A header with a sequence number in network order. -/
def headerNumbered (seq : UInt16) (ts : UInt32) : RtpHdr := ⟨0, 0, 0, 2, 33, 0, seq, ts, 1⟩

/-- A number skipped behind zero is not counted, and neither is a number that goes
back. -/
theorem gap_and_fall_unseen :
    ¬SequenceExact [headerNumbered 0 1, headerNumbered 0x0200 1] ∧
      ¬SequenceExact [headerNumbered 0x0500 1, headerNumbered 0x0300 1] := by
  decide +kernel

end LtnTsTools.Rtp
