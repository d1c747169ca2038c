import LtnTsTools.Draining
import LtnTsTools.PartialMachine
import LtnTsTools.Region

/-!
# The reframer

`reframer.c` collects the bytes of buffers of any length in a send buffer, and hands each frame
that is full to a callback.  The frame size is a `uint32_t` where it is asked for and an `int`
where it is kept.
-/

namespace LtnTsTools.Reframer

open Draining PartialMachine

/-- `struct ltntstools_reframer_ctx_s`. -/
structure Ctx where
  sendBuffer : List UInt8
  sendIndex : ℕ
  minSendBytes : ℤ
deriving DecidableEq

/-- `ltntstools_reframer_alloc`; `memory` is what `malloc` finds in the send buffer. -/
def reframerAlloc (frameSizeBytes : UInt32) (memory : ℕ → UInt8) : Ctx where
  sendBuffer := (List.range frameSizeBytes.toNat).map memory
  sendIndex := 0
  minSendBytes := (frameSizeBytes.toNat : ℤ).bmod (2 ^ 32)

def Ctx.pending (ctx : Ctx) : List UInt8 := ctx.sendBuffer.take ctx.sendIndex

/-- `cplen`, for the `len` bytes that are left. -/
def copyLength (ctx : Ctx) (len : ℤ) : ℤ :=
  if len > ctx.minSendBytes - ctx.sendIndex then ctx.minSendBytes - ctx.sendIndex else len

/-- One round of the loop; `none` if `memcpy` leaves the send buffer.  A negative `cplen` is a
`size_t` beyond every buffer. -/
def copyRound (ctx : Ctx) (rest : List UInt8) :
    Option (Ctx × List (List UInt8) × List UInt8) :=
  let cplen := copyLength ctx rest.length
  if cplen < 0 then none else
    (Region.store ctx.sendBuffer ctx.sendIndex (rest.take cplen.toNat)).map fun sendBuffer ↦
      let sendIndex := ctx.sendIndex + cplen.toNat
      let rest := rest.drop cplen.toNat
      if (sendIndex : ℤ) = ctx.minSendBytes then
        ({ ctx with sendBuffer := sendBuffer, sendIndex := 0 },
          [sendBuffer.take ctx.minSendBytes.toNat], rest)
      else ({ ctx with sendBuffer := sendBuffer, sendIndex := sendIndex }, [], rest)

/-- The loop of `ltststools_reframer_write`, with the frames of the callbacks. -/
def writeLoop : ℕ → Ctx → List UInt8 → Option (Ctx × List (List UInt8))
  | _, ctx, [] => some (ctx, [])
  | 0, _, _ :: _ => none
  | fuel + 1, ctx, rest => do
      let (ctx, frames, rest) ← copyRound ctx rest
      let (ctx, later) ← writeLoop fuel ctx rest
      some (ctx, frames ++ later)

/-- `ltststools_reframer_write`.  A round with bytes copies one at least. -/
def reframerWrite (ctx : Ctx) (buf : List UInt8) : Option (Ctx × List (List UInt8)) :=
  if ctx.minSendBytes = 0 then some (ctx, [buf]) else writeLoop buf.length ctx buf

/-- The writes end, each frame has the size asked for, and no byte is lost or added. -/
def Conserves (frameSizeBytes : UInt32) (memory : ℕ → UInt8) (bufs : List (List UInt8)) : Prop :=
  ∃ ctx frames, trace reframerWrite (reframerAlloc frameSizeBytes memory) bufs =
      some (ctx, frames) ∧
    (∀ frame ∈ frames.flatten, frame.length = frameSizeBytes.toNat) ∧
      frames.flatten.flatten ++ ctx.pending = bufs.flatten ∧
        ctx.sendIndex < frameSizeBytes.toNat

/-- The send buffer holds one frame, and less than a frame waits in it. -/
structure Sound (frameSize : ℕ) (ctx : Ctx) : Prop where
  bytes : ctx.minSendBytes = frameSize
  buffer : ctx.sendBuffer.length = frameSize
  index : ctx.sendIndex < frameSize

theorem Sound.pending_lt {frameSize : ℕ} {ctx : Ctx} (h : Sound frameSize ctx) :
    ctx.pending.length < frameSize := by
  have hindex := h.index
  rw [Ctx.pending, List.length_take]
  omega

theorem Sound.copyLength_eq {frameSize : ℕ} {ctx : Ctx} (h : Sound frameSize ctx) (len : ℕ) :
    copyLength ctx len = (min len (frameSize - ctx.sendIndex) : ℕ) := by
  have hindex := h.index
  rw [copyLength, h.bytes]
  split_ifs <;> omega

/-- What a round does with the `n` bytes that it copies. -/
theorem exists_copyRound_eq {frameSize : ℕ} {ctx : Ctx} (h : Sound frameSize ctx)
    {rest : List UInt8} {n : ℕ} (hn : n = min rest.length (frameSize - ctx.sendIndex)) :
    ∃ sendBuffer : List UInt8, sendBuffer.length = frameSize ∧
      sendBuffer.take (ctx.sendIndex + n) = ctx.pending ++ rest.take n ∧
      copyRound ctx rest = some (if ctx.sendIndex + n = frameSize then
          (⟨sendBuffer, 0, ctx.minSendBytes⟩, [ctx.pending ++ rest.take n], rest.drop n)
        else (⟨sendBuffer, ctx.sendIndex + n, ctx.minSendBytes⟩, [], rest.drop n)) := by
  have hindex := h.index
  have hcplen : copyLength ctx rest.length = (n : ℕ) := by rw [h.copyLength_eq, hn]
  have hlen : (rest.take n).length = n := List.length_take_of_le (by omega)
  have hfits : ctx.sendIndex + (rest.take n).length ≤ ctx.sendBuffer.length := by
    rw [hlen, h.buffer]
    omega
  obtain ⟨sendBuffer, hstore⟩ : ∃ sendBuffer,
      Region.store ctx.sendBuffer ctx.sendIndex (rest.take n) = some sendBuffer :=
    ⟨_, Region.store_eq_some hfits⟩
  have hcopied : sendBuffer.take (ctx.sendIndex + n) = ctx.pending ++ rest.take n := by
    have htake := Region.take_of_store hstore
    rwa [hlen] at htake
  refine ⟨sendBuffer, (Region.length_of_store hstore).trans h.buffer, hcopied, ?_⟩
  have hround : ¬((n : ℤ) < 0) := by omega
  rw [copyRound, hcplen, if_neg hround, Int.toNat_natCast, hstore, Option.map_some, h.bytes]
  by_cases hfull : ctx.sendIndex + n = frameSize
  · simp only [hfull, if_true, Int.toNat_natCast, ← hcopied]
  · have hpart : ¬((ctx.sendIndex + n : ℕ) : ℤ) = frameSize := by omega
    rw [if_neg hpart, if_neg hfull]

/-- A round with bytes copies some of them, and keeps what can be drained. -/
theorem copyRound_spec {frameSize : ℕ} {ctx : Ctx} (h : Sound frameSize ctx) {rest : List UInt8}
    (hrest : rest ≠ []) :
    ∃ ctx' frames rest', copyRound ctx rest = some (ctx', frames, rest') ∧
      Sound frameSize ctx' ∧ rest'.length < rest.length ∧
        ∀ later left, Drains (takeFrame frameSize) (ctx'.pending ++ rest') later left →
          Drains (takeFrame frameSize) (ctx.pending ++ rest) (frames ++ later) left := by
  have hindex := h.index
  have hpos : 0 < rest.length := List.length_pos_iff.mpr hrest
  obtain ⟨n, hn⟩ : ∃ n, n = min rest.length (frameSize - ctx.sendIndex) := ⟨_, rfl⟩
  obtain ⟨sendBuffer, hbuffer, hcopied, hround⟩ := exists_copyRound_eq h hn
  have hall : ctx.pending ++ rest = (ctx.pending ++ rest.take n) ++ rest.drop n := by
    rw [List.append_assoc, List.take_append_drop]
  have hshorter : (rest.drop n).length < rest.length := by
    rw [List.length_drop]
    omega
  by_cases hfull : ctx.sendIndex + n = frameSize
  · -- The bytes that were missing complete a frame.
    have hempty : 0 < frameSize := by omega
    have hframe : (ctx.pending ++ rest.take n).length = frameSize := by
      rw [← hcopied, List.length_take, hbuffer, hfull, min_self]
    rw [if_pos hfull] at hround
    refine ⟨_, _, _, hround, ⟨h.bytes, hbuffer, hempty⟩, hshorter, fun later left hdrains ↦ ?_⟩
    rw [hall]
    exact .take (takeFrame_append hframe _) hdrains
  · -- All bytes are copied, and the frame is not full.
    have hpart : ctx.sendIndex + n < frameSize := by omega
    rw [if_neg hfull] at hround
    refine ⟨_, _, _, hround, ⟨h.bytes, hbuffer, hpart⟩, hshorter, fun later left hdrains ↦ ?_⟩
    rw [hall]
    rwa [Ctx.pending, hcopied] at hdrains

theorem writeLoop_spec {frameSize : ℕ} (fuel : ℕ) :
    ∀ {ctx : Ctx} {rest : List UInt8}, Sound frameSize ctx → rest.length ≤ fuel →
      ∃ ctx' frames, writeLoop fuel ctx rest = some (ctx', frames) ∧ Sound frameSize ctx' ∧
        Drains (takeFrame frameSize) (ctx.pending ++ rest) frames ctx'.pending := by
  induction fuel with
  | zero =>
      intro ctx rest h hfuel
      obtain rfl : rest = [] := List.length_eq_zero_iff.mp (by omega)
      refine ⟨ctx, [], rfl, h, ?_⟩
      rw [List.append_nil]
      exact .stuck (takeFrame_eq_none_iff.mpr h.pending_lt)
  | succ fuel ih =>
      intro ctx rest h hfuel
      cases rest with
      | nil =>
          refine ⟨ctx, [], rfl, h, ?_⟩
          rw [List.append_nil]
          exact .stuck (takeFrame_eq_none_iff.mpr h.pending_lt)
      | cons b bs =>
          obtain ⟨mid, frames, rest', hround, hmid, hshorter, hdrains⟩ :=
            copyRound_spec h (List.cons_ne_nil b bs)
          have hfuel' : rest'.length ≤ fuel := by omega
          obtain ⟨ctx', later, hloop, hctx', hlater⟩ := ih hmid hfuel'
          refine ⟨ctx', frames ++ later, ?_, hctx', hdrains _ _ hlater⟩
          simp [writeLoop, hround, hloop]

theorem reframerWrite_spec {frameSize : ℕ} {ctx : Ctx} (h : Sound frameSize ctx)
    (buf : List UInt8) :
    ∃ ctx' frames, reframerWrite ctx buf = some (ctx', frames) ∧ Sound frameSize ctx' ∧
      Drains (takeFrame frameSize) (ctx.pending ++ buf) frames ctx'.pending := by
  have hindex := h.index
  have hne : ctx.minSendBytes ≠ 0 := by
    rw [h.bytes]
    omega
  rw [reframerWrite, if_neg hne]
  exact writeLoop_spec _ h le_rfl

/-- The writes drain their buffers portion by portion. -/
theorem trace_spec {frameSize : ℕ} (bufs : List (List UInt8)) :
    ∀ {ctx : Ctx}, Sound frameSize ctx →
      ∃ ctx' frames, trace reframerWrite ctx bufs = some (ctx', frames) ∧ Sound frameSize ctx' ∧
        Portions (takeFrame frameSize) ctx.pending bufs frames ctx'.pending := by
  induction bufs with
  | nil => exact fun {ctx} h ↦ ⟨ctx, [], rfl, h, .done⟩
  | cons buf rest ih =>
      intro ctx h
      obtain ⟨mid, frames, hwrite, hmid, hdrains⟩ := reframerWrite_spec h buf
      obtain ⟨ctx', later, htrace, hctx', hportions⟩ := ih hmid
      refine ⟨ctx', frames :: later, ?_, hctx', .more hdrains hportions⟩
      simp [trace, hwrite, htrace]

/-! ## Frames of 2^31 bytes or more -/

theorem reframerWrite_nil {ctx : Ctx} (h : ctx.minSendBytes ≠ 0) :
    reframerWrite ctx [] = some (ctx, []) := by
  rw [reframerWrite, if_neg h]
  rfl

/-- A negative frame size makes a negative length of the first copy. -/
theorem reframerWrite_cons {ctx : Ctx} (h : ctx.minSendBytes < 0) (b : UInt8)
    (bs : List UInt8) : reframerWrite ctx (b :: bs) = none := by
  have hcplen : copyLength ctx (b :: bs).length < 0 := by
    rw [copyLength]
    split_ifs <;> omega
  have hround : copyRound ctx (b :: bs) = none := by rw [copyRound, if_pos hcplen]
  rw [reframerWrite, if_neg h.ne]
  simp [writeLoop, hround]

theorem trace_of_empty {ctx : Ctx} (h : ctx.minSendBytes ≠ 0) (bufs : List (List UInt8))
    (hempty : ∀ buf ∈ bufs, buf = []) :
    trace reframerWrite ctx bufs = some (ctx, List.replicate bufs.length []) := by
  induction bufs with
  | nil => rfl
  | cons buf rest ih =>
      obtain ⟨rfl, hrest⟩ := List.forall_mem_cons.mp hempty
      simp [trace, reframerWrite_nil h, ih hrest, List.replicate_succ]

theorem empty_of_trace {bufs : List (List UInt8)} :
    ∀ {ctx ctx' : Ctx} {frames : List (List (List UInt8))}, ctx.minSendBytes < 0 →
      trace reframerWrite ctx bufs = some (ctx', frames) → ∀ buf ∈ bufs, buf = [] := by
  induction bufs with
  | nil => simp
  | cons buf rest ih =>
      intro ctx ctx' frames h htrace
      obtain ⟨mid, out, later, hwrite, hrest, -⟩ := exists_of_trace_cons htrace
      cases buf with
      | nil =>
          rw [reframerWrite_nil h.ne, Option.some.injEq, Prod.mk.injEq] at hwrite
          obtain ⟨rfl, -⟩ := hwrite
          exact List.forall_mem_cons.mpr ⟨rfl, ih h hrest⟩
      | cons b bs =>
          rw [reframerWrite_cons h] at hwrite
          contradiction

/-! ## Conservation -/

theorem reframerAlloc_sound {frameSizeBytes : UInt32} (hpos : 0 < frameSizeBytes.toNat)
    (hsmall : frameSizeBytes.toNat < 2 ^ 31) (memory : ℕ → UInt8) :
    Sound frameSizeBytes.toNat (reframerAlloc frameSizeBytes memory) where
  bytes := by
    have hbmod : (frameSizeBytes.toNat : ℤ).bmod (2 ^ 32) = frameSizeBytes.toNat := by
      apply Int.bmod_eq_of_le <;> omega
    simp only [reframerAlloc, hbmod]
  buffer := by rw [reframerAlloc, List.length_map, List.length_range]
  index := hpos

theorem reframerAlloc_negative {frameSizeBytes : UInt32} (hlarge : ¬frameSizeBytes.toNat < 2 ^ 31)
    (memory : ℕ → UInt8) : (reframerAlloc frameSizeBytes memory).minSendBytes < 0 := by
  have hlt := frameSizeBytes.toNat_lt
  have hbmod : (frameSizeBytes.toNat : ℤ).bmod (2 ^ 32) < 0 := by
    rw [Int.bmod_def]
    split_ifs <;> omega
  simpa only [reframerAlloc] using hbmod

/-- The reframer conserves the bytes exactly when the frame size is an `int`, or when there is
no byte. -/
theorem reframer_conserves_iff (frameSizeBytes : UInt32) (hpos : 0 < frameSizeBytes.toNat)
    (memory : ℕ → UInt8) (bufs : List (List UInt8)) :
    Conserves frameSizeBytes memory bufs ↔
      frameSizeBytes.toNat < 2 ^ 31 ∨ ∀ buf ∈ bufs, buf = [] := by
  by_cases hsmall : frameSizeBytes.toNat < 2 ^ 31
  · refine iff_of_true ?_ (Or.inl hsmall)
    obtain ⟨ctx, frames, htrace, hctx, hportions⟩ :=
      trace_spec bufs (reframerAlloc_sound hpos hsmall memory)
    have hstuck : takeFrame frameSizeBytes.toNat ([] : List UInt8) = none :=
      takeFrame_eq_none_iff.mpr hpos
    have hdrains := hportions.flatten (takeFrame_incremental hpos) hstuck
    obtain ⟨hall, hframes, -⟩ := drains_takeFrame hdrains
    exact ⟨ctx, frames, htrace, hframes, hall, hctx.index⟩
  · have hneg := reframerAlloc_negative hsmall memory
    rw [or_iff_right hsmall]
    constructor
    · rintro ⟨ctx, frames, htrace, -⟩
      exact empty_of_trace hneg htrace
    · intro hempty
      refine ⟨_, _, trace_of_empty hneg.ne bufs hempty, by simp, ?_, hpos⟩
      have hflat : bufs.flatten = [] := List.flatten_eq_nil_iff.mpr hempty
      simp [hflat, Ctx.pending, reframerAlloc]

theorem reframer_conserves_packets :
    Conserves 4 (fun _ ↦ 0) [[1, 2, 3], [], [4, 5, 6, 7, 8]] :=
  (reframer_conserves_iff 4 (by decide) (fun _ ↦ 0) [[1, 2, 3], [], [4, 5, 6, 7, 8]]).mpr
    (.inl (by decide))

/-- One byte for a frame of 2^31 bytes is copied with a negative length. -/
theorem reframer_large_frame :
    0 < (0x80000000 : UInt32).toNat ∧
      (reframerAlloc 0x80000000 fun _ ↦ 0).minSendBytes = -2147483648 ∧
      trace reframerWrite (reframerAlloc 0x80000000 fun _ ↦ 0) [[0x47]] = none ∧
        ¬Conserves 0x80000000 (fun _ ↦ 0) [[0x47]] := by
  have hneg : (reframerAlloc 0x80000000 fun _ ↦ 0).minSendBytes = -2147483648 := by decide
  have htrace : trace reframerWrite (reframerAlloc 0x80000000 fun _ ↦ 0) [[0x47]] = none := by
    have hlt : (reframerAlloc 0x80000000 fun _ ↦ 0).minSendBytes < 0 := by
      rw [hneg]
      decide
    rw [trace, reframerWrite_cons hlt]
  refine ⟨by decide, hneg, htrace, ?_⟩
  rintro ⟨ctx, frames, h, -⟩
  rw [htrace] at h
  contradiction

end LtnTsTools.Reframer
