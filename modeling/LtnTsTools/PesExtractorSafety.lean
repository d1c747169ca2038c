import LtnTsTools.PesExtractor

/-!
# Safety of the PES extractor

Two questions about runs of the extractor.  Which packets make it hand a range to
the ring that is not inside the packet?  And which runs keep the byte counter,
the ring and the length of a closed PES in the order that the three calls of
`abort` insist on?
-/

namespace LtnTsTools.PesExtractor

open RingBuffer Stats Pes PartialMachine

/-! ## Ranges handed to the ring -/

/-- The range lies inside the packet and is no longer than a payload. -/
def RingWrite.Inside (w : RingWrite) : Prop :=
  0 ≤ w.wsize ∧ w.wsize ≤ 184 ∧ w.offset + w.wsize ≤ 188

instance (w : RingWrite) : Decidable w.Inside := inferInstanceAs (Decidable (_ ∧ _))

/-- The PES in the ring can be closed: there is none, or it is as long as was
counted and not short. -/
def ClosesPes (ctx : Ctx) : Prop :=
  rbUsed ctx.rb = 0 ∨ ctx.computedRingSize = rbUsed ctx.rb ∧ 16 ≤ rbUsed ctx.rb ∧
    (rbPeek ctx.rb (rbUsed ctx.rb)).isSome = true

instance (ctx : Ctx) : Decidable (ClosesPes ctx) := inferInstanceAs (Decidable (_ ∨ _))

def ReachesRing (ctx : Ctx) (pkt : Packet) : Prop :=
  Wanted ctx pkt ∧
    if Ts.payloadUnitStartIndicator pkt then keepsAppending ctx pkt = true → ClosesPes ctx
    else keepsAppending ctx pkt = true

instance (ctx : Ctx) (pkt : Packet) : Decidable (ReachesRing ctx pkt) :=
  inferInstanceAs (Decidable (_ ∧ _))

def AdaptionInside (pkt : Packet) : Prop :=
  Ts.hasAdaption pkt = true → Ts.adaptionFieldLength pkt ≤ 183

instance (pkt : Packet) : Decidable (AdaptionInside pkt) := inferInstanceAs (Decidable (_ → _))

theorem adaptionInside_iff (pkt : Packet) : AdaptionInside pkt ↔ Ts.payloadOffset pkt ≤ 188 := by
  unfold AdaptionInside Ts.payloadOffset
  split_ifs with h
  · simp only [h, forall_const]
    omega
  · simp [h]

theorem payloadWrite_inside_iff (pkt : Packet) :
    (payloadWrite pkt).Inside ↔ AdaptionInside pkt := by
  have hfour := Ts.four_le_payloadOffset pkt
  rw [adaptionInside_iff]
  simp only [RingWrite.Inside, payloadWrite]
  omega

theorem processRing_isOk_iff (ctx : Ctx) : (∃ r, processRing ctx = .ok r) ↔ ClosesPes ctx := by
  unfold processRing ClosesPes
  simp only
  split_ifs with hempty hcount hshort
  · simp [hempty]
  · simp [hempty, hcount]
  · simp only [exists_false, hempty, false_or, false_iff]
    omega
  · cases hpeek : rbPeek ctx.rb (rbUsed ctx.rb) with
    | none => simp [hempty]
    | some x =>
        have hyes : ∃ r, (if x.2.length = rbUsed ctx.rb then
            (Except.ok (deliverPes { ctx with
              rb := x.1, largestRingFrame := max ctx.largestRingFrame (rbUsed ctx.rb) } x.2) :
                Except Halt (Ctx × List PesPacket))
            else .ok ({ ctx with rb := x.1 }, [])) = .ok r := by
          split_ifs <;> exact ⟨_, rfl⟩
        simp only [hyes, Option.isSome_some, and_true, true_iff]
        exact .inr ⟨by simpa using hcount, by omega⟩

theorem closesPes_restart (ctx : Ctx) (appending : Bool) : ClosesPes (restart ctx appending) :=
  .inl rfl

theorem closesPes_opened (ctx : Ctx) (pkt : Packet) :
    ClosesPes (opened ctx pkt) ↔ (keepsAppending ctx pkt = true → ClosesPes ctx) := by
  unfold opened
  split_ifs with hkeep
  · rw [forall_prop_of_true hkeep]
    rfl
  · simp [hkeep, closesPes_restart]

/-- A packet that gets as far as the ring hands over its payload, and no other
packet hands over anything. -/
theorem handed_writePacket (ctx : Ctx) (pkt : Packet) :
    (writePacket ctx pkt).handed = if ReachesRing ctx pkt then [payloadWrite pkt] else [] := by
  rcases writePacket_cases ctx pkt with
    ⟨hpid, heq⟩ | ⟨hpid, hwhy, heq⟩ | ⟨hwanted, hpusi, hkeep, heq⟩ | ⟨hwanted, hpusi, heq⟩ <;>
    rw [heq]
  · rw [if_neg (fun h ↦ hpid h.1.1)]
    rfl
  · have hno : ¬ReachesRing ctx pkt := by
      rintro ⟨⟨-, hafc⟩, hbranch⟩
      rcases hwhy with hafc' | ⟨hpusi, hkeep⟩
      · exact hafc hafc'
      · simp [hpusi, hkeep] at hbranch
    rw [if_neg hno]
    rfl
  · rw [if_pos ⟨hwanted, by simp [hpusi, hkeep]⟩]
    rfl
  · have hreach : ReachesRing ctx pkt ↔ ClosesPes (opened ctx pkt) := by
      rw [closesPes_opened]
      simp [ReachesRing, hwanted, hpusi]
    rw [startPes]
    cases hring : processRing (opened ctx pkt) with
    | error e =>
        have hno : ¬ClosesPes (opened ctx pkt) := by
          rw [← processRing_isOk_iff, hring]
          simp
        rw [if_neg (hreach.not.mpr hno)]
    | ok r =>
        have hyes : ClosesPes (opened ctx pkt) := (processRing_isOk_iff _).mp ⟨r, hring⟩
        rw [if_pos (hreach.mpr hyes)]

theorem handed_writeLoop_iff (pkts : List Packet) (ctx : Ctx) :
    (∀ w ∈ (writeLoop ctx pkts).handed, w.Inside) ↔
      Meets step (fun ctx pkt ↦ ReachesRing ctx pkt → AdaptionInside pkt) ctx pkts := by
  induction pkts generalizing ctx with
  | nil => simp [writeLoop, Outcome.idle, Meets]
  | cons pkt rest ih =>
      have hone : (∀ w ∈ (writePacket ctx pkt).handed, w.Inside) ↔
          (ReachesRing ctx pkt → AdaptionInside pkt) := by
        rw [handed_writePacket, ← payloadWrite_inside_iff]
        split_ifs with h <;> simp [h]
      simp only [writeLoop, Meets, step, Outcome.andThen, ← hone]
      cases hnext : (writePacket ctx pkt).next with
      | error e => simp
      | ok ctx' => simp only [List.forall_mem_append, ih]

/-- Every range handed to the ring lies inside its packet if and only if no packet
that gets as far as the ring has an adaption field that ends behind the packet. -/
theorem handed_inside_iff (ctx : Ctx) (calls : List (List Packet))
    (hopen : ctx.preventWrites = false) :
    (∀ w ∈ (pesExtractorWrites ctx calls).handed, w.Inside) ↔
      Meets step (fun ctx pkt ↦ ReachesRing ctx pkt → AdaptionInside pkt) ctx calls.flatten := by
  rw [pesExtractorWrites_eq calls hopen, handed_writeLoop_iff]

/-- An extractor with a ring of a thousand bytes for pid 256. -/
def smallExtractor (orderedOutput : Bool) : Ctx where
  pid := 256
  rb :=
    { data := List.replicate 1000 0, sizeMax := 2000, sizeInitial := 1000, head := 0, fill := 0 }
  appending := false
  skipDataExtraction := false
  cb := true
  orderedOutput := orderedOutput
  ordered := OrderedOutput.State.fresh
  computedRingSize := 0
  largestRingFrame := 0
  lastCCCounter := 0
  libstats := pidStatsAlloc
  pcrList := List.replicate maxPcrItems ⟨0, 0⟩
  preventWrites := false

theorem smallExtractor_alloc :
    pesExtractorAlloc 256 true 1000 2000 = some (smallExtractor false) := by
  have hobj : ¬maxObject < uint64 (orDefault 1000 (4 * 1048576)) := by decide +kernel
  rw [pesExtractorAlloc, if_neg hobj]
  rfl

/-- A packet of pid 256 that starts a PES behind an adaption field of the given
length. -/
def adaptedPacket (cc adaptionFieldLength : ℕ) : Packet where
  bytes := [0x47, 0x41, 0x00, UInt8.ofNat (0x30 + cc), UInt8.ofNat adaptionFieldLength] ++
    List.replicate 183 0
  length_bytes := by
    simp only [List.length_append, List.length_cons, List.length_nil, List.length_replicate]

/-- Two packets with adaption fields of 100 bytes. -/
theorem handed_inside_adapted :
    (pesExtractorWrites (smallExtractor false)
        [[adaptedPacket 0 100, adaptedPacket 1 100]]).handed = [⟨105, 83⟩, ⟨105, 83⟩] ∧
      ∀ w ∈ (pesExtractorWrites (smallExtractor false)
        [[adaptedPacket 0 100, adaptedPacket 1 100]]).handed, w.Inside :=
  ⟨by decide +kernel, (handed_inside_iff (smallExtractor false)
    [[adaptedPacket 0 100, adaptedPacket 1 100]] rfl).mpr (by decide +kernel)⟩

/-- An adaption field of 200 bytes makes the length negative. -/
theorem handed_outside :
    pesExtractorAlloc 256 true 1000 2000 = some (smallExtractor false) ∧
      (pesExtractorWrites (smallExtractor false) [[adaptedPacket 0 200]]).handed =
        [⟨205, -17⟩] ∧
      ¬∀ w ∈ (pesExtractorWrites (smallExtractor false) [[adaptedPacket 0 200]]).handed,
        w.Inside :=
  ⟨smallExtractor_alloc, by decide +kernel, by decide +kernel⟩

/-! ## The three calls of abort -/

/-- The ring starts at the front of its allocation and holds what was counted. -/
structure Counted (ctx : Ctx) : Prop where
  inv : Inv ctx.rb
  front : ctx.rb.head = 0
  counted : ctx.computedRingSize = ctx.rb.fill

theorem Counted.congr {ctx ctx' : Ctx} (h : Counted ctx) (hrb : ctx'.rb = ctx.rb)
    (hsize : ctx'.computedRingSize = ctx.computedRingSize) : Counted ctx' :=
  ⟨hrb ▸ h.inv, hrb ▸ h.front, by rw [hsize, hrb, h.counted]⟩

theorem Counted.restart {ctx : Ctx} (h : Counted ctx) (appending : Bool) :
    Counted (restart ctx appending) := ⟨inv_rbEmpty h.inv, rfl, rfl⟩

theorem Counted.noted {ctx : Ctx} (h : Counted ctx) (pkt : Packet) : Counted (noted ctx pkt) :=
  h.congr rfl rfl

theorem Counted.opened {ctx : Ctx} (h : Counted ctx) (pkt : Packet) :
    Counted (opened ctx pkt) := by
  unfold PesExtractor.opened
  split_ifs
  · exact h.noted pkt
  · exact (h.noted pkt).restart true

theorem Counted.passedOver {ctx : Ctx} (h : Counted ctx) (pkt : Packet) :
    Counted (passedOver ctx pkt) := by
  unfold PesExtractor.passedOver
  split_ifs
  · exact h.noted pkt
  · exact (h.noted pkt).restart false

theorem counted_clearRing {ctx : Ctx} (h : Inv ctx.rb) : Counted (clearRing ctx) := by
  refine ⟨?_, ?_, ?_⟩
  · rw [rb_clearRing]
    exact inv_rbEmpty h
  · rw [rb_clearRing]
    rfl
  · rw [rb_clearRing, computedRingSize_clearRing]
    rfl

/-- Closing a PES that can be closed: the bytes of the ring are parsed as they
are. -/
theorem processRing_of_counted {ctx : Ctx} (h : Counted ctx)
    (hlong : 16 ≤ rbUsed ctx.rb) :
    processRing ctx = .ok (deliverPes
      { ctx with largestRingFrame := max ctx.largestRingFrame (rbUsed ctx.rb) }
        ctx.rb.contents) := by
  have hpeek := rbPeek_of_used h.inv (by omega)
  have hcount : ctx.computedRingSize = rbUsed ctx.rb := h.counted
  have hlen : ctx.rb.contents.length = rbUsed ctx.rb := h.inv.length_contents
  unfold processRing
  simp only [hpeek]
  rw [if_neg (by omega), if_neg (by simpa using hcount), if_neg (by omega), if_pos hlen]

theorem processRing_of_empty {ctx : Ctx} (h : rbUsed ctx.rb = 0) :
    processRing ctx = .ok (ctx, []) := by
  simp [processRing, h]

/-- Closing a PES leaves the ring as it is. -/
theorem processRing_keeps_ring {ctx : Ctx} (h : Counted ctx)
    (hlen : rbUsed ctx.rb = 0 ∨ 16 ≤ rbUsed ctx.rb) :
    ∃ r, processRing ctx = .ok r ∧ r.1.rb = ctx.rb := by
  rcases hlen with hempty | hlong
  · exact ⟨_, processRing_of_empty hempty, rfl⟩
  · exact ⟨_, processRing_of_counted h hlong, by rw [rb_deliverPes]⟩

theorem length_payload_le (pkt : Packet) : (Ts.payload pkt).length ≤ maxObject := by
  rw [Ts.length_payload]
  unfold maxObject
  omega

/-- The counter follows a write that appends the payload. -/
theorem writePayload_of_write {ctx : Ctx} {pkt : Packet} {rb : KLRingBuffer} (h : Counted ctx)
    (hadapt : AdaptionInside pkt)
    (hwrite : rbWriteWithState ctx.rb (Ts.payload pkt) = ⟨false, some rb⟩) (hinv : Inv rb)
    (hcont : rb.contents = ctx.rb.contents ++ Ts.payload pkt) (hfront : rb.head = 0) :
    ∃ ctx', writePayload ctx pkt = .ok (ctx', false) ∧ Counted ctx' ∧ ctx'.rb = rb := by
  have hoff := (adaptionInside_iff pkt).mp hadapt
  have hlen : rb.fill = ctx.rb.fill + (188 - Ts.payloadOffset pkt) := by
    rw [← hinv.length_contents, hcont, List.length_append, h.inv.length_contents,
      Ts.length_payload]
  have hpos : ¬(payloadWrite pkt).wsize < 0 := by
    simp only [payloadWrite]
    omega
  have hbytes : pkt.bytes.drop (payloadWrite pkt).offset = Ts.payload pkt := rfl
  unfold writePayload
  simp only [if_neg hpos, hbytes, hwrite]
  refine ⟨_, rfl, ⟨hinv, hfront, ?_⟩, rfl⟩
  simp only [payloadWrite, h.counted, hlen]
  omega

/-- A payload that the ring can take is appended to it. -/
theorem writePayload_of_counted {ctx : Ctx} {pkt : Packet} (h : Counted ctx)
    (hadapt : AdaptionInside pkt) (href : ¬GrowthRefused ctx.rb (Ts.payload pkt).length) :
    ∃ ctx', writePayload ctx pkt = .ok (ctx', false) ∧ Counted ctx' := by
  obtain ⟨rb, hwrite, hinv, hcont, hfront⟩ :=
    rbWriteWithState_of_front h.inv (length_payload_le pkt) h.front href
  obtain ⟨ctx', hpayload, hcounted, -⟩ :=
    writePayload_of_write h hadapt hwrite hinv hcont hfront
  exact ⟨ctx', hpayload, hcounted⟩

/-- A packet that is appended finds room in the ring, which may grow for it; and
one that starts a PES closes none or one of 16 bytes or more. -/
def Orderly (ctx : Ctx) (pkt : Packet) : Prop :=
  Wanted ctx pkt →
    if Ts.payloadUnitStartIndicator pkt then
      ¬GrowthRefused (rbEmpty ctx.rb) (Ts.payload pkt).length ∧
        (keepsAppending ctx pkt = true → rbUsed ctx.rb = 0 ∨ 16 ≤ rbUsed ctx.rb)
    else keepsAppending ctx pkt = true → ¬GrowthRefused ctx.rb (Ts.payload pkt).length

instance (ctx : Ctx) (pkt : Packet) : Decidable (Orderly ctx pkt) :=
  inferInstanceAs (Decidable (_ → _))

/-- What the calls of `abort` insist on, where a PES is started: the counter is
right, the PES that is closed is empty or not short, and its successor does not
overflow the ring. -/
def StartsInOrder (ctx : Ctx) (pkt : Packet) : Prop :=
  ∀ ctx', chooseBranch ctx pkt = (ctx', some .starts) →
    ctx'.computedRingSize = rbUsed ctx'.rb ∧ (rbUsed ctx'.rb = 0 ∨ 16 ≤ rbUsed ctx'.rb) ∧
      (rbWriteWithState (rbEmpty ctx'.rb) (Ts.payload pkt)).didOverflow = false

theorem rb_opened_empty (ctx : Ctx) (pkt : Packet) :
    rbEmpty (opened ctx pkt).rb = rbEmpty ctx.rb := by
  unfold opened
  split_ifs <;> rfl

/-- The branch that starts a PES, behind an orderly one. -/
theorem startPes_of_counted {ctx : Ctx} {pkt : Packet} (h : Counted ctx)
    (hadapt : AdaptionInside pkt) (hlen : rbUsed ctx.rb = 0 ∨ 16 ≤ rbUsed ctx.rb)
    (href : ¬GrowthRefused (rbEmpty ctx.rb) (Ts.payload pkt).length) :
    ∃ ctx', (startPes ctx pkt).next = .ok ctx' ∧ Counted ctx' := by
  obtain ⟨r, hring, hrb⟩ := processRing_keeps_ring h hlen
  have hclear : Counted (clearRing r.1) := counted_clearRing (hrb ▸ h.inv)
  obtain ⟨ctx', hwrite, hcounted⟩ := writePayload_of_counted hclear hadapt
    (by rwa [rb_clearRing, hrb])
  refine ⟨ctx', ?_, hcounted⟩
  simp [startPes, hring, hwrite, Except.bind]

theorem writePacket_of_orderly {ctx : Ctx} {pkt : Packet} (h : Counted ctx)
    (hadapt : AdaptionInside pkt) (horder : Orderly ctx pkt) :
    (∃ ctx', (writePacket ctx pkt).next = .ok ctx' ∧ Counted ctx') ∧ StartsInOrder ctx pkt := by
  rcases writePacket_cases ctx pkt with
    ⟨hpid, heq⟩ | ⟨hpid, hwhy, heq⟩ | ⟨hwanted, hpusi, hkeep, heq⟩ | ⟨hwanted, hpusi, heq⟩ <;>
    rw [heq]
  · refine ⟨⟨_, rfl, h.congr rfl rfl⟩, ?_⟩
    intro ctx' hbranch
    simp [chooseBranch, hpid] at hbranch
  · refine ⟨⟨_, rfl, h.passedOver pkt⟩, ?_⟩
    intro ctx' hbranch
    simp [chooseBranch_passedOver hpid hwhy] at hbranch
  · have horder := horder hwanted
    rw [hpusi, if_neg (by simp)] at horder
    obtain ⟨ctx', hwrite, hcounted⟩ :=
      writePayload_of_counted (h.noted pkt) hadapt (horder hkeep)
    refine ⟨⟨ctx', by simp [continuePes, hwrite, Except.map], hcounted⟩, ?_⟩
    intro ctx' hbranch
    simp [chooseBranch_continues hwanted hpusi hkeep] at hbranch
  · have horder := horder hwanted
    rw [hpusi, if_pos rfl] at horder
    have hlen : rbUsed (opened ctx pkt).rb = 0 ∨ 16 ≤ rbUsed (opened ctx pkt).rb := by
      unfold opened
      split_ifs with hkeep
      · exact horder.2 hkeep
      · exact .inl rfl
    have href : ¬GrowthRefused (rbEmpty (opened ctx pkt).rb) (Ts.payload pkt).length := by
      rw [rb_opened_empty]
      exact horder.1
    refine ⟨startPes_of_counted (h.opened pkt) hadapt hlen href, ?_⟩
    intro ctx' hbranch
    rw [chooseBranch_starts hwanted hpusi, Prod.mk.injEq] at hbranch
    rw [← hbranch.1]
    refine ⟨(h.opened pkt).counted, hlen, ?_⟩
    rw [← Bool.not_eq_true, didOverflow_iff (inv_rbEmpty (h.opened pkt).inv)
      (length_payload_le pkt)]
    exact href

theorem counted_alloc {pid : ℕ} {cb : Bool} {bufferMin bufferMax : ℤ} {ctx : Ctx}
    (hint : -2 ^ 31 ≤ bufferMin ∧ bufferMin < 2 ^ 31)
    (hmax : -1 ≤ bufferMax ∧ bufferMax < 2 ^ 31)
    (hnew : pesExtractorAlloc pid cb bufferMin bufferMax = some ctx) : Counted ctx := by
  have hfields := alloc_fields hnew
  have hrb : ctx.rb = rbEmpty ctx.rb := congrArg Ctx.rb hfields
  have hcount : ctx.computedRingSize = 0 := congrArg Ctx.computedRingSize hfields
  refine ⟨(alloc_ring hint hmax hnew).1, ?_, ?_⟩
  · rw [hrb]
    rfl
  · rw [hcount, hrb]
    rfl

theorem counted_configured {pid : ℕ} {cb : Bool} {bufferMin bufferMax : ℤ} {ctx : Ctx}
    (hint : -2 ^ 31 ≤ bufferMin ∧ bufferMax < 2 ^ 31) (hle : bufferMin ≤ bufferMax)
    (hnew : pesExtractorAlloc pid cb bufferMin bufferMax = some ctx)
    (orderedOutput skipData : Bool) (pcrPid : Option ℕ) :
    Counted (configured ctx orderedOutput skipData pcrPid) ∧
      (configured ctx orderedOutput skipData pcrPid).preventWrites = false := by
  have hmin := bufferMin_of_alloc hint.1 hnew
  have hcounted := counted_alloc ⟨hint.1, by omega⟩ ⟨by omega, hint.2⟩ hnew
  have hopen : ctx.preventWrites = false := congrArg Ctx.preventWrites (alloc_fields hnew)
  cases pcrPid with
  | none => exact ⟨hcounted.congr rfl rfl, hopen⟩
  | some p => exact ⟨hcounted.congr rfl rfl, hopen⟩

/-- An orderly run never ends the process, and finds the counter, the ring and the
closed PES in order at every start. -/
theorem orderly_run_never_aborts {pid : ℕ} {cb : Bool} {bufferMin bufferMax : ℤ} {ctx : Ctx}
    (hint : -2 ^ 31 ≤ bufferMin ∧ bufferMax < 2 ^ 31) (hle : bufferMin ≤ bufferMax)
    (hnew : pesExtractorAlloc pid cb bufferMin bufferMax = some ctx)
    (orderedOutput skipData : Bool) (pcrPid : Option ℕ) {calls : List (List Packet)}
    (hadapt : ∀ pkt ∈ calls.flatten, AdaptionInside pkt)
    (horder : Meets step Orderly (configured ctx orderedOutput skipData pcrPid) calls.flatten) :
    Safe step (fun ctx pkt _ ↦ StartsInOrder ctx pkt)
        (configured ctx orderedOutput skipData pcrPid) calls.flatten ∧
      (pesExtractorWrites (configured ctx orderedOutput skipData pcrPid) calls).halted = none := by
  obtain ⟨hcounted, hopen⟩ :=
    counted_configured hint hle hnew orderedOutput skipData pcrPid
  have hmeets := horder.and (@meets_of_forall _ _ _ step (fun _ pkt ↦ AdaptionInside pkt) _
    (fun pkt hpkt _ ↦ hadapt pkt hpkt) _)
  have hsafe : Safe step (fun ctx pkt _ ↦ StartsInOrder ctx pkt)
      (configured ctx orderedOutput skipData pcrPid) calls.flatten := by
    refine safe_of_step Counted ?_ _ _ hcounted hmeets
    rintro s pkt hs ⟨hpkt, hinside⟩
    obtain ⟨⟨s', hnext, hs'⟩, hstart⟩ := writePacket_of_orderly hs hinside hpkt
    exact ⟨_, step_of_next hnext, hstart, hs'⟩
  refine ⟨hsafe, ?_⟩
  rw [pesExtractorWrites_eq calls hopen]
  exact writeLoop_of_safe hsafe

/-- A PES of 82 bytes, closed by the next one. -/
theorem orderly_run_adapted :
    (pesExtractorWrites (configured (smallExtractor false) true false (some 256))
      [[adaptedPacket 0 101], [adaptedPacket 1 101]]).halted = none :=
  (@orderly_run_never_aborts 256 true 1000 2000 _ (by decide) (by decide) smallExtractor_alloc
    true false (some 256) [[adaptedPacket 0 101], [adaptedPacket 1 101]] (by decide +kernel)
    (by decide +kernel)).2

/-- A PES of one byte ends the process, and so does one that is longer than the
ring may become. -/
theorem short_or_long_pes_aborts :
    pesExtractorAlloc 256 true 1000 2000 = some (smallExtractor false) ∧
      (∀ pkt ∈ [adaptedPacket 0 182, adaptedPacket 1 182], AdaptionInside pkt) ∧
      (pesExtractorWrites (smallExtractor false)
        [[adaptedPacket 0 182, adaptedPacket 1 182]]).halted = some .shortPes ∧
      (∀ pkt ∈ [adaptedPacket 0 0, payloadPacket 256 1, payloadPacket 256 2,
        payloadPacket 256 3, payloadPacket 256 4, payloadPacket 256 5, adaptedPacket 6 0],
          AdaptionInside pkt) ∧
      (pesExtractorWrites (smallExtractor false) [[adaptedPacket 0 0, payloadPacket 256 1,
        payloadPacket 256 2, payloadPacket 256 3, payloadPacket 256 4, payloadPacket 256 5,
        adaptedPacket 6 0]]).halted = some .sizeMismatch :=
  ⟨smallExtractor_alloc, by decide +kernel, by decide +kernel, by decide +kernel,
    by decide +kernel⟩

end LtnTsTools.PesExtractor
