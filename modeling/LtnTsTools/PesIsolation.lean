import LtnTsTools.PesExtractorSafety

/-!
# Isolation between pids

The extractor decides from the error counter of the whole multiplex whether to
drop the PES in the making.  A run over a multiplex is compared here with the run
over the packets of the extracted pid alone: the two deliver the same bytes as
long as no other pid breaks its continuity while a PES is in the making.
-/

namespace LtnTsTools.PesExtractor

open RingBuffer Stats Pes PartialMachine

section Alike

variable {α β γ δ ε : Type*}

inductive Alike (R : α → β → Prop) : Except ε α → Except ε β → Prop
  | ok {a : α} {b : β} : R a b → Alike R (.ok a) (.ok b)
  | error (e : ε) : Alike R (.error e) (.error e)

theorem Alike.bind {R : α → β → Prop} {S : γ → δ → Prop} {x : Except ε α} {y : Except ε β}
    {f : α → Except ε γ} {g : β → Except ε δ} (h : Alike R x y)
    (hnext : ∀ a b, x = .ok a → y = .ok b → R a b → Alike S (f a) (g b)) :
    Alike S (x.bind f) (y.bind g) := by
  cases h with
  | ok hab => exact hnext _ _ rfl rfl hab
  | error e => exact .error e

theorem Alike.map {R : α → β → Prop} {S : γ → δ → Prop} {x : Except ε α} {y : Except ε β}
    {f : α → γ} {g : β → δ} (h : Alike R x y)
    (hnext : ∀ a b, x = .ok a → y = .ok b → R a b → S (f a) (g b)) :
    Alike S (x.map f) (y.map g) := by
  cases h with
  | ok hab => exact .ok (hnext _ _ rfl rfl hab)
  | error e => exact .error e

end Alike

/-! ## Two contexts in the same position -/

def Outcome.raw (o : Outcome) : List (List UInt8) := o.callbacks.map PesPacket.rawBuffer

/-- The context `s` of a multiplex stands where the context `t` of the extracted
pid alone stands. -/
structure Agree (s t : Ctx) : Prop where
  settings : s.settings = t.settings
  unordered : t.orderedOutput = false
  appending : s.appending = t.appending
  emptied : rbEmpty s.rb = rbEmpty t.rb
  ring : t.appending = true → s.rb = t.rb ∧ s.computedRingSize = t.computedRingSize
  own : s.libstats.pids t.pid = t.libstats.pids t.pid
  seen : s.lastCCCounter ≤ s.libstats.ccErrors
  alone : t.lastCCCounter = t.libstats.ccErrors

theorem Agree.pid {s t : Ctx} (h : Agree s t) : s.pid = t.pid :=
  congrArg Settings.pid h.settings

/-- What the two branches make of contexts in the same position. -/
theorem Agree.of_frame {s t s' t' : Ctx} (h : Agree s t) (hs : s'.frame = s.frame)
    (ht : t'.frame = t.frame) (hrb : s'.rb = t'.rb)
    (hcount : s'.computedRingSize = t'.computedRingSize) : Agree s' t' := by
  have hset := congrArg Frame.settings hs
  have hset' := congrArg Frame.settings ht
  have happ : s'.appending = s.appending := congrArg Frame.appending hs
  have happ' : t'.appending = t.appending := congrArg Frame.appending ht
  have hlast : s'.lastCCCounter = s.lastCCCounter := congrArg Frame.lastCCCounter hs
  have hlast' : t'.lastCCCounter = t.lastCCCounter := congrArg Frame.lastCCCounter ht
  have hlib : s'.libstats = s.libstats := congrArg Frame.libstats hs
  have hlib' : t'.libstats = t.libstats := congrArg Frame.libstats ht
  have hpid : t'.pid = t.pid := congrArg Settings.pid hset'
  refine ⟨hset.trans (h.settings.trans hset'.symm),
    (congrArg Settings.orderedOutput hset').trans h.unordered, ?_, by rw [hrb],
    fun _ ↦ ⟨hrb, hcount⟩, ?_, ?_, ?_⟩
  · rw [happ, happ', h.appending]
  · rw [hlib, hlib', hpid, h.own]
  · rw [hlast, hlib]
    exact h.seen
  · rw [hlast', hlib', h.alone]

/-- What a closed PES gives to the callback in unordered mode. -/
theorem raw_deliverPes {ctx : Ctx} (buf : List UInt8) (h : ctx.orderedOutput = false) :
    (deliverPes ctx buf).2.map PesPacket.rawBuffer = if isDelivered ctx buf then [buf] else [] := by
  unfold deliverPes
  simp only [h, Bool.false_eq_true, if_false]
  split_ifs <;> rfl

theorem isDelivered_congr {s t : Ctx} (h : s.settings = t.settings) (buf : List UInt8) :
    isDelivered s buf = isDelivered t buf := by
  have hskip : s.skipDataExtraction = t.skipDataExtraction :=
    congrArg Settings.skipDataExtraction h
  have hcb : s.cb = t.cb := congrArg Settings.cb h
  simp only [isDelivered, parseRing, hskip, hcb]

theorem raw_deliverPes_congr {s t : Ctx} (h : s.settings = t.settings)
    (hun : t.orderedOutput = false) (buf : List UInt8) :
    (deliverPes s buf).2.map PesPacket.rawBuffer =
      (deliverPes t buf).2.map PesPacket.rawBuffer := by
  have hordered : s.orderedOutput = false := (congrArg Settings.orderedOutput h).trans hun
  rw [raw_deliverPes buf hordered, raw_deliverPes buf hun, isDelivered_congr h]

theorem processRing_alike {s t : Ctx} (h : Agree s t) (happ : t.appending = true) :
    Alike (fun r q ↦ r.1.rb = q.1.rb ∧
        r.2.map PesPacket.rawBuffer = q.2.map PesPacket.rawBuffer)
      (processRing s) (processRing t) := by
  obtain ⟨hrb, hcount⟩ := h.ring happ
  unfold processRing
  simp only [hrb, hcount]
  split_ifs
  · exact .ok ⟨hrb, rfl⟩
  · exact .error _
  · exact .error _
  · cases rbPeek t.rb (rbUsed t.rb) with
    | none => exact .error _
    | some x =>
        simp only
        split_ifs
        · refine .ok ⟨?_, ?_⟩
          · rw [rb_deliverPes, rb_deliverPes]
          · exact raw_deliverPes_congr (by exact h.settings) (by exact h.unordered) _
        · exact .ok ⟨rfl, rfl⟩

theorem writePayload_alike {s t : Ctx} (pkt : Packet) (hrb : s.rb = t.rb)
    (hcount : s.computedRingSize = t.computedRingSize) :
    Alike (fun r q ↦ r.1.rb = q.1.rb ∧ r.1.computedRingSize = q.1.computedRingSize ∧ r.2 = q.2)
      (writePayload s pkt) (writePayload t pkt) := by
  unfold writePayload
  simp only [hrb, hcount]
  split_ifs
  · exact .error _
  · cases (rbWriteWithState t.rb (pkt.bytes.drop (payloadWrite pkt).offset)).buf with
    | none => exact .error _
    | some rb => exact .ok ⟨rfl, rfl, rfl⟩

/-- The same bytes are delivered, and the contexts still agree. -/
structure SameEffect (o o' : Outcome) : Prop where
  raw : o.raw = o'.raw
  next : Alike Agree o.next o'.next

theorem continuePes_alike {s t : Ctx} (h : Agree s t) (happ : t.appending = true) (pkt : Packet) :
    SameEffect (continuePes s pkt) (continuePes t pkt) := by
  obtain ⟨hrb, hcount⟩ := h.ring happ
  refine ⟨rfl, (writePayload_alike pkt hrb hcount).map ?_⟩
  rintro r q hr hq ⟨hrb', hcount', -⟩
  exact h.of_frame (frame_writePayload hr) (frame_writePayload hq) hrb' hcount'

theorem startPes_alike {s t : Ctx} (h : Agree s t) (happ : t.appending = true) (pkt : Packet) :
    SameEffect (startPes s pkt) (startPes t pkt) := by
  have hring := processRing_alike h happ
  unfold startPes
  cases hs : processRing s with
  | error e =>
      cases ht : processRing t with
      | error e' =>
          rw [hs, ht] at hring
          cases hring
          exact ⟨rfl, .error _⟩
      | ok q =>
          rw [hs, ht] at hring
          cases hring
  | ok r =>
      cases ht : processRing t with
      | error e =>
          rw [hs, ht] at hring
          cases hring
      | ok q =>
          rw [hs, ht] at hring
          cases hring with
          | ok hrq =>
              obtain ⟨hrb, hraw⟩ := hrq
              have hclear : (clearRing r.1).rb = (clearRing q.1).rb := by
                rw [rb_clearRing, rb_clearRing, hrb]
              have hzero : (clearRing r.1).computedRingSize = (clearRing q.1).computedRingSize := by
                rw [computedRingSize_clearRing, computedRingSize_clearRing]
              refine ⟨hraw, (writePayload_alike pkt hclear hzero).bind ?_⟩
              rintro a b ha hb ⟨hrb', hcount', hover⟩
              rw [hover]
              split_ifs
              · exact .error _
              · refine .ok (h.of_frame ?_ ?_ hrb' hcount')
                · rw [frame_writePayload ha, frame_clearRing, frame_processRing hs]
                · rw [frame_writePayload hb, frame_clearRing, frame_processRing ht]

/-! ## One packet -/

/-- With the sync byte, the stream counts what the packet's own pid counts. -/
theorem ccErrors_of_synced {stream : StreamStatistics} {pkt : Packet}
    (hsync : Ts.syncPresent pkt = true) :
    (pidStatsUpdate stream [pkt]).ccErrors =
      stream.ccErrors + (breaksContinuity (stream.pids (Ts.pid pkt)) pkt).toNat := by
  simp [pidStatsUpdate, notePacket, hsync]

theorem pids_of_foreign {stream : StreamStatistics} {pkt : Packet} {p : ℕ} (h : Ts.pid pkt ≠ p) :
    (pidStatsUpdate stream [pkt]).pids p = stream.pids p := by
  simp [pids_pidStatsUpdate, onPid, h]

/-- No other pid has broken its continuity since the last packet of the extracted
pid, unless no PES is in the making or the packet is an error itself. -/
def Undisturbed (ctx : Ctx) (pkt : Packet) : Prop :=
  Ts.pid pkt = ctx.pid → ctx.appending = true →
    ctx.lastCCCounter = ctx.libstats.ccErrors ∨
      breaksContinuity (ctx.libstats.pids ctx.pid) pkt = true

instance (ctx : Ctx) (pkt : Packet) : Decidable (Undisturbed ctx pkt) :=
  inferInstanceAs (Decidable (_ → _ → _))

/-- On its own, the extractor drops a PES exactly for errors of its pid. -/
theorem keepsAppending_alone {t : Ctx} {pkt : Packet} (hsync : Ts.syncPresent pkt = true)
    (hpid : Ts.pid pkt = t.pid) (halone : t.lastCCCounter = t.libstats.ccErrors) :
    keepsAppending t pkt = (t.appending && !breaksContinuity (t.libstats.pids t.pid) pkt) := by
  unfold keepsAppending
  rw [ccErrors_of_synced hsync, hpid, halone]
  cases breaksContinuity (t.libstats.pids t.pid) pkt <;> simp

/-- In a multiplex it does the same while it is undisturbed. -/
theorem keepsAppending_alike {s t : Ctx} {pkt : Packet} (h : Agree s t)
    (hsync : Ts.syncPresent pkt = true) (hpid : Ts.pid pkt = t.pid) (hcalm : Undisturbed s pkt) :
    keepsAppending s pkt = keepsAppending t pkt := by
  have hseen := h.seen
  rw [keepsAppending_alone hsync hpid h.alone]
  unfold keepsAppending
  rw [ccErrors_of_synced hsync, hpid, h.appending, h.own]
  cases happ : t.appending with
  | false => simp
  | true =>
      have hcalm' := hcalm (hpid.trans h.pid.symm) (h.appending.trans happ)
      rw [h.pid, h.own] at hcalm'
      cases hbreak : breaksContinuity (t.libstats.pids t.pid) pkt with
      | true =>
          simp only [Bool.toNat_true, Bool.true_and, Bool.not_true, decide_eq_false_iff_not]
          omega
      | false =>
          have hcc : s.lastCCCounter = s.libstats.ccErrors := by simpa [hbreak] using hcalm'
          simp [hcc]

theorem own_noted {s t : Ctx} (h : Agree s t) (pkt : Packet) :
    (pidStatsUpdate s.libstats [pkt]).pids t.pid =
      (pidStatsUpdate t.libstats [pkt]).pids t.pid := by
  rw [pids_pidStatsUpdate, pids_pidStatsUpdate, h.own]

theorem Agree.noted {s t : Ctx} (h : Agree s t) (pkt : Packet) :
    Agree (noted s pkt) (noted t pkt) where
  settings := h.settings
  unordered := h.unordered
  appending := h.appending
  emptied := h.emptied
  ring := h.ring
  own := own_noted h pkt
  seen := le_rfl
  alone := rfl

theorem Agree.restart {s t : Ctx} (h : Agree s t) (appending : Bool) :
    Agree (restart s appending) (restart t appending) where
  settings := h.settings
  unordered := h.unordered
  appending := rfl
  emptied := h.emptied
  ring := fun _ ↦ ⟨h.emptied, rfl⟩
  own := h.own
  seen := h.seen
  alone := h.alone

theorem Agree.foreign {s t : Ctx} {pkt : Packet} (h : Agree s t)
    (hsync : Ts.syncPresent pkt = true) (hpid : Ts.pid pkt ≠ s.pid) :
    Agree { s with libstats := pidStatsUpdate s.libstats [pkt] } t where
  settings := h.settings
  unordered := h.unordered
  appending := h.appending
  emptied := h.emptied
  ring := h.ring
  own := (pids_of_foreign (h.pid ▸ hpid)).trans h.own
  seen := by
    change s.lastCCCounter ≤ _
    rw [ccErrors_of_synced hsync]
    exact h.seen.trans (Nat.le_add_right _ _)
  alone := h.alone

theorem appending_opened (ctx : Ctx) (pkt : Packet) : (opened ctx pkt).appending = true := by
  unfold opened
  split_ifs with hkeep
  · unfold keepsAppending at hkeep
    rw [Bool.and_eq_true] at hkeep
    exact hkeep.1
  · rfl

theorem Agree.opened {s t : Ctx} {pkt : Packet} (h : Agree s t)
    (hkeep : keepsAppending s pkt = keepsAppending t pkt) :
    Agree (opened s pkt) (opened t pkt) := by
  unfold PesExtractor.opened
  rw [hkeep]
  split_ifs
  · exact h.noted pkt
  · exact (h.noted pkt).restart true

/-- The context behind a packet that is not used, by whether a PES is kept. -/
theorem passedOver_eq (ctx : Ctx) (pkt : Packet) (happ : ctx.appending = true) :
    passedOver ctx pkt =
      if keepsAppending ctx pkt then noted ctx pkt else restart (noted ctx pkt) false := by
  simp [passedOver, keepsAppending, happ]

theorem Agree.passedOver {s t : Ctx} {pkt : Packet} (h : Agree s t)
    (hkeep : keepsAppending s pkt = keepsAppending t pkt) :
    Agree (passedOver s pkt) (passedOver t pkt) := by
  have hn := h.noted pkt
  cases happ : t.appending with
  | true =>
      rw [passedOver_eq s pkt (h.appending.trans happ), passedOver_eq t pkt happ, hkeep]
      split_ifs
      · exact hn
      · exact hn.restart false
  | false =>
      -- without a PES in the making it makes no difference who starts over
      have happ' : s.appending = false := h.appending.trans happ
      have hnone : (PesExtractor.noted t pkt).appending = false := happ
      unfold PesExtractor.passedOver
      split_ifs
      · exact hn
      · exact { hn with
          appending := happ', emptied := h.emptied, ring := by simp [PesExtractor.restart] }
      · exact { hn with appending := happ.symm, emptied := h.emptied, ring := by simp [hnone] }
      · exact hn.restart false

/-- A packet of the extracted pid has the same effect in the multiplex as alone. -/
theorem writePacket_alike {s t : Ctx} {pkt : Packet} (h : Agree s t)
    (hsync : Ts.syncPresent pkt = true) (hpid : Ts.pid pkt = t.pid) (hcalm : Undisturbed s pkt) :
    SameEffect (writePacket s pkt) (writePacket t pkt) := by
  have hkeep := keepsAppending_alike h hsync hpid hcalm
  have hpid' : Ts.pid pkt = s.pid := hpid.trans h.pid.symm
  rcases writePacket_cases t pkt with
    ⟨hno, -⟩ | ⟨-, hwhy, heq⟩ | ⟨hwanted, hpusi, hk, heq⟩ | ⟨hwanted, hpusi, heq⟩
  · exact absurd hpid hno
  · rw [heq, writePacket, chooseBranch_passedOver hpid' (hkeep ▸ hwhy)]
    exact ⟨rfl, .ok (h.passedOver hkeep)⟩
  · have happ : t.appending = true := by
      unfold keepsAppending at hk
      rw [Bool.and_eq_true] at hk
      exact hk.1
    rw [heq, writePacket, chooseBranch_continues ⟨hpid', hwanted.2⟩ hpusi (hkeep.trans hk)]
    exact continuePes_alike (h.noted pkt) happ pkt
  · rw [heq, writePacket, chooseBranch_starts ⟨hpid', hwanted.2⟩ hpusi]
    exact startPes_alike (h.opened hkeep) (appending_opened t pkt) pkt

/-! ## Runs -/

theorem raw_andThen {o : Outcome} {ctx : Ctx} (f : Ctx → Outcome) (h : o.next = .ok ctx) :
    (o.andThen f).raw = o.raw ++ (f ctx).raw := by
  simp [Outcome.raw, Outcome.andThen, h]

theorem SameEffect.andThen {o o' : Outcome} {f g : Ctx → Outcome} (h : SameEffect o o')
    (hnext : ∀ s t, o.next = .ok s → o'.next = .ok t → Agree s t → SameEffect (f s) (g t)) :
    SameEffect (o.andThen f) (o'.andThen g) := by
  have hraw := h.raw
  have hagree := h.next
  unfold Outcome.raw at hraw
  cases hs : o.next with
  | error e =>
      cases ht : o'.next with
      | error e' =>
          simp only [Outcome.andThen, hs, ht]
          exact h
      | ok t =>
          rw [hs, ht] at hagree
          cases hagree
  | ok s =>
      cases ht : o'.next with
      | error e =>
          rw [hs, ht] at hagree
          cases hagree
      | ok t =>
          rw [hs, ht] at hagree
          cases hagree with
          | ok hst =>
              have hrest := hnext s t hs ht hst
              refine ⟨?_, ?_⟩
              · rw [raw_andThen f hs, raw_andThen g ht, h.raw, hrest.raw]
              · simpa [Outcome.andThen, hs, ht] using hrest.next

/-- An undisturbed run over a multiplex has the effect of the run over the packets
of the extracted pid. -/
theorem writeLoop_alike (pkts : List Packet) {s t : Ctx} (h : Agree s t)
    (hsync : ∀ pkt ∈ pkts, Ts.syncPresent pkt = true) (hcalm : Meets step Undisturbed s pkts) :
    SameEffect (writeLoop s pkts) (writeLoop t (onPid t.pid pkts)) := by
  induction pkts generalizing s t with
  | nil => exact ⟨rfl, .ok h⟩
  | cons pkt rest ih =>
      have hsync' := fun x hx ↦ hsync x (List.mem_cons_of_mem pkt hx)
      by_cases hpid : Ts.pid pkt = t.pid
      · have hown : onPid t.pid (pkt :: rest) = pkt :: onPid t.pid rest := by simp [onPid, hpid]
        rw [hown]
        refine (writePacket_alike h (hsync pkt List.mem_cons_self) hpid hcalm.1).andThen ?_
        intro s' t' hs ht hagree
        have hpid' : t'.pid = t.pid := congrArg Settings.pid (settings_writePacket ht)
        rw [← hpid']
        exact ih hagree hsync' (hcalm.tail (step_of_next hs))
      · have hother : onPid t.pid (pkt :: rest) = onPid t.pid rest := by simp [onPid, hpid]
        have hne : Ts.pid pkt ≠ s.pid := h.pid ▸ hpid
        have hstep := writePacket_foreign hne
        have hrest := hcalm.tail (step_of_next (by rw [hstep]; rfl))
        rw [hother, writeLoop, hstep, Outcome.idle_andThen]
        exact ih (h.foreign (hsync pkt List.mem_cons_self) hne) hsync' hrest

/-- A new extractor in unordered mode agrees with itself. -/
theorem agree_configured {pid : ℕ} {cb : Bool} {bufferMin bufferMax : ℤ} {ctx : Ctx}
    (hnew : pesExtractorAlloc pid cb bufferMin bufferMax = some ctx) (skipData : Bool)
    (pcrPid : Option ℕ) :
    Agree (configured ctx false skipData pcrPid) (configured ctx false skipData pcrPid) ∧
      (configured ctx false skipData pcrPid).pid = pid ∧
      (configured ctx false skipData pcrPid).preventWrites = false := by
  rw [alloc_fields hnew]
  cases pcrPid with
  | none => exact ⟨⟨rfl, rfl, rfl, rfl, fun _ ↦ ⟨rfl, rfl⟩, rfl, le_rfl, rfl⟩, rfl, rfl⟩
  | some p => exact ⟨⟨rfl, rfl, rfl, rfl, fun _ ↦ ⟨rfl, rfl⟩, rfl, le_rfl, rfl⟩, rfl, rfl⟩

/-- Two undisturbed multiplexes with the same packets on the extracted pid make a
new extractor deliver the same bytes. -/
theorem extraction_isolated {pid : ℕ} {cb : Bool} {bufferMin bufferMax : ℤ} {ctx : Ctx}
    (hnew : pesExtractorAlloc pid cb bufferMin bufferMax = some ctx) (skipData : Bool)
    (pcrPid : Option ℕ) {calls₁ calls₂ : List (List Packet)}
    (hsync₁ : ∀ pkt ∈ calls₁.flatten, Ts.syncPresent pkt = true)
    (hsync₂ : ∀ pkt ∈ calls₂.flatten, Ts.syncPresent pkt = true)
    (hsame : onPid pid calls₁.flatten = onPid pid calls₂.flatten)
    (hcalm₁ : Meets step Undisturbed (configured ctx false skipData pcrPid) calls₁.flatten)
    (hcalm₂ : Meets step Undisturbed (configured ctx false skipData pcrPid) calls₂.flatten) :
    (pesExtractorWrites (configured ctx false skipData pcrPid) calls₁).raw =
      (pesExtractorWrites (configured ctx false skipData pcrPid) calls₂).raw := by
  obtain ⟨hagree, hpid, hopen⟩ := agree_configured hnew skipData pcrPid
  have h₁ := writeLoop_alike calls₁.flatten hagree hsync₁ hcalm₁
  have h₂ := writeLoop_alike calls₂.flatten hagree hsync₂ hcalm₂
  rw [hpid] at h₁ h₂
  rw [pesExtractorWrites_eq calls₁ hopen, pesExtractorWrites_eq calls₂ hopen, h₁.raw, h₂.raw,
    hsame]

/-- A clean packet of pid 257 in the middle of a PES makes no difference. -/
theorem extraction_isolated_clean :
    (pesExtractorWrites (smallExtractor false)
        [[adaptedPacket 0 101, payloadPacket 257 0], [adaptedPacket 1 101]]).raw =
      (pesExtractorWrites (smallExtractor false)
        [[adaptedPacket 0 101, adaptedPacket 1 101]]).raw :=
  @extraction_isolated 256 true 1000 2000 _ smallExtractor_alloc false none
    [[adaptedPacket 0 101, payloadPacket 257 0], [adaptedPacket 1 101]]
    [[adaptedPacket 0 101, adaptedPacket 1 101]] (by decide +kernel) (by decide +kernel)
    (by decide +kernel) (by decide +kernel) (by decide +kernel)

/-- A continuity error of pid 257 makes the extractor drop the PES that it
delivers otherwise. -/
theorem foreign_error_drops_pes :
    pesExtractorAlloc 256 true 1000 2000 = some (smallExtractor false) ∧
      (∀ pkt ∈ [adaptedPacket 0 101, payloadPacket 257 0, payloadPacket 257 5,
        adaptedPacket 1 101], Ts.syncPresent pkt = true) ∧
      onPid 256 [adaptedPacket 0 101, payloadPacket 257 0, payloadPacket 257 5,
        adaptedPacket 1 101] = onPid 256 [adaptedPacket 0 101, adaptedPacket 1 101] ∧
      (pesExtractorWrites (smallExtractor false)
        [[adaptedPacket 0 101, adaptedPacket 1 101]]).raw = [List.replicate 82 0] ∧
      (pesExtractorWrites (smallExtractor false) [[adaptedPacket 0 101, payloadPacket 257 0,
        payloadPacket 257 5, adaptedPacket 1 101]]).raw = [] :=
  ⟨smallExtractor_alloc, by decide +kernel, by decide +kernel, by decide +kernel,
    by decide +kernel⟩

end LtnTsTools.PesExtractor
