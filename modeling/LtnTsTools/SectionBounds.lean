import LtnTsTools.SectionExtractor

/-!
# Memory bounds of the section extractor

Which packets make the extractor read behind the packet or store behind its
buffer, and which contexts make a query copy more than the buffer holds.  The
three sums that decide it are stated on the packet and the context; a run stays
inside its memory exactly when every step meets them.
-/

namespace LtnTsTools.SectionExtractor

open Region PartialMachine

/-- The accesses of one packet stay inside: a start can read its pointer field,
and the bytes to be taken end within the packet and, behind those already
there, within the buffer. -/
def PacketInBounds (s : WriteState) (pkt : Packet) : Prop :=
  Ts.pid pkt = s.ctx.pid → Ts.syncPresent pkt = true →
    (Ts.payloadUnitStartIndicator pkt = true → Ts.payloadOffset pkt < 188) ∧
    (Ts.payloadUnitStartIndicator pkt = true ∧ 180 ≤ startOf pkt ∨ s.ctx.complete = true ∨
      (s.ctx.appending = false ∧ startOf pkt < 188 ∧
        (pkt.byte (startOf pkt) = s.ctx.tableID →
          startOf pkt + min (announcedLength pkt) 183 ≤ 188)) ∨
      (s.ctx.appending = true ∧
        startOf pkt + min (s.ctx.sectionLength - s.ctx.sectionLengthCurrent) 183 ≤ 188 ∧
        s.ctx.sectionLengthCurrent + min (s.ctx.sectionLength - s.ctx.sectionLengthCurrent) 183 ≤
          bufferSize))

instance (s : WriteState) (pkt : Packet) : Decidable (PacketInBounds s pkt) :=
  inferInstanceAs (Decidable (_ → _ → _ ∧ _))

/-- A start whose pointer field is not in the packet. -/
theorem sectionOffset_eq_none {pkt : Packet} (hstart : Ts.payloadUnitStartIndicator pkt = true)
    (hout : 188 ≤ Ts.payloadOffset pkt) : sectionOffset pkt.bytes pkt = none := by
  rw [sectionOffset, if_pos hstart, readByte_of_ge hout, Option.map_none]

/-- A section of the wanted table is begun without leaving the memory exactly when
its bytes end within the packet; the empty buffer takes all of them. -/
theorem beginSection_isSome_iff {s : WriteState} {pkt : Packet} (h : Inv s.ctx) :
    (∃ r, ((beginSection s.ctx pkt.bytes (startOf pkt)).bind fun begun ↦
        appendSection s begun.1 pkt.bytes (startOf pkt) begun.2) = some r) ↔
      startOf pkt + min (announcedLength pkt) 183 ≤ 188 := by
  have hbuf := h.length_buf
  have hmin := three_le_announcedLength pkt
  by_cases hhead : startOf pkt + 2 < 188
  · have hiff := @appendSection_isSome_iff s (begun s.ctx (announcedLength pkt)) pkt (startOf pkt)
      (min (announcedLength pkt) 183)
    have hstore : min (announcedLength pkt) 183 ≤ bufferSize := by
      unfold bufferSize
      omega
    have hmem : (begun s.ctx (announcedLength pkt)).sectionLengthCurrent +
        min (announcedLength pkt) 183 ≤
          (begun s.ctx (announcedLength pkt)).sectionBuf.length := by
      simpa [begun, hbuf] using hstore
    rw [and_iff_left hmem] at hiff
    simp [beginSection_eq hhead, hiff]
  · -- the length field is not in the packet
    have hout : ¬startOf pkt + min (announcedLength pkt) 183 ≤ 188 := by omega
    simp [hout, beginSection, readByte_of_ge (not_lt.mp hhead)]

/-- A packet is taken without leaving the memory exactly when its accesses are
in bounds. -/
theorem writePacket_isSome_iff {s : WriteState} {pkt : Packet} (h : Inv s.ctx)
    (hpid : Ts.pid pkt = s.ctx.pid) :
    (∃ r, writePacket pkt.bytes s pkt = some r) ↔ PacketInBounds s pkt := by
  have hbuf := h.length_buf
  unfold PacketInBounds writePacket
  by_cases hsync : Ts.syncPresent pkt = false
  · simp [hsync]
  have hsync' : Ts.syncPresent pkt = true := by simpa using hsync
  rw [if_neg hsync]
  simp only [hpid, hsync', forall_const]
  by_cases hptr : Ts.payloadUnitStartIndicator pkt = true → Ts.payloadOffset pkt < 188
  · rw [sectionOffset_eq hptr, Option.bind_some, and_iff_right hptr]
    by_cases hfar : Ts.payloadUnitStartIndicator pkt = true ∧ 180 ≤ startOf pkt
    · simp [hfar]
    rw [if_neg hfar]
    cases hcomplete : s.ctx.complete with
    | true => simp
    | false =>
        cases happ : s.ctx.appending with
        | false =>
            by_cases hin : startOf pkt < 188
            · rw [readByte_of_lt hin]
              by_cases htable : pkt.byte (startOf pkt) = s.ctx.tableID
              · have hbegin := @beginSection_isSome_iff s pkt h
                simp [hfar, hin, htable, hbegin]
              · simp [hfar, hin, htable]
            · simp [hfar, hin, readByte_of_ge (not_lt.mp hin)]
        | true =>
            rw [continuationLength_eq]
            simp [hfar, appendSection_isSome_iff, hbuf]
  · obtain ⟨hstart, hout⟩ := Classical.not_imp.mp hptr
    rw [sectionOffset_eq_none hstart (not_lt.mp hout), iff_false_right fun hyes ↦ hptr hyes.1]
    simp

theorem writeTurn_isSome_iff {s : WriteState} {pkt : Packet} (h : Inv s.ctx) :
    (∃ r, writeTurn s pkt = some r ∧ True) ↔ PacketInBounds s pkt := by
  unfold writeTurn
  by_cases hpid : Ts.pid pkt = s.ctx.pid
  · rw [← writePacket_isSome_iff h hpid]
    simp [hpid]
  · simp [PacketInBounds, hpid]

/-- The loop ends without leaving the memory exactly when every turn is safe. -/
theorem writeLoop_isSome_iff (pkts : List Packet) (s : WriteState) :
    (∃ r, writeLoop s pkts = some r) ↔ Safe writeTurn (fun _ _ _ ↦ True) s pkts := by
  induction pkts generalizing s with
  | nil => simp [writeLoop, Safe]
  | cons pkt rest ih =>
      cases hturn : writeTurn s pkt with
      | none => simp [writeLoop, Safe, hturn]
      | some r => simp [writeLoop, Safe, hturn, ih]

/-- The accesses of one call stay inside: those of each packet of a write, in
the state it is taken in, and the copy of a query that is answered. -/
def CallInBounds (ctx : Ctx) : Call → Prop
  | .write pkts crcValid => Meets writeTurn PacketInBounds (callEntry ctx crcValid) pkts
  | .query lengthBytes => ctx.complete = true → ctx.sectionLength + 3 ≤ lengthBytes % 2 ^ 32 →
      ctx.sectionLength + 3 ≤ bufferSize

instance (ctx : Ctx) : (call : Call) → Decidable (CallInBounds ctx call)
  | .write pkts crcValid =>
      inferInstanceAs (Decidable (Meets writeTurn PacketInBounds (callEntry ctx crcValid) pkts))
  | .query _ => inferInstanceAs (Decidable (_ → _ → _))

theorem callStep_isSome_iff {ctx : Ctx} {call : Call} (h : Inv ctx) :
    (∃ r, callStep ctx call = some r ∧ True) ↔ CallInBounds ctx call := by
  cases call with
  | write pkts crcValid =>
      have hloop := writeLoop_isSome_iff pkts (callEntry ctx crcValid)
      have hmeets := @safe_iff_meets _ _ _ writeTurn PacketInBounds _
        (fun s ↦ Inv s.ctx) (fun _ _ _ hs hr _ ↦ inv_writeTurn hs hr)
        (fun _ _ hs ↦ writeTurn_isSome_iff hs) pkts (callEntry ctx crcValid) h
      rw [CallInBounds, ← hmeets, ← hloop]
      simp [callStep, sectionextractorWrite]
  | query lengthBytes =>
      have hbuf := h.length_buf
      unfold callStep sectionextractorQuery CallInBounds
      by_cases hrefused : ctx.complete = false ∨ lengthBytes % 2 ^ 32 < ctx.sectionLength + 3
      · have hvacuous : ¬(ctx.complete = true ∧ ctx.sectionLength + 3 ≤ lengthBytes % 2 ^ 32) := by
          rcases hrefused with hno | hshort
          · simp [hno]
          · exact fun hyes ↦ absurd hshort (not_lt.mpr hyes.2)
        simp only [if_pos hrefused, Option.map_some, Option.some.injEq, and_true, exists_eq',
          true_iff]
        exact fun hc hl ↦ absurd ⟨hc, hl⟩ hvacuous
      · have hgranted : ctx.complete = true ∧ ctx.sectionLength + 3 ≤ lengthBytes % 2 ^ 32 := by
          simpa [not_or] using hrefused
        simp only [if_neg hrefused]
        simp only [hgranted, forall_const]
        rw [← hbuf, ← Nat.zero_add (ctx.sectionLength + 3), ← load_isSome_iff]
        simp [Option.isSome_iff_exists]

/-- From a new extractor, any sequence of writes, in any grouping, and queries
stays inside the packets and the buffer exactly when every call does. -/
theorem sectionextractor_stays_inside_iff (pid tableID : ℕ) (memory : List UInt8)
    (calls : List Call) (hmem : memory.length = bufferSize) :
    Safe callStep (fun _ _ _ ↦ True) (sectionextractorAlloc pid tableID memory) calls ↔
      Meets callStep CallInBounds (sectionextractorAlloc pid tableID memory) calls :=
  safe_iff_meets Inv (fun _ _ _ hs hr _ ↦ inv_callStep hs hr)
    (fun _ _ hs ↦ callStep_isSome_iff hs) calls _ (inv_alloc hmem)

theorem sectionextractor_stays_inside_short :
    Safe callStep (fun _ _ _ ↦ True)
      (sectionextractorAlloc 0x100 0xfc blankMemory)
      [.write [samplePacket 0x40 0x10 [0, 0xfc, 0, 9]] false, .query 64] := by
  rw [sectionextractor_stays_inside_iff 0x100 0xfc _ _ length_blankMemory]
  decide +kernel

/-! ## Sections as long as the buffer -/

/-- A section of `length` bytes is being collected on a pid, `current` of them are
there. -/
structure Gathering (s : WriteState) (pid length current : ℕ) : Prop where
  inv : Inv s.ctx
  pid_eq : s.ctx.pid = pid
  appending : s.ctx.appending = true
  complete : s.ctx.complete = false
  length_eq : s.ctx.sectionLength = length
  current_eq : s.ctx.sectionLengthCurrent = current

/-- A packet of the pid that starts nothing, with its payload in its last 183 bytes. -/
structure Continues (pid : ℕ) (pkt : Packet) : Prop where
  pid_eq : Ts.pid pkt = pid
  sync : Ts.syncPresent pkt = true
  noStart : Ts.payloadUnitStartIndicator pkt = false
  payload : Ts.payloadOffset pkt = 5

/-- The copy from a further packet that the buffer can hold. -/
theorem Gathering.copy {s : WriteState} {pid length current : ℕ}
    (h : Gathering s pid length current) {pkt : Packet} (hpkt : Continues pid pkt)
    (hroom : current + min (length - current) 183 ≤ bufferSize) :
    ∃ buf, writeTurn s pkt = some (afterCopy s s.ctx buf (min (length - current) 183), ()) ∧
      buf.length = bufferSize := by
  have hpid : ¬Ts.pid pkt ≠ s.ctx.pid := fun hne ↦ hne (hpkt.pid_eq.trans h.pid_eq.symm)
  have hoff : sectionOffset pkt.bytes pkt = some 5 := by
    simp [sectionOffset, hpkt.noStart, hpkt.payload]
  have hlen : continuationLength s.ctx = min (length - current) 183 := by
    rw [continuationLength_eq, h.length_eq, h.current_eq]
  have hread : 5 + min (length - current) 183 ≤ 188 := by omega
  obtain ⟨buf, hbuf, happend⟩ := @appendSection_eq s s.ctx pkt 5 _ hread
    (by rw [h.current_eq, h.inv.length_buf]; exact hroom)
  refine ⟨buf, ?_, (length_of_store hbuf).trans h.inv.length_buf⟩
  rw [writeTurn, if_neg hpid, writePacket]
  simp [hpkt.sync, hoff, hpkt.noStart, h.appending, h.complete, hlen, happend]

theorem Gathering.turn {s : WriteState} {pid length current : ℕ}
    (h : Gathering s pid length current) {pkt : Packet} (hpkt : Continues pid pkt)
    (hmore : current + 183 < length) (hroom : current + 183 ≤ bufferSize) :
    ∃ s', writeTurn s pkt = some (s', ()) ∧ Gathering s' pid length (current + 183) := by
  have hmin : min (length - current) 183 = 183 := by omega
  obtain ⟨buf, hturn, hbuf⟩ := h.copy hpkt (by omega)
  rw [hmin] at hturn
  have hstate : afterCopy s s.ctx buf 183 =
      { s with
        ctx := { s.ctx with
          sectionBuf := buf
          sectionLengthCurrent := s.ctx.sectionLengthCurrent + 183 }
        crcValid := false
        ret := s.ret + 183 } := by
    rw [afterCopy, if_neg]
    · rfl
    · simp only [h.length_eq, h.current_eq]
      omega
  rw [hstate] at hturn
  refine ⟨_, hturn, ⟨inv_writeTurn h.inv hturn, h.pid_eq, h.appending, h.complete, h.length_eq, ?_⟩⟩
  simp only [h.current_eq]

theorem Gathering.loop {pid length : ℕ} {pkt : Packet} (hpkt : Continues pid pkt) (n : ℕ)
    (rest : List Packet) :
    ∀ {s : WriteState} {current : ℕ}, Gathering s pid length current →
      current + 183 * n < length → current + 183 * n ≤ bufferSize →
      ∃ s', writeLoop s (List.replicate n pkt ++ rest) = writeLoop s' rest ∧
        Gathering s' pid length (current + 183 * n) := by
  induction n with
  | zero => exact fun {s current} h _ _ ↦ ⟨s, rfl, h⟩
  | succ n ih =>
      intro s current h hmore hroom
      obtain ⟨s₁, hturn, h₁⟩ := h.turn hpkt (by omega) (by omega)
      obtain ⟨s', hloop, h'⟩ := ih h₁ (by omega) (by omega)
      refine ⟨s', ?_, ?_⟩
      · rw [List.replicate_succ, List.cons_append, writeLoop, hturn, Option.bind_some]
        exact hloop
      · rwa [show current + 183 * (n + 1) = current + 183 + 183 * n by ring]

/-- The first packet of a section that does not end in it. -/
theorem gathering_begin {s : WriteState} {pkt : Packet} (h : Inv s.ctx)
    (hidle : s.ctx.appending = false ∧ s.ctx.complete = false) (hpid : Ts.pid pkt = s.ctx.pid)
    (hsync : Ts.syncPresent pkt = true) (hoff : sectionOffset pkt.bytes pkt = some 5)
    (hstart : startOf pkt = 5) (htable : pkt.byte 5 = s.ctx.tableID)
    (hlong : 183 < announcedLength pkt) :
    ∃ s', writeTurn s pkt = some (s', ()) ∧ Gathering s' s.ctx.pid (announcedLength pkt) 183 := by
  have hmin : min (announcedLength pkt) 183 = 183 := by omega
  have hbegin := @beginSection_eq s.ctx pkt (by rw [hstart]; norm_num)
  rw [hstart, hmin] at hbegin
  obtain ⟨buf, hbuf, happend⟩ := @appendSection_eq s (begun s.ctx (announcedLength pkt)) pkt 5 183
    (by norm_num) (by simp only [begun, h.length_buf, bufferSize]; norm_num)
  have hturn : writeTurn s pkt =
      some (afterCopy s (begun s.ctx (announcedLength pkt)) buf 183, ()) := by
    rw [writeTurn, if_neg (not_not.mpr hpid), writePacket]
    simp [hsync, hoff, hidle.1, hidle.2, @readByte_of_lt pkt 5 (by norm_num), htable,
      hbegin, happend]
  have hstate : (afterCopy s (begun s.ctx (announcedLength pkt)) buf 183).ctx =
      { begun s.ctx (announcedLength pkt) with
        sectionBuf := buf
        sectionLengthCurrent := 183 } := by
    rw [afterCopy, if_neg]
    · rfl
    · simp only [begun]
      omega
  refine ⟨_, hturn, inv_writeTurn h hturn, ?_, ?_, ?_, ?_, ?_⟩ <;> rw [hstate] <;> rfl

theorem continues_sample : Continues 0x100 (samplePacket 0 0x30 [0]) := by
  constructor <;> decide +kernel

/-- A section of more than 22 packets, up to its last packet. -/
theorem gathering_long {pkt : Packet} {length : ℕ} (hpid : Ts.pid pkt = 0x100)
    (hsync : Ts.syncPresent pkt = true) (hoff : sectionOffset pkt.bytes pkt = some 5)
    (hstart : startOf pkt = 5) (htable : pkt.byte 5 = 0xfc) (hlength : announcedLength pkt = length)
    (hlong : 4026 < length) :
    ∃ s, writeLoop (callEntry (sectionextractorAlloc 0x100 0xfc blankMemory) false)
        (pkt :: List.replicate 22 (samplePacket 0 0x30 [0])) =
          writeLoop s [samplePacket 0 0x30 [0]] ∧ Gathering s 0x100 length 4026 := by
  obtain ⟨s₁, hturn, h₁⟩ := gathering_begin
    (s := callEntry (sectionextractorAlloc 0x100 0xfc blankMemory) false)
    (inv_alloc length_blankMemory) ⟨rfl, rfl⟩ hpid hsync hoff hstart htable (by omega)
  rw [hlength] at h₁
  obtain ⟨s, hloop, h⟩ := h₁.loop continues_sample 21 [samplePacket 0 0x30 [0]] hlong
    (by norm_num [bufferSize])
  refine ⟨s, ?_, h⟩
  rw [writeLoop, hturn, Option.bind_some, ← hloop]
  rfl

theorem no_room_for_last {s : WriteState} (h : Gathering s 0x100 4098 4026) :
    writeLoop s [samplePacket 0 0x30 [0]] = none := by
  have hno : ¬PacketInBounds s (samplePacket 0 0x30 [0]) := by
    intro hin
    have hbounds := hin (continues_sample.pid_eq.trans h.pid_eq.symm) continues_sample.sync
    simp [continues_sample.noStart, h.complete, h.appending, h.length_eq, h.current_eq,
      bufferSize] at hbounds
  cases hturn : writeTurn s (samplePacket 0 0x30 [0]) with
  | none => simp [writeLoop, hturn]
  | some r => exact absurd ((writeTurn_isSome_iff h.inv).mp ⟨r, hturn, trivial⟩) hno

/-- The last packet of a section that fits the buffer completes it. -/
theorem last_completes {s : WriteState} (h : Gathering s 0x100 4094 4026) :
    ∃ s', writeLoop s [samplePacket 0 0x30 [0]] = some s' ∧
      (latchComplete s').ctx.complete = true ∧ (latchComplete s').ctx.sectionLength = 4094 := by
  obtain ⟨buf, hturn, -⟩ := h.copy continues_sample (by norm_num [bufferSize])
  rw [show min (4094 - 4026) 183 = 68 by decide] at hturn
  have hfull : s.ctx.sectionLength = s.ctx.sectionLengthCurrent + 68 := by
    rw [h.length_eq, h.current_eq]
  have hstate : (afterCopy s s.ctx buf 68).complete = true ∧
      (afterCopy s s.ctx buf 68).ctx.sectionLength = s.ctx.sectionLength := by
    rw [afterCopy, if_pos hfull]
    exact ⟨rfl, rfl⟩
  refine ⟨_, by rw [writeLoop, hturn, Option.bind_some, writeLoop], ?_, ?_⟩
  · rw [latchComplete, if_pos hstate.1]
  · rw [latchComplete, if_pos hstate.1]
    exact hstate.2.trans h.length_eq

theorem not_safe_of_write {ctx : Ctx} {pkts : List Packet} {crcValid : Bool}
    (h : writeLoop (callEntry ctx crcValid) pkts = none) :
    ¬Safe callStep (fun _ _ _ ↦ True) ctx [.write pkts crcValid] := by
  simp [Safe, callStep, sectionextractorWrite, h]

theorem not_safe_of_query {ctx : Ctx} {pkts : List Packet} {crcValid : Bool} {s : WriteState}
    {lengthBytes : ℤ} (hctx : Inv ctx) (hs : writeLoop (callEntry ctx crcValid) pkts = some s)
    (hout : ¬CallInBounds (latchComplete s).ctx (.query lengthBytes)) :
    ¬Safe callStep (fun _ _ _ ↦ True) ctx [.write pkts crcValid, .query lengthBytes] := by
  have hwrite : callStep ctx (.write pkts crcValid) = some ((latchComplete s).ctx,
      .written (latchComplete s).complete (latchComplete s).crcValid (latchComplete s).ret) := by
    simp [callStep, sectionextractorWrite, hs]
  have hiff := @callStep_isSome_iff _ (.query lengthBytes) (inv_callStep hctx hwrite)
  cases hquery : callStep (latchComplete s).ctx (.query lengthBytes) with
  | none => simp [Safe, hwrite, hquery]
  | some r => exact absurd (hiff.mp ⟨r, hquery, trivial⟩) hout

/-- Three runs that leave the memory: a pointer field of one in front of a
section of 200 bytes is copied from behind the packet, 23 packets of a section
of 4098 bytes are stored behind the buffer, and a query for a section of 4094
bytes copies more than the buffer holds. -/
theorem sectionextractor_leaves_memory :
    ¬Safe callStep (fun _ _ _ ↦ True)
      (sectionextractorAlloc 0x100 0xfc blankMemory)
      [.write [samplePacket 0x40 0x10 [1, 0xff, 0xfc, 0, 197]] false] ∧
    ¬Safe callStep (fun _ _ _ ↦ True)
      (sectionextractorAlloc 0x100 0xfc blankMemory)
      [.write (samplePacket 0x40 0x10 [0, 0xfc, 0x0f, 0xff] ::
        List.replicate 22 (samplePacket 0 0x30 [0])) false] ∧
    ¬Safe callStep (fun _ _ _ ↦ True)
      (sectionextractorAlloc 0x100 0xfc blankMemory)
      [.write (samplePacket 0x40 0x10 [0, 0xfc, 0x0f, 0xfb] ::
        List.replicate 22 (samplePacket 0 0x30 [0])) false, .query 8192] := by
  refine ⟨by decide +kernel, ?_, ?_⟩
  · obtain ⟨s, hloop, h⟩ := @gathering_long (samplePacket 0x40 0x10 [0, 0xfc, 0x0f, 0xff]) 4098
      (by decide +kernel) (by decide +kernel) (by decide +kernel) (by decide +kernel)
      (by decide +kernel) (by decide +kernel) (by norm_num)
    exact not_safe_of_write (hloop.trans (no_room_for_last h))
  · obtain ⟨s, hloop, h⟩ := @gathering_long (samplePacket 0x40 0x10 [0, 0xfc, 0x0f, 0xfb]) 4094
      (by decide +kernel) (by decide +kernel) (by decide +kernel) (by decide +kernel)
      (by decide +kernel) (by decide +kernel) (by norm_num)
    obtain ⟨s', hlast, hcomplete, hlength⟩ := last_completes h
    refine not_safe_of_query (inv_alloc length_blankMemory) (hloop.trans hlast) fun hin ↦ ?_
    have hout := hin hcomplete (by rw [hlength]; norm_num)
    rw [hlength] at hout
    norm_num [bufferSize] at hout

end LtnTsTools.SectionExtractor
