import LtnTsTools.SmootherRtp

/-!
# The frames that the RTP smoother queues

A call of `smoother_rtp_write` takes the frames off its array that are followed by a
header, and the calls together take those of the whole stream, however it is cut.  The
timestamps of the first two frames of a call are brought into the order of the host, and
those of the others stay in network order.
-/

namespace LtnTsTools.SmootherRtp

open Rtp Draining

def storedTimestamp (frame : List UInt8) : UInt32 := (rtpHdrAt frame).ts

def hostTimestamp (frame : List UInt8) : ℤ := (ntohl (storedTimestamp frame)).toNat

def Item.ts (item : Item) : ℤ := item.pcrdata.pcr

def callTimestamps : List (List UInt8) → List ℤ
  | [] => []
  | [a] => [hostTimestamp a]
  | a :: b :: rest =>
      hostTimestamp a :: hostTimestamp b :: rest.map fun frame ↦ (storedTimestamp frame).toNat

/-! ## One call -/

/-- Entries in a row: each goes up to the next one, and the last has no length. -/
def Spans : List RtpFramePosition → Prop
  | [] => True
  | [e] => e.lengthBytes = 0
  | e :: e' :: rest =>
      e.lengthBytes ≠ 0 ∧ e.offset + e.lengthBytes = e'.offset ∧ Spans (e' :: rest)

theorem spans_entries (buf : List UInt8) {l : List ℕ} (h : l.Pairwise (· + (12 + 188) ≤ ·)) :
    Spans (entries buf 0 l) := by
  induction l with
  | nil => trivial
  | cons i rest ih =>
      cases rest with
      | nil => rfl
      | cons j rest =>
          obtain ⟨hgap, hrest⟩ := List.pairwise_cons.mp h
          have hij := hgap j List.mem_cons_self
          have htail := ih hrest
          cases rest with
          | nil => exact ⟨by dsimp only; omega, by dsimp only; omega, htail⟩
          | cons j' rest => exact ⟨by dsimp only; omega, by dsimp only; omega, htail⟩

theorem map_offset_entries (buf : List UInt8) (l : List ℕ) :
    (entries buf 0 l).map RtpFramePosition.offset = l := by
  induction l with
  | nil => rfl
  | cons i rest ih =>
      cases rest with
      | nil => rw [entries, List.map_singleton, Nat.zero_add]
      | cons j rest => rw [entries, List.map_cons, ih, Nat.zero_add]

structure Appends (ctx ctx' : Context) (items : List Item) : Prop where
  busy : ctx'.itemsBusy = ctx.itemsBusy ++ items
  vote : ctx'.voteCompleteSSRC = ctx.voteCompleteSSRC
  ssrc : ctx'.expectedSSRC = ctx.expectedSSRC

theorem Appends.trans {ctx ctx' ctx'' : Context} {items items' : List Item}
    (h : Appends ctx ctx' items) (h' : Appends ctx' ctx'' items') :
    Appends ctx ctx'' (items ++ items') where
  busy := by rw [h'.busy, h.busy, List.append_assoc]
  vote := h'.vote.trans h.vote
  ssrc := h'.ssrc.trans h.ssrc

theorem appends_write2 (ctx : Context) (buf : List UInt8) (tsValue : ℤ) (now : ℕ) :
    Appends ctx (smootherRtpWrite2 ctx buf tsValue now).1
      [(smootherRtpWrite2 ctx buf tsValue now).2] :=
  ⟨rfl, rfl, rfl⟩

theorem bytes_write2 (ctx : Context) (buf : List UInt8) (tsValue : ℤ) (now : ℕ) :
    (smootherRtpWrite2 ctx buf tsValue now).2.bytes = buf :=
  List.take_left

/-- The loop over entries queues the bytes between them with their timestamps, up to the
last entry. -/
theorem queueFrames_spec (ba : List UInt8) (now : ℕ → ℕ) (rest : List RtpFramePosition) :
    ∀ {e : RtpFramePosition} (turn : ℕ) (ctx : Context) (trimOffset : ℕ), Spans (e :: rest) →
      let r := queueFrames ba now (e :: rest) turn ctx trimOffset
      Appends ctx r.1 r.2.1 ∧ r.1.ba = ctx.ba ∧
        r.2.1.map Item.bytes = cuts ba ((e :: rest).map RtpFramePosition.offset) ∧
        r.2.1.map Item.ts = ((e :: rest).dropLast.map fun e ↦ (e.frame.ts.toNat : ℤ)) ∧
        r.2.2 = (rest.map RtpFramePosition.offset).getLastD trimOffset := by
  induction rest with
  | nil =>
      intro e turn ctx trimOffset hspans
      have hlast : queueFrames ba now [e] turn ctx trimOffset = (ctx, [], trimOffset) :=
        if_pos hspans
      rw [hlast]
      exact ⟨⟨(List.append_nil _).symm, rfl, rfl⟩, rfl, rfl, rfl, rfl⟩
  | cons e' rest ih =>
      intro e turn ctx trimOffset hspans
      obtain ⟨hne, hnext, htail⟩ := hspans
      have hlen : e'.offset - e.offset = e.lengthBytes := by omega
      set w := smootherRtpWrite2 ctx ((ba.drop e.offset).take e.lengthBytes) e.frame.ts.toNat
        (now turn) with hw
      obtain ⟨happends, hba, hbytes, hts, htrim⟩ := @ih e' (turn + 1) w.1 (e.offset + e.lengthBytes)
        htail
      have hstep : queueFrames ba now (e :: e' :: rest) turn ctx trimOffset =
          ((queueFrames ba now (e' :: rest) (turn + 1) w.1 (e.offset + e.lengthBytes)).1,
            w.2 :: (queueFrames ba now (e' :: rest) (turn + 1) w.1 (e.offset + e.lengthBytes)).2.1,
            (queueFrames ba now (e' :: rest) (turn + 1) w.1 (e.offset + e.lengthBytes)).2.2) :=
        if_neg hne
      rw [hstep]
      refine ⟨(appends_write2 ctx _ _ _).trans happends, hba, ?_, ?_, ?_⟩
      · rw [List.map_cons, hbytes, hw, bytes_write2]
        simp only [List.map_cons, cuts, hlen]
      · rw [List.map_cons, hts]
        rfl
      · rw [htrim, hnext, List.map_cons, List.getLastD_cons]

/-- A frame keeps the header that it starts with. -/
theorem storedTimestamp_take {p : List UInt8} {n : ℕ} (h : 12 ≤ n) :
    storedTimestamp (p.take n) = (rtpHdrAt p).ts := by
  have hread : ∀ i < 12, (p.take n).getD i 0 = p.getD i 0 := by
    intro i hi
    rw [List.getD_eq_getElem?_getD, List.getElem?_take_of_lt (hi.trans_le h),
      List.getD_eq_getElem?_getD]
  change word32At (p.take n) 4 = word32At p 4
  unfold word32At
  rw [hread 4 (by omega), hread (4 + 1) (by omega), hread (4 + 2) (by omega),
    hread (4 + 3) (by omega)]

theorem storedTimestamp_cuts (buf : List UInt8) {l : List ℕ}
    (h : l.Pairwise (· + (12 + 188) ≤ ·)) :
    (entries buf 0 l).dropLast.map (fun e ↦ e.frame.ts) = (cuts buf l).map storedTimestamp := by
  induction l with
  | nil => rfl
  | cons i rest ih =>
      cases rest with
      | nil => rfl
      | cons j rest =>
          obtain ⟨hgap, hrest⟩ := List.pairwise_cons.mp h
          have hij := hgap j List.mem_cons_self
          rw [entries, List.dropLast_cons_of_ne_nil (entries_ne_nil buf 0 j rest), List.map_cons,
            ih hrest, cuts, List.map_cons, storedTimestamp_take (by omega)]

theorem adjust_mk (offset lengthBytes : ℕ) (frame : RtpHdr) :
    (adjust ⟨offset, lengthBytes, frame⟩).offset = offset ∧
      (adjust ⟨offset, lengthBytes, frame⟩).lengthBytes = lengthBytes :=
  ⟨rfl, rfl⟩

theorem offset_adjust (e : RtpFramePosition) : (adjust e).offset = e.offset := by
  obtain ⟨offset, lengthBytes, frame⟩ := e
  exact (adjust_mk offset lengthBytes frame).1

theorem lengthBytes_adjust (e : RtpFramePosition) : (adjust e).lengthBytes = e.lengthBytes := by
  obtain ⟨offset, lengthBytes, frame⟩ := e
  exact (adjust_mk offset lengthBytes frame).2

theorem spans_adjust {first second : RtpFramePosition} {others : List RtpFramePosition}
    (h : Spans (first :: second :: others)) : Spans (adjust first :: adjust second :: others) := by
  cases others with
  | nil =>
      rw [Spans, Spans] at h ⊢
      rwa [lengthBytes_adjust, lengthBytes_adjust, offset_adjust, offset_adjust]
  | cons e others =>
      rw [Spans, Spans] at h ⊢
      rwa [lengthBytes_adjust, lengthBytes_adjust, offset_adjust, offset_adjust]

theorem ts_adjust (e : RtpFramePosition) : (adjust e).frame.ts = ntohl e.frame.ts := rfl

/-- The timestamps of a call are those of adjusted entries. -/
theorem callTimestamps_eq {first second : RtpFramePosition} {others : List RtpFramePosition}
    {frames : List (List UInt8)}
    (h : (first :: second :: others).dropLast.map (fun e ↦ e.frame.ts) =
      frames.map storedTimestamp) :
    (adjust first :: adjust second :: others).dropLast.map (fun e ↦ (e.frame.ts.toNat : ℤ)) =
      callTimestamps frames := by
  cases others with
  | nil =>
      rw [List.dropLast_cons_cons, List.dropLast_singleton, List.map_singleton] at h ⊢
      obtain ⟨a, rfl⟩ : ∃ a, frames = [a] := by
        rw [← List.length_eq_one_iff, ← List.length_map storedTimestamp, ← h]
        rfl
      obtain ⟨hts, -⟩ := List.cons.inj h
      rw [callTimestamps, hostTimestamp, ts_adjust, hts]
  | cons e others =>
      rw [List.dropLast_cons_cons, List.dropLast_cons_cons, List.map_cons, List.map_cons] at h ⊢
      obtain ⟨a, b, rest, rfl⟩ : ∃ a b rest, frames = a :: b :: rest := by
        rcases frames with - | ⟨a, - | ⟨b, rest⟩⟩
        · cases h
        · cases (List.cons.inj h).2
        · exact ⟨a, b, rest, rfl⟩
      obtain ⟨hfirst, htail⟩ := List.cons.inj h
      obtain ⟨hsecond, hrest⟩ := List.cons.inj htail
      have hothers := congrArg (List.map fun ts : UInt32 ↦ (ts.toNat : ℤ)) hrest
      rw [List.map_map, List.map_map] at hothers
      rw [callTimestamps, hostTimestamp, hostTimestamp, ts_adjust, ts_adjust, hfirst, hsecond]
      exact congrArg (fun l ↦ _ :: _ :: l) hothers

/-- Where the search finds headers, the call queues the frames between them and leaves the
array from the last one on. -/
theorem writeFound_spec {ctx : Context} {first second : RtpFramePosition}
    {others : List RtpFramePosition} {l : List ℕ} (now : ℕ → ℕ) (time : ℤ)
    (hentries : entries ctx.ba 0 l = first :: second :: others)
    (hpair : l.Pairwise (· + (12 + 188) ≤ ·)) (hin : ∀ x ∈ l, x ≤ ctx.ba.length) :
    let r := writeFound ctx first second others now time
    Appends ctx r.1 r.2 ∧ r.2.map Item.bytes = cuts ctx.ba l ∧
      r.1.ba = ctx.ba.drop (l.getLastD 0) ∧ r.2.map Item.ts = callTimestamps (cuts ctx.ba l) := by
  intro r
  have hspans := spans_adjust (hentries ▸ spans_entries ctx.ba hpair)
  have hoffsets : (adjust first :: adjust second :: others).map RtpFramePosition.offset = l := by
    calc (adjust first :: adjust second :: others).map RtpFramePosition.offset
        _ = (first :: second :: others).map RtpFramePosition.offset := by
          rw [List.map_cons, List.map_cons, offset_adjust, offset_adjust, List.map_cons,
            List.map_cons]
        _ = l := by rw [← hentries, map_offset_entries]
  obtain ⟨happends, hba, hbytes, hts, htrim⟩ := queueFrames_spec ctx.ba now _ 0
    { ctx with
      didTimestampReset := ctx.didTimestampReset || jumps (adjust first) (adjust second)
      measuredLatencyMs := (Ts.ptsDiff ctx.tsHead ctx.tsTail).tdiv 90 } 0 hspans
  have hlast : ((adjust second :: others).map RtpFramePosition.offset).getLastD 0 =
      l.getLastD 0 := by
    rw [← hoffsets]
    simp only [List.map_cons, List.getLastD_cons]
  rw [hoffsets] at hbytes
  rw [hlast] at htrim
  refine ⟨⟨happends.busy, happends.vote, happends.ssrc⟩, hbytes, ?_, ?_⟩
  · have hle : l.getLastD 0 ≤ ctx.ba.length := by
      cases l with
      | nil => exact Nat.zero_le _
      | cons i t =>
          rw [List.getLastD_cons]
          exact hin _ List.getLastD_mem_cons
    change Smoother.byteArrayTrim _ _ = _
    rw [hba, htrim, Smoother.byteArrayTrim, if_neg (Nat.not_lt.mpr hle)]
  · exact hts.trans (callTimestamps_eq (hentries ▸ storedTimestamp_cuts ctx.ba hpair))

/-- From the search on: the frames that are followed by a header are taken off the array
and queued. -/
theorem writeAppended_spec (ctx : Context) (now : ℕ → ℕ) (time : ℤ) :
    let r := writeAppended ctx now time
    Appends ctx r.1 r.2 ∧
      Drains (nextFrame ctx.expectedSSRC) ctx.ba (r.2.map Item.bytes) r.1.ba ∧
      r.2.map Item.ts = callTimestamps (r.2.map Item.bytes) := by
  intro r
  have hdrains := @drains_positions ctx.expectedSSRC ctx.ba
  have hpair := @pairwise_positions ctx.expectedSSRC ctx.ba 0 0
  have hin : ∀ x ∈ positions ctx.expectedSSRC 0 0 ctx.ba, x ≤ ctx.ba.length := by
    intro x hx
    have hlt := (mem_positions ctx.ba hx).2
    omega
  have hlen := length_entries ctx.ba 0 (positions ctx.expectedSSRC 0 0 ctx.ba)
  have hsearch := rtpFrameQueryPositions_eq ctx.ba 0 ctx.expectedSSRC
  generalize positions ctx.expectedSSRC 0 0 ctx.ba = l at hdrains hpair hin hlen hsearch
  rcases hentries : entries ctx.ba 0 l with - | ⟨first, - | ⟨second, others⟩⟩
  · rw [hentries] at hsearch hlen
    have hr : r = (ctx, []) := by simp only [r, writeAppended, hsearch]
    obtain rfl := List.eq_nil_of_length_eq_zero hlen.symm
    rw [hr]
    exact ⟨⟨(List.append_nil _).symm, rfl, rfl⟩, hdrains, rfl⟩
  · rw [hentries] at hsearch hlen
    have hr : r = (ctx, []) := by simp only [r, writeAppended, hsearch]
    obtain ⟨i, rfl⟩ := List.length_eq_one_iff.mp hlen.symm
    rw [hr]
    exact ⟨⟨(List.append_nil _).symm, rfl, rfl⟩, hdrains, rfl⟩
  · rw [hentries] at hsearch hlen
    have hr : r = writeFound ctx first second others now time := by
      simp only [r, writeAppended, hsearch]
    obtain ⟨happends, hbytes, hba, hts⟩ := writeFound_spec now time hentries hpair hin
    rw [if_neg (by rw [← hlen]; simp)] at hdrains
    rw [hr]
    refine ⟨happends, ?_, ?_⟩
    · rw [hbytes, hba]
      exact hdrains
    · rw [hts, hbytes]

/-! ## Calls in a row -/

/-- One call of the writer: the frames that are followed by a header are taken off the
array with the bytes written, and queued. -/
theorem write_spec {ctx : Context} {buf : List UInt8} {now : ℕ → ℕ} {time : ℤ}
    {w : Context × List Item} (hvote : ctx.voteCompleteSSRC = true)
    (h : smootherRtpWrite ctx buf now time = some w) :
    Appends ctx w.1 w.2 ∧
      Drains (nextFrame ctx.expectedSSRC) (ctx.ba ++ buf) (w.2.map Item.bytes) w.1.ba ∧
      w.2.map Item.ts = callTimestamps (w.2.map Item.bytes) := by
  have hsame : voteSSRC ctx buf = ctx := if_pos hvote
  unfold smootherRtpWrite Smoother.byteArrayAppend at h
  rw [hsame] at h
  by_cases hfits : ctx.ba.length + buf.length < 2 ^ 31
  · simp only [if_pos hfits, Option.map_some, Option.some.injEq] at h
    obtain ⟨happends, hdrains, hts⟩ := writeAppended_spec { ctx with ba := ctx.ba ++ buf } now time
    rw [← h]
    exact ⟨⟨happends.busy, happends.vote, happends.ssrc⟩, hdrains, hts⟩
  · simp only [if_neg hfits, Option.map_none, reduceCtorEq] at h

theorem process_perm (ctx : Context) (uS : ℕ) :
    ((queueProcess ctx uS).2 ++ (queueProcess ctx uS).1.itemsBusy).Perm ctx.itemsBusy := by
  have hperm := List.filter_append_perm (fun e : Item ↦ decide (e.scheduledTSuS ≤ uS)) ctx.itemsBusy
  simpa only [queueProcess, decide_not] using hperm

/-- What events in a row do: every call takes the frames of its portion, and what was
queued is in the queue or has been taken off it. -/
theorem run_spec (events : List Event) : ∀ {ctx : Context} {r : Context × List Item × List Item},
    ctx.voteCompleteSSRC = true → nextFrame ctx.expectedSSRC ctx.ba = none →
      run ctx events = some r →
      ∃ yss, Portions (nextFrame ctx.expectedSSRC) ctx.ba (events.map Event.bytes) yss r.1.ba ∧
        r.2.1.map Item.bytes = yss.flatten ∧
        r.2.1.map Item.ts = (yss.map callTimestamps).flatten ∧
        (r.2.2 ++ r.1.itemsBusy).Perm (ctx.itemsBusy ++ r.2.1) := by
  induction events with
  | nil =>
      intro ctx r _ _ hrun
      obtain rfl := Option.some.inj hrun
      refine ⟨[], .done, rfl, rfl, ?_⟩
      rw [List.append_nil]
      exact .refl _
  | cons event rest ih =>
      intro ctx r hvote hstuck hrun
      cases event with
      | write buf now time =>
          rw [run] at hrun
          cases hwrite : smootherRtpWrite ctx buf now time with
          | none =>
              rw [hwrite] at hrun
              cases hrun
          | some w =>
              rw [hwrite] at hrun
              obtain ⟨r', hrest, rfl⟩ := Option.map_eq_some_iff.mp hrun
              obtain ⟨happends, hdrains, hts⟩ := write_spec hvote hwrite
              obtain ⟨yss, hportions, hbytes, htss, hperm⟩ := ih (happends.vote.trans hvote)
                (happends.ssrc ▸ hdrains.left_stuck) hrest
              rw [happends.ssrc] at hportions
              refine ⟨_, .more hdrains hportions, ?_, ?_, ?_⟩
              · rw [List.map_append, hbytes, List.flatten_cons]
              · rw [List.map_append, hts, htss, List.map_cons, List.flatten_cons]
              · rw [happends.busy, List.append_assoc] at hperm
                exact hperm
      | process uS =>
          rw [run] at hrun
          obtain ⟨r', hrest, rfl⟩ := Option.map_eq_some_iff.mp hrun
          obtain ⟨yss, hportions, hbytes, htss, hperm⟩ :=
            @ih (queueProcess ctx uS).1 r' hvote hstuck hrest
          have hnothing : ctx.ba ++ (Event.process uS).bytes = ctx.ba := List.append_nil _
          refine ⟨[] :: yss, .more (.stuck (hnothing.symm ▸ hstuck)) ?_, hbytes, htss, ?_⟩
          · rw [hnothing]
            exact hportions
          · have htaken := (process_perm ctx uS).append_right r'.2.1
            rw [List.append_assoc] at htaken
            change ((queueProcess ctx uS).2 ++ r'.2.2 ++ r'.1.itemsBusy).Perm _
            rw [List.append_assoc]
            exact (hperm.append_left _).trans htaken

/-- Events do not fail as long as all bytes together fit into an `int`. -/
theorem run_isSome (events : List Event) : ∀ {ctx : Context}, ctx.voteCompleteSSRC = true →
    ctx.ba.length + ((events.map Event.bytes).flatten).length < 2 ^ 31 →
      (run ctx events).isSome := by
  induction events with
  | nil => exact fun _ _ ↦ rfl
  | cons event rest ih =>
      intro ctx hvote hfits
      rw [List.map_cons, List.flatten_cons, List.length_append] at hfits
      cases event with
      | write buf now time =>
          have hsame : voteSSRC ctx buf = ctx := if_pos hvote
          have happend : Smoother.byteArrayAppend ctx.ba buf = some (ctx.ba ++ buf) :=
            if_pos (by rw [Event.bytes] at hfits; omega)
          have hwrite : smootherRtpWrite ctx buf now time =
              some (writeAppended { ctx with ba := ctx.ba ++ buf } now time) := by
            rw [smootherRtpWrite, hsame, happend]
            rfl
          obtain ⟨happends, hdrains, -⟩ := write_spec hvote hwrite
          have hlen := hdrains.length_le (incremental_nextFrame ctx.expectedSSRC)
          rw [List.length_append] at hlen
          rw [run, hwrite, Option.isSome_map]
          refine ih (happends.vote.trans hvote) ?_
          rw [Event.bytes] at hfits
          omega
      | process uS =>
          rw [run, Option.isSome_map]
          refine @ih (queueProcess ctx uS).1 hvote ?_
          have hba : (queueProcess ctx uS).1.ba = ctx.ba := rfl
          rw [hba]
          omega

/-! ## Streams -/

def starts : ℕ → List (List UInt8) → List ℕ
  | _, [] => []
  | pos, frame :: rest => pos :: starts (pos + frame.length) rest

/-- A stream of frames behind some bytes, in which the search finds exactly the frames that
have bytes enough behind their start. -/
structure FrameStream (ssrc : UInt32) where
  lead : List UInt8
  frames : List (List UInt8)
  found : (rtpFrameQueryPositions (lead ++ frames.flatten) 0 ssrc).map RtpFramePosition.offset =
    (starts lead.length frames).filter (· + 2 * 188 < (lead ++ frames.flatten).length)

namespace FrameStream

variable {ssrc : UInt32} (s : FrameStream ssrc)

def bytes : List UInt8 := s.lead ++ s.frames.flatten

def foundIn (n : ℕ) : List ℕ := (starts s.lead.length s.frames).filter (· + 2 * 188 < n)

/-- The number of frames that are followed by a found one in the first bytes. -/
def completed (n : ℕ) : ℕ := (s.foundIn n).length - 1

theorem positions_take {n : ℕ} (hn : n ≤ s.bytes.length) :
    positions ssrc 0 0 (s.bytes.take n) = s.foundIn n := by
  have hfound := s.found
  rw [rtpFrameQueryPositions_eq, map_offset_entries, ← bytes] at hfound
  rw [Rtp.positions_take s.bytes hn, hfound, List.filter_filter, foundIn]
  apply List.filter_congr
  intro x _
  rw [← Bool.decide_and, decide_eq_decide]
  omega

end FrameStream

theorem le_of_mem_starts {frames : List (List UInt8)} : ∀ {pos x : ℕ}, x ∈ starts pos frames →
    pos ≤ x := by
  induction frames with
  | nil =>
      intro pos x hx
      cases hx
  | cons frame rest ih =>
      intro pos x hx
      rcases List.mem_cons.mp hx with rfl | hx
      · exact le_rfl
      · exact (Nat.le_add_right _ _).trans (ih hx)

theorem length_starts (frames : List (List UInt8)) : ∀ pos,
    (starts pos frames).length = frames.length := by
  induction frames with
  | nil => exact fun _ ↦ rfl
  | cons frame rest ih => exact fun pos ↦ congrArg Nat.succ (ih _)

theorem filter_starts_eq_nil {n pos : ℕ} (frames : List (List UInt8)) (h : n ≤ pos) :
    (starts pos frames).filter (· < n) = [] := by
  apply List.filter_eq_nil_iff.mpr
  intro x hx
  have hle := le_of_mem_starts hx
  rw [decide_eq_true_iff]
  omega

/-- The bytes between the starts in front of a bound are the first frames. -/
theorem cuts_starts {n : ℕ} (frames : List (List UInt8)) : ∀ pre : List UInt8,
    cuts (pre ++ frames.flatten) ((starts pre.length frames).filter (· < n)) =
      frames.take (((starts pre.length frames).filter (· < n)).length - 1) := by
  induction frames with
  | nil => exact fun _ ↦ rfl
  | cons frame rest ih =>
      intro pre
      have hrest := ih (pre ++ frame)
      have hkeep : ∀ {x : ℕ} {l : List ℕ}, x < n →
          (x :: l).filter (· < n) = x :: l.filter (· < n) :=
        fun h ↦ List.filter_cons_of_pos (decide_eq_true h)
      rw [List.append_assoc, List.length_append, ← List.flatten_cons] at hrest
      rw [starts]
      by_cases hin : pre.length < n
      · rw [hkeep hin, List.length_cons, Nat.add_sub_cancel]
        cases rest with
        | nil => rfl
        | cons frame' rest =>
            rw [starts] at hrest ⊢
            by_cases hnext : pre.length + frame.length < n
            · rw [hkeep hnext] at hrest ⊢
              rw [cuts, hrest, List.length_cons, Nat.add_sub_cancel, List.take_succ_cons,
                List.drop_left, List.flatten_cons, Nat.add_sub_cancel_left, List.take_left]
            · have hnone := filter_starts_eq_nil (frame' :: rest) (Nat.le_of_not_lt hnext)
              rw [starts] at hnone
              rw [hnone]
              rfl
      · have hnone := filter_starts_eq_nil (frame :: rest) (Nat.le_of_not_lt hin)
        rw [starts] at hnone
        rw [hnone]
        rfl

/-- The bytes between positions in the front of a buffer. -/
theorem cuts_take {buf : List UInt8} {n : ℕ} {l : List ℕ} (h : ∀ x ∈ l, x ≤ n) :
    cuts (buf.take n) l = cuts buf l := by
  induction l with
  | nil => rfl
  | cons i rest ih =>
      have htail := ih fun x hx ↦ h x (List.mem_cons_of_mem i hx)
      cases rest with
      | nil => rfl
      | cons j rest =>
          have hj := h j (List.mem_cons_of_mem i List.mem_cons_self)
          rw [cuts, cuts, htail, List.drop_take, List.take_take, Nat.min_eq_left (by omega)]

namespace FrameStream

variable {ssrc : UInt32} (s : FrameStream ssrc)

theorem foundIn_eq (n : ℕ) :
    s.foundIn n = (starts s.lead.length s.frames).filter (· < n - 2 * 188) := by
  apply List.filter_congr
  intro x _
  rw [decide_eq_decide]
  omega

theorem completed_le (n : ℕ) : s.completed n ≤ s.frames.length := by
  have hle := List.length_filter_le (fun x ↦ decide (x + 2 * 188 < n))
    (starts s.lead.length s.frames)
  rw [length_starts] at hle
  exact (Nat.sub_le _ 1).trans hle

/-- Of the first bytes of a stream, the frames are taken that are followed by a found one. -/
theorem drains_take {n : ℕ} (hn : n ≤ s.bytes.length) :
    ∃ left, Drains (nextFrame ssrc) (s.bytes.take n) (s.frames.take (s.completed n)) left := by
  have hdrains := @drains_positions ssrc (s.bytes.take n)
  have hin : ∀ x ∈ s.foundIn n, x ≤ n := by
    intro x hx
    have hlt := of_decide_eq_true (List.mem_filter.mp hx).2
    omega
  have hcuts : cuts (s.bytes.take n) (s.foundIn n) = s.frames.take (s.completed n) := by
    rw [cuts_take hin, completed, s.foundIn_eq, bytes, cuts_starts]
  rw [s.positions_take hn, hcuts] at hdrains
  exact ⟨_, hdrains⟩

/-- In every call, behind its first two frames, there are only timestamps that read alike
in both orders; `n` bytes have come before. -/
def BurstsReadAlike : ℕ → List (List UInt8) → Prop
  | _, [] => True
  | n, buf :: rest =>
      (∀ frame ∈ (s.frames.take (s.completed (n + buf.length))).drop (s.completed n + 2),
        ntohl (storedTimestamp frame) = storedTimestamp frame) ∧
      BurstsReadAlike (n + buf.length) rest

end FrameStream

theorem length_callTimestamps (frames : List (List UInt8)) :
    (callTimestamps frames).length = frames.length := by
  rcases frames with - | ⟨a, - | ⟨b, rest⟩⟩
  · rfl
  · rfl
  · simp [callTimestamps]

/-- A call is right exactly when the frames behind its first two read alike in both orders. -/
theorem callTimestamps_eq_iff (frames : List (List UInt8)) :
    callTimestamps frames = frames.map hostTimestamp ↔
      ∀ frame ∈ frames.drop 2, ntohl (storedTimestamp frame) = storedTimestamp frame := by
  rcases frames with - | ⟨a, - | ⟨b, rest⟩⟩
  · simp [callTimestamps]
  · simp [callTimestamps]
  · have hone : ∀ frame, ((storedTimestamp frame).toNat : ℤ) = hostTimestamp frame ↔
        ntohl (storedTimestamp frame) = storedTimestamp frame := by
      intro frame
      rw [hostTimestamp, Int.natCast_inj, UInt32.toNat_inj, eq_comm]
    simp only [callTimestamps, List.map_cons, List.cons.injEq, true_and, List.map_inj_left, hone]
    rfl

namespace FrameStream

variable {ssrc : UInt32} (s : FrameStream ssrc)

/-- The frames that the calls take are those of the stream, and their timestamps are right
exactly when the bursts read alike. -/
theorem portions_spec (portions : List (List UInt8)) : ∀ {n : ℕ} {left left' : List UInt8}
    {yss : List (List (List UInt8))}, Portions (nextFrame ssrc) left portions yss left' →
      Drains (nextFrame ssrc) (s.bytes.take n) (s.frames.take (s.completed n)) left →
      n ≤ s.bytes.length → s.bytes.drop n = portions.flatten →
      s.frames.take (s.completed n) ++ yss.flatten = s.frames.take (s.completed s.bytes.length) ∧
        ((yss.map callTimestamps).flatten = yss.flatten.map hostTimestamp ↔
          s.BurstsReadAlike n portions) := by
  induction portions with
  | nil =>
      intro n left left' yss hportions _ hn hrest
      cases hportions
      have hend : s.bytes.length ≤ n := List.drop_eq_nil_iff.mp hrest
      rw [le_antisymm hn hend]
      exact ⟨List.append_nil _, iff_of_true rfl trivial⟩
  | cons buf rest ih =>
      intro n left left' yss hportions hleft hn hrest
      obtain - | ⟨hdrain, hmore⟩ := hportions
      rename_i mid ys yss
      have hlen := congrArg List.length hrest
      rw [List.length_drop, List.flatten_cons, List.length_append] at hlen
      have hn' : n + buf.length ≤ s.bytes.length := by omega
      have htake : s.bytes.take n ++ buf = s.bytes.take (n + buf.length) := by
        rw [List.take_add, hrest, List.flatten_cons, List.take_left]
      have hall := hleft.append (incremental_nextFrame ssrc) hdrain
      rw [htake] at hall
      obtain ⟨left'', hdrains⟩ := s.drains_take hn'
      obtain ⟨hframes, rfl⟩ := hall.unique hdrains
      obtain ⟨hflatten, hiff⟩ := ih hmore hdrains hn' (by
        rw [← List.drop_drop, hrest, List.flatten_cons, List.drop_left])
      have hys : ys = (s.frames.take (s.completed (n + buf.length))).drop (s.completed n) := by
        rw [← hframes, List.drop_left' (List.length_take_of_le (s.completed_le n))]
      refine ⟨?_, ?_⟩
      · rw [List.flatten_cons, ← List.append_assoc, hframes, hflatten]
      · rw [List.map_cons, List.flatten_cons, List.flatten_cons, List.map_append, BurstsReadAlike,
          ← hiff, ← List.drop_drop, ← hys, ← callTimestamps_eq_iff]
        constructor
        · intro heq
          exact List.append_inj heq (by rw [length_callTimestamps, List.length_map])
        · rintro ⟨hhead, htail⟩
          rw [hhead, htail]

end FrameStream

/-- The items queued are the frames from the first one found to the last one found, with
their timestamps in the order of the host; they are in the queue or have been taken off. -/
def QueuesFrames {ssrc : UInt32} (s : FrameStream ssrc) (ctx : Context)
    (r : Context × List Item × List Item) : Prop :=
  r.2.1.map Item.bytes = s.frames.take (s.completed s.bytes.length) ∧
    r.2.1.map Item.ts = (s.frames.take (s.completed s.bytes.length)).map hostTimestamp ∧
    (r.2.2 ++ r.1.itemsBusy).Perm (ctx.itemsBusy ++ r.2.1)

/-- The frames of a stream are always queued one by one, and with their timestamps exactly
when in every call the frames behind the first two read alike in both orders. -/
theorem queuesFrames_iff {ctx : Context} {events : List Event}
    {r : Context × List Item × List Item} (s : FrameStream ctx.expectedSSRC)
    (hvote : ctx.voteCompleteSSRC = true) (hstuck : nextFrame ctx.expectedSSRC ctx.ba = none)
    (hbytes : s.bytes = ctx.ba ++ (events.map Event.bytes).flatten)
    (hrun : run ctx events = some r) :
    QueuesFrames s ctx r ↔ s.BurstsReadAlike ctx.ba.length (events.map Event.bytes) := by
  obtain ⟨yss, hportions, hitems, hts, hperm⟩ := run_spec events hvote hstuck hrun
  have hn : ctx.ba.length ≤ s.bytes.length := by
    rw [hbytes, List.length_append]
    exact Nat.le_add_right _ _
  obtain ⟨left, hdrains⟩ := s.drains_take hn
  have hfront : s.bytes.take ctx.ba.length = ctx.ba := by rw [hbytes, List.take_left]
  rw [hfront] at hdrains
  obtain ⟨hnone, rfl⟩ := hdrains.unique (.stuck hstuck)
  obtain ⟨hflatten, hiff⟩ := s.portions_spec _ hportions (hfront.symm ▸ hdrains) hn (by
    rw [hbytes, List.drop_left])
  rw [hnone, List.nil_append] at hflatten
  rw [QueuesFrames, hitems, hts, hflatten, and_iff_right rfl, and_iff_left hperm, ← hflatten, hiff]

def packetFrame (ts : UInt8) : List UInt8 :=
  [0x80, 33, 0, 0, 0, 0, 0, ts, 0, 0, 0, 7] ++ 0x47 :: List.replicate 187 0

def fiveFrames : FrameStream 0x07000000 where
  lead := []
  frames := [packetFrame 1, packetFrame 2, packetFrame 3, packetFrame 4, packetFrame 5]
  found := by decide +kernel

def votedContext : Context :=
  { smootherRtpAlloc true 0 0 100 0 with voteCompleteSSRC := true, expectedSSRC := 0x07000000 }

def twoParts : List Event :=
  [.write (fiveFrames.bytes.take 600) (fun _ ↦ 0) 0,
    .write (fiveFrames.bytes.drop 600) (fun _ ↦ 0) 0]

/-- In two parts, no call takes more than two frames. -/
theorem queuesFrames_two_parts :
    ∃ r, run votedContext twoParts = some r ∧ QueuesFrames fiveFrames votedContext r := by
  have hbytes : fiveFrames.bytes = votedContext.ba ++ (twoParts.map Event.bytes).flatten := by
    decide +kernel
  obtain ⟨r, hrun⟩ := Option.isSome_iff_exists.mp
    (@run_isSome twoParts votedContext rfl (by decide +kernel))
  refine ⟨r, hrun, (@queuesFrames_iff votedContext _ r fiveFrames rfl (by decide +kernel) hbytes
    hrun).mpr ?_⟩
  refine ⟨?_, ?_, trivial⟩
  · decide +kernel
  · decide +kernel

/-- Written at once, the third frame has its timestamp in network order. -/
theorem third_timestamp_swapped :
    ∃ r, run votedContext [.write fiveFrames.bytes (fun _ ↦ 0) 0] = some r ∧
      ¬QueuesFrames fiveFrames votedContext r := by
  have hts : (run votedContext [.write fiveFrames.bytes (fun _ ↦ 0) 0]).map
      (fun r ↦ r.2.1.map Item.ts) = some [1, 2, 50331648] := by
    decide +kernel
  have hhost : (fiveFrames.frames.take (fiveFrames.completed fiveFrames.bytes.length)).map
      hostTimestamp = [1, 2, 3] := by
    decide +kernel
  obtain ⟨r, hrun, hitems⟩ := Option.map_eq_some_iff.mp hts
  refine ⟨r, hrun, fun h ↦ ?_⟩
  have hright := h.2.1
  rw [hitems, hhost] at hright
  exact absurd hright (by decide)

end LtnTsTools.SmootherRtp
