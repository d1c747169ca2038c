import LtnTsTools.SmootherWriter

/-!
# The stream through the smoother

The items that the smoother queues are the packets of the stream from the first
clock reference up to a cut, in order, in items of at most seven packets.  The cut
is the last clock reference, or the one before it when nothing else follows, and
neither it nor the items depend on how the stream is divided into writes.
-/

namespace LtnTsTools.Smoother

open PartialMachine Draining Ts

/-! ## Items of an interval -/

/-- The calls of `smoother_pcr_write2`. -/
def calls (ops : List WriterOp) : List Write2 :=
  ops.filterMap fun
    | .write2 call => some call
    | .settle _ _ => none

theorem calls_append (ops more : List WriterOp) : calls (ops ++ more) = calls ops ++ calls more :=
  List.filterMap_append

theorem calls_map_write2 (cs : List Write2) : calls (cs.map .write2) = cs := by
  induction cs with
  | nil => rfl
  | cons c rest ih => exact congrArg (c :: ·) ih

def sevens : ℕ → List Packet → List (List Packet)
  | 0, _ => []
  | fuel + 1, pkts => if pkts = [] then [] else pkts.take 7 :: sevens fuel (pkts.drop 7)

theorem flatten_sevens (fuel : ℕ) :
    ∀ pkts : List Packet, pkts.length ≤ fuel → (sevens fuel pkts).flatten = pkts := by
  induction fuel with
  | zero =>
      intro pkts hlen
      rw [List.length_eq_zero_iff.mp (by omega : pkts.length = 0)]
      rfl
  | succ fuel ih =>
      intro pkts hlen
      rw [sevens]
      split_ifs with hnil
      · exact hnil.symm
      · have hpos := List.length_pos_iff.mpr hnil
        rw [List.flatten_cons, ih _ (by rw [List.length_drop]; omega), List.take_append_drop]

theorem length_of_mem_sevens {fuel : ℕ} :
    ∀ {pkts group : List Packet}, group ∈ sevens fuel pkts →
      1 ≤ group.length ∧ group.length ≤ 7 := by
  induction fuel with
  | zero => intro pkts group h; cases h
  | succ fuel ih =>
      intro pkts group h
      rw [sevens] at h
      split_ifs at h with hnil
      · cases h
      · rcases List.mem_cons.mp h with rfl | h
        · have hpos := List.length_pos_iff.mpr hnil
          rw [List.length_take]
          omega
        · exact ih h

theorem map_buf_cutInterval (pp it : ℤ) (fuel : ℕ) : ∀ (pkts : List Packet) (v : ℤ),
    (cutInterval pp it fuel (packetBytes pkts) (188 * pkts.length) v).map Write2.buf =
      (sevens fuel pkts).map packetBytes := by
  induction fuel with
  | zero => exact fun _ _ ↦ rfl
  | succ fuel ih =>
      intro pkts v
      rw [cutInterval, sevens]
      by_cases hnil : pkts = []
      · simp [hnil]
      · have hpos := List.length_pos_iff.mpr hnil
        have hcut : min (7 * 188) (188 * pkts.length) = 188 * (pkts.take 7).length := by
          rw [List.length_take]
          omega
        have hsplit := List.take_append_drop 7 pkts
        have htake := take_packetBytes (pkts.take 7) (pkts.drop 7)
        have hdrop := drop_packetBytes (pkts.take 7) (pkts.drop 7)
        rw [hsplit] at htake hdrop
        have hrem : 188 * pkts.length - 188 * (pkts.take 7).length =
            188 * (pkts.drop 7).length := by
          rw [List.length_take, List.length_drop]
          omega
        rw [if_pos (by omega), if_neg hnil]
        simp only [hcut, htake, hdrop, hrem, List.map_cons, ih]

def Interval.items (i : Interval) : List (List UInt8) :=
  (sevens (188 * i.packets.length) i.packets).map packetBytes

theorem Interval.flatten_items (i : Interval) : i.items.flatten = packetBytes i.packets := by
  have hgroups := flatten_sevens (188 * i.packets.length) i.packets (by omega)
  have hbytes : ∀ groups : List (List Packet),
      (groups.map packetBytes).flatten = packetBytes groups.flatten := by
    intro groups
    induction groups with
    | nil => rfl
    | cons group rest ih =>
        rw [List.map_cons, List.flatten_cons, ih, List.flatten_cons, packetBytes_append]
  rw [Interval.items, hbytes, hgroups]

theorem Interval.length_of_mem_items {i : Interval} {item : List UInt8} (h : item ∈ i.items) :
    ∃ n, 1 ≤ n ∧ n ≤ 7 ∧ item.length = 188 * n := by
  obtain ⟨group, hgroup, rfl⟩ := List.mem_map.mp h
  obtain ⟨hlo, hhi⟩ := length_of_mem_sevens hgroup
  exact ⟨group.length, hlo, hhi, length_packetBytes group⟩

theorem map_buf_intervalOps (w : WriterContext) (i : Interval) (now : ℤ) :
    (calls (intervalOps w (packetBytes i.packets) (188 * i.packets.length) i.first i.next
      i.packets.length now)).map Write2.buf = i.items := by
  rw [intervalOps, calls_append, calls_map_write2, List.map_append, map_buf_cutInterval]
  simp [calls, Interval.items]

theorem map_buf_emit (time : ℕ → ℤ) (is : List Interval) : ∀ (turn : ℕ) (w : WriterContext),
    (calls (emit time turn w is).2).map Write2.buf = is.flatMap Interval.items := by
  induction is with
  | nil => exact fun _ _ ↦ rfl
  | cons i rest ih =>
      intro turn w
      rw [emit, calls_append, List.map_append, map_buf_intervalOps, ih, List.flatMap_cons]

theorem map_buf_emits (times : List (ℕ → ℤ)) : ∀ (yss : List (List Interval))
    (w : WriterContext), times.length = yss.length →
    (calls (emits w (times.zip yss)).2).map Write2.buf = yss.flatten.flatMap Interval.items := by
  induction times with
  | nil =>
      intro yss w hlen
      rw [List.length_eq_zero_iff.mp hlen.symm]
      rfl
  | cons time times ih =>
      intro yss w hlen
      cases yss with
      | nil => simp at hlen
      | cons ys yss =>
          rw [List.zip_cons_cons, emits, calls_append, List.map_append, map_buf_emit,
            ih yss _ (by simpa using hlen), List.flatten_cons, List.flatMap_append]

/-! ## Where the stream is cut -/

/-- Packets that hold no further interval, from a clock reference on: this is the
last one, or the last but one and there are just these two packets. -/
theorem stuck_from_clock {pcrPID : ℕ} {pre rest : List Packet} {c : Packet} {v : ℤ}
    (hpre : ∀ pkt ∈ pre, clock pcrPID pkt = none) (hc : clock pcrPID c = some v)
    (h : nextInterval pcrPID (pre ++ c :: rest) = none) :
    (∀ pkt ∈ rest, clock pcrPID pkt = none) ∨ ∃ d, rest = [d] ∧ (clock pcrPID d).isSome := by
  have hsplit : splitClock pcrPID (pre ++ c :: rest) = some (pre, v, c :: rest) := by
    clear h
    induction pre with
    | nil => simp [splitClock, hc]
    | cons p pre ih =>
        simp [splitClock, hpre p List.mem_cons_self,
          ih fun q hq ↦ hpre q (List.mem_cons_of_mem p hq)]
  cases hrest : splitClock pcrPID rest with
  | none => exact .inl (splitClock_eq_none_iff.mp hrest)
  | some r =>
      right
      obtain ⟨mid, y, tail⟩ := r
      obtain ⟨rfl, -, d, t, rfl, hd⟩ := splitClock_eq_some hrest
      unfold nextInterval at h
      split_ifs at h with hlen
      · simp only [List.length_append, List.length_cons] at hlen
        have hmid : mid = [] := List.length_eq_zero_iff.mp (by omega)
        have ht : t = [] := List.length_eq_zero_iff.mp (by omega)
        exact ⟨d, by rw [hmid, ht, List.nil_append], by rw [hd]; rfl⟩
      · simp [hsplit, hrest] at h

/-- How the items lie in the stream: the packets before the first clock reference
and those from the cut on are left out. -/
structure Conserves (pcrPID : ℕ) (pkts : List Packet) (items : List (List UInt8))
    (pre sent : List Packet) (c : Packet) (rest : List Packet) : Prop where
  stream : pkts = pre ++ (sent ++ c :: rest)
  before : ∀ pkt ∈ pre, clock pcrPID pkt = none
  first : ∃ f t, sent ++ [c] = f :: t ∧ (clock pcrPID f).isSome
  bytes : items.flatten = packetBytes sent
  cut : (clock pcrPID c).isSome
  last : (∀ pkt ∈ rest, clock pcrPID pkt = none) ∨ ∃ d, rest = [d] ∧ (clock pcrPID d).isSome

theorem conserves_of_drains {pcrPID : ℕ} {pkts left : List Packet} {is : List Interval}
    (h : Drains (nextInterval pcrPID) pkts is left) :
    ((∀ pkt ∈ pkts, clock pcrPID pkt = none) ∧ is = []) ∨
      ∃ pre sent c rest, Conserves pcrPID pkts (is.flatMap Interval.items) pre sent c rest := by
  induction h with
  | @stuck pkts h =>
      cases hsplit : splitClock pcrPID pkts with
      | none => exact .inl ⟨splitClock_eq_none_iff.mp hsplit, rfl⟩
      | some r =>
          right
          obtain ⟨pre, v, tail⟩ := r
          obtain ⟨rfl, hpre, c, rest, rfl, hc⟩ := splitClock_eq_some hsplit
          have hsome : (clock pcrPID c).isSome := by
            rw [hc]
            rfl
          exact ⟨pre, [], c, rest, rfl, hpre, ⟨c, [], rfl, hsome⟩, rfl, hsome,
            stuck_from_clock hpre hc h⟩
  | @take pkts rest left i is h _ ih =>
      right
      obtain ⟨pre, mid, post, a, b, hcuts⟩ := cuts_of_nextInterval h
      obtain ⟨hsplit, hpre, ha, -, hb⟩ := hcuts.split
      rcases ih with ⟨hnone, -⟩ | ⟨pre', sent, c, rest', hih⟩
      · have hbnone := hnone b (by rw [hcuts.rest]; exact List.mem_cons_self)
        rw [hb] at hbnone
        cases hbnone
      · -- behind an interval the buffer starts with a clock reference
        have hnil : pre' = [] := by
          cases pre' with
          | nil => rfl
          | cons p t =>
              have hstream := hih.stream
              rw [hcuts.rest, List.cons_append, List.cons.injEq] at hstream
              have hpnone := hih.before p List.mem_cons_self
              rw [← hstream.1, hb] at hpnone
              cases hpnone
        refine ⟨pre, i.packets ++ sent, c, rest', ?_, hpre, ?_, ?_, hih.cut, hih.last⟩
        · rw [hsplit, hih.stream, hnil, List.nil_append, List.append_assoc]
        · rw [hcuts.packets]
          exact ⟨a, mid ++ sent ++ [c], rfl, by rw [ha]; rfl⟩
        · rw [List.flatMap_cons, List.flatten_append, i.flatten_items, hih.bytes,
            packetBytes_append]

/-! ## Through the queue -/

/-- What the writer of a run does, in order. -/
def program (events : List Event) : List WriterOp :=
  events.filterMap fun
    | .take call => some (.write2 call)
    | .settle ticks didPcrReset => some (.settle ticks didPcrReset)
    | _ => none

theorem program_cons (i : Event) (rest : List Event) :
    program (i :: rest) = program [i] ++ program rest :=
  List.filterMap_append (l := [i])

def Writer.unqueued : Writer → List (List UInt8)
  | idle => []
  | taken _ call => [call.buf]
  | filled _ call => [call.buf]

theorem written_step {s s' : State} {i : Event} (hm : Moves s i s') :
    s'.written ++ s'.writer.unqueued =
      s.written ++ s.writer.unqueued ++ (calls (program [i])).map Write2.buf := by
  cases hm with
  | take hidle _ => simp [hidle, Writer.unqueued, program, calls]
  | fill htaken => simp [htaken, Writer.unqueued, program, calls]
  | queue hfilled => simp [hfilled, Writer.unqueued, program, calls]
  | settle hidle => simp [program, calls]
  | makeloc _ => simp [program, calls]
  | callback _ _ => simp [program, calls]
  | account _ => simp [program, calls]
  | release _ _ => simp [program, calls]
  | reset => simp [program, calls]
  | setBlockingWrites => simp [program, calls]

/-- In a run the buffers queued are those of the writer's calls. -/
theorem written_run (events : List Event) : ∀ {s s' : State}, run step s events = some s' →
    s'.written ++ s'.writer.unqueued =
      s.written ++ s.writer.unqueued ++ (calls (program events)).map Write2.buf := by
  induction events with
  | nil =>
      intro s s' h
      obtain rfl : s = s' := by simpa [run] using h
      simp [program, calls]
  | cons i rest ih =>
      intro s s' h
      obtain ⟨mid, out, hs, hrest⟩ := exists_of_run_cons h
      rw [ih hrest, written_step (moves_of_step hs), program_cons i rest, calls_append,
        List.map_append, List.append_assoc]

def opEvents (now : ℕ) : WriterOp → List Event
  | .write2 call => [.take call, .fill now, .queue]
  | .settle ticks didPcrReset => [.settle ticks didPcrReset]

theorem program_opEvents (now : ℕ) (ops : List WriterOp) :
    program (ops.flatMap (opEvents now)) = ops := by
  induction ops with
  | nil => rfl
  | cons op rest ih =>
      rw [List.flatMap_cons, program, List.filterMap_append]
      cases op with
      | write2 call => exact congrArg (WriterOp.write2 call :: ·) ih
      | settle ticks didPcrReset => exact congrArg (WriterOp.settle ticks didPcrReset :: ·) ih

theorem run_opEvents (now : ℕ) (ops : List WriterOp) : ∀ {s : State},
    s.writer = .idle → s.ctx.blockingWrites = false →
      ∃ s', run step s (ops.flatMap (opEvents now)) = some s' ∧ s'.writer = .idle := by
  induction ops with
  | nil => exact fun hidle _ ↦ ⟨_, rfl, hidle⟩
  | cons op rest ih =>
      intro s hidle hblock
      rw [List.flatMap_cons]
      cases op with
      | write2 call =>
          obtain ⟨⟨e, ctx⟩, htake⟩ := takeItem_isSome hblock
          have hsame := sameQueue_takeItem htake
          simp only [opEvents, List.cons_append, List.nil_append, run, step, hidle, htake,
            Option.map_some]
          exact ih rfl (hsame.blockingWrites.trans hblock)
      | settle ticks didPcrReset =>
          simp only [opEvents, List.cons_append, List.nil_append, run, step, hidle]
          exact ih rfl hblock

/-- For every stream of packets with sync bytes there are items, the same for all
ways to divide the stream into writes, that every run of the queue which performs
these writes, and there are such runs, has queued in the end: at most seven packets each, and
together the packets from the first clock reference up to the cut. -/
theorem smoother_conserves {itemsPerSecond latencyMS : ℤ} {itemLengthBytes pcrPID : ℕ}
    {ctx : Context}
    (halloc : smootherPcrAlloc true itemsPerSecond itemLengthBytes pcrPID latencyMS = some ctx)
    (time₀ : ℤ) {pkts : List Packet} (hsync : ∀ pkt ∈ pkts, syncPresent pkt = true)
    (htotal : 188 * pkts.length < 2 ^ 31) :
    ∃ items : List (List UInt8),
      (∀ writes : List (List Packet × (ℕ → ℤ)), (writes.map Prod.fst).flatten = pkts →
        ∃ w ops, smootherPcrWrites (writerAlloc pcrPID time₀) (asBytes writes) = some (w, ops) ∧
          (∃ events s, run step (start ctx) events = some s ∧ .reset ∉ events ∧
            program events = ops ∧ s.writer = .idle) ∧
          ∀ events s, run step (start ctx) events = some s → .reset ∉ events →
            program events = ops → s.writer = .idle → s.queued = items) ∧
      (∀ item ∈ items, ∃ n, 1 ≤ n ∧ n ≤ 7 ∧ item.length = 188 * n) ∧
      (((∀ pkt ∈ pkts, clock pcrPID pkt = none) ∧ items = []) ∨
        ∃ pre sent c rest, Conserves pcrPID pkts items pre sent c rest) := by
  obtain ⟨is, left, hdrains⟩ := (incremental_nextInterval pcrPID).drains pkts
  refine ⟨is.flatMap Interval.items, ?_, ?_, ?_⟩
  · intro writes hwrites
    obtain ⟨yss, left', hportions⟩ :=
      (incremental_nextInterval pcrPID).portions (writes.map Prod.fst) []
    have hall := hportions.flatten (incremental_nextInterval pcrPID) (by simp [nextInterval])
    rw [List.nil_append, hwrites] at hall
    obtain ⟨hflat, rfl⟩ := hall.unique hdrains
    obtain ⟨hexact, hsome⟩ := smootherPcrWrites_packets writes
      (writerAlloc pcrPID time₀) [] rfl (by simpa [hwrites] using hsync) hportions
    obtain ⟨⟨w, ops⟩, hr⟩ := hsome (by simpa [hwrites] using htotal)
    refine ⟨w, ops, hr, ?_, ?_⟩
    · obtain ⟨-, -, -, -, -, hblock, -⟩ := alloc_spec halloc
      obtain ⟨s, hrun, hidle⟩ := run_opEvents 0 ops (s := start ctx) rfl hblock
      refine ⟨_, s, hrun, ?_, program_opEvents 0 ops, hidle⟩
      intro hmem
      obtain ⟨op, -, hop⟩ := List.mem_flatMap.mp hmem
      cases op <;> simp [opEvents] at hop
    have hops : ops = _ := congrArg Prod.snd (hexact _ hr)
    intro events s hrun hnoreset hprogram hidle
    have hwritten := written_run events hrun
    have hlen : (writes.map Prod.snd).length = yss.length := by
      rw [List.length_map, ← hportions.length_eq, List.length_map]
    have hreach : Reachable step (fun _ i ↦ i ≠ .reset) (start ctx) s := by
      refine Reachable.of_run (fun i hi _ ↦ ?_) .init hrun
      exact fun heq ↦ hnoreset (heq ▸ hi)
    rw [(ordered_of_reachable halloc hreach).2.queued_eq]
    rw [hidle, hprogram, hops] at hwritten
    simpa [Writer.unqueued, start, map_buf_emits _ _ _ hlen, hflat] using hwritten
  · intro item hitem
    obtain ⟨i, -, hi⟩ := List.mem_flatMap.mp hitem
    exact i.length_of_mem_items hi
  · rcases conserves_of_drains hdrains with ⟨hnone, rfl⟩ | hconserves
    · exact .inl ⟨hnone, rfl⟩
    · exact .inr hconserves

def clockPacket (pid base : ℕ) : Packet where
  bytes := [0x47, .ofNat (pid / 256), .ofNat pid, 0x20, 183, 0x10, .ofNat (base / 2 ^ 25),
    .ofNat (base / 2 ^ 17), .ofNat (base / 2 ^ 9), .ofNat (base / 2), .ofNat (base % 2 * 128), 0] ++
      List.replicate 176 0xff
  length_bytes := by
    rw [List.length_append, List.length_replicate]
    rfl

theorem smoother_conserves_three :
    ∃ (ctx : Context) (items : List (List UInt8)),
      smootherPcrAlloc true 1 (7 * 188) 0x31 100 = some ctx ∧
      (∀ item ∈ items, ∃ n, 1 ≤ n ∧ n ≤ 7 ∧ item.length = 188 * n) ∧
      ∃ pre sent c rest, Conserves 0x31
        [clockPacket 0x31 900, clockPacket 0x31 4500, clockPacket 0x32 9000] items pre sent c
        rest := by
  have halloc : smootherPcrAlloc true 1 (7 * 188) 0x31 100 =
      some (allocItem (emptyContext true (7 * 188) 100)) := rfl
  have hclock : clock 0x31 (clockPacket 0x31 900) = some 270000 := by decide +kernel
  have hsync : ∀ pkt ∈ [clockPacket 0x31 900, clockPacket 0x31 4500, clockPacket 0x32 9000],
      syncPresent pkt = true := by decide +kernel
  obtain ⟨items, -, hitems, hcut⟩ := smoother_conserves halloc 0 hsync (by decide)
  rcases hcut with ⟨hnone, -⟩ | hcut
  · have hcontra := hnone (clockPacket 0x31 900) (by simp)
    rw [hclock] at hcontra
    cases hcontra
  · exact ⟨_, items, halloc, hitems, hcut⟩

end LtnTsTools.Smoother
