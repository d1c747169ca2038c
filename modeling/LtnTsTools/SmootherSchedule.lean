import LtnTsTools.SmootherStream

/-!
# The schedule of the smoother

An item is never queued before the last item of the busy list: if its own time is
earlier, it is scheduled behind that item by its length, at the packet rate of the
interval before.  That rate is negative when the clock reference stepped back
without a wrap, and the schedule goes back with it.  As long as no step back is
more than three ticks a packet the busy list stays in order, since an item has at
most seven packets and a microsecond has 27 ticks.
-/

namespace LtnTsTools.Smoother

open PartialMachine Draining Ts

/-! ## Bounds -/

def maxClock : ℤ := 300 * 2 ^ 33 + 211

/-- No item is scheduled behind this time, but for corrections. -/
def horizon : ℕ := 2 ^ 62 + 2 ^ 38

/-- A call of at most seven packets, with a clock reference in range. -/
structure CallFits (call : Write2) : Prop where
  length : call.buf.length ≤ 7 * 188
  pcr_nonneg : 0 ≤ call.pcrValue
  pcr_le : call.pcrValue ≤ maxClock

/-- Ticks of a packet that do not turn the schedule back. -/
def TicksFit (ticks : ℤ) : Prop := -3 ≤ ticks ∧ ticks ≤ 405000000

/-- The time base is a clock reference in range and a time between 1970 and a date
far off. -/
structure TimebaseFits (ctx : Context) : Prop where
  pcr_nonneg : 0 ≤ ctx.pcrFirst
  pcr_le : ctx.pcrFirst ≤ maxClock
  le_walltime : 2 ^ 37 ≤ ctx.walltimeFirstPCRuS
  walltime_le : ctx.walltimeFirstPCRuS ≤ 2 ^ 62

theorem tdiv_bounds {x d : ℤ} (lo hi : ℤ) (hd : 0 < d) (hlo : 0 ≤ lo) (hhi : 0 ≤ hi)
    (h₁ : -(d * lo + (d - 1)) ≤ x) (h₂ : x ≤ d * hi + (d - 1)) :
    -lo ≤ x.tdiv d ∧ x.tdiv d ≤ hi := by
  rcases le_total 0 x with hx | hx
  · rw [Int.tdiv_eq_ediv_of_nonneg hx]
    have hnonneg := Int.ediv_nonneg hx hd.le
    refine ⟨by omega, ?_⟩
    rw [← Int.lt_add_one_iff, Int.ediv_lt_iff_lt_mul hd]
    linarith
  · obtain ⟨y, rfl⟩ : ∃ y, x = -y := ⟨-x, by ring⟩
    rw [Int.neg_tdiv, Int.tdiv_eq_ediv_of_nonneg (by omega)]
    have hnonneg := Int.ediv_nonneg (a := y) (by omega) hd.le
    refine ⟨?_, by omega⟩
    rw [neg_le_neg_iff, ← Int.lt_add_one_iff, Int.ediv_lt_iff_lt_mul hd]
    linarith

theorem scrDiff_bounds {a b : ℤ} (ha : 0 ≤ a) (ha' : a ≤ maxClock) (hb : 0 ≤ b)
    (hb' : b ≤ maxClock) : -maxClock ≤ scrDiff a b ∧ scrDiff a b ≤ maxClock := by
  unfold maxClock at *
  unfold scrDiff
  split_ifs <;> omega

theorem scrAdd_bounds {v ticks : ℤ} (hv : 0 ≤ v) (hv' : v ≤ maxClock) (ht : -21 ≤ ticks)
    (ht' : ticks ≤ 7 * 405000000) : 0 ≤ scrAdd v ticks ∧ scrAdd v ticks ≤ maxClock := by
  unfold maxClock at *
  unfold scrAdd
  simp only
  split_ifs <;> omega

theorem ticks_mul_bounds {ticks : ℤ} {n : ℕ} (h : TicksFit ticks) (hn : n ≤ 7) :
    -21 ≤ ticks * n ∧ ticks * n ≤ 7 * 405000000 := by
  obtain ⟨hlo, hhi⟩ := h
  have hn' : (n : ℤ) ≤ 7 := by omega
  have h0 : (0 : ℤ) ≤ n := by omega
  constructor
  · nlinarith
  · nlinarith

/-- The schedule from the time base does not leave the range of `uint64_t`. -/
theorem getScheduledOutputuS_le {ctx : Context} {pcr : ℤ} (h : TimebaseFits ctx)
    (hlat : -2 ^ 31 ≤ ctx.latencyuS ∧ ctx.latencyuS < 2 ^ 31) (hpcr : 0 ≤ pcr)
    (hpcr' : pcr ≤ maxClock) : getScheduledOutputuS ctx pcr ≤ horizon := by
  obtain ⟨hlo, hhi⟩ := scrDiff_bounds h.pcr_nonneg h.pcr_le hpcr hpcr'
  obtain ⟨htlo, hthi⟩ := tdiv_bounds (x := scrDiff ctx.pcrFirst pcr) (d := 27)
    (2 ^ 37 - 2 ^ 32) (2 ^ 37) (by norm_num) (by norm_num) (by norm_num)
    (by unfold maxClock at hlo; omega) (by unfold maxClock at hhi; omega)
  have hwall := h.le_walltime
  have hwall' := h.walltime_le
  unfold getScheduledOutputuS horizon
  omega

/-! ## The busy list -/

theorem correctSchedule_spec {ctx : Context} {item : Item}
    (hlast : TicksFit ctx.pcrIntervalPerPacketTicksLast) (hlen : item.lengthBytes ≤ 7 * 188)
    (hitem : item.scheduledTSuS ≤ horizon)
    (hbusy : ∀ e ∈ ctx.itemsBusy, (ctx.items e).scheduledTSuS ≤ horizon + 105000000 * ctx.seqno)
    (hseqno : ctx.seqno < 2 ^ 32) :
    (∀ l, ctx.itemsBusy.getLast? = some l →
      (ctx.items l).scheduledTSuS ≤ correctSchedule ctx item) ∧
    correctSchedule ctx item ≤ horizon + 105000000 * (ctx.seqno + 1) := by
  unfold correctSchedule
  cases hl : ctx.itemsBusy.getLast? with
  | none => simp only [reduceCtorEq, false_imp_iff, implies_true, true_and]; omega
  | some l =>
      have hle := hbusy l (List.mem_of_getLast? hl)
      obtain ⟨hlo, hhi⟩ := ticks_mul_bounds (n := item.lengthBytes / 188) hlast (by omega)
      obtain ⟨htlo, hthi⟩ := tdiv_bounds
        (x := ctx.pcrIntervalPerPacketTicksLast * (item.lengthBytes / 188 : ℕ)) (d := 27) 0
        105000000 (by norm_num) (by norm_num) (by norm_num) (by omega) (by omega)
      simp only [Option.some.injEq, forall_eq']
      split_ifs with hback
      · unfold horizon at *
        omega
      · omega

structure InOrder (ctx : Context) : Prop where
  sorted : (ctx.itemsBusy.map fun e ↦ (ctx.items e).scheduledTSuS).Pairwise (· ≤ ·)
  bound : ∀ e ∈ ctx.itemsBusy, (ctx.items e).scheduledTSuS ≤ horizon + 105000000 * ctx.seqno

theorem InOrder.frame {ctx ctx' : Context} (h : InOrder ctx)
    (hbusy : ctx'.itemsBusy = ctx.itemsBusy) (hseqno : ctx'.seqno = ctx.seqno)
    (hitems : ∀ x ∈ ctx.itemsBusy, ctx'.items x = ctx.items x) : InOrder ctx' where
  sorted := by
    rw [hbusy, List.map_congr_left fun x hx ↦ by rw [hitems x hx]]
    exact h.sorted
  bound := by
    intro e he
    rw [hbusy] at he
    rw [hitems e he, hseqno]
    exact h.bound e he

theorem InOrder.queueItem {ctx : Context} {e : ℕ} (h : InOrder ctx)
    (hlast : TicksFit ctx.pcrIntervalPerPacketTicksLast)
    (hlen : (ctx.items e).lengthBytes ≤ 7 * 188) (hitem : (ctx.items e).scheduledTSuS ≤ horizon)
    (hseqno : ctx.seqno < 2 ^ 32) (hne : ∀ x ∈ ctx.itemsBusy, x ≠ e) :
    InOrder (queueItem ctx e) := by
  obtain ⟨hbehind, hbound⟩ := correctSchedule_spec hlast hlen hitem h.bound hseqno
  have hkeep : ∀ x ∈ ctx.itemsBusy, (Smoother.queueItem ctx e).items x = ctx.items x :=
    fun x hx ↦ Function.update_of_ne (hne x hx) _ _
  have hnew : ((Smoother.queueItem ctx e).items e).scheduledTSuS =
      correctSchedule ctx (ctx.items e) := by
    simp [Smoother.queueItem]
  have hbusy : (Smoother.queueItem ctx e).itemsBusy = ctx.itemsBusy ++ [e] := rfl
  have hnumber : (Smoother.queueItem ctx e).seqno = ctx.seqno + 1 := rfl
  constructor
  · rw [hbusy, List.map_append, List.map_congr_left fun x hx ↦ by rw [hkeep x hx],
      List.map_singleton, hnew, List.pairwise_append]
    refine ⟨h.sorted, List.pairwise_singleton _ _, ?_⟩
    simp only [List.mem_map, List.mem_singleton, forall_eq, forall_exists_index, and_imp,
      forall_apply_eq_imp_iff₂]
    -- every time on the list is at most the last one
    intro x hx
    obtain ⟨l, hl⟩ : ∃ l, ctx.itemsBusy.getLast? = some l := by
      cases hl : ctx.itemsBusy.getLast? with
      | none =>
          rw [List.getLast?_eq_none_iff.mp hl] at hx
          cases hx
      | some l => exact ⟨l, rfl⟩
    refine le_trans ?_ (hbehind l hl)
    obtain ⟨front, hfront⟩ := List.getLast?_eq_some_iff.mp hl
    have hsorted := h.sorted
    rw [hfront, List.map_append, List.pairwise_append] at hsorted
    rw [hfront] at hx
    rcases List.mem_append.mp hx with hx | hx
    · exact hsorted.2.2 _ (List.mem_map_of_mem hx) _ (by simp)
    · rw [List.mem_singleton.mp hx]
  · intro x hx
    rw [hbusy] at hx
    rw [hnumber]
    rcases List.mem_append.mp hx with hx | hx
    · have hold := h.bound x hx
      rw [hkeep x hx]
      omega
    · rw [List.mem_singleton.mp hx, hnew]
      exact hbound

theorem InOrder.makeloc {ctx : Context} (h : InOrder ctx) (uS : ℕ) :
    InOrder (queueProcessMakeloc ctx uS).2 := by
  have hsub : (queueProcessMakeloc ctx uS).2.itemsBusy <:+ ctx.itemsBusy :=
    ⟨_, makeloc_append ctx uS⟩
  constructor
  · exact h.sorted.sublist (hsub.sublist.map _)
  · exact fun e he ↦ h.bound e (hsub.subset he)

structure ClocksFit (ctx : Context) : Prop where
  timebase : ctx.pcrFirst = -1 ∨ TimebaseFits ctx
  last : TicksFit ctx.pcrIntervalPerPacketTicksLast
  latency : -2 ^ 31 ≤ ctx.latencyuS ∧ ctx.latencyuS < 2 ^ 31

theorem ClocksFit.congr {ctx ctx' : Context} (h : ClocksFit ctx)
    (hfirst : ctx'.pcrFirst = ctx.pcrFirst)
    (hwall : ctx'.walltimeFirstPCRuS = ctx.walltimeFirstPCRuS)
    (hlast : ctx'.pcrIntervalPerPacketTicksLast = ctx.pcrIntervalPerPacketTicksLast)
    (hlatency : ctx'.latencyuS = ctx.latencyuS) : ClocksFit ctx' where
  timebase := by
    rw [hfirst]
    refine h.timebase.imp_right fun t ↦ ⟨?_, ?_, ?_, ?_⟩
    · exact hfirst ▸ t.pcr_nonneg
    · exact hfirst ▸ t.pcr_le
    · exact hwall ▸ t.le_walltime
    · exact hwall ▸ t.walltime_le
  last := hlast ▸ h.last
  latency := hlatency ▸ h.latency

theorem ClocksFit.growItem {ctx : Context} (h : ClocksFit ctx) : ClocksFit (growItem ctx) :=
  h.congr rfl rfl rfl rfl

theorem ClocksFit.takeItem {ctx ctx' : Context} {e : ℕ} (h : ClocksFit ctx)
    (htake : takeItem ctx = some (e, ctx')) : ClocksFit ctx' := by
  obtain ⟨n, rest, -, rfl⟩ := takeItem_cases htake
  have hg : ClocksFit (Smoother.growItem^[n] ctx) :=
    Function.Iterate.rec ClocksFit h (fun _ hc ↦ hc.growItem) n
  exact hg.congr rfl rfl rfl rfl

theorem ClocksFit.releaseItems (es : List ℕ) :
    ∀ {ctx : Context}, ClocksFit ctx → ClocksFit (releaseItems ctx es) := by
  induction es with
  | nil => exact fun h ↦ h
  | cons e rest ih =>
      intro ctx h
      exact ih (h.congr rfl rfl rfl rfl)

/-- Behind the time base of a call the time base is in range. -/
theorem ClocksFit.setTimebase {ctx : Context} {call : Write2} {now : ℕ} (h : ClocksFit ctx)
    (hcall : CallFits call) (hnow : 2 ^ 37 ≤ now) (hnow' : now ≤ 2 ^ 62) :
    TimebaseFits (setTimebase ctx call.pcrValue now) := by
  by_cases hfirst : ctx.pcrFirst = -1
  · constructor <;> simp only [Smoother.setTimebase, if_pos hfirst]
    · exact hcall.pcr_nonneg
    · exact hcall.pcr_le
    · exact hnow
    · exact hnow'
  · obtain ht := h.timebase.resolve_left hfirst
    constructor <;> simp only [Smoother.setTimebase, if_neg hfirst]
    · exact ht.pcr_nonneg
    · exact ht.pcr_le
    · exact ht.le_walltime
    · exact ht.walltime_le

/-! ## Whole runs -/

structure Scheduled (s : State) : Prop where
  order : InOrder s.ctx
  clocks : ClocksFit s.ctx
  taken : ∀ e call, s.writer = .taken e call → CallFits call
  filled : ∀ e call, s.writer = .filled e call →
    (s.ctx.items e).lengthBytes ≤ 7 * 188 ∧ (s.ctx.items e).scheduledTSuS ≤ horizon

def EventFits (s : State) : Event → Prop
  | .take call => CallFits call
  | .fill now => 2 ^ 37 ≤ now ∧ now ≤ 2 ^ 62
  | .queue => s.ctx.seqno < 2 ^ 32
  | .settle ticks _ => TicksFit ticks
  | _ => True

theorem scheduled_step {s s' : State} {i : Event} (how : Owns s.ctx s.out) (h : Scheduled s)
    (hm : Moves s i s') (hi : EventFits s i) : Scheduled s' := by
  have hbusy : ∀ x ∈ s.ctx.itemsBusy, x ∈ s.output.loclist ++ s.ctx.itemsBusy :=
    fun x hx ↦ List.mem_append_right _ hx
  cases hm with
  | @take call e ctx hidle htake =>
      have hsame := sameQueue_takeItem htake
      refine ⟨h.order.frame hsame.itemsBusy hsame.seqno fun x hx ↦
          hsame.items x (not_held how (hbusy x hx)).1,
        h.clocks.takeItem htake, ?_, by simp⟩
      intro e' call' heq
      cases heq
      exact hi
  | @fill now e call htaken =>
      have hcall := h.taken e call htaken
      have hbase := h.clocks.setTimebase hcall hi.1 hi.2
      refine ⟨h.order.frame rfl rfl fun x hx ↦ Function.update_of_ne ?_ _ _,
        ⟨.inr ⟨hbase.pcr_nonneg, hbase.pcr_le, hbase.le_walltime, hbase.walltime_le⟩,
          h.clocks.last, h.clocks.latency⟩, by simp, ?_⟩
      · exact ne_of_held how (hbusy x hx) (mem_held_of_taken htaken)
      · intro e' call' heq
        cases heq
        simp only [fillItem, Function.update_self]
        exact ⟨hcall.length, getScheduledOutputuS_le hbase h.clocks.latency hcall.pcr_nonneg
          hcall.pcr_le⟩
  | @queue e call hfilled =>
      obtain ⟨hlen, hsched⟩ := h.filled e call hfilled
      refine ⟨h.order.queueItem h.clocks.last hlen hsched hi fun x hx ↦ ?_,
        h.clocks.congr rfl rfl rfl rfl, by simp, by simp⟩
      exact ne_of_held how (hbusy x hx) (mem_held_of_filled hfilled)
  | @settle ticks didPcrReset hidle =>
      refine ⟨h.order.frame rfl rfl fun _ _ ↦ rfl, ⟨?_, hi, h.clocks.latency⟩, h.taken, h.filled⟩
      cases didPcrReset with
      | true => exact .inl rfl
      | false =>
          exact h.clocks.timebase.imp_right fun t ↦
            ⟨t.pcr_nonneg, t.pcr_le, t.le_walltime, t.walltime_le⟩
  | @makeloc uS hwaiting =>
      exact ⟨h.order.makeloc uS, h.clocks.congr rfl rfl rfl rfl, h.taken, h.filled⟩
  | callback _ _ => exact ⟨h.order, h.clocks, h.taken, h.filled⟩
  | account _ =>
      exact ⟨h.order.frame rfl rfl fun _ _ ↦ rfl, h.clocks.congr rfl rfl rfl rfl, h.taken,
        h.filled⟩
  | @release served pending hserving hdone =>
      obtain ⟨hkeep, -, hseqno, -, hitems⟩ := releaseItems_frame (served ++ pending) s.ctx
      have hloc : s.output.loclist = served ++ pending := by rw [hserving, Output.loclist]
      refine ⟨h.order.frame hkeep hseqno fun x hx ↦ hitems x (hloc ▸ not_in_loclist how hx),
        h.clocks.releaseItems _, h.taken, fun e call hfilled ↦ ?_⟩
      rw [hitems e (hloc ▸ filled_not_in_loclist how hfilled)]
      exact h.filled e call hfilled
  | reset =>
      obtain ⟨hkeep, -, -, -, hitems⟩ := releaseItems_frame s.ctx.itemsBusy
        { s.ctx with
          walltimeFirstPCRuS := 0
          pcrFirst := -1
          totalUserBytes := 0
          itemsBusy := []
          qBusyCount := s.ctx.qBusyCount - s.ctx.itemsBusy.length }
      refine ⟨?_, ClocksFit.releaseItems _ ⟨.inl rfl, h.clocks.last, h.clocks.latency⟩, h.taken,
        fun e call hfilled ↦ ?_⟩
      · constructor <;> simp [smootherPcrReset, hkeep]
      · rw [smootherPcrReset, hitems e]
        · exact h.filled e call hfilled
        · intro hmem
          exact ne_of_held how (hbusy e hmem) (mem_held_of_filled hfilled) rfl
  | setBlockingWrites =>
      exact ⟨h.order.frame rfl rfl fun _ _ ↦ rfl, h.clocks.congr rfl rfl rfl rfl, h.taken,
        h.filled⟩

def OpFits : WriterOp → Prop
  | .write2 call => CallFits call
  | .settle ticks _ => TicksFit ticks

theorem seqno_step {s s' : State} {i : Event} (hm : Moves s i s') :
    s'.ctx.seqno + s'.writer.unqueued.length =
      s.ctx.seqno + s.writer.unqueued.length + (calls (program [i])).length := by
  cases hm with
  | take hidle htake =>
      simp [hidle, Writer.unqueued, program, calls, (sameQueue_takeItem htake).seqno]
  | fill htaken => simp [htaken, Writer.unqueued, program, calls, fillItem, setTimebase]
  | queue hfilled => simp [hfilled, Writer.unqueued, program, calls, queueItem]
  | settle _ => simp [program, calls, settleInterval]
  | makeloc _ => simp [program, calls, queueProcessMakeloc]
  | callback _ _ => simp [program, calls]
  | account _ => simp [program, calls, accountItem]
  | release _ _ =>
      simp [program, calls, (releaseItems_frame _ s.ctx).2.2.1]
  | reset => simp [program, calls, smootherPcrReset, (releaseItems_frame _ _).2.2.1]
  | setBlockingWrites => simp [program, calls]

/-- A run of a program that fits keeps the schedule. -/
theorem scheduled_run (events : List Event) : ∀ {s s' : State}, Owns s.ctx s.out → Scheduled s →
    (∀ op ∈ program events, OpFits op) →
    (∀ now, Event.fill now ∈ events → 2 ^ 37 ≤ now ∧ now ≤ 2 ^ 62) →
    s.ctx.seqno + s.writer.unqueued.length + (calls (program events)).length ≤ 2 ^ 32 →
    run step s events = some s' → Scheduled s' := by
  induction events with
  | nil =>
      intro s s' _ h _ _ _ hrun
      obtain rfl : s = s' := by simpa [run] using hrun
      exact h
  | cons i rest ih =>
      intro s s' how h hops hclock hcount hrun
      obtain ⟨mid, out, hs, hrest⟩ := exists_of_run_cons hrun
      have hm := moves_of_step hs
      have hnumber := seqno_step hm
      rw [program_cons i rest, calls_append, List.length_append] at hcount
      rw [program_cons i rest] at hops
      have hi : EventFits s i := by
        cases i with
        | take call => exact hops (.write2 call) (by simp [program])
        | fill now => exact hclock now List.mem_cons_self
        | queue =>
            cases hm with
            | queue hfilled =>
                simp only [hfilled, Writer.unqueued, List.length_singleton] at hcount
                show s.ctx.seqno < 2 ^ 32
                omega
        | settle ticks didPcrReset => exact hops (.settle ticks didPcrReset) (by simp [program])
        | _ => trivial
      exact ih (owns_step how hm) (scheduled_step how h hm hi)
        (fun op hop ↦ hops op (List.mem_append_right _ hop))
        (fun now hmem ↦ hclock now (List.mem_cons_of_mem i hmem)) (by omega) hrest

/-! ## What the writer does -/

/-- Between the two clock references of the interval the clock steps back by at
most three ticks a packet. -/
structure IntervalFits (i : Interval) : Prop where
  packets : 0 < i.packets.length
  first_nonneg : 0 ≤ i.first
  first_le : i.first ≤ maxClock
  forward : -3 ≤ (scrDiff i.first i.next).tdiv i.packets.length

theorem callFits_of_mem_cutInterval {pp it : ℤ} (hpp : TicksFit pp) (fuel : ℕ) :
    ∀ {data : List UInt8} {rem : ℕ} {v : ℤ}, 0 ≤ v → v ≤ maxClock →
      ∀ call ∈ cutInterval pp it fuel data rem v, CallFits call := by
  induction fuel with
  | zero => intro data rem v _ _ call hcall; cases hcall
  | succ fuel ih =>
      intro data rem v hv hv' call hcall
      rw [cutInterval] at hcall
      split_ifs at hcall with hpos
      · rcases List.mem_cons.mp hcall with rfl | hcall
        · refine ⟨?_, hv, hv'⟩
          rw [List.length_take]
          omega
        · obtain ⟨hlo, hhi⟩ := ticks_mul_bounds (n := min (7 * 188) rem / 188) hpp (by omega)
          obtain ⟨hnext, hnext'⟩ := scrAdd_bounds hv hv' hlo hhi
          exact ih hnext hnext' call hcall
      · cases hcall

theorem ticksFit_perPacketTicks {w : WriterContext} {i : Interval}
    (hw : TicksFit w.pcrIntervalPerPacketTicksLast) (hi : IntervalFits i) :
    TicksFit (perPacketTicks w i.first i.next i.packets.length) := by
  unfold perPacketTicks
  split_ifs with hjump
  · exact hw
  · refine ⟨hi.forward, ?_⟩
    simp only [jumps, decide_eq_true_eq, not_lt] at hjump
    have hpos : (1 : ℤ) ≤ i.packets.length := by exact_mod_cast hi.packets
    rcases le_total 0 (scrDiff i.first i.next) with hx | hx
    · rw [Int.tdiv_eq_ediv_of_nonneg hx]
      have hself := Int.ediv_le_self (i.packets.length : ℤ) hx
      omega
    · obtain ⟨y, hy⟩ : ∃ y, scrDiff i.first i.next = -y := ⟨-scrDiff i.first i.next, by ring⟩
      have hnonneg := Int.tdiv_nonneg (a := y) (b := i.packets.length) (by omega) (by omega)
      rw [hy, Int.neg_tdiv]
      omega

theorem opFits_of_mem_emit (time : ℕ → ℤ) (is : List Interval) : ∀ (turn : ℕ) {w : WriterContext},
    TicksFit w.pcrIntervalPerPacketTicksLast → (∀ i ∈ is, IntervalFits i) →
      TicksFit (emit time turn w is).1.pcrIntervalPerPacketTicksLast ∧
        ∀ op ∈ (emit time turn w is).2, OpFits op := by
  induction is with
  | nil => exact fun _ _ hw _ ↦ ⟨hw, by simp [emit]⟩
  | cons i rest ih =>
      intro turn w hw his
      have hi := his i List.mem_cons_self
      have hticks := ticksFit_perPacketTicks hw hi
      obtain ⟨hlast, hrest⟩ := ih (turn + 1)
        (w := closeInterval w i.first i.next i.packets.length (time turn)) hticks
        fun j hj ↦ his j (List.mem_cons_of_mem i hj)
      refine ⟨hlast, fun op hop ↦ ?_⟩
      rw [emit, List.mem_append] at hop
      rcases hop with hop | hop
      · rw [intervalOps, List.mem_append] at hop
        rcases hop with hop | hop
        · obtain ⟨call, hcall, rfl⟩ := List.mem_map.mp hop
          exact callFits_of_mem_cutInterval hticks _ hi.first_nonneg hi.first_le call hcall
        · rw [List.mem_singleton.mp hop]
          exact hticks
      · exact hrest op hop

theorem opFits_of_mem_emits (turns : List ((ℕ → ℤ) × List Interval)) : ∀ {w : WriterContext},
    TicksFit w.pcrIntervalPerPacketTicksLast → (∀ turn ∈ turns, ∀ i ∈ turn.2, IntervalFits i) →
      ∀ op ∈ (emits w turns).2, OpFits op := by
  induction turns with
  | nil => intro w _ _ op hop; cases hop
  | cons turn rest ih =>
      intro w hw hturns op hop
      obtain ⟨hlast, hone⟩ := opFits_of_mem_emit turn.1 turn.2 0 hw
        (hturns turn List.mem_cons_self)
      rw [emits, List.mem_append] at hop
      rcases hop with hop | hop
      · exact hone op hop
      · exact ih hlast (fun t ht ↦ hturns t (List.mem_cons_of_mem turn ht)) op hop

/-! ## The stream -/

theorem scr_le {pkt : Packet} {v : ℕ} (h : scr pkt = some v) : (v : ℤ) ≤ maxClock := by
  unfold scr at h
  split_ifs at h
  cases h
  have h6 := pkt.byte_lt 6
  have h7 := pkt.byte_lt 7
  have h8 := pkt.byte_lt 8
  have h9 := pkt.byte_lt 9
  have h10 := pkt.byte_lt 10
  have h11 := pkt.byte_lt 11
  rw [pcrToScr_eq]
  unfold maxClock
  push_cast
  omega

theorem clock_bounds {pcrPID : ℕ} {pkt : Packet} {v : ℤ} (h : clock pcrPID pkt = some v) :
    0 ≤ v ∧ v ≤ maxClock := by
  unfold clock at h
  split_ifs at h
  obtain ⟨n, hscr, rfl⟩ := Option.map_eq_some_iff.mp h
  exact ⟨Int.natCast_nonneg n, scr_le hscr⟩

/-- From every clock reference of the stream to the next one the clock steps back,
by the rule of `ltntstools_scr_diff`, by at most three ticks a packet. -/
def ClocksForward (pcrPID : ℕ) (pkts : List Packet) : Prop :=
  ∀ pre mid post a b x y, pkts = pre ++ a :: (mid ++ b :: post) → clock pcrPID a = some x →
    (∀ pkt ∈ mid, clock pcrPID pkt = none) → clock pcrPID b = some y →
    -3 ≤ (scrDiff x y).tdiv (mid.length + 1 : ℕ)

theorem ClocksForward.suffix {pcrPID : ℕ} {pkts left : List Packet}
    (h : ClocksForward pcrPID pkts) (hsuffix : left <:+ pkts) : ClocksForward pcrPID left := by
  obtain ⟨front, rfl⟩ := hsuffix
  intro pre mid post a b x y hleft
  exact h (front ++ pre) mid post a b x y (by rw [hleft, List.append_assoc])

theorem intervalFits_of_drains {pcrPID : ℕ} {pkts left : List Packet} {is : List Interval}
    (h : Drains (nextInterval pcrPID) pkts is left) (hforward : ClocksForward pcrPID pkts) :
    ∀ i ∈ is, IntervalFits i := by
  induction h with
  | stuck _ => intro i hi; cases hi
  | @take pkts rest left i is h _ ih =>
      obtain ⟨pre, mid, post, a, b, hcuts⟩ := cuts_of_nextInterval h
      obtain ⟨hsplit, -, ha, hmid, hb⟩ := hcuts.split
      intro j hj
      rcases List.mem_cons.mp hj with rfl | hj
      · obtain ⟨hlo, hhi⟩ := clock_bounds ha
        have hone := hforward pre mid post a b j.first j.next
          (by rw [hsplit, hcuts.packets, hcuts.rest, List.cons_append]) ha hmid hb
        refine ⟨by rw [hcuts.packets]; simp, hlo, hhi, ?_⟩
        rw [hcuts.packets, List.length_cons]
        exact hone
      · refine ih (hforward.suffix ?_) j hj
        rw [hsplit, ← List.append_assoc]
        exact List.suffix_append _ _

theorem length_items_le {pcrPID : ℕ} {pkts left : List Packet} {is : List Interval}
    (h : Drains (nextInterval pcrPID) pkts is left) :
    (is.flatMap Interval.items).length ≤ pkts.length := by
  induction h with
  | stuck _ => simp
  | @take pkts rest left i is h _ ih =>
      obtain ⟨pre, mid, post, a, b, hcuts⟩ := cuts_of_nextInterval h
      have hone : ∀ items : List (List UInt8),
          (∀ item ∈ items, ∃ n, 1 ≤ n ∧ n ≤ 7 ∧ item.length = 188 * n) →
          188 * items.length ≤ items.flatten.length := by
        intro items
        induction items with
        | nil => simp
        | cons item items ih =>
            intro hitems
            obtain ⟨n, hn, -, hlen⟩ := hitems item List.mem_cons_self
            have hrest := ih fun x hx ↦ hitems x (List.mem_cons_of_mem item hx)
            rw [List.length_cons, List.flatten_cons, List.length_append]
            omega
      have hitems := hone i.items fun item hitem ↦ i.length_of_mem_items hitem
      rw [i.flatten_items, length_packetBytes] at hitems
      rw [List.flatMap_cons, List.length_append, hcuts.split.1, List.length_append,
        List.length_append]
      omega

/-- While clock references step back by at most three ticks a packet, the busy list
is in the order of its times in every state of every run of the writes, for clock
readings in the range of dates and as long as the packets can be counted. -/
theorem schedule_nondecreasing {outputCb : Bool} {itemsPerSecond latencyMS : ℤ}
    {itemLengthBytes pcrPID : ℕ} {ctx : Context}
    (halloc : smootherPcrAlloc outputCb itemsPerSecond itemLengthBytes pcrPID latencyMS = some ctx)
    {time₀ : ℤ} {writes : List (List Packet × (ℕ → ℤ))} {w : WriterContext} {ops : List WriterOp}
    (hsync : ∀ pkt ∈ (writes.map Prod.fst).flatten, syncPresent pkt = true)
    (hforward : ClocksForward pcrPID (writes.map Prod.fst).flatten)
    (hcount : (writes.map Prod.fst).flatten.length ≤ 2 ^ 32)
    (hops : smootherPcrWrites (writerAlloc pcrPID time₀) (asBytes writes) = some (w, ops))
    {events : List Event} {s : State} (hrun : run step (start ctx) events = some s)
    (hprogram : program events <+: ops)
    (hclock : ∀ now, Event.fill now ∈ events → 2 ^ 37 ≤ now ∧ now ≤ 2 ^ 62) :
    (s.ctx.itemsBusy.map fun e ↦ (s.ctx.items e).scheduledTSuS).Pairwise (· ≤ ·) := by
  obtain ⟨how, hbusy, hseqno, -, -, -, hfirst, hlast, hlatency⟩ := alloc_spec halloc
  obtain ⟨yss, left, hportions⟩ :=
    (incremental_nextInterval pcrPID).portions (writes.map Prod.fst) []
  have hdrains := hportions.flatten (incremental_nextInterval pcrPID) (by simp [nextInterval])
  rw [List.nil_append] at hdrains
  obtain ⟨hexact, -⟩ := smootherPcrWrites_packets writes (writerAlloc pcrPID time₀) [] rfl
    (by simpa using hsync) hportions
  have hemits := congrArg Prod.snd (hexact _ hops)
  simp only at hemits
  have hfits := intervalFits_of_drains hdrains hforward
  have hopfits : ∀ op ∈ ops, OpFits op := by
    rw [hemits]
    refine opFits_of_mem_emits _ ⟨by simp [writerAlloc], by simp [writerAlloc]⟩ ?_
    intro turn hturn i hi
    exact hfits i (List.mem_flatten.mpr ⟨turn.2, (List.of_mem_zip hturn).2, hi⟩)
  have hlen : (writes.map Prod.snd).length = yss.length := by
    rw [List.length_map, ← hportions.length_eq, List.length_map]
  have hcalls : (calls (program events)).length ≤ 2 ^ 32 := by
    have hall := congrArg List.length (map_buf_emits (writes.map Prod.snd) yss
      (writerAlloc pcrPID time₀) hlen)
    rw [List.length_map, ← hemits] at hall
    have hsome : (calls (program events)).length ≤ (calls ops).length := by
      obtain ⟨rest, hrest⟩ := hprogram
      rw [← hrest, calls_append, List.length_append]
      omega
    have hitems := length_items_le hdrains
    omega
  have hstart : Scheduled (start ctx) := by
    refine ⟨⟨by simp [start, hbusy], by simp [start, hbusy]⟩,
      ⟨.inl hfirst, ?_, ?_⟩, by simp [start], by simp [start]⟩
    · rw [start, hlast]
      exact ⟨by norm_num, by norm_num⟩
    · rw [start, hlatency]
      have hle := Int.le_bmod (x := latencyMS * 1000) (m := 2 ^ 32) (by norm_num)
      have hlt := Int.bmod_lt (x := latencyMS * 1000) (m := 2 ^ 32) (by norm_num)
      constructor <;> omega
  refine (scheduled_run events how hstart (fun op hop ↦ hopfits op (hprogram.subset hop)) hclock ?_
    hrun).order.sorted
  simpa [start, hseqno, Writer.unqueued] using hcalls

/-- The times on the busy list behind one write, with an output thread that is late. -/
def busySchedule (ctx : Context) (pcrPID now : ℕ) (pkts : List Packet) : Option (List ℕ) :=
  (smootherPcrWrites (writerAlloc pcrPID 0) (asBytes [(pkts, fun _ ↦ 0)])).bind fun r ↦
    (run step (start ctx) (r.2.flatMap (opEvents now))).map fun s ↦
      s.ctx.itemsBusy.map fun e ↦ (s.ctx.items e).scheduledTSuS

theorem schedule_nondecreasing_three :
    ∃ ctx w ops s, smootherPcrAlloc true 3 (7 * 188) 0x31 100 = some ctx ∧
      smootherPcrWrites (writerAlloc 0x31 0) (asBytes [([clockPacket 0x31 900,
        clockPacket 0x31 4500, clockPacket 0x32 9000], fun _ ↦ 0)]) = some (w, ops) ∧
      run step (start ctx) (ops.flatMap (opEvents (2 ^ 50))) = some s ∧
      (s.ctx.itemsBusy.map fun e ↦ (s.ctx.items e).scheduledTSuS).Pairwise (· ≤ ·) := by
  have halloc : smootherPcrAlloc true 3 (7 * 188) 0x31 100 =
      some (allocItem^[3] (emptyContext true (7 * 188) 100)) := rfl
  have hwrites : (smootherPcrWrites (writerAlloc 0x31 0) (asBytes [([clockPacket 0x31 900,
      clockPacket 0x31 4500, clockPacket 0x32 9000], fun _ ↦ 0)])).isSome := by
    decide +kernel
  obtain ⟨⟨w, ops⟩, hops⟩ := Option.isSome_iff_exists.mp hwrites
  obtain ⟨s, hrun, -⟩ := run_opEvents (2 ^ 50) ops
    (s := start (allocItem^[3] (emptyContext true (7 * 188) 100))) rfl rfl
  refine ⟨_, w, ops, s, halloc, hops, hrun, schedule_nondecreasing halloc ?_ ?_ ?_ hops hrun ?_ ?_⟩
  · decide +kernel
  · -- below five seconds every step back counts as a wrap
    have hall : ∀ a ∈ [clockPacket 0x31 900, clockPacket 0x31 4500, clockPacket 0x32 9000],
        ∀ b ∈ [clockPacket 0x31 900, clockPacket 0x31 4500, clockPacket 0x32 9000],
        ∀ x ∈ clock 0x31 a, ∀ y ∈ clock 0x31 b, 0 ≤ scrDiff x y := by
      decide +kernel
    intro pre mid post a b x y hpkts hx _ hy
    have hnonneg : 0 ≤ scrDiff x y := by
      have hmem : ∀ p, p ∈ pre ++ a :: (mid ++ b :: post) → p ∈ [clockPacket 0x31 900,
          clockPacket 0x31 4500, clockPacket 0x32 9000] := by
        intro p hp
        rw [← hpkts] at hp
        simpa using hp
      exact hall a (hmem a (by simp)) b (hmem b (by simp)) x hx y hy
    have htdiv := Int.tdiv_nonneg hnonneg (Int.natCast_nonneg (mid.length + 1))
    omega
  · simp
  · rw [program_opEvents]
  · intro now hnow
    obtain ⟨op, -, hop⟩ := List.mem_flatMap.mp hnow
    cases op with
    | write2 call =>
        simp only [opEvents, List.mem_cons, reduceCtorEq, Event.fill.injEq, List.not_mem_nil,
          or_false, false_or] at hop
        subst hop
        norm_num
    | settle ticks didPcrReset => simp [opEvents] at hop

/-- The clock steps back from 100.04 s to 50 s: the third item is queued about 50 s
before the second. -/
theorem schedule_goes_back :
    ∃ ctx, smootherPcrAlloc true 3 (7 * 188) 0x31 100 = some ctx ∧
      busySchedule ctx 0x31 (2 ^ 50) [clockPacket 0x31 9000000, clockPacket 0x31 9003600,
        clockPacket 0x31 4500000, clockPacket 0x31 4503600, clockPacket 0x32 0] =
        some [1125899906942624, 1125899906982624, 1125899856942624] :=
  ⟨_, rfl, by decide +kernel⟩

end LtnTsTools.Smoother
