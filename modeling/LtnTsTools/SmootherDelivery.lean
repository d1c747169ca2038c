import LtnTsTools.SmootherQueue

/-!
# Delivery of the smoother

Every item of the smoother is at one place: on the free list, with the writer, on
the busy list or in the private list of the output thread.  Since no two places
share an item, what one thread does to its items leaves the others' alone, and
the items behind the last callback are, in order, exactly the buffers that were
queued and not delivered yet.
-/

namespace LtnTsTools.Smoother

open PartialMachine

/-! ## Who owns an item -/

/-- The lists of the context and the items `out` that the threads hold share no
item and are all there are. -/
structure Owns (ctx : Context) (out : List ℕ) : Prop where
  nodup : (ctx.itemsFree ++ (ctx.itemsBusy ++ out)).Nodup
  lt_totalItems : ∀ e ∈ ctx.itemsFree ++ (ctx.itemsBusy ++ out), e < ctx.totalItems
  totalItems : ctx.totalItems = (ctx.itemsFree ++ (ctx.itemsBusy ++ out)).length
  qFreeCount : ctx.qFreeCount = ctx.itemsFree.length
  qBusyCount : ctx.qBusyCount = ctx.itemsBusy.length

theorem Owns.of_perm {ctx ctx' : Context} {out out' : List ℕ} (h : Owns ctx out)
    (hperm : (ctx'.itemsFree ++ (ctx'.itemsBusy ++ out')).Perm
      (ctx.itemsFree ++ (ctx.itemsBusy ++ out)))
    (htotal : ctx'.totalItems = ctx.totalItems)
    (hfree : ctx'.qFreeCount = ctx'.itemsFree.length)
    (hbusy : ctx'.qBusyCount = ctx'.itemsBusy.length) : Owns ctx' out' where
  nodup := hperm.nodup_iff.mpr h.nodup
  lt_totalItems := fun e he ↦ htotal ▸ h.lt_totalItems e (hperm.mem_iff.mp he)
  totalItems := by rw [htotal, h.totalItems, hperm.length_eq]
  qFreeCount := hfree
  qBusyCount := hbusy

theorem Owns.perm_out {ctx : Context} {out out' : List ℕ} (h : Owns ctx out)
    (hperm : out'.Perm out) : Owns ctx out' :=
  h.of_perm ((hperm.append_left _).append_left _) rfl h.qFreeCount h.qBusyCount

theorem Owns.addItem {ctx : Context} {out : List ℕ} (h : Owns ctx out) :
    Owns (addItem ctx) out := by
  have hperm : (ctx.itemsFree ++ [ctx.totalItems] ++ (ctx.itemsBusy ++ out)).Perm
      (ctx.totalItems :: (ctx.itemsFree ++ (ctx.itemsBusy ++ out))) := by
    rw [List.append_assoc, List.singleton_append]
    exact List.perm_middle
  have hfresh : ctx.totalItems ∉ ctx.itemsFree ++ (ctx.itemsBusy ++ out) :=
    fun hmem ↦ (h.lt_totalItems _ hmem).false
  constructor
  · exact hperm.nodup_iff.mpr (List.nodup_cons.mpr ⟨hfresh, h.nodup⟩)
  · intro e he
    rcases List.mem_cons.mp (hperm.mem_iff.mp he) with rfl | hold
    · exact Nat.lt_succ_self _
    · exact Nat.lt_succ_of_lt (h.lt_totalItems e hold)
  · exact (congrArg Nat.succ h.totalItems).trans hperm.length_eq.symm
  · simp [Smoother.addItem, h.qFreeCount]
  · exact h.qBusyCount

theorem Owns.growItem {ctx : Context} {out : List ℕ} (h : Owns ctx out) :
    Owns (growItem ctx) out :=
  ⟨h.addItem.nodup, h.addItem.lt_totalItems, h.addItem.totalItems, h.addItem.qFreeCount,
    h.addItem.qBusyCount⟩

theorem Owns.allocItem {ctx : Context} {out : List ℕ} (h : Owns ctx out) :
    Owns (allocItem ctx) out :=
  ⟨h.addItem.nodup, h.addItem.lt_totalItems, h.addItem.totalItems, h.addItem.qFreeCount,
    h.addItem.qBusyCount⟩

theorem owns_emptyContext (outputCb : Bool) (itemLengthBytes : ℕ) (latencyMS : ℤ) :
    Owns (emptyContext outputCb itemLengthBytes latencyMS) [] :=
  ⟨List.nodup_nil, by simp [emptyContext], rfl, rfl, rfl⟩

/-- The first critical section may grow the free list, and takes its first item. -/
theorem takeItem_cases {ctx ctx' : Context} {e : ℕ} (h : takeItem ctx = some (e, ctx')) :
    ∃ n rest, (growItem^[n] ctx).itemsFree = e :: rest ∧
      ctx' = { growItem^[n] ctx with
        itemsFree := rest, qFreeCount := (growItem^[n] ctx).qFreeCount - 1 } := by
  obtain ⟨n, hn⟩ : ∃ n, (if ctx.blockingWrites = false ∧ ctx.itemsFree = [] then
      growItem^[64] ctx else ctx) = growItem^[n] ctx := by
    split_ifs
    · exact ⟨64, rfl⟩
    · exact ⟨0, rfl⟩
  unfold takeItem at h
  rw [hn] at h
  cases hfree : (growItem^[n] ctx).itemsFree with
  | nil => simp [hfree] at h
  | cons x rest =>
      simp only [hfree, Option.some.injEq, Prod.mk.injEq] at h
      obtain ⟨rfl, rfl⟩ := h
      exact ⟨n, rest, hfree, rfl⟩

theorem Owns.takeItem {ctx ctx' : Context} {out : List ℕ} {e : ℕ} (h : Owns ctx out)
    (htake : takeItem ctx = some (e, ctx')) : Owns ctx' (e :: out) := by
  obtain ⟨n, rest, hfree, rfl⟩ := takeItem_cases htake
  have hg : Owns (Smoother.growItem^[n] ctx) out :=
    Function.Iterate.rec (fun c ↦ Owns c out) h (fun _ hc ↦ hc.growItem) n
  refine hg.of_perm ?_ rfl ?_ hg.qBusyCount
  · rw [hfree, List.cons_append]
    exact (List.perm_middle.append_left rest).trans List.perm_middle
  · simp [hg.qFreeCount, hfree]

theorem Owns.queueItem {ctx : Context} {out : List ℕ} {e : ℕ} (h : Owns ctx (e :: out)) :
    Owns (queueItem ctx e) out := by
  refine h.of_perm ?_ rfl h.qFreeCount ?_
  · simp [Smoother.queueItem]
  · simp [Smoother.queueItem, h.qBusyCount]

theorem Owns.makeloc {ctx : Context} {out : List ℕ} (h : Owns ctx out) (uS : ℕ) :
    Owns (queueProcessMakeloc ctx uS).2 ((queueProcessMakeloc ctx uS).1 ++ out) := by
  refine h.of_perm ?_ rfl h.qFreeCount ?_
  · refine List.Perm.append_left _ ?_
    rw [← List.append_assoc]
    exact (List.perm_append_comm.trans (List.Perm.of_eq (makeloc_append ctx uS))).append_right out
  · have hlen := congrArg List.length (makeloc_append ctx uS)
    rw [List.length_append] at hlen
    simp only [queueProcessMakeloc, h.qBusyCount] at hlen ⊢
    omega

theorem Owns.releaseItem {ctx : Context} {out : List ℕ} {e : ℕ} (h : Owns ctx (e :: out)) :
    Owns (releaseItem ctx e) out := by
  refine h.of_perm ?_ rfl ?_ h.qBusyCount
  · simp only [Smoother.releaseItem, List.append_assoc, List.singleton_append]
    exact List.Perm.append_left _ List.perm_middle.symm
  · simp [Smoother.releaseItem, h.qFreeCount]

theorem Owns.releaseItems {out : List ℕ} (es : List ℕ) :
    ∀ {ctx : Context}, Owns ctx (es ++ out) → Owns (releaseItems ctx es) out := by
  induction es with
  | nil => exact fun h ↦ h
  | cons e rest ih => exact fun h ↦ ih h.releaseItem

theorem Owns.reset {ctx : Context} {out : List ℕ} (h : Owns ctx out) :
    Owns (smootherPcrReset ctx) out := by
  apply Owns.releaseItems
  refine h.of_perm ?_ rfl h.qFreeCount ?_
  · simp
  · simp [h.qBusyCount]

def State.out (s : State) : List ℕ := s.writer.held ++ s.output.loclist

theorem owns_step {s s' : State} {i : Event} (h : Owns s.ctx s.out) (hm : Moves s i s') :
    Owns s'.ctx s'.out := by
  cases hm with
  | take hidle htake =>
      simp only [State.out, hidle, Writer.held, List.nil_append] at h ⊢
      exact h.takeItem htake
  | fill htaken =>
      simp only [State.out, htaken, Writer.held] at h ⊢
      exact ⟨h.nodup, h.lt_totalItems, h.totalItems, h.qFreeCount, h.qBusyCount⟩
  | queue hfilled =>
      simp only [State.out, hfilled, Writer.held] at h ⊢
      exact h.queueItem
  | settle hidle => exact ⟨h.nodup, h.lt_totalItems, h.totalItems, h.qFreeCount, h.qBusyCount⟩
  | @makeloc uS hwaiting =>
      simp only [State.out, hwaiting, Output.loclist, List.append_nil] at h
      simp only [State.out, Output.loclist_begin]
      exact (h.makeloc uS).perm_out List.perm_append_comm
  | callback hserving hcb =>
      simpa only [State.out, hserving, Output.loclist] using h
  | account hserving =>
      simp only [State.out, hserving, Output.loclist, List.append_assoc, List.singleton_append]
        at h ⊢
      exact ⟨h.nodup, h.lt_totalItems, h.totalItems, h.qFreeCount, h.qBusyCount⟩
  | release hserving hdone =>
      simp only [State.out, hserving, Output.loclist] at h ⊢
      rw [List.append_nil]
      exact Owns.releaseItems _ (h.perm_out List.perm_append_comm)
  | reset => exact h.reset
  | setBlockingWrites => exact ⟨h.nodup, h.lt_totalItems, h.totalItems, h.qFreeCount, h.qBusyCount⟩

/-! ## What other items see -/

/-- From `ctx` to `ctx'` the queue and the items that exist stay. -/
structure SameQueue (ctx ctx' : Context) : Prop where
  itemsBusy : ctx'.itemsBusy = ctx.itemsBusy
  totalUserBytes : ctx'.totalUserBytes = ctx.totalUserBytes
  seqno : ctx'.seqno = ctx.seqno
  outputCb : ctx'.outputCb = ctx.outputCb
  blockingWrites : ctx'.blockingWrites = ctx.blockingWrites
  totalItems : ctx.totalItems ≤ ctx'.totalItems
  items : ∀ x < ctx.totalItems, ctx'.items x = ctx.items x

theorem SameQueue.refl (ctx : Context) : SameQueue ctx ctx :=
  ⟨rfl, rfl, rfl, rfl, rfl, le_rfl, fun _ _ ↦ rfl⟩

theorem SameQueue.growItem {ctx ctx' : Context} (h : SameQueue ctx ctx') :
    SameQueue ctx (growItem ctx') where
  itemsBusy := h.itemsBusy
  totalUserBytes := h.totalUserBytes
  seqno := h.seqno
  outputCb := h.outputCb
  blockingWrites := h.blockingWrites
  totalItems := h.totalItems.trans (Nat.le_succ _)
  items := fun x hx ↦
    (Function.update_of_ne (hx.trans_le h.totalItems).ne _ _).trans (h.items x hx)

theorem sameQueue_takeItem {ctx ctx' : Context} {e : ℕ}
    (htake : takeItem ctx = some (e, ctx')) : SameQueue ctx ctx' := by
  obtain ⟨n, rest, -, rfl⟩ := takeItem_cases htake
  have hg : SameQueue ctx (growItem^[n] ctx) :=
    Function.Iterate.rec (fun c ↦ SameQueue ctx c) (.refl ctx) (fun _ hc ↦ hc.growItem) n
  exact ⟨hg.itemsBusy, hg.totalUserBytes, hg.seqno, hg.outputCb, hg.blockingWrites,
    hg.totalItems, hg.items⟩

theorem itemsFree_iterate_growItem {n : ℕ} (ctx : Context) (hn : 0 < n) :
    (growItem^[n] ctx).itemsFree ≠ [] := by
  obtain ⟨m, rfl⟩ : ∃ m, n = m + 1 := ⟨n - 1, by omega⟩
  rw [Function.iterate_succ_apply']
  simp [growItem, addItem]

/-- A writer that does not block always finds an item. -/
theorem takeItem_isSome {ctx : Context} (h : ctx.blockingWrites = false) :
    ∃ r, takeItem ctx = some r := by
  unfold takeItem
  cases hfree : ctx.itemsFree with
  | nil =>
      simp only [h, true_and, if_true]
      have hgrown := itemsFree_iterate_growItem ctx (show 0 < 64 by norm_num)
      cases hg : (growItem^[64] ctx).itemsFree with
      | nil => exact absurd hg hgrown
      | cons e rest => exact ⟨_, rfl⟩
  | cons e rest =>
      simp only [reduceCtorEq, and_false, if_false, hfree]
      exact ⟨_, rfl⟩

/-- Items that go back to the free list leave the queue and all other items alone. -/
theorem releaseItems_frame (es : List ℕ) : ∀ ctx : Context,
    (releaseItems ctx es).itemsBusy = ctx.itemsBusy ∧
    (releaseItems ctx es).totalUserBytes = ctx.totalUserBytes ∧
    (releaseItems ctx es).seqno = ctx.seqno ∧
    (releaseItems ctx es).outputCb = ctx.outputCb ∧
    ∀ x ∉ es, (releaseItems ctx es).items x = ctx.items x := by
  induction es with
  | nil => exact fun _ ↦ ⟨rfl, rfl, rfl, rfl, fun _ _ ↦ rfl⟩
  | cons e rest ih =>
      intro ctx
      obtain ⟨hbusy, hbytes, hseqno, hcb, hitems⟩ := ih (releaseItem ctx e)
      refine ⟨hbusy, hbytes, hseqno, hcb, fun x hx ↦ ?_⟩
      rw [List.mem_cons, not_or] at hx
      exact (hitems x hx.2).trans (Function.update_of_ne hx.1 _ _)

theorem Output.undelivered_subset (o : Output) : o.undelivered ⊆ o.loclist := by
  cases o with
  | waiting => exact List.Subset.refl _
  | serving served pending called =>
      cases called with
      | true =>
          exact fun x hx ↦ List.mem_append_right served (List.mem_of_mem_tail hx)
      | false => exact List.subset_append_right served pending

/-! ## The order of delivery -/

def content (ctx : Context) (e : ℕ) : List UInt8 × ℕ :=
  ((ctx.items e).bytes, (ctx.items e).seqno)

/-- Delivered, in flight and queued items are, in order, all that was written. -/
structure Ordered (s : State) : Prop where
  outputCb : s.ctx.outputCb = true
  seqno : s.ctx.seqno = s.written.length
  chain : s.delivered.map (fun d ↦ (d.bytes, d.seqno)) ++
    (s.output.undelivered ++ s.ctx.itemsBusy).map (content s.ctx) = s.written.zipIdx
  filled : ∀ e call, s.writer = .filled e call → (s.ctx.items e).bytes = call.buf

/-- Queued items and items in flight are not the writer's, and exist. -/
theorem not_held {s : State} (h : Owns s.ctx s.out) {x : ℕ}
    (hx : x ∈ s.output.loclist ++ s.ctx.itemsBusy) :
    x < s.ctx.totalItems ∧ x ∉ s.writer.held := by
  have hnodup := (List.nodup_append'.mp h.nodup).2.1
  rw [State.out, List.nodup_append', List.nodup_append'] at hnodup
  obtain ⟨-, ⟨-, -, hloc⟩, hbusy⟩ := hnodup
  rcases List.mem_append.mp hx with hx | hx
  · exact ⟨h.lt_totalItems x (by simp [State.out, hx]), fun hheld ↦ hloc hheld hx⟩
  · exact ⟨h.lt_totalItems x (by simp [hx]), fun hheld ↦ hbusy hx (by simp [hheld])⟩

theorem mem_held_of_taken {w : Writer} {e : ℕ} {call : Write2} (h : w = .taken e call) :
    e ∈ w.held := by
  rw [h]
  exact List.mem_singleton_self e

theorem mem_held_of_filled {w : Writer} {e : ℕ} {call : Write2} (h : w = .filled e call) :
    e ∈ w.held := by
  rw [h]
  exact List.mem_singleton_self e

/-- The writer's item is neither queued nor in flight. -/
theorem ne_of_held {s : State} (h : Owns s.ctx s.out) {x e : ℕ}
    (hx : x ∈ s.output.loclist ++ s.ctx.itemsBusy) (he : e ∈ s.writer.held) : x ≠ e := by
  rintro rfl
  exact (not_held h hx).2 he

theorem filled_not_in_loclist {s : State} (h : Owns s.ctx s.out) {e : ℕ} {call : Write2}
    (hfilled : s.writer = .filled e call) : e ∉ s.output.loclist := by
  intro hmem
  exact ne_of_held h (List.mem_append_left _ hmem) (mem_held_of_filled hfilled) rfl

theorem not_in_loclist {s : State} (h : Owns s.ctx s.out) {x : ℕ} (hx : x ∈ s.ctx.itemsBusy) :
    x ∉ s.output.loclist := by
  have hnodup := (List.nodup_append'.mp h.nodup).2.1
  exact fun hloc ↦ (List.nodup_append'.mp hnodup).2.2 hx (by simp [State.out, hloc])

theorem Item.bytes_fillBuffer (item : Item) (call : Write2) (now : ℕ) :
    (fillBuffer item call now).bytes = call.buf := by
  simp [Item.bytes, fillBuffer]

theorem mem_loclist_of_undelivered {s : State} {x : ℕ}
    (hx : x ∈ s.output.undelivered ++ s.ctx.itemsBusy) :
    x ∈ s.output.loclist ++ s.ctx.itemsBusy := by
  rcases List.mem_append.mp hx with hx | hx
  · exact List.mem_append_left _ (s.output.undelivered_subset hx)
  · exact List.mem_append_right _ hx

/-- The chain only reads the items of the queue and those in flight. -/
theorem map_content_congr {ctx ctx' : Context} {es : List ℕ}
    (h : ∀ x ∈ es, ctx'.items x = ctx.items x) : es.map (content ctx') = es.map (content ctx) :=
  List.map_congr_left fun x hx ↦ by rw [content, content, h x hx]

theorem ordered_step {s s' : State} {i : Event} (how : Owns s.ctx s.out) (h : Ordered s)
    (hm : Moves s i s') (hi : i ≠ .reset) : Ordered s' := by
  have hchain := h.chain
  cases hm with
  | take hidle htake =>
      have hsame := sameQueue_takeItem htake
      refine ⟨hsame.outputCb.trans h.outputCb, hsame.seqno.trans h.seqno, ?_, by simp⟩
      simp only [hsame.itemsBusy]
      rw [map_content_congr fun x hx ↦
        hsame.items x (not_held how (mem_loclist_of_undelivered hx)).1]
      exact hchain
  | @fill now e call htaken =>
      refine ⟨h.outputCb, h.seqno, ?_, ?_⟩
      · rw [← hchain]
        congr 1
        apply map_content_congr
        intro x hx
        exact Function.update_of_ne
          (ne_of_held how (mem_loclist_of_undelivered hx) (mem_held_of_taken htaken)) _ _
      · intro e' call' heq
        cases heq
        simp only [fillItem, Function.update_self]
        exact Item.bytes_fillBuffer _ call now
  | @queue e call hfilled =>
      have hne : ∀ x ∈ s.output.undelivered ++ s.ctx.itemsBusy, x ≠ e := fun x hx ↦
        ne_of_held how (mem_loclist_of_undelivered hx) (mem_held_of_filled hfilled)
      have hnew : content (queueItem s.ctx e) e = (call.buf, s.written.length) := by
        rw [content, ← h.filled e call hfilled, ← h.seqno]
        simp [queueItem, Item.bytes]
      refine ⟨h.outputCb, by simp [queueItem, h.seqno], ?_, by simp⟩
      simp only [queueItem] at hnew ⊢
      have hheld : (s.output.undelivered ++ s.ctx.itemsBusy).map (content (queueItem s.ctx e)) =
          (s.output.undelivered ++ s.ctx.itemsBusy).map (content s.ctx) :=
        map_content_congr fun x hx ↦ Function.update_of_ne (hne x hx) _ _
      simp only [queueItem] at hheld
      rw [← List.append_assoc s.output.undelivered, List.map_append, ← List.append_assoc, hheld,
        hchain, List.map_singleton, hnew, List.zipIdx_append]
      simp
  | settle hidle => exact ⟨h.outputCb, h.seqno, hchain, h.filled⟩
  | @makeloc uS hwaiting =>
      refine ⟨h.outputCb, h.seqno, ?_, h.filled⟩
      rw [← hchain, hwaiting]
      congr 2
      rw [Output.undelivered_begin]
      exact makeloc_append s.ctx uS
  | @callback served rest e hserving hcb =>
      refine ⟨h.outputCb, h.seqno, ?_, h.filled⟩
      rw [← hchain, hserving]
      simp [Output.undelivered, deliver, content]
  | account hserving =>
      refine ⟨h.outputCb, h.seqno, ?_, h.filled⟩
      rw [← hchain, hserving]
      rfl
  | @release served pending hserving hdone =>
      have hpending : pending = [] := by
        rcases hdone with hnil | hnone
        · exact hnil
        · rw [h.outputCb] at hnone
          cases hnone
      obtain ⟨hbusy, -, hseqno, hcb, hitems⟩ := releaseItems_frame (served ++ pending) s.ctx
      have hloc : s.output.loclist = served ++ pending := by rw [hserving, Output.loclist]
      refine ⟨hcb.trans h.outputCb, hseqno.trans h.seqno, ?_, fun e call hfilled ↦ ?_⟩
      · simp only [hbusy]
        rw [← hchain, hserving, map_content_congr fun x hx ↦ hitems x
          (hloc ▸ not_in_loclist how (by simpa [Output.undelivered] using hx))]
        simp [Output.undelivered, hpending]
      · rw [hitems e (hloc ▸ filled_not_in_loclist how hfilled)]
        exact h.filled e call hfilled
  | reset => exact absurd rfl hi
  | setBlockingWrites => exact ⟨h.outputCb, h.seqno, hchain, h.filled⟩

theorem alloc_spec {outputCb : Bool} {itemsPerSecond latencyMS : ℤ} {itemLengthBytes pcrPID : ℕ}
    {ctx : Context}
    (h : smootherPcrAlloc outputCb itemsPerSecond itemLengthBytes pcrPID latencyMS = some ctx) :
    Owns ctx [] ∧ ctx.itemsBusy = [] ∧ ctx.seqno = 0 ∧ ctx.totalUserBytes = 0 ∧
      ctx.outputCb = outputCb ∧ ctx.blockingWrites = false ∧ ctx.pcrFirst = -1 ∧
      ctx.pcrIntervalPerPacketTicksLast = 0 ∧
      ctx.latencyuS = (latencyMS * 1000).bmod (2 ^ 32) := by
  unfold smootherPcrAlloc at h
  split_ifs at h
  cases h
  apply Function.Iterate.rec (fun c : Context ↦ Owns c [] ∧ c.itemsBusy = [] ∧ c.seqno = 0 ∧
    c.totalUserBytes = 0 ∧ c.outputCb = outputCb ∧ c.blockingWrites = false ∧ c.pcrFirst = -1 ∧
    c.pcrIntervalPerPacketTicksLast = 0 ∧ c.latencyuS = (latencyMS * 1000).bmod (2 ^ 32))
  · exact ⟨owns_emptyContext _ _ _, rfl, rfl, rfl, rfl, rfl, rfl, rfl, rfl⟩
  · rintro c ⟨how, hfields⟩
    exact ⟨how.allocItem, hfields⟩

/-- Both invariants hold in every state of a run without a reset. -/
theorem ordered_of_reachable {itemsPerSecond latencyMS : ℤ} {itemLengthBytes pcrPID : ℕ}
    {ctx : Context} {s : State}
    (halloc : smootherPcrAlloc true itemsPerSecond itemLengthBytes pcrPID latencyMS = some ctx)
    (hs : Reachable step (fun _ i ↦ i ≠ .reset) (start ctx) s) :
    Owns s.ctx s.out ∧ Ordered s := by
  obtain ⟨how₀, hbusy₀, hseqno₀, -, hcb₀, -⟩ := alloc_spec halloc
  refine hs.invariant (P := fun s ↦ Owns s.ctx s.out ∧ Ordered s) ⟨how₀, ?_⟩ ?_
  · exact ⟨hcb₀, hseqno₀, by simp [start, Output.undelivered, hbusy₀], by simp [start]⟩
  · rintro s s' i out ⟨how, h⟩ hi hstep
    have hm := moves_of_step hstep
    exact ⟨owns_step how hm, ordered_step how h hm hi⟩

/-- All items queued so far, in the order of their numbers: those delivered, those
in flight and those on the busy list. -/
def State.queued (s : State) : List (List UInt8) :=
  s.delivered.map Delivery.bytes ++
    (s.output.undelivered ++ s.ctx.itemsBusy).map fun e ↦ (s.ctx.items e).bytes

theorem Ordered.queued_eq {s : State} (h : Ordered s) : s.queued = s.written := by
  have hbytes := congrArg (List.map Prod.fst) h.chain
  simpa [State.queued, content, Function.comp_def, List.zipIdx_map_fst] using hbytes

theorem Ordered.map_seqno {s : State} (h : Ordered s) :
    s.delivered.map Delivery.seqno = List.range s.delivered.length := by
  have hnumbers := congrArg (List.map Prod.snd) h.chain
  rw [List.zipIdx_map_snd, List.map_append] at hnumbers
  have htake := congrArg (List.take s.delivered.length) hnumbers
  rw [List.take_left' (by simp), List.map_map] at htake
  refine htake.trans ?_
  have hlen := congrArg List.length hnumbers
  simp only [List.length_append, List.length_map, List.length_range'] at hlen
  rw [List.take_range'_of_length_ge (by omega), List.range_eq_range']

/-- Without a reset the callback sees the buffers that were written, each once and
in order, with the numbers from zero on; what it has not seen is in flight or
queued; no item is at two places; and the items are counted. -/
theorem delivers_in_order {itemsPerSecond latencyMS : ℤ} {itemLengthBytes pcrPID : ℕ}
    {ctx : Context} {s : State}
    (halloc : smootherPcrAlloc true itemsPerSecond itemLengthBytes pcrPID latencyMS = some ctx)
    (hs : Reachable step (fun _ i ↦ i ≠ .reset) (start ctx) s) :
    s.delivered.map Delivery.seqno = List.range s.delivered.length ∧
      s.delivered.map Delivery.bytes ++ (s.output.undelivered ++ s.ctx.itemsBusy).map
        (fun e ↦ (s.ctx.items e).bytes) = s.written ∧
      (s.ctx.itemsFree ++ (s.ctx.itemsBusy ++ (s.writer.held ++ s.output.loclist))).Nodup ∧
      s.ctx.totalItems = s.ctx.qFreeCount + s.ctx.qBusyCount + s.writer.held.length +
        s.output.loclist.length := by
  obtain ⟨how, h⟩ := ordered_of_reachable halloc hs
  refine ⟨h.map_seqno, h.queued_eq, how.nodup, ?_⟩
  have htotal := how.totalItems
  simp only [State.out, List.length_append] at htotal
  rw [how.qFreeCount, how.qBusyCount, htotal]
  ring

/-- A run of two buffers: the second is written while the first is delivered. -/
def twoBuffers : List Event :=
  [.take ⟨[0x47, 1], 27000, 0, 0⟩, .fill 1000000, .queue, .take ⟨[0x47, 2, 3], 54000, 0, 0⟩,
    .makeloc 2000000, .callback, .fill 1000100, .account, .queue, .release, .makeloc 3000000,
    .callback, .account, .release]

theorem delivers_two_buffers :
    ∃ ctx s, smootherPcrAlloc true 2 (7 * 188) 0x31 100 = some ctx ∧
      Reachable step (fun _ i ↦ i ≠ .reset) (start ctx) s ∧
      s.delivered.map Delivery.seqno = [0, 1] ∧ s.written = [[0x47, 1], [0x47, 2, 3]] ∧
      s.delivered.map Delivery.bytes ++ (s.output.undelivered ++ s.ctx.itemsBusy).map
        (fun e ↦ (s.ctx.items e).bytes) = s.written := by
  have halloc : smootherPcrAlloc true 2 (7 * 188) 0x31 100 =
      some (allocItem (allocItem (emptyContext true (7 * 188) 100))) := rfl
  obtain ⟨s, hrun⟩ : ∃ s, run step
      (start (allocItem (allocItem (emptyContext true (7 * 188) 100)))) twoBuffers = some s :=
    ⟨_, rfl⟩
  have hs : Reachable step (fun _ i ↦ i ≠ .reset)
      (start (allocItem (allocItem (emptyContext true (7 * 188) 100)))) s := by
    refine Reachable.of_run (fun i hi _ ↦ ?_) .init hrun
    revert hi
    revert i
    decide
  have hends : (run step (start (allocItem (allocItem (emptyContext true (7 * 188) 100))))
      twoBuffers).map (fun s ↦ (s.delivered.length, s.written)) =
        some (2, [[0x47, 1], [0x47, 2, 3]]) := rfl
  rw [hrun, Option.map_some, Option.some.injEq, Prod.mk.injEq] at hends
  obtain ⟨hseqno, hbytes, -, -⟩ := delivers_in_order halloc hs
  rw [hends.1] at hseqno
  exact ⟨_, s, halloc, hs, hseqno, hends.2, hbytes⟩

end LtnTsTools.Smoother
