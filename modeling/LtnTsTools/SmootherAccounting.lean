import LtnTsTools.SmootherDelivery

/-!
# The byte count of the smoother

`totalUserBytes` is raised by the writer, lowered item by item by the output
thread, and zeroed by `smoother_pcr_reset`.  The output thread lowers it for items
it took before the reset as well, so the count is that of the queue in every
state of a run exactly when no reset finds bytes in flight.
-/

namespace LtnTsTools.Smoother

open PartialMachine

def bytesHeld (ctx : Context) (es : List ℕ) : ℕ := (es.map fun e ↦ (ctx.items e).lengthBytes).sum

@[simp] theorem bytesHeld_nil (ctx : Context) : bytesHeld ctx [] = 0 := rfl

@[simp] theorem bytesHeld_cons (ctx : Context) (e : ℕ) (es : List ℕ) :
    bytesHeld ctx (e :: es) = (ctx.items e).lengthBytes + bytesHeld ctx es := by
  simp [bytesHeld]

@[simp] theorem bytesHeld_append (ctx : Context) (es es' : List ℕ) :
    bytesHeld ctx (es ++ es') = bytesHeld ctx es + bytesHeld ctx es' := by
  simp [bytesHeld]

theorem bytesHeld_congr {ctx ctx' : Context} {es : List ℕ}
    (h : ∀ x ∈ es, ctx'.items x = ctx.items x) : bytesHeld ctx' es = bytesHeld ctx es := by
  unfold bytesHeld
  rw [List.map_congr_left fun x hx ↦ by rw [h x hx]]

/-! ## One critical section -/

def Balanced (ctx : Context) (flight : List ℕ) : Prop :=
  ctx.totalUserBytes = bytesHeld ctx (ctx.itemsBusy ++ flight)

theorem Balanced.frame {ctx ctx' : Context} {flight : List ℕ} (h : Balanced ctx flight)
    (htotal : ctx'.totalUserBytes = ctx.totalUserBytes) (hbusy : ctx'.itemsBusy = ctx.itemsBusy)
    (hitems : ∀ x ∈ ctx.itemsBusy ++ flight, ctx'.items x = ctx.items x) :
    Balanced ctx' flight := by
  unfold Balanced
  rw [htotal, hbusy, bytesHeld_congr hitems]
  exact h

theorem Balanced.queueItem {ctx : Context} {flight : List ℕ} {e : ℕ} (h : Balanced ctx flight)
    (hne : ∀ x ∈ ctx.itemsBusy ++ flight, x ≠ e) : Balanced (queueItem ctx e) flight := by
  have hkeep : bytesHeld (Smoother.queueItem ctx e) (ctx.itemsBusy ++ flight) =
      bytesHeld ctx (ctx.itemsBusy ++ flight) :=
    bytesHeld_congr fun x hx ↦ Function.update_of_ne (hne x hx) _ _
  have hnew : ((Smoother.queueItem ctx e).items e).lengthBytes = (ctx.items e).lengthBytes := by
    simp [Smoother.queueItem]
  have hbusy : (Smoother.queueItem ctx e).itemsBusy = ctx.itemsBusy ++ [e] := rfl
  have htotal : (Smoother.queueItem ctx e).totalUserBytes =
      ctx.totalUserBytes + (ctx.items e).lengthBytes := rfl
  unfold Balanced at h ⊢
  rw [bytesHeld_append] at hkeep
  calc (Smoother.queueItem ctx e).totalUserBytes
      _ = (bytesHeld (Smoother.queueItem ctx e) ctx.itemsBusy : ℤ) +
          bytesHeld (Smoother.queueItem ctx e) flight + (ctx.items e).lengthBytes := by
        rw [htotal, h, ← hkeep]
        push_cast
        ring
      _ = bytesHeld (Smoother.queueItem ctx e)
          ((Smoother.queueItem ctx e).itemsBusy ++ flight) := by
        rw [hbusy, bytesHeld_append, bytesHeld_append, bytesHeld_cons, bytesHeld_nil, hnew]
        push_cast
        ring

theorem Balanced.makeloc {ctx : Context} (h : Balanced ctx []) (uS : ℕ) :
    Balanced (queueProcessMakeloc ctx uS).2 (queueProcessMakeloc ctx uS).1 := by
  have hsplit := congrArg (bytesHeld ctx) (makeloc_append ctx uS)
  have hitems : ∀ es, bytesHeld (queueProcessMakeloc ctx uS).2 es = bytesHeld ctx es := fun _ ↦ rfl
  have htotal : (queueProcessMakeloc ctx uS).2.totalUserBytes = ctx.totalUserBytes := rfl
  unfold Balanced at h ⊢
  rw [List.append_nil, ← hsplit] at h
  rw [htotal, h, hitems, bytesHeld_append, bytesHeld_append, Nat.add_comm]

theorem Balanced.accountItem {ctx : Context} {rest : List ℕ} {e : ℕ}
    (h : Balanced ctx (e :: rest)) : Balanced (accountItem ctx e) rest := by
  have hitems : ∀ es, bytesHeld (Smoother.accountItem ctx e) es = bytesHeld ctx es := fun _ ↦ rfl
  unfold Balanced at h ⊢
  rw [hitems, bytesHeld_append]
  rw [bytesHeld_append, bytesHeld_cons] at h
  simp only [Smoother.accountItem, h]
  push_cast
  ring

/-- A reset leaves the bytes in flight uncounted. -/
theorem balanced_reset_iff {ctx : Context} {flight out : List ℕ} (how : Owns ctx out)
    (hflight : flight ⊆ out) :
    Balanced (smootherPcrReset ctx) flight ↔ bytesHeld ctx flight = 0 := by
  have hdisjoint := (List.nodup_append'.mp (List.nodup_append'.mp how.nodup).2.1).2.2
  obtain ⟨hbusy, htotal, -, -, hitems⟩ := releaseItems_frame ctx.itemsBusy
    { ctx with
      walltimeFirstPCRuS := 0
      pcrFirst := -1
      totalUserBytes := 0
      itemsBusy := []
      qBusyCount := ctx.qBusyCount - ctx.itemsBusy.length }
  have hheld : bytesHeld (smootherPcrReset ctx) flight = bytesHeld ctx flight :=
    bytesHeld_congr fun x hx ↦ hitems x fun hmem ↦ hdisjoint hmem (hflight hx)
  unfold Balanced
  rw [smootherPcrReset] at hheld ⊢
  rw [hbusy, htotal, List.nil_append, hheld]
  simp only
  omega

/-! ## Whole runs -/

/-- The items that the output thread has to account are in its private list. -/
theorem Output.unaccounted_subset (o : Output) : o.unaccounted ⊆ o.loclist := by
  cases o with
  | waiting => exact List.Subset.refl _
  | serving served pending called => exact List.subset_append_right served pending

theorem unaccounted_subset_out (s : State) : s.output.unaccounted ⊆ s.out :=
  fun _ hx ↦ List.mem_append_right _ (s.output.unaccounted_subset hx)

theorem mem_loclist_of_counted {s : State} {x : ℕ}
    (hx : x ∈ s.ctx.itemsBusy ++ s.output.unaccounted) :
    x ∈ s.output.loclist ++ s.ctx.itemsBusy := by
  rcases List.mem_append.mp hx with hx | hx
  · exact List.mem_append_right _ hx
  · exact List.mem_append_left _ (s.output.unaccounted_subset hx)

theorem balanced_step {s s' : State} {i : Event} (how : Owns s.ctx s.out)
    (hcb : s.ctx.outputCb = true) (h : Balanced s.ctx s.output.unaccounted)
    (hm : Moves s i s') (hi : i ≠ .reset) : Balanced s'.ctx s'.output.unaccounted := by
  cases hm with
  | take hidle htake =>
      have hsame := sameQueue_takeItem htake
      exact h.frame hsame.totalUserBytes hsame.itemsBusy
        fun x hx ↦ hsame.items x (not_held how (mem_loclist_of_counted hx)).1
  | @fill now e call htaken =>
      refine h.frame rfl rfl fun x hx ↦ Function.update_of_ne ?_ _ _
      exact ne_of_held how (mem_loclist_of_counted hx) (mem_held_of_taken htaken)
  | @queue e call hfilled =>
      refine h.queueItem fun x hx ↦ ?_
      exact ne_of_held how (mem_loclist_of_counted hx) (mem_held_of_filled hfilled)
  | settle hidle => exact h
  | @makeloc uS hwaiting =>
      rw [hwaiting] at h
      simp only [Output.unaccounted_begin]
      exact h.makeloc uS
  | callback hserving hcb =>
      rw [hserving] at h
      exact h
  | @account served rest e hserving =>
      rw [hserving] at h
      exact h.accountItem
  | @release served pending hserving hdone =>
      have hpending : pending = [] := by
        rcases hdone with hnil | hnone
        · exact hnil
        · rw [hcb] at hnone
          cases hnone
      obtain ⟨hbusy, htotal, -, -, hitems⟩ := releaseItems_frame (served ++ pending) s.ctx
      rw [hserving, hpending] at h
      refine h.frame htotal hbusy fun x hx ↦ hitems x ?_
      rw [← Output.loclist.eq_2 served pending false, ← hserving]
      exact not_in_loclist how (by simpa [Output.unaccounted] using hx)
  | reset => exact absurd rfl hi
  | setBlockingWrites => exact h

theorem outputCb_step {s s' : State} {i : Event} (hm : Moves s i s') :
    s'.ctx.outputCb = s.ctx.outputCb := by
  cases hm with
  | take hidle htake => exact (sameQueue_takeItem htake).outputCb
  | release hserving hdone => exact (releaseItems_frame _ s.ctx).2.2.2.1
  | reset => exact (releaseItems_frame _ _).2.2.2.1
  | _ => rfl

/-- The bytes on the busy list and of the items in flight that are not accounted. -/
def bytesQueued (s : State) : ℕ := bytesHeld s.ctx (s.ctx.itemsBusy ++ s.output.unaccounted)

/-- The count is that of the queue, and `smoother_pcr_get_size` returns it. -/
def Accounted (s : State) : Prop :=
  s.ctx.totalUserBytes = bytesQueued s ∧ 0 ≤ s.ctx.totalUserBytes ∧
    smootherPcrGetSize s.ctx = bytesQueued s

theorem accounted_iff (s : State) : Accounted s ↔ Balanced s.ctx s.output.unaccounted := by
  refine ⟨fun h ↦ h.1, fun h ↦ ?_⟩
  have hcount : s.ctx.totalUserBytes = bytesQueued s := h
  refine ⟨hcount, by omega, ?_⟩
  unfold smootherPcrGetSize
  split_ifs <;> omega

/-- The step is possible, and a reset finds no bytes in flight. -/
def NothingInFlight (s : State) (i : Event) : Prop :=
  (step s i).isSome ∧ (i = .reset → bytesHeld s.ctx s.output.unaccounted = 0)

instance (s : State) (i : Event) : Decidable (NothingInFlight s i) :=
  inferInstanceAs (Decidable (_ ∧ (_ → _)))

theorem accounted_step_iff {s : State} {i : Event} (how : Owns s.ctx s.out)
    (hcb : s.ctx.outputCb = true) (h : Balanced s.ctx s.output.unaccounted) :
    (∃ r, step s i = some r ∧ Accounted r.1) ↔ NothingInFlight s i := by
  rw [NothingInFlight, Option.isSome_iff_exists]
  by_cases hi : i = .reset
  · subst hi
    simp only [step, Option.some.injEq, exists_eq_left', exists_eq', true_and, forall_const]
    rw [accounted_iff]
    exact balanced_reset_iff how (unaccounted_subset_out s)
  · simp only [hi, IsEmpty.forall_iff, and_true]
    constructor
    · rintro ⟨r, hr, -⟩
      exact ⟨r, hr⟩
    · rintro ⟨r, hr⟩
      exact ⟨r, hr, (accounted_iff _).mpr (balanced_step how hcb h (moves_of_step hr) hi)⟩

/-- In every run of the writer, the output thread and resets the count is that of
the queue in every state exactly when no reset finds bytes in flight. -/
theorem accounting_iff {itemsPerSecond latencyMS : ℤ} {itemLengthBytes pcrPID : ℕ}
    {ctx : Context}
    (halloc : smootherPcrAlloc true itemsPerSecond itemLengthBytes pcrPID latencyMS = some ctx)
    (events : List Event) :
    Safe step (fun _ _ r ↦ Accounted r.1) (start ctx) events ↔
      Meets step NothingInFlight (start ctx) events := by
  obtain ⟨how₀, hbusy₀, -, hbytes₀, hcb₀, -⟩ := alloc_spec halloc
  refine safe_iff_meets (fun s ↦ Owns s.ctx s.out ∧ s.ctx.outputCb = true ∧
    Balanced s.ctx s.output.unaccounted) ?_ ?_ events (start ctx) ⟨how₀, hcb₀, ?_⟩
  · rintro s i r ⟨how, hcb, h⟩ hr hgood
    have hm := moves_of_step hr
    exact ⟨owns_step how hm, (outputCb_step hm).trans hcb, (accounted_iff _).mp hgood⟩
  · rintro s i ⟨how, hcb, h⟩
    exact accounted_step_iff how hcb h
  · simp [start, Balanced, Output.unaccounted, hbusy₀, hbytes₀]

theorem accounting_two_buffers :
    ∃ ctx, smootherPcrAlloc true 2 (7 * 188) 0x31 100 = some ctx ∧
      Safe step (fun _ _ r ↦ Accounted r.1) (start ctx) (twoBuffers ++ [.reset]) := by
  have halloc : smootherPcrAlloc true 2 (7 * 188) 0x31 100 =
      some (allocItem (allocItem (emptyContext true (7 * 188) 100))) := rfl
  exact ⟨_, halloc, (accounting_iff halloc _).mpr (by decide +kernel)⟩

/-- A buffer is taken for output, the application resets, and the output thread
goes on. -/
def resetInFlight : List Event :=
  [.take ⟨[0x47, 1], 27000, 0, 0⟩, .fill 1000000, .queue, .makeloc 2000000, .reset, .callback,
    .account]

theorem reset_in_flight_negative :
    ∃ ctx s, smootherPcrAlloc true 1 (7 * 188) 0x31 100 = some ctx ∧
      run step (start ctx) resetInFlight = some s ∧ s.ctx.totalUserBytes = -2 ∧
      bytesQueued s = 0 :=
  ⟨_, _, rfl, rfl, rfl, rfl⟩

end LtnTsTools.Smoother
