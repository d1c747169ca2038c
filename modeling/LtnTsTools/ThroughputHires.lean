import LtnTsTools.CTypes
import LtnTsTools.EarlyExit

/-!
# High resolution throughput

The items of `throughput_hires.c` on their two lists.  An item is written at the front of the
busy list and expired from any place of it, so while time goes on the busy list is in order of
time, newest first, and a sum over a window may stop at the first item in front of it.  Where
a time stamp is not passed the clock is read; here it is always an argument.
-/

namespace LtnTsTools.ThroughputHires

open EarlyExit

structure Written where
  timestamp : ℕ
  channel : ℕ
  value : ℤ
deriving DecidableEq

/-- `struct throughput_hires_item_s`, at an address of its own. -/
structure Item where
  address : ℕ
  written : Written
deriving DecidableEq

/-- `struct throughput_hires_context_s`, and the number of items allocated. -/
structure Ctx where
  itemsFree : List Item
  itemsBusy : List Item
  allocated : ℕ
deriving DecidableEq

/-- An `int64_t`. -/
def int64 (n : ℤ) : ℤ := n.bmod (2 ^ 64)

/-- `makeTimestampFromTimeval`, a `uint64_t`. -/
def makeTimestampFromTimeval (ts : Timeval) : ℕ :=
  ((ts.sec * 1000000 + ts.usec) % 2 ^ 64).toNat

/-- `count` calls of `itemAlloc`, each appended to the free list. -/
def Ctx.grow (ctx : Ctx) (count : ℕ) : Ctx :=
  { ctx with
    itemsFree := ctx.itemsFree ++ (List.range' ctx.allocated count).map fun a ↦ ⟨a, 0, 0, 0⟩
    allocated := ctx.allocated + count }

/-- `throughput_hires_alloc`. -/
def throughputHiresAlloc (itemsPerSecond : ℤ) : Ctx := (⟨[], [], 0⟩ : Ctx).grow itemsPerSecond.toNat

/-- `throughput_hires_write_i64`. -/
def throughputHiresWrite (ctx : Ctx) (channel : ℕ) (value : ℤ) (ts : Timeval) : Ctx :=
  let ctx := if ctx.itemsFree = [] then ctx.grow 64 else ctx
  match ctx.itemsFree with
  | [] => ctx
  | item :: rest =>
      { ctx with
        itemsFree := rest
        itemsBusy :=
          ⟨item.address, makeTimestampFromTimeval ts, channel, value⟩ :: ctx.itemsBusy }

/-- `throughput_hires_expire`, the loop: the items that stay busy, the free list, and the number
of items expired. -/
def expireLoop (timestamp : ℕ) : List Item → List Item → List Item × List Item × ℕ
  | [], free => ([], free, 0)
  | e :: rest, free =>
      if e.written.timestamp < timestamp then
        let r := expireLoop timestamp rest (free ++ [e])
        (r.1, r.2.1, r.2.2 + 1)
      else
        let r := expireLoop timestamp rest free
        (e :: r.1, r.2)

/-- `throughput_hires_expire`. -/
def throughputHiresExpire (ctx : Ctx) (ts : Timeval) : Ctx × ℕ :=
  let r := expireLoop (makeTimestampFromTimeval ts) ctx.itemsBusy ctx.itemsFree
  ({ ctx with itemsBusy := r.1, itemsFree := r.2.1 }, r.2.2)

def InWindow (channel first last : ℕ) (w : Written) : Prop :=
  w.channel = channel ∧ w.timestamp ≥ first ∧ w.timestamp ≤ last

instance (channel first last : ℕ) : DecidablePred (InWindow channel first last) :=
  fun _ ↦ inferInstanceAs (Decidable (_ ∧ _ ∧ _))

/-- `throughput_hires_sumtotal_i64`, from `start` to `stop`. -/
def throughputHiresSumtotal (ctx : Ctx) (channel : ℕ) (start stop : Timeval) : ℤ :=
  let first := makeTimestampFromTimeval start
  let last := makeTimestampFromTimeval stop
  foldUntil
    (fun total e ↦
      if InWindow channel first last e.written then int64 (total + e.written.value) else total)
    (fun e ↦ e.written.timestamp < first) 0 ctx.itemsBusy

inductive Call
  | write (channel : ℕ) (value : ℤ) (ts : Timeval)
  | expire (ts : Timeval)
deriving DecidableEq

def step (ctx : Ctx) : Call → Ctx
  | .write channel value ts => throughputHiresWrite ctx channel value ts
  | .expire ts => (throughputHiresExpire ctx ts).1

def run (itemsPerSecond : ℤ) (calls : List Call) : Ctx :=
  calls.foldl step (throughputHiresAlloc itemsPerSecond)

/-! ## What the calls mean -/

def Call.written? : Call → Option Written
  | .write channel value ts => some ⟨makeTimestampFromTimeval ts, channel, value⟩
  | .expire _ => none

def Call.bound? : Call → Option ℕ
  | .write _ _ _ => none
  | .expire ts => some (makeTimestampFromTimeval ts)

/-- The writes that no later call has expired, in their order. -/
def unexpired : List Call → List Written
  | [] => []
  | .write channel value ts :: rest =>
      if ∀ bound ∈ rest.filterMap Call.bound?, bound ≤ makeTimestampFromTimeval ts then
        ⟨makeTimestampFromTimeval ts, channel, value⟩ :: unexpired rest
      else unexpired rest
  | .expire _ :: rest => unexpired rest

def Ordered (calls : List Call) : Prop :=
  (calls.filterMap Call.written?).Pairwise fun v w ↦ v.timestamp ≤ w.timestamp

instance (calls : List Call) : Decidable (Ordered calls) :=
  inferInstanceAs (Decidable (List.Pairwise _ _))

/-- Times from the epoch on keep their order. -/
theorem makeTimestampFromTimeval_mono {a b : Timeval} (h : 0 ≤ a.sec * 1000000 + a.usec)
    (hle : a.sec * 1000000 + a.usec ≤ b.sec * 1000000 + b.usec)
    (hlt : b.sec * 1000000 + b.usec < 2 ^ 64) :
    makeTimestampFromTimeval a ≤ makeTimestampFromTimeval b := by
  unfold makeTimestampFromTimeval
  omega

theorem unexpired_write (calls : List Call) (channel : ℕ) (value : ℤ) (ts : Timeval) :
    unexpired (calls ++ [.write channel value ts]) =
      unexpired calls ++ [⟨makeTimestampFromTimeval ts, channel, value⟩] := by
  have hbounds : ∀ rest, (rest ++ [Call.write channel value ts]).filterMap Call.bound? =
      rest.filterMap Call.bound? := by simp [Call.bound?]
  induction calls with
  | nil => simp [unexpired]
  | cons c rest ih =>
      cases c with
      | expire _ => exact ih
      | write _ _ _ =>
          rw [List.cons_append, unexpired, ih, hbounds, unexpired]
          split_ifs <;> rfl

theorem unexpired_expire (calls : List Call) (ts : Timeval) :
    unexpired (calls ++ [.expire ts]) =
      (unexpired calls).filter fun w ↦ makeTimestampFromTimeval ts ≤ w.timestamp := by
  have hbounds : ∀ rest t,
      (∀ bound ∈ (rest ++ [Call.expire ts]).filterMap Call.bound?, bound ≤ t) ↔
        (∀ bound ∈ rest.filterMap Call.bound?, bound ≤ t) ∧ makeTimestampFromTimeval ts ≤ t := by
    intro rest t
    rw [List.filterMap_append, List.forall_mem_append]
    simp [Call.bound?]
  induction calls with
  | nil => rfl
  | cons c rest ih =>
      cases c with
      | expire _ => exact ih
      | write _ _ now =>
          simp only [List.cons_append, unexpired, ih, hbounds]
          by_cases hall : ∀ bound ∈ rest.filterMap Call.bound?, bound ≤ makeTimestampFromTimeval now
          · by_cases hbound : makeTimestampFromTimeval ts ≤ makeTimestampFromTimeval now
            · rw [if_pos ⟨hall, hbound⟩, if_pos hall]
              simp [hbound]
            · rw [if_neg fun h ↦ hbound h.2, if_pos hall]
              simp [hbound]
          · rw [if_neg fun h ↦ hall h.1, if_neg hall]

theorem unexpired_sublist (calls : List Call) :
    (unexpired calls).Sublist (calls.filterMap Call.written?) := by
  induction calls with
  | nil => exact .slnil
  | cons c rest ih =>
      cases c with
      | expire _ => exact ih
      | write _ _ _ =>
          rw [unexpired, List.filterMap_cons]
          split_ifs
          · exact ih.cons_cons _
          · exact ih.cons _

/-! ## The two lists -/

theorem expireLoop_eq (timestamp : ℕ) (busy : List Item) :
    ∀ free, expireLoop timestamp busy free =
      (busy.filter fun e ↦ timestamp ≤ e.written.timestamp,
        free ++ busy.filter fun e ↦ e.written.timestamp < timestamp,
        (busy.filter fun e ↦ e.written.timestamp < timestamp).length) := by
  induction busy with
  | nil => simp [expireLoop]
  | cons e rest ih =>
      intro free
      rw [expireLoop]
      split_ifs with hold
      · simp [ih, hold, not_le.mpr hold]
      · simp [ih, hold, not_lt.mp hold]

/-- What the calls keep: the busy items are the unexpired writes, newest first, and every item
allocated is on one of the lists. -/
structure Kept (itemsPerSecond : ℤ) (calls : List Call) (ctx : Ctx) : Prop where
  busy : ctx.itemsBusy.map Item.written = (unexpired calls).reverse
  items : ((ctx.itemsFree ++ ctx.itemsBusy).map Item.address).Perm (List.range ctx.allocated)
  growth : ∃ k, ctx.allocated = itemsPerSecond.toNat + 64 * k

theorem grow_items {ctx : Ctx} (count : ℕ)
    (h : ((ctx.itemsFree ++ ctx.itemsBusy).map Item.address).Perm (List.range ctx.allocated)) :
    (((ctx.grow count).itemsFree ++ (ctx.grow count).itemsBusy).map Item.address).Perm
      (List.range (ctx.grow count).allocated) := by
  have hrange : List.range (ctx.allocated + count) =
      List.range ctx.allocated ++ List.range' ctx.allocated count := by
    rw [List.range_eq_range', List.range_eq_range', ← List.range'_append_1, Nat.zero_add]
  have hnew : ((List.range' ctx.allocated count).map fun a ↦ (⟨a, 0, 0, 0⟩ : Item)).map
      Item.address = List.range' ctx.allocated count := by
    rw [List.map_map]
    exact List.map_id _
  simp only [Ctx.grow, List.map_append, hnew, hrange, List.append_assoc] at h ⊢
  refine (List.perm_append_comm.append_left _).trans ?_
  rw [← List.append_assoc]
  exact h.append_right _

theorem kept_alloc (itemsPerSecond : ℤ) :
    Kept itemsPerSecond [] (throughputHiresAlloc itemsPerSecond) where
  busy := rfl
  items := grow_items itemsPerSecond.toNat .rfl
  growth := ⟨0, by simp [throughputHiresAlloc, Ctx.grow]⟩

section Step

variable {itemsPerSecond : ℤ} {calls : List Call} {ctx : Ctx}

theorem Kept.grow (h : Kept itemsPerSecond calls ctx) :
    Kept itemsPerSecond calls (ctx.grow 64) where
  busy := h.busy
  items := grow_items 64 h.items
  growth := by
    obtain ⟨k, hk⟩ := h.growth
    exact ⟨k + 1, by rw [Ctx.grow, hk]; ring⟩

theorem Kept.write (h : Kept itemsPerSecond calls ctx) (channel : ℕ) (value : ℤ) (ts : Timeval) :
    Kept itemsPerSecond (calls ++ [.write channel value ts])
      (throughputHiresWrite ctx channel value ts) := by
  obtain ⟨grown, hgrown, hkept, hfree⟩ : ∃ grown, grown =
      (if ctx.itemsFree = [] then ctx.grow 64 else ctx) ∧ Kept itemsPerSecond calls grown ∧
        grown.itemsFree ≠ [] := by
    refine ⟨_, rfl, ?_⟩
    split_ifs with hempty
    · exact ⟨h.grow, by simp [Ctx.grow]⟩
    · exact ⟨h, hempty⟩
  obtain ⟨item, rest, hitems⟩ := List.exists_cons_of_ne_nil hfree
  have hwrite : throughputHiresWrite ctx channel value ts = { grown with
      itemsFree := rest
      itemsBusy := ⟨item.address, makeTimestampFromTimeval ts, channel, value⟩ ::
        grown.itemsBusy } := by
    simp only [throughputHiresWrite, ← hgrown, hitems]
  rw [hwrite]
  refine ⟨?_, ?_, hkept.growth⟩
  · rw [unexpired_write, List.reverse_append, List.map_cons, hkept.busy]
    rfl
  · refine List.Perm.trans ?_ hkept.items
    rw [hitems]
    simp only [List.map_append, List.map_cons, List.cons_append]
    exact List.perm_middle

theorem Kept.expire (h : Kept itemsPerSecond calls ctx) (ts : Timeval) :
    Kept itemsPerSecond (calls ++ [.expire ts]) (throughputHiresExpire ctx ts).1 := by
  simp only [throughputHiresExpire, expireLoop_eq]
  refine ⟨?_, ?_, h.growth⟩
  · rw [unexpired_expire, ← List.filter_reverse, ← h.busy, List.filter_map]
    rfl
  · refine List.Perm.trans (List.Perm.map _ ?_) h.items
    rw [List.append_assoc]
    refine List.Perm.append_left _ ?_
    have hstay : (ctx.itemsBusy.filter fun e ↦
        decide (makeTimestampFromTimeval ts ≤ e.written.timestamp)) =
        ctx.itemsBusy.filter fun e ↦
          !decide (e.written.timestamp < makeTimestampFromTimeval ts) := by
      simp only [← decide_not, not_lt]
    rw [hstay]
    exact List.filter_append_perm _ _

theorem kept_run (itemsPerSecond : ℤ) (calls : List Call) :
    Kept itemsPerSecond calls (run itemsPerSecond calls) := by
  induction calls using List.reverseRecOn with
  | nil => exact kept_alloc itemsPerSecond
  | append_singleton calls c ih =>
      rw [run, List.foldl_concat]
      cases c with
      | write channel value ts => exact ih.write channel value ts
      | expire ts => exact ih.expire ts

theorem Kept.sorted (h : Kept itemsPerSecond calls ctx) (hordered : Ordered calls) :
    ctx.itemsBusy.Pairwise fun e e' ↦ e'.written.timestamp ≤ e.written.timestamp := by
  have hlive : (unexpired calls).Pairwise fun v w ↦ v.timestamp ≤ w.timestamp :=
    hordered.sublist (unexpired_sublist calls)
  have hbusy : (ctx.itemsBusy.map Item.written).Pairwise fun w v ↦ v.timestamp ≤ w.timestamp := by
    rw [h.busy, List.pairwise_reverse]
    exact hlive
  exact List.pairwise_map.mp hbusy

end Step

/-! ## Sums -/

theorem int64_add (a b : ℤ) : int64 (int64 a + b) = int64 (a + b) := Int.bmod_add_bmod

theorem foldl_int64 (es : List Item) (n : ℤ) :
    es.foldl (fun total e ↦ int64 (total + e.written.value)) (int64 n) =
      int64 (n + (es.map fun e ↦ e.written.value).sum) := by
  induction es generalizing n with
  | nil => simp
  | cons e es ih =>
      rw [List.foldl_cons, int64_add, ih, List.map_cons, List.sum_cons, add_assoc]

/-- The unexpired values of a channel from `start` to `stop`. -/
def windowValues (calls : List Call) (channel : ℕ) (start stop : Timeval) : List ℤ :=
  ((unexpired calls).filter fun w ↦
    InWindow channel (makeTimestampFromTimeval start) (makeTimestampFromTimeval stop) w).map
    Written.value

/-- While time goes on, every sum is that of the unexpired values of the window in 64 bits, and
every item allocated is on one of the lists. -/
theorem throughput_sums (itemsPerSecond : ℤ) (calls : List Call) (hordered : Ordered calls)
    (channel : ℕ) (start stop : Timeval) :
    throughputHiresSumtotal (run itemsPerSecond calls) channel start stop =
        int64 (windowValues calls channel start stop).sum ∧
      (((run itemsPerSecond calls).itemsFree ++
        (run itemsPerSecond calls).itemsBusy).map Item.address).Perm
          (List.range (run itemsPerSecond calls).allocated) ∧
        ∃ k, (run itemsPerSecond calls).allocated = itemsPerSecond.toNat + 64 * k := by
  have hkept := kept_run itemsPerSecond calls
  refine ⟨?_, hkept.items, hkept.growth⟩
  have hall : ((scanned (fun e : Item ↦ e.written.timestamp < makeTimestampFromTimeval start)
      (run itemsPerSecond calls).itemsBusy).filter fun e ↦
        InWindow channel (makeTimestampFromTimeval start) (makeTimestampFromTimeval stop)
          e.written) =
      (run itemsPerSecond calls).itemsBusy.filter fun e ↦
        InWindow channel (makeTimestampFromTimeval start) (makeTimestampFromTimeval stop)
          e.written := by
    refine filter_scanned (hkept.sorted hordered) fun e e' hle hstop hin ↦ ?_
    -- nothing behind the stop is in the window
    exact absurd (hin.2.1.trans hle) (not_le.mpr hstop)
  have hvalues : ((run itemsPerSecond calls).itemsBusy.filter fun e ↦
      InWindow channel (makeTimestampFromTimeval start) (makeTimestampFromTimeval stop)
        e.written).map (fun e ↦ e.written.value) =
      (windowValues calls channel start stop).reverse := by
    rw [windowValues, ← List.map_reverse, ← List.filter_reverse, ← hkept.busy, List.filter_map,
      List.map_map]
    rfl
  have hsum := foldl_int64 ((run itemsPerSecond calls).itemsBusy.filter fun e ↦
    InWindow channel (makeTimestampFromTimeval start) (makeTimestampFromTimeval stop)
      e.written) 0
  rw [hvalues, List.sum_reverse, zero_add] at hsum
  rw [throughputHiresSumtotal, foldUntil_eq, foldl_ite_eq, hall]
  exact hsum

theorem throughput_sums_expired :
    Ordered [.write 7 5 ⟨1, 0⟩, .write 8 6 ⟨2, 0⟩, .write 7 9 ⟨2, 500000⟩, .expire ⟨1, 1⟩] ∧
      windowValues [.write 7 5 ⟨1, 0⟩, .write 8 6 ⟨2, 0⟩, .write 7 9 ⟨2, 500000⟩,
        .expire ⟨1, 1⟩] 7 ⟨0, 0⟩ ⟨3, 0⟩ = [9] ∧
      throughputHiresSumtotal (run 1 [.write 7 5 ⟨1, 0⟩, .write 8 6 ⟨2, 0⟩,
        .write 7 9 ⟨2, 500000⟩, .expire ⟨1, 1⟩]) 7 ⟨0, 0⟩ ⟨3, 0⟩ =
          int64 (windowValues [.write 7 5 ⟨1, 0⟩, .write 8 6 ⟨2, 0⟩, .write 7 9 ⟨2, 500000⟩,
            .expire ⟨1, 1⟩] 7 ⟨0, 0⟩ ⟨3, 0⟩).sum :=
  ⟨by decide +kernel, by decide +kernel, (throughput_sums 1 _ (by decide +kernel) 7 _ _).1⟩

/-- A sum beyond an `int64_t`, and a window from before the epoch. -/
theorem throughput_sums_inexact :
    throughputHiresSumtotal (run 2 [.write 0 (2 ^ 63 - 1) ⟨1, 0⟩, .write 0 1 ⟨1, 0⟩])
        0 ⟨0, 0⟩ ⟨2, 0⟩ ≠ (2 ^ 63 - 1) + 1 ∧
      throughputHiresSumtotal (run 2 [.write 0 5 ⟨1, 0⟩]) 0 ⟨-1, 0⟩ ⟨2, 0⟩ ≠ 5 := by
  decide +kernel

end LtnTsTools.ThroughputHires
