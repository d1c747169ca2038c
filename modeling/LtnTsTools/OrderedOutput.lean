import LtnTsTools.Clocks
import LtnTsTools.HoldBack
import LtnTsTools.PesPacket

/-!
# Ordered output

The list in which the extractor holds PES packets back to deliver them in the
order of their time stamps.  It has sixty items from the start; those that have
not been used yet have no packet and the key zero, and take part in the search
for the oldest item like all others.
-/

namespace LtnTsTools.OrderedOutput

open Clocks HoldBack Pes

/-- `ORDERED_LIST_DEPTH`. -/
def depth : ℕ := 60

/-- `struct item_s`. -/
structure Item where
  correctedPTS : ℤ
  pes : Option PesPacket

def Item.empty : Item := ⟨0, none⟩

/-- `_list_insert`: in front of the first item with a greater key or without a
packet. -/
def listInsert (newitem : Item) : List Item → List Item
  | [] => [newitem]
  | e :: rest =>
      if newitem.correctedPTS < e.correctedPTS then newitem :: e :: rest
      else if e.pes = none then newitem :: e :: rest
      else e :: listInsert newitem rest

/-- The search loop of `_list_find_oldest`, at position `n`. -/
def findOldestLoop (oldest : ℕ × Item) (n : ℕ) : List Item → ℕ × Item
  | [] => oldest
  | e :: rest =>
      findOldestLoop (if e.correctedPTS < oldest.2.correctedPTS then (n, e) else oldest) (n + 1)
        rest

/-- `_list_find_oldest`: the item and its position in the list. -/
def listFindOldest : List Item → Option (ℕ × Item)
  | [] => none
  | e :: rest => some (findOldestLoop (0, e) 1 rest)

structure State where
  listOrdered : List Item
  correctedClock : CorrectedClock

/-- As `ltntstools_pes_extractor_alloc` leaves them. -/
def State.fresh : State where
  listOrdered := List.replicate depth Item.empty
  correctedClock := correctedClockInit

/-- The ordered branch of `_processRing`: the oldest item is delivered, if it has
a packet, and takes the new one. -/
def deliver (s : State) (pes : PesPacket) : State × List PesPacket :=
  match listFindOldest s.listOrdered with
  | none => (s, [])
  | some (i, item) =>
      let clock := (correctedClockUpdate s.correctedClock pes.pts).2
      let newitem := { item with
        pes := some pes
        correctedPTS := correctedClockUnwrapped clock }
      ({ listOrdered := listInsert newitem (s.listOrdered.eraseIdx i), correctedClock := clock },
        item.pes.toList)

def deliverAll (s : State) : List PesPacket → State × List PesPacket
  | [] => (s, [])
  | pes :: rest =>
      let one := deliver s pes
      let more := deliverAll one.1 rest
      (more.1, one.2 ++ more.2)

/-- The loop of `_flushOrderedOutput`, for at most `n` items. -/
def flushLoop : ℕ → List Item → List PesPacket
  | 0, _ => []
  | n + 1, items =>
      match listFindOldest items with
      | none => []
      | some (i, item) => item.pes.toList ++ flushLoop n (items.eraseIdx i)

/-- `_flushOrderedOutput`, which deletes an item a turn until none is left. -/
def flushOrderedOutput (s : State) : List PesPacket :=
  flushLoop s.listOrdered.length s.listOrdered

/-! ## The list -/

theorem findOldestLoop_eq {items : List Item} {oldest : ℕ × Item} {n : ℕ}
    (h : ∀ e ∈ items, oldest.2.correctedPTS ≤ e.correctedPTS) :
    findOldestLoop oldest n items = oldest := by
  induction items generalizing n with
  | nil => rfl
  | cons e rest ih =>
      have he := h e List.mem_cons_self
      rw [findOldestLoop, if_neg (by omega)]
      exact ih fun x hx ↦ h x (List.mem_cons_of_mem e hx)

theorem findOldestLoop_append {before after : List Item} {item : Item} {oldest : ℕ × Item}
    {n : ℕ} (hold : item.correctedPTS < oldest.2.correctedPTS)
    (hbefore : ∀ e ∈ before, item.correctedPTS < e.correctedPTS)
    (hafter : ∀ e ∈ after, item.correctedPTS ≤ e.correctedPTS) :
    findOldestLoop oldest n (before ++ item :: after) = (n + before.length, item) := by
  induction before generalizing oldest n with
  | nil =>
      rw [List.nil_append, findOldestLoop, if_pos hold]
      exact findOldestLoop_eq hafter
  | cons e rest ih =>
      rw [List.cons_append, findOldestLoop, List.length_cons,
        show n + (rest.length + 1) = n + 1 + rest.length by omega]
      apply ih
      · split_ifs
        · exact hbefore e List.mem_cons_self
        · exact hold
      · exact fun x hx ↦ hbefore x (List.mem_cons_of_mem e hx)

theorem listFindOldest_eq {before after : List Item} {item : Item}
    (hbefore : ∀ e ∈ before, item.correctedPTS < e.correctedPTS)
    (hafter : ∀ e ∈ after, item.correctedPTS ≤ e.correctedPTS) :
    listFindOldest (before ++ item :: after) = some (before.length, item) := by
  cases before with
  | nil => rw [List.nil_append, listFindOldest, findOldestLoop_eq hafter]; rfl
  | cons e rest =>
      rw [List.cons_append, listFindOldest, findOldestLoop_append (hbefore e List.mem_cons_self)
        (fun x hx ↦ hbefore x (List.mem_cons_of_mem e hx)) hafter, List.length_cons, Nat.add_comm]

theorem eraseIdx_middle {α : Type*} (before after : List α) (x : α) :
    (before ++ x :: after).eraseIdx before.length = before ++ after := by
  rw [List.eraseIdx_append_of_length_le le_rfl, Nat.sub_self]
  rfl

/-! ## The list as a hold-back list -/

abbrev Timed := PesPacket × ℕ

def item (x : Timed) : Item := ⟨x.2, some x.1⟩

def items (held : List Timed) (unused : ℕ) : List Item :=
  held.map item ++ List.replicate unused Item.empty

theorem listInsert_items (x : Timed) (held : List Timed) (unused : ℕ) :
    listInsert (item x) (items held unused) = items (place Prod.snd x held) unused := by
  induction held with
  | nil =>
      cases unused with
      | zero => rfl
      | succ n =>
          simp only [items, List.map_nil, List.nil_append, List.replicate_succ, listInsert]
          rw [if_neg (by simp [item, Item.empty])]
          rfl
  | cons a rest ih =>
      by_cases hlt : x.2 < a.2
      · simp [items, listInsert, place, item, hlt]
      · have hrest := ih
        simp only [items, place] at hrest ⊢
        simp [listInsert, List.orderedInsert, item, hlt, ← hrest]

/-- In front of unused items only a packet at time zero is the oldest. -/
theorem listFindOldest_head {h : Timed} {rest : List Timed} {unused : ℕ}
    (hsorted : InOrder Prod.snd (h :: rest)) (hold : unused = 0 ∨ h.2 = 0) :
    listFindOldest (items (h :: rest) unused) = some (0, item h) := by
  apply @listFindOldest_eq [] _ (item h) (by simp)
  intro e he
  rcases List.mem_append.mp he with he | he
  · obtain ⟨a, ha, rfl⟩ := List.mem_map.mp he
    exact Int.ofNat_le.mpr ((List.pairwise_cons.mp hsorted).1 a ha)
  · obtain ⟨hne, rfl⟩ := List.mem_replicate.mp he
    simp [item, Item.empty, hold.resolve_left hne]

theorem listFindOldest_unused {held : List Timed} {unused : ℕ}
    (hpos : ∀ a ∈ held, 0 < a.2) :
    listFindOldest (items held (unused + 1)) = some (held.length, Item.empty) := by
  have hbefore : ∀ e ∈ held.map item, Item.empty.correctedPTS < e.correctedPTS := by
    intro e he
    obtain ⟨a, ha, rfl⟩ := List.mem_map.mp he
    exact Int.ofNat_lt.mpr (hpos a ha)
  have hfind := @listFindOldest_eq _ (List.replicate unused Item.empty) Item.empty hbefore
    fun e he ↦ (List.mem_replicate.mp he).2 ▸ le_rfl
  rwa [List.length_map] at hfind

theorem pos_of_inOrder {h : Timed} {rest : List Timed} (hsorted : InOrder Prod.snd (h :: rest))
    (hpos : h.2 ≠ 0) : ∀ a ∈ h :: rest, 0 < a.2 := by
  intro a ha
  rcases List.mem_cons.mp ha with rfl | ha
  · omega
  · have hle := (List.pairwise_cons.mp hsorted).1 a ha
    omega

theorem eraseIdx_unused (held : List Timed) (unused : ℕ) :
    (items held (unused + 1)).eraseIdx held.length = items held unused := by
  have herase := eraseIdx_middle (held.map item) (List.replicate unused Item.empty) Item.empty
  rwa [List.length_map] at herase

/-- The search and the removal let go what the hold-back list lets go. -/
theorem find_and_erase {held : List Timed} (h : Kept Prod.snd depth held) :
    ∃ i e, listFindOldest (items held (depth - held.length)) = some (i, e) ∧
      e.pes.toList = (release Prod.snd depth held).2.map Prod.fst ∧
      (items held (depth - held.length)).eraseIdx i =
        items (release Prod.snd depth held).1
          (depth - 1 - (release Prod.snd depth held).1.length) := by
  cases held with
  | nil => exact ⟨0, Item.empty, @listFindOldest_unused [] 59 (by simp), rfl, eraseIdx_unused [] 59⟩
  | cons a rest =>
      have hlen := h.length_le
      rw [List.length_cons] at hlen
      rw [release]
      split_ifs with hgo
      · refine ⟨0, item a, listFindOldest_head h.in_order ?_, rfl, ?_⟩
        · exact hgo.imp_left fun hfull ↦ by rw [List.length_cons]; omega
        · rw [List.length_cons, show depth - (rest.length + 1) = depth - 1 - rest.length by omega]
          rfl
      · have hpos := pos_of_inOrder h.in_order fun hzero ↦ hgo (.inr hzero)
        have hroom : depth - (a :: rest).length = depth - 1 - (a :: rest).length + 1 := by
          rw [List.length_cons]
          omega
        rw [hroom]
        exact ⟨_, _, listFindOldest_unused hpos, rfl, eraseIdx_unused _ _⟩

/-! ## Whole runs -/

/-- The extractor's list and clock hold `held`. -/
structure Holds (s : State) (held : List Timed) : Prop where
  kept : Kept Prod.snd depth held
  list : s.listOrdered = items held (depth - held.length)

theorem holds_fresh : Holds State.fresh [] := ⟨⟨.nil, Nat.zero_le _⟩, rfl⟩

/-- A packet whose time the clock follows is pushed into the hold-back list. -/
theorem Holds.deliver {s : State} {held : List Timed} (h : Holds s held) {x : Timed}
    (hclock : StandsAt (correctedClockUpdate s.correctedClock x.1.pts).2 x.2) :
    Holds (deliver s x.1).1 (push Prod.snd depth held x).1 ∧
      (deliver s x.1).2 = (push Prod.snd depth held x).2.map Prod.fst ∧
      (deliver s x.1).1.correctedClock = (correctedClockUpdate s.correctedClock x.1.pts).2 := by
  obtain ⟨i, e, hfind, hout, herase⟩ := find_and_erase h.kept
  have hlt := @length_release_lt _ Prod.snd depth held (by decide) h.kept.length_le
  have hlength := (@place_perm _ Prod.snd x (release Prod.snd depth held).1).length_eq
  rw [List.length_cons] at hlength
  unfold OrderedOutput.deliver
  rw [h.list, hfind]
  refine ⟨⟨h.kept.push (by decide) x, ?_⟩, hout, rfl⟩
  simp only [herase, hclock.query]
  have hinsert := listInsert_items x (release Prod.snd depth held).1
    (depth - 1 - (release Prod.snd depth held).1.length)
  rw [push, hlength, show depth - ((release Prod.snd depth held).1.length + 1) =
    depth - 1 - (release Prod.snd depth held).1.length by omega, ← hinsert]
  rfl

/-- Less than half a ring apart. -/
def Close (a b : Timed) : Prop := |(b.2 : ℤ) - a.2| < 2 ^ 32

theorem Holds.deliverAll {s : State} {held xs : List Timed} (h : Holds s held)
    (hpts : ∀ x ∈ xs, x.1.pts = (x.2 % 2 ^ 33 : ℕ))
    (hclock : ∀ x ∈ xs.head?,
      StandsAt (correctedClockUpdate s.correctedClock x.1.pts).2 x.2)
    (hclose : xs.IsChain Close) :
    Holds (deliverAll s (xs.map Prod.fst)).1 (pushAll Prod.snd depth held xs).1 ∧
      (deliverAll s (xs.map Prod.fst)).2 = (pushAll Prod.snd depth held xs).2.map Prod.fst := by
  induction xs generalizing s held with
  | nil => exact ⟨h, rfl⟩
  | cons x rest ih =>
      have hx := hclock x (by simp)
      obtain ⟨hnext, hout, hclk⟩ := h.deliver hx
      have hclock' : ∀ y ∈ rest.head?, StandsAt
          (correctedClockUpdate (OrderedOutput.deliver s x.1).1.correctedClock y.1.pts).2 y.2 := by
        intro y hy
        have hxy : Close x y := hclose.rel_head? hy
        have hbounds := abs_lt.mp hxy
        rw [hclk, hpts y (List.mem_cons_of_mem x (List.mem_of_mem_head? hy))]
        exact hx.update (by omega) (by omega)
      obtain ⟨hlist, hmore⟩ := ih hnext (fun y hy ↦ hpts y (List.mem_cons_of_mem x hy)) hclock'
        hclose.tail
      exact ⟨hlist, by simp [OrderedOutput.deliverAll, HoldBack.pushAll, hout, hmore]⟩

/-- The flush delivers what is held, in the order of the list. -/
theorem flushLoop_items {n : ℕ} {held : List Timed} {unused : ℕ}
    (hsorted : InOrder Prod.snd held) (hn : n = held.length + unused) :
    flushLoop n (items held unused) = held.map Prod.fst := by
  induction n generalizing held unused with
  | zero =>
      obtain rfl : held = [] := List.eq_nil_of_length_eq_zero (by omega)
      rfl
  | succ n ih =>
      cases held with
      | nil =>
          obtain ⟨k, rfl⟩ : ∃ k, unused = k + 1 := ⟨unused - 1, by simp at hn; omega⟩
          rw [flushLoop, @listFindOldest_unused [] k (by simp)]
          simp only [eraseIdx_unused]
          exact ih hsorted (by simpa using hn)
      | cons h rest =>
          rw [List.length_cons] at hn
          by_cases hold : unused = 0 ∨ h.2 = 0
          · have herase : (items (h :: rest) unused).eraseIdx 0 = items rest unused := rfl
            rw [flushLoop, listFindOldest_head hsorted hold]
            simp only [herase]
            rw [ih (List.pairwise_cons.mp hsorted).2 (by omega)]
            rfl
          · -- an unused item is older than all packets
            obtain ⟨k, rfl⟩ : ∃ k, unused = k + 1 := ⟨unused - 1, by omega⟩
            have hpos := pos_of_inOrder hsorted fun hzero ↦ hold (.inr hzero)
            rw [flushLoop, listFindOldest_unused hpos]
            simp only [eraseIdx_unused]
            exact ih hsorted (by rw [List.length_cons]; omega)

theorem Holds.flush {s : State} {held : List Timed} (h : Holds s held) :
    flushOrderedOutput s = held.map Prod.fst := by
  rw [flushOrderedOutput, h.list]
  apply flushLoop_items h.kept.in_order
  simp [items]

/-- Every packet is delivered exactly once, by a callback or by the flush at the
end; and in the order of time, over any number of wraps, if no packet comes
behind sixty later ones. -/
theorem ordered_output_exact {parsed : List Timed}
    (hpts : ∀ x ∈ parsed, x.1.pts = (x.2 % 2 ^ 33 : ℕ))
    (hfirst : ∀ x ∈ parsed.head?, x.2 < 2 ^ 33) (hclose : parsed.IsChain Close) :
    ∃ order : List Timed, order.Perm parsed ∧
      (deliverAll State.fresh (parsed.map Prod.fst)).2 ++
        flushOrderedOutput (deliverAll State.fresh (parsed.map Prod.fst)).1 =
          order.map Prod.fst ∧
      ((∀ before x after, parsed = before ++ x :: after →
          before.countP (fun y ↦ x.2 < y.2) < 60) →
        order.Pairwise fun x y ↦ x.2 ≤ y.2) := by
  have hclock : ∀ x ∈ parsed.head?,
      StandsAt (correctedClockUpdate State.fresh.correctedClock x.1.pts).2 x.2 := by
    intro x hx
    rw [hpts x (List.mem_of_mem_head? hx)]
    exact standsAt_first (hfirst x hx)
  obtain ⟨hheld, hout⟩ := holds_fresh.deliverAll hpts hclock hclose
  refine ⟨(pushAll Prod.snd depth [] parsed).2 ++ (pushAll Prod.snd depth [] parsed).1, ?_, ?_,
    fun hlate ↦ pushAll_inOrder (by decide) hlate⟩
  · simpa using @pushAll_perm _ Prod.snd depth parsed []
  · rw [hout, hheld.flush, List.map_append]

/-- Three packets around a wrap, the last of them before it. -/
theorem ordered_output_exact_wrap :
    ∃ order : List Timed,
      order.Perm [({ pesPacketAlloc with pts := 2 ^ 33 - 2 }, 2 ^ 33 - 2),
        ({ pesPacketAlloc with pts := 1 }, 2 ^ 33 + 1),
        ({ pesPacketAlloc with pts := 2 ^ 33 - 1 }, 2 ^ 33 - 1)] ∧
      order.Pairwise fun x y ↦ x.2 ≤ y.2 := by
  obtain ⟨order, hperm, -, hsorted⟩ := @ordered_output_exact
    [({ pesPacketAlloc with pts := 2 ^ 33 - 2 }, 2 ^ 33 - 2),
      ({ pesPacketAlloc with pts := 1 }, 2 ^ 33 + 1),
      ({ pesPacketAlloc with pts := 2 ^ 33 - 1 }, 2 ^ 33 - 1)]
    (by simp) (by simp) (by simp [Close])
  refine ⟨order, hperm, hsorted ?_⟩
  intro before x after heq
  have hlen := congrArg List.length heq
  rw [List.length_append, List.length_cons] at hlen
  have hcount := @List.countP_le_length _ (fun y : Timed ↦ decide (x.2 < y.2)) before
  simp only [List.length_cons, List.length_nil] at hlen
  omega

end LtnTsTools.OrderedOutput
