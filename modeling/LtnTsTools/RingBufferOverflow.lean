import LtnTsTools.RingBufferFifo

/-!
# Overflowing writes

The ring's header promises that a write which does not fit truncates the oldest
data because the ring has reached its maximum.  The code takes that path
whenever 128 times the write is refused, and it drops as many bytes as the
write is long.  This module settles exactly when the two agree, from any state
that calls can reach.
-/

namespace LtnTsTools.RingBuffer

open Region CyclicWindow PartialMachine

/-- Calls a program may make: it hands over real buffers and discards no more
than the used bytes.  Writes may overflow. -/
def Admissible (buf : KLRingBuffer) : RbOp → Prop
  | .write src => src.length ≤ maxObject
  | .discard n => n ≤ rbUsed buf
  | _ => True

instance (buf : KLRingBuffer) : (op : RbOp) → Decidable (Admissible buf op)
  | .write _ => inferInstanceAs (Decidable (_ ≤ _))
  | .discard _ => inferInstanceAs (Decidable (_ ≤ _))
  | .read _ => inferInstanceAs (Decidable True)
  | .peek _ => inferInstanceAs (Decidable True)
  | .empty => inferInstanceAs (Decidable True)

def GrowthRefused (buf : KLRingBuffer) (n : ℕ) : Prop :=
  buf.size - buf.fill < n ∧ buf.sizeMax < buf.size + n * 128

instance (buf : KLRingBuffer) (n : ℕ) : Decidable (GrowthRefused buf n) :=
  inferInstanceAs (Decidable (_ ∧ _))

theorem didOverflow_iff {buf : KLRingBuffer} {src : List UInt8} (h : Inv buf)
    (hobj : src.length ≤ maxObject) :
    (rbWriteWithState buf src).didOverflow = true ↔ GrowthRefused buf src.length := by
  rcases le_or_gt src.length (buf.size - buf.fill) with hfit | hn
  · have hnot : ¬GrowthRefused buf src.length := by
      unfold GrowthRefused
      omega
    simp [rbWriteWithState, rbReserve_of_fits h hfit, hnot]
  · rcases le_or_gt (buf.size + src.length * 128) buf.sizeMax with hmax | hmax
    · have hnot : ¬GrowthRefused buf src.length := by
        unfold GrowthRefused
        omega
      simp [rbWriteWithState, rbReserve_of_grows h hobj hn hmax, hnot]
    · have hyes : GrowthRefused buf src.length := ⟨hn, hmax⟩
      simp [rbWriteWithState, rbReserve_of_refused h hobj hn hmax, hyes]

/-- A write that is not refused is appended to a ring that starts at the front of
its allocation. -/
theorem rbWriteWithState_of_front {buf : KLRingBuffer} {src : List UInt8} (h : Inv buf)
    (hobj : src.length ≤ maxObject) (hfront : buf.head = 0)
    (href : ¬GrowthRefused buf src.length) :
    ∃ buf', rbWriteWithState buf src = ⟨false, some buf'⟩ ∧ Inv buf' ∧
      buf'.contents = buf.contents ++ src ∧ buf'.head = 0 := by
  have hfill := h.fill_le
  rcases le_or_gt src.length (buf.size - buf.fill) with hfit | hn
  · obtain ⟨buf', hwrite, hinv, hcont, hhead, -⟩ :=
      rbWriteWithState_of_fits h hfit fun _ ↦ hfront
    exact ⟨buf', hwrite, hinv, hcont, hhead.trans hfront⟩
  · have hmax : buf.size + src.length * 128 ≤ buf.sizeMax := by
      unfold GrowthRefused at href
      omega
    obtain ⟨buf', hwrite, hinv, hcont, hhead, -⟩ :=
      rbWriteWithState_of_grows h hobj hn hmax (by omega)
    exact ⟨buf', hwrite, hinv, hcont, hhead.trans hfront⟩

/-- A refused write that stays inside the allocation leaves the fill level as it
was: what it discards is what it adds. -/
theorem refused_write_spec {buf buf' : KLRingBuffer} {src : List UInt8} (h : Inv buf)
    (hobj : src.length ≤ maxObject) (href : GrowthRefused buf src.length)
    (hwrite : (rbWriteWithState buf src).buf = some buf') :
    Inv buf' ∧ buf'.fill = buf.fill := by
  have hsize := h.size_le_maxObject
  have hfill := h.fill_le
  have hobj' := hobj
  unfold maxObject at hsize hobj'
  have hsum : sizeT (sizeSub buf.fill src.length + src.length) = buf.fill :=
    sizeT_sizeSub_add (by omega)
  simp only [rbWriteWithState, rbReserve_of_refused h hobj href.1 href.2] at hwrite
  obtain ⟨data, hcopy, rfl⟩ := Option.map_eq_some_iff.mp hwrite
  have hlen : data.length = buf.size := (length_rbCopyIn hcopy).trans (size_rbDiscard _ _)
  have hpos : 0 < buf.size := lt_of_le_of_lt (Nat.zero_le _) h.head_lt
  refine ⟨⟨?_, ?_, ?_, h.initial_pos, h.initial_le, h.max_le⟩, hsum⟩
  · exact lt_of_lt_of_eq (Nat.mod_lt (sizeT (buf.head + src.length)) hpos) hlen.symm
  · exact (hsum.trans_le hfill).trans_eq hlen.symm
  · exact hlen.trans_le h.size_le

/-- A write the ring grows for stays within the bounds, also when the growth
tears its content. -/
theorem granted_write_inv {buf buf' : KLRingBuffer} {src : List UInt8} (h : Inv buf)
    (hobj : src.length ≤ maxObject) (href : ¬GrowthRefused buf src.length)
    (hwrite : (rbWriteWithState buf src).buf = some buf') : Inv buf' := by
  have hsize := h.size_le_maxObject
  have hfill := h.fill_le
  have hhead := h.head_lt
  have hobj' := hobj
  unfold maxObject at hsize hobj'
  have hsum : sizeT (buf.fill + src.length) = buf.fill + src.length := sizeT_of_lt (by omega)
  rcases le_or_gt src.length (buf.size - buf.fill) with hfit | hn
  · simp only [rbWriteWithState, rbReserve_of_fits h hfit] at hwrite
    obtain ⟨data, hcopy, rfl⟩ := Option.map_eq_some_iff.mp hwrite
    have hlen : data.length = buf.size := length_rbCopyIn hcopy
    refine ⟨hhead.trans_eq hlen.symm, ?_, hlen.trans_le h.size_le,
      h.initial_pos, h.initial_le, h.max_le⟩
    refine (show sizeT (buf.fill + src.length) ≤ buf.size by omega).trans_eq hlen.symm
  · have hmax : buf.size + src.length * 128 ≤ buf.sizeMax := by
      unfold GrowthRefused at href
      omega
    simp only [rbWriteWithState, rbReserve_of_grows h hobj hn hmax] at hwrite
    obtain ⟨data, hcopy, rfl⟩ := Option.map_eq_some_iff.mp hwrite
    have hlen : data.length = buf.size + src.length * 128 :=
      (length_rbCopyIn hcopy).trans (by simp [KLRingBuffer.size])
    refine ⟨?_, ?_, hlen.trans_le hmax, h.initial_pos, h.initial_le, h.max_le⟩
    · exact lt_of_lt_of_eq (show buf.head < buf.size + src.length * 128 by omega) hlen.symm
    · exact (show sizeT (buf.fill + src.length) ≤ buf.size + src.length * 128 by
        omega).trans_eq hlen.symm

theorem inv_rbStep {buf buf' : KLRingBuffer} {op : RbOp} {out : List UInt8} (h : Inv buf)
    (hadm : Admissible buf op) (hstep : rbStep buf op = some (buf', out)) : Inv buf' := by
  cases op with
  | write src =>
      simp only [rbStep, Option.map_eq_some_iff, Prod.mk.injEq] at hstep
      obtain ⟨b, hb, rfl, -⟩ := hstep
      by_cases href : GrowthRefused buf src.length
      · exact (refused_write_spec h hadm href hb).1
      · exact granted_write_inv h hadm href hb
  | read n =>
      obtain ⟨b, hread, hinv, -⟩ := rbReader_spec h n true
      simp only [rbStep, rbRead, hread, Option.some.injEq, Prod.mk.injEq] at hstep
      exact hstep.1 ▸ hinv
  | peek n =>
      obtain ⟨b, hread, hinv, -⟩ := rbReader_spec h n false
      simp only [rbStep, rbPeek, hread, Option.some.injEq, Prod.mk.injEq] at hstep
      exact hstep.1 ▸ hinv
  | empty =>
      simp only [rbStep, Option.some.injEq, Prod.mk.injEq] at hstep
      exact hstep.1 ▸ inv_rbEmpty h
  | discard n =>
      simp only [rbStep, Option.some.injEq, Prod.mk.injEq] at hstep
      exact hstep.1 ▸ inv_rbDiscard h hadm

theorem sizeMax_rbReserve (buf : KLRingBuffer) (n : ℕ) :
    (rbReserve buf n).1.sizeMax = buf.sizeMax := by
  unfold rbReserve
  split_ifs
  · cases hgrow : rbGrow buf (sizeT (n * 128)) with
    | none => exact sizeMax_rbDiscard buf n
    | some grown =>
        unfold rbGrow at hgrow
        split_ifs at hgrow
        rw [Option.some.injEq] at hgrow
        simp only [← hgrow]
  · rfl

theorem sizeMax_rbStep {buf buf' : KLRingBuffer} {op : RbOp} {out : List UInt8} (h : Inv buf)
    (hstep : rbStep buf op = some (buf', out)) : buf'.sizeMax = buf.sizeMax := by
  cases op with
  | write src =>
      simp only [rbStep, Option.map_eq_some_iff, Prod.mk.injEq] at hstep
      obtain ⟨b, hb, rfl, -⟩ := hstep
      simp only [rbWriteWithState] at hb
      obtain ⟨data, -, rfl⟩ := Option.map_eq_some_iff.mp hb
      dsimp only
      exact sizeMax_rbReserve buf src.length
  | read n =>
      obtain ⟨b, hread, -, -, hmax⟩ := rbReader_spec h n true
      simp only [rbStep, rbRead, hread, Option.some.injEq, Prod.mk.injEq] at hstep
      exact hstep.1 ▸ hmax
  | peek n =>
      obtain ⟨b, hread, -, -, hmax⟩ := rbReader_spec h n false
      simp only [rbStep, rbPeek, hread, Option.some.injEq, Prod.mk.injEq] at hstep
      exact hstep.1 ▸ hmax
  | empty =>
      simp only [rbStep, Option.some.injEq, Prod.mk.injEq] at hstep
      rw [← hstep.1]
      rfl
  | discard n =>
      simp only [rbStep, Option.some.injEq, Prod.mk.injEq] at hstep
      rw [← hstep.1]
      rfl

/-- The bounds hold in every state that admissible calls reach. -/
theorem inv_of_reachable {size sizeMax : ℕ} {buf₀ buf : KLRingBuffer}
    (hmax : sizeMax ≤ maxObject) (hnew : rbNew size sizeMax = some buf₀)
    (h : Reachable rbStep Admissible buf₀ buf) : Inv buf ∧ buf.sizeMax = buf₀.sizeMax := by
  refine h.invariant (P := fun b ↦ Inv b ∧ b.sizeMax = buf₀.sizeMax)
    ⟨inv_rbNew hmax hnew, rfl⟩ ?_
  intro s s' op out hs hadm hstep
  exact ⟨inv_rbStep hs.1 hadm hstep, (sizeMax_rbStep hs.1 hstep).trans hs.2⟩

/-- What the header says of a write that does not fit: it stays inside the
allocation and within the bounds, drops only as many of the oldest bytes as the
maximum size demands, and never happens to a write that the maximum leaves room
for. -/
def OverflowKeepsNewest (buf : KLRingBuffer) (src : List UInt8) : Prop :=
  ((rbWriteWithState buf src).didOverflow = true →
    ∃ buf', (rbWriteWithState buf src).buf = some buf' ∧
      buf'.fill ≤ buf'.size ∧ buf'.size ≤ buf.sizeMax ∧ buf'.head < buf'.size ∧
      buf'.contents =
        buf.contents.drop (buf.fill + src.length - buf.sizeMax) ++ src) ∧
  (src.length ≤ buf.sizeMax - buf.fill → (rbWriteWithState buf src).didOverflow = false)

/-- A ring filled to its maximum overwrites its oldest bytes in place. -/
theorem full_write_spec {buf : KLRingBuffer} {src : List UInt8} (h : Inv buf)
    (hle : src.length ≤ buf.sizeMax) (hfull : buf.fill = buf.sizeMax)
    (href : GrowthRefused buf src.length)
    (hplace : src.length < buf.sizeMax ∨ buf.head = 0) :
    ∃ buf', (rbWriteWithState buf src).buf = some buf' ∧ Inv buf' ∧
      buf'.contents = buf.contents.drop src.length ++ src := by
  have hobj : src.length ≤ maxObject := hle.trans h.max_le
  have hsize := h.size_le_maxObject
  have hsizeMax := h.size_le
  have hfill := h.fill_le
  have hdisc : Inv (rbDiscard buf src.length) := inv_rbDiscard h (by omega)
  have hsub : sizeSub buf.fill src.length = buf.fill - src.length :=
    sizeSub_of_le (by omega) (by unfold maxObject at hsize; omega)
  have hzero : src.length = (rbDiscard buf src.length).size →
      (rbDiscard buf src.length).head = 0 := by
    intro hexact
    change src.length = buf.size at hexact
    have hhead : buf.head = 0 := by omega
    change sizeT (buf.head + src.length) % buf.size = 0
    rw [sizeT_of_lt (by unfold maxObject at hsize; omega), hhead, Nat.zero_add, hexact,
      Nat.mod_self]
  obtain ⟨data, hcopy, hwin⟩ := @rbCopyIn_of_fits (rbDiscard buf src.length) src
    hdisc.head_lt hsize
    (by change sizeSub buf.fill src.length + _ ≤ buf.size; omega) hzero
  have hwrite : (rbWriteWithState buf src).buf = some
      { rbDiscard buf src.length with
        data := data, fill := sizeT ((rbDiscard buf src.length).fill + src.length) } := by
    simp [rbWriteWithState, rbReserve_of_refused h hobj href.1 href.2, hcopy]
  refine ⟨_, hwrite, (refused_write_spec h hobj href hwrite).1, ?_⟩
  have hfill' : sizeT ((rbDiscard buf src.length).fill + src.length) =
      (rbDiscard buf src.length).fill + src.length := by
    apply sizeT_of_lt
    change sizeSub buf.fill src.length + src.length < _
    unfold maxObject at hsize
    omega
  rw [← contents_rbDiscard h (by omega), ← hwin, hfill']
  rfl

/-- A copy of exactly the ring's size into an empty ring leaves the allocation
unless the head is zero: the end of the write meets the tail, so the copy is
taken for one block. -/
theorem rbCopyIn_exact_at_offset {buf : KLRingBuffer} {src : List UInt8}
    (hlt : buf.head < buf.size) (hsize : buf.size ≤ maxObject) (hfill : buf.fill = 0)
    (hall : src.length = buf.size) (hhead : buf.head ≠ 0) : rbCopyIn buf src = none := by
  unfold maxObject at hsize
  have htail : sizeT (buf.head + buf.fill) % buf.size = buf.head := by
    rw [hfill, Nat.add_zero, sizeT_of_lt (by omega), Nat.mod_eq_of_lt hlt]
  have hend : sizeT (buf.head + buf.fill + src.length) % buf.size = buf.head := by
    rw [hfill, Nat.add_zero, sizeT_of_lt (by omega), hall, Nat.add_mod_right,
      Nat.mod_eq_of_lt hlt]
  unfold rbCopyIn
  simp only [htail, hend, le_refl, if_true]
  rw [store_eq_none_iff]
  change buf.size < _
  omega

/-- A refused write of the whole ring's size behind a head that is not zero
leaves the allocation. -/
theorem full_write_at_offset {buf : KLRingBuffer} {src : List UInt8} (h : Inv buf)
    (hobj : src.length ≤ maxObject) (href : GrowthRefused buf src.length)
    (hall : src.length = buf.size) (hfull : buf.fill = buf.size) (hhead : buf.head ≠ 0) :
    (rbWriteWithState buf src).buf = none := by
  have hsize := h.size_le_maxObject
  have hlt := h.head_lt
  have hempty : (rbDiscard buf src.length).fill = 0 := by
    unfold maxObject at hsize
    rw [fill_rbDiscard, sizeSub_of_le (by omega) (by omega)]
    omega
  have hsame : (rbDiscard buf src.length).head = buf.head := by
    unfold maxObject at hsize
    rw [head_rbDiscard, sizeT_of_lt (by omega), hall, Nat.add_mod_right, Nat.mod_eq_of_lt hlt]
  have hcopy : rbCopyIn (rbDiscard buf src.length) src = none :=
    rbCopyIn_exact_at_offset (by rw [hsame]; exact hlt) hsize hempty hall
      (by rw [hsame]; exact hhead)
  simp [rbWriteWithState, rbReserve_of_refused h hobj href.1 href.2, hcopy]

/-- In every reachable state, a write of at most the maximum size treats an
overflow as the header says if and only if its growth is not refused, or the
ring is filled to its maximum and the write is shorter than that or starts at
the front of the allocation. -/
theorem overflow_keeps_newest_iff (size sizeMax : ℕ) (buf₀ buf : KLRingBuffer)
    (src : List UInt8) (hmax : sizeMax ≤ maxObject) (hnew : rbNew size sizeMax = some buf₀)
    (hreach : Reachable rbStep Admissible buf₀ buf) (hsrc : src.length ≤ buf.sizeMax) :
    OverflowKeepsNewest buf src ↔
      ¬GrowthRefused buf src.length ∨
        (buf.fill = buf.sizeMax ∧ (src.length < buf.sizeMax ∨ buf.head = 0)) := by
  have h := (inv_of_reachable hmax hnew hreach).1
  have hobj : src.length ≤ maxObject := hsrc.trans h.max_le
  have hover := didOverflow_iff h hobj
  have hfill := h.fill_le
  have hsize := h.size_le
  by_cases href : GrowthRefused buf src.length
  · have hover' := hover.mpr href
    simp only [OverflowKeepsNewest, hover', href, not_true_eq_false, false_or]
    constructor
    · rintro ⟨hkeep, hroom⟩
      obtain ⟨buf', hwrite, -, -, -, hcont⟩ := hkeep trivial
      obtain ⟨hinv', hfill'⟩ := refused_write_spec h hobj href hwrite
      have hno : ¬src.length ≤ buf.sizeMax - buf.fill := fun hr ↦ by simpa using hroom hr
      -- the fill level is unchanged, so the content cannot have filled up to the maximum
      have hlen := congrArg List.length hcont
      rw [hinv'.length_contents, List.length_append, List.length_drop, h.length_contents] at hlen
      have hfull : buf.fill = buf.sizeMax := by omega
      refine ⟨hfull, ?_⟩
      by_contra hnot
      push Not at hnot
      have hall : src.length = buf.size := by omega
      exact absurd hwrite (by
        rw [full_write_at_offset h hobj href hall (by omega) hnot.2]
        simp)
    · rintro ⟨hfull, hplace⟩
      obtain ⟨buf', hwrite, hinv', hcont⟩ := full_write_spec h hsrc hfull href hplace
      have hpos := href.1
      refine ⟨fun _ ↦ ⟨buf', hwrite, hinv'.fill_le, ?_, hinv'.head_lt, ?_⟩, by omega⟩
      · have hstep : rbStep buf (.write src) = some (buf', []) := by simp [rbStep, hwrite]
        exact hinv'.size_le.trans_eq (sizeMax_rbStep h hstep)
      · rw [hcont, hfull, Nat.add_sub_cancel_left]
  · have hover' : (rbWriteWithState buf src).didOverflow = false := by
      rw [← Bool.not_eq_true, hover]
      exact href
    simp [OverflowKeepsNewest, hover', href]

/-- A full ring of four bytes that is overwritten by two. -/
theorem overflow_keeps_newest_full :
    OverflowKeepsNewest
      { data := [1, 2, 3, 4], sizeMax := 4, sizeInitial := 4, head := 0, fill := 4 } [5, 6] :=
  (overflow_keeps_newest_iff 4 4 _ _ [5, 6] (by decide +kernel) rfl
    (.step (i := .write [1, 2, 3, 4]) .init (by decide +kernel)
      (show _ = some (_, ([] : List UInt8)) by decide +kernel))
    (by decide)).mpr (Or.inr (by decide))

/-- A write of two bytes into a new ring of three bytes that may grow to a
hundred, after two bytes: the maximum leaves room for it, yet an overflow is
reported and both old bytes are dropped. -/
theorem overflow_loses_bytes :
    Reachable rbStep Admissible
      { data := [0, 0, 0], sizeMax := 100, sizeInitial := 3, head := 0, fill := 0 }
      { data := [1, 2, 0], sizeMax := 100, sizeInitial := 3, head := 0, fill := 2 } ∧
    rbNew 3 100 =
      some { data := [0, 0, 0], sizeMax := 100, sizeInitial := 3, head := 0, fill := 0 } ∧
    ¬OverflowKeepsNewest
      { data := [1, 2, 0], sizeMax := 100, sizeInitial := 3, head := 0, fill := 2 } [5, 6] := by
  refine ⟨
    .step (i := .write [1, 2]) .init (by decide +kernel)
      (show _ = some (_, ([] : List UInt8)) by decide +kernel),
    rfl, ?_⟩
  intro h
  exact absurd (h.2 (by decide)) (by decide +kernel)

end LtnTsTools.RingBuffer
