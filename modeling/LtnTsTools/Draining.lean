import Mathlib.Tactic

/-!
# Draining a buffer

A consumer of a growing buffer: `next` takes one piece off the front of the
buffer, or finds that there is none yet.  Data arrives in portions, and after each
portion the consumer takes pieces until it is stuck.  If a piece that can be taken
can still be taken when more data follows, the pieces do not depend on how the
data is portioned.
-/

namespace LtnTsTools.Draining

variable {α β : Type*}

/-- Pieces get shorter buffers, and more data behind the buffer changes nothing. -/
structure Incremental (next : List α → Option (β × List α)) : Prop where
  shrinks : ∀ {xs y rest}, next xs = some (y, rest) → rest.length < xs.length
  extends_ : ∀ {xs y rest} (more : List α), next xs = some (y, rest) →
    next (xs ++ more) = some (y, rest ++ more)

/-- Taking pieces off `xs` until the consumer is stuck. -/
inductive Drains (next : List α → Option (β × List α)) : List α → List β → List α → Prop
  | stuck {xs : List α} (h : next xs = none) : Drains next xs [] xs
  | take {xs rest left : List α} {y : β} {ys : List β} (h : next xs = some (y, rest))
      (hrest : Drains next rest ys left) : Drains next xs (y :: ys) left

variable {next : List α → Option (β × List α)}

theorem Incremental.drains (hn : Incremental next) (xs : List α) :
    ∃ ys left, Drains next xs ys left := by
  induction hlen : xs.length using Nat.strongRecOn generalizing xs with
  | _ n ih =>
      cases h : next xs with
      | none => exact ⟨[], xs, .stuck h⟩
      | some r =>
          obtain ⟨ys, left, hrest⟩ := ih r.2.length (hlen ▸ hn.shrinks h) r.2 rfl
          exact ⟨r.1 :: ys, left, .take h hrest⟩

theorem Drains.left_stuck {xs left : List α} {ys : List β} (h : Drains next xs ys left) :
    next left = none := by
  induction h with
  | stuck h => exact h
  | take _ _ ih => exact ih

theorem Drains.length_le (hn : Incremental next) {xs left : List α} {ys : List β}
    (h : Drains next xs ys left) : left.length ≤ xs.length := by
  induction h with
  | stuck _ => exact le_rfl
  | take h _ ih => exact ih.trans (hn.shrinks h).le

theorem Drains.unique {xs left left' : List α} {ys ys' : List β} (h : Drains next xs ys left)
    (h' : Drains next xs ys' left') : ys = ys' ∧ left = left' := by
  induction h generalizing ys' left' with
  | stuck h =>
      cases h' with
      | stuck _ => exact ⟨rfl, rfl⟩
      | take h' _ => simp [h] at h'
  | take h _ ih =>
      cases h' with
      | stuck h' => simp [h] at h'
      | take h' hrest' =>
          rw [h, Option.some.injEq, Prod.mk.injEq] at h'
          obtain ⟨rfl, rfl⟩ := h'
          obtain ⟨rfl, rfl⟩ := ih hrest'
          exact ⟨rfl, rfl⟩

/-- Draining a buffer and then what is left of it with more data is draining all
of it. -/
theorem Drains.append (hn : Incremental next) {xs left left' more : List α} {ys ys' : List β}
    (h : Drains next xs ys left) (h' : Drains next (left ++ more) ys' left') :
    Drains next (xs ++ more) (ys ++ ys') left' := by
  induction h with
  | stuck _ => exact h'
  | take h _ ih => exact .take (hn.extends_ more h) (ih h')

/-- Portions: the first one is drained behind what was left before. -/
inductive Portions (next : List α → Option (β × List α)) :
    List α → List (List α) → List (List β) → List α → Prop
  | done {left : List α} : Portions next left [] [] left
  | more {left rest left' : List α} {portion : List α} {portions : List (List α)}
      {ys : List β} {yss : List (List β)} (h : Drains next (left ++ portion) ys rest)
      (hrest : Portions next rest portions yss left') :
      Portions next left (portion :: portions) (ys :: yss) left'

theorem Incremental.portions (hn : Incremental next) (portions : List (List α)) :
    ∀ left, ∃ yss left', Portions next left portions yss left' := by
  induction portions with
  | nil => exact fun left ↦ ⟨[], left, .done⟩
  | cons portion rest ih =>
      intro left
      obtain ⟨ys, mid, h⟩ := hn.drains (left ++ portion)
      obtain ⟨yss, left', hrest⟩ := ih mid
      exact ⟨ys :: yss, left', .more h hrest⟩

theorem Portions.length_eq {left left' : List α} {portions : List (List α)}
    {yss : List (List β)} (h : Portions next left portions yss left') :
    portions.length = yss.length := by
  induction h with
  | done => rfl
  | more _ _ ih => rw [List.length_cons, List.length_cons, ih]

/-- Draining portion by portion is draining all portions at once. -/
theorem Portions.flatten (hn : Incremental next) {left left' : List α}
    {portions : List (List α)} {yss : List (List β)} (h : Portions next left portions yss left')
    (hstuck : next left = none) : Drains next (left ++ portions.flatten) yss.flatten left' := by
  induction h with
  | done => simpa using Drains.stuck hstuck
  | more h _ ih =>
      rw [List.flatten_cons, List.flatten_cons, ← List.append_assoc]
      exact h.append hn (ih h.left_stuck)

/-! ## Frames of one length -/

/-- The first `n` elements, if there are so many. -/
def takeFrame (n : ℕ) (xs : List α) : Option (List α × List α) :=
  if n ≤ xs.length then some (xs.take n, xs.drop n) else none

theorem takeFrame_append {n : ℕ} {frame : List α} (h : frame.length = n) (rest : List α) :
    takeFrame n (frame ++ rest) = some (frame, rest) := by
  have hle : n ≤ (frame ++ rest).length := by
    rw [List.length_append]
    omega
  rw [takeFrame, if_pos hle, List.take_left' h, List.drop_left' h]

theorem takeFrame_eq_none_iff {n : ℕ} {xs : List α} : takeFrame n xs = none ↔ xs.length < n := by
  simp [takeFrame]

theorem exists_of_takeFrame {n : ℕ} {xs frame rest : List α}
    (h : takeFrame n xs = some (frame, rest)) : xs = frame ++ rest ∧ frame.length = n := by
  by_cases hle : n ≤ xs.length
  · simp only [takeFrame, if_pos hle, Option.some.injEq, Prod.mk.injEq] at h
    obtain ⟨rfl, rfl⟩ := h
    exact ⟨(List.take_append_drop n xs).symm, List.length_take_of_le hle⟩
  · simp [takeFrame, hle] at h

theorem takeFrame_incremental {n : ℕ} (hn : 0 < n) :
    Incremental (takeFrame n : List α → Option (List α × List α)) where
  shrinks := by
    intro xs frame rest h
    obtain ⟨rfl, hlen⟩ := exists_of_takeFrame h
    rw [List.length_append]
    omega
  extends_ := by
    intro xs frame rest more h
    obtain ⟨rfl, hlen⟩ := exists_of_takeFrame h
    rw [List.append_assoc]
    exact takeFrame_append hlen _

/-- The frames and what is left behind them make up the buffer. -/
theorem drains_takeFrame {n : ℕ} {xs left : List α} {frames : List (List α)}
    (h : Drains (takeFrame n) xs frames left) :
    frames.flatten ++ left = xs ∧ (∀ frame ∈ frames, frame.length = n) ∧ left.length < n := by
  induction h with
  | stuck h => exact ⟨rfl, by simp, takeFrame_eq_none_iff.mp h⟩
  | take h _ ih =>
      obtain ⟨hall, hframes, hleft⟩ := ih
      obtain ⟨rfl, hlen⟩ := exists_of_takeFrame h
      refine ⟨by rw [List.flatten_cons, List.append_assoc, hall], ?_, hleft⟩
      exact List.forall_mem_cons.mpr ⟨hlen, hframes⟩

end LtnTsTools.Draining
