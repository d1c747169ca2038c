import Mathlib.Data.List.Rotate
import LtnTsTools.Region

/-!
# Cyclic windows

The `n` cells that start at `head` and continue past the last cell at the
first one.  This is the content of a ring with read position `head` and fill
level `n`.  The lemmas say what the two shapes of a copy do to a window (one
block, or two blocks split at the end of the region), what advancing the head
does, and when a window survives the region being extended.
-/

namespace LtnTsTools.CyclicWindow

open Region

variable {α : Type*}

/-- The `n` cells from `head` on, taken cyclically. -/
def window (cells : List α) (head n : ℕ) : List α := (cells.rotate head).take n

@[simp] theorem window_zero (cells : List α) (head : ℕ) : window cells head 0 = [] := by
  simp [window]

theorem length_window {cells : List α} {head n : ℕ} (hn : n ≤ cells.length) :
    (window cells head n).length = n := by
  simp [window, hn]

theorem getElem?_window {cells : List α} {head n i : ℕ} (hi : i < n)
    (hn : n ≤ cells.length) :
    (window cells head n)[i]? = cells[(head + i) % cells.length]? := by
  rw [window, List.getElem?_take_of_lt hi, List.getElem?_rotate (by omega), Nat.add_comm]

/-- A position at most one revolution past the head, without the modulo. -/
theorem wrapped_mod {a n : ℕ} (ha : a < 2 * n) :
    a % n = if a < n then a else a - n := by
  split_ifs with h
  · exact Nat.mod_eq_of_lt h
  · rw [Nat.mod_eq_sub_mod (by omega), Nat.mod_eq_of_lt (by omega)]

/-- Advancing the head by `k` drops the `k` oldest cells. -/
theorem window_advance {cells : List α} {head n k : ℕ} (hk : k ≤ n)
    (hn : n ≤ cells.length) :
    window cells ((head + k) % cells.length) (n - k) = (window cells head n).drop k := by
  have hrot : cells.rotate ((head + k) % cells.length) = (cells.rotate head).rotate k := by
    rw [List.rotate_mod, List.rotate_rotate]
  have hlen : k ≤ (cells.rotate head).length := by
    rw [List.length_rotate]
    omega
  rw [window, window, hrot, List.rotate_eq_drop_append_take hlen, List.drop_take,
    List.take_append_of_le_length]
  rw [List.length_drop, List.length_rotate]
  omega

/-- A window that keeps its old cells and has `src` in the cells behind it has
`src` appended. -/
theorem window_append_of_agree {cells cells' src : List α} {head n : ℕ}
    (hlen : cells'.length = cells.length) (hn : n + src.length ≤ cells.length)
    (hold : ∀ i < n, cells'[(head + i) % cells.length]? = cells[(head + i) % cells.length]?)
    (hnew : ∀ j < src.length, cells'[(head + n + j) % cells.length]? = src[j]?) :
    window cells' head (n + src.length) = window cells head n ++ src := by
  apply List.ext_getElem?
  intro i
  have hfst : (window cells head n).length = n := length_window (by omega)
  rcases lt_or_ge i n with hi | hi
  · rw [getElem?_window (by omega) (by omega), List.getElem?_append_left (by omega),
      getElem?_window hi (by omega), hlen, hold i hi]
  · rw [List.getElem?_append_right (by omega), hfst]
    rcases lt_or_ge i (n + src.length) with hi' | hi'
    · rw [getElem?_window hi' (by omega), hlen, ← hnew (i - n) (by omega)]
      congr 2
      omega
    · rw [List.getElem?_eq_none, List.getElem?_eq_none (by omega)]
      rw [length_window (by omega)]
      omega

/-- One block copied to the cell behind the window, without passing the end. -/
theorem window_store_block {cells cells' src : List α} {head n : ℕ}
    (hhead : head < cells.length) (hn : n + src.length ≤ cells.length)
    (hend : (head + n) % cells.length + src.length ≤ cells.length)
    (h : store cells ((head + n) % cells.length) src = some cells') :
    window cells' head (n + src.length) = window cells head n ++ src := by
  rcases Nat.eq_zero_or_pos src.length with hz | hpos
  · -- an empty copy may sit on the head itself, so the index argument is not needed
    have hsrc : src = [] := List.length_eq_zero_iff.mp hz
    subst hsrc
    have hcells : cells' = cells := by
      rw [store_eq_some hend, Option.some.injEq] at h
      simpa using h.symm
    simp [hcells]
  · have htail := wrapped_mod (a := head + n) (n := cells.length) (by omega)
    apply window_append_of_agree (length_of_store h) hn
    · intro i hi
      have hpos' := wrapped_mod (a := head + i) (n := cells.length) (by omega)
      rw [getElem?_of_store h, if_neg]
      rintro ⟨h1, h2⟩
      split_ifs at htail hpos' <;> omega
    · intro j hj
      have hpos' := wrapped_mod (a := head + n + j) (n := cells.length) (by omega)
      have heq : (head + n + j) % cells.length = (head + n) % cells.length + j := by
        split_ifs at htail hpos' <;> omega
      rw [getElem?_of_store h, heq, if_pos (by omega), Nat.add_sub_cancel_left]

/-- A copy that passes the end, split into the block up to the end and the
block from the first cell. -/
theorem window_store_split {cells mid cells' src : List α} {head n first : ℕ}
    (hhead : head < cells.length) (hn : n + src.length ≤ cells.length)
    (hfirst : first = cells.length - (head + n) % cells.length)
    (hle : first ≤ src.length)
    (h1 : store cells ((head + n) % cells.length) (src.take first) = some mid)
    (h2 : store mid 0 (src.drop first) = some cells') :
    window cells' head (n + src.length) = window cells head n ++ src := by
  have htail := wrapped_mod (a := head + n) (n := cells.length) (by omega)
  have hlen1 : (src.take first).length = first := by
    rw [List.length_take]
    omega
  have hlen2 : (src.drop first).length = src.length - first := List.length_drop
  have hget := fun i ↦ (getElem?_of_store h2 i).trans
    (congrArg (fun o ↦ if 0 ≤ i ∧ i < 0 + (src.drop first).length then
      (src.drop first)[i - 0]? else o) (getElem?_of_store h1 i))
  apply window_append_of_agree ((length_of_store h2).trans (length_of_store h1)) hn
  · intro i hi
    have hpos' := wrapped_mod (a := head + i) (n := cells.length) (by omega)
    rw [hget, if_neg, if_neg]
    · rintro ⟨h3, h4⟩
      split_ifs at htail hpos' <;> omega
    · rintro ⟨h3, h4⟩
      split_ifs at htail hpos' <;> omega
  · intro j hj
    have hpos' := wrapped_mod (a := head + n + j) (n := cells.length) (by omega)
    rw [hget]
    rcases lt_or_ge j first with hj' | hj'
    · have heq : (head + n + j) % cells.length = (head + n) % cells.length + j := by
        split_ifs at htail hpos' <;> omega
      rw [if_neg, if_pos, heq, Nat.add_sub_cancel_left, List.getElem?_take_of_lt hj']
      · rw [heq, hlen1]
        omega
      · split_ifs at htail <;> omega
    · have heq : (head + n + j) % cells.length = j - first := by
        split_ifs at htail hpos' <;> omega
      rw [if_pos (by omega), heq, List.getElem?_drop]
      congr 1
      omega

theorem load_block {cells : List α} {head n : ℕ} (hhead : head < cells.length)
    (h : head + n ≤ cells.length) : load cells head n = some (window cells head n) := by
  rw [load_eq_some h, window, List.rotate_eq_drop_append_take hhead.le,
    List.take_append_of_le_length]
  rw [List.length_drop]
  omega

/-- A window read as two blocks split at the end of the region. -/
theorem load_split {cells : List α} {head n : ℕ} (hhead : head < cells.length)
    (hn : n ≤ cells.length) (h : cells.length ≤ head + n) :
    (cells.drop head).take (cells.length - head) ++
      (cells.drop 0).take (n - (cells.length - head)) = window cells head n := by
  have hdrop : (cells.drop head).length = cells.length - head := List.length_drop
  have hwhole : ∀ m, cells.length - head ≤ m → (cells.drop head).take m = cells.drop head :=
    fun m hm ↦ List.take_of_length_le (by omega)
  symm
  calc window cells head n
      _ = (cells.drop head ++ cells.take head).take n := by
        rw [window, List.rotate_eq_drop_append_take hhead.le]
      _ = (cells.drop head).take n ++ (cells.take head).take (n - (cells.length - head)) := by
        rw [List.take_append, hdrop]
      _ = cells.drop head ++ cells.take (n - (cells.length - head)) := by
        rw [hwhole n (by omega), List.take_take, min_eq_left (by omega)]
      _ = _ := by rw [hwhole _ le_rfl, List.drop_zero]

/-- A window that does not pass the end is unchanged when the region is extended. -/
theorem window_extend {cells pad : List α} {head n : ℕ} (hhead : head < cells.length)
    (h : head + n ≤ cells.length) :
    window (cells ++ pad) head n = window cells head n := by
  have hlen : head + n ≤ (cells ++ pad).length := by
    rw [List.length_append]
    omega
  have hload : load (cells ++ pad) head n = load cells head n := by
    rw [load_eq_some hlen, load_eq_some h, List.drop_append_of_le_length hhead.le,
      List.take_append_of_le_length]
    rw [List.length_drop]
    omega
  rw [load_block (by rw [List.length_append]; omega) hlen, load_block hhead h] at hload
  exact Option.some.inj hload

end LtnTsTools.CyclicWindow
