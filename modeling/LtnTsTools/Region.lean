import Mathlib.Tactic

/-!
# Bounds-checked memory regions

A region is a finite list of cells.  `load` and `store` copy a block out of a
region and into it; both are defined only when the whole block lies inside, so
a program that copies through them cannot reach a cell it does not own without
the access showing up as `none`.
-/

namespace LtnTsTools.Region

variable {α : Type*}

/-- The `n` cells from `off` on, if they all lie inside the region. -/
def load (cells : List α) (off n : ℕ) : Option (List α) :=
  if off + n ≤ cells.length then some ((cells.drop off).take n) else none

/-- The region with `src` copied to `off`, if the copy lies inside it. -/
def store (cells : List α) (off : ℕ) (src : List α) : Option (List α) :=
  if off + src.length ≤ cells.length then
    some (cells.take off ++ (src ++ cells.drop (off + src.length)))
  else none

theorem load_eq_some {cells : List α} {off n : ℕ} (h : off + n ≤ cells.length) :
    load cells off n = some ((cells.drop off).take n) := if_pos h

theorem load_isSome_iff {cells : List α} {off n : ℕ} :
    (load cells off n).isSome ↔ off + n ≤ cells.length := by
  unfold load
  split_ifs with h <;> simp [h]

/-- What lies inside a region lies inside a longer one. -/
theorem load_mono {cells cells' : List α} (h : cells <+: cells') {off n : ℕ} {block : List α}
    (hload : load cells off n = some block) : load cells' off n = some block := by
  obtain ⟨more, rfl⟩ := h
  have hin : off + n ≤ cells.length := load_isSome_iff.mp (by rw [hload]; rfl)
  rw [load_eq_some hin] at hload
  rw [load_eq_some (by rw [List.length_append]; omega), ← hload,
    List.drop_append_of_le_length (by omega),
    List.take_append_of_le_length (by rw [List.length_drop]; omega)]

theorem store_eq_some {cells : List α} {off : ℕ} {src : List α}
    (h : off + src.length ≤ cells.length) :
    store cells off src =
      some (cells.take off ++ (src ++ cells.drop (off + src.length))) := if_pos h

theorem store_isSome_iff {cells : List α} {off : ℕ} {src : List α} :
    (store cells off src).isSome ↔ off + src.length ≤ cells.length := by
  unfold store
  split_ifs with h <;> simp [h]

theorem store_eq_none_iff {cells : List α} {off : ℕ} {src : List α} :
    store cells off src = none ↔ cells.length < off + src.length := by
  unfold store
  split_ifs with h <;> simp <;> omega

theorem bound_of_store {cells cells' : List α} {off : ℕ} {src : List α}
    (h : store cells off src = some cells') : off + src.length ≤ cells.length :=
  store_isSome_iff.mp (by rw [h]; rfl)

theorem length_of_store {cells cells' : List α} {off : ℕ} {src : List α}
    (h : store cells off src = some cells') : cells'.length = cells.length := by
  have hb := bound_of_store h
  rw [store_eq_some hb, Option.some.injEq] at h
  subst h
  simp only [List.length_append, List.length_take, List.length_drop]
  omega

/-- The end of a stored block is a prefix that ends in the source. -/
theorem take_of_store {cells cells' : List α} {off : ℕ} {src : List α}
    (h : store cells off src = some cells') :
    cells'.take (off + src.length) = cells.take off ++ src := by
  have hb := bound_of_store h
  rw [store_eq_some hb, Option.some.injEq] at h
  have hlen : (cells.take off).length = off := by
    rw [List.length_take]
    omega
  rw [← h, ← List.append_assoc]
  exact List.take_left' (by rw [List.length_append, hlen])

/-- A stored region holds the source inside the block and its old cells
everywhere else. -/
theorem getElem?_of_store {cells cells' : List α} {off : ℕ} {src : List α}
    (h : store cells off src = some cells') (i : ℕ) :
    cells'[i]? = if off ≤ i ∧ i < off + src.length then src[i - off]? else cells[i]? := by
  have hb := bound_of_store h
  rw [store_eq_some hb, Option.some.injEq] at h
  subst h
  have htake : (cells.take off).length = off := by
    rw [List.length_take]
    omega
  rcases lt_or_ge i off with hi | hi
  · rw [List.getElem?_append_left (by omega), List.getElem?_take_of_lt hi,
      if_neg (by omega)]
  · rw [List.getElem?_append_right (by omega), htake]
    rcases lt_or_ge i (off + src.length) with hi' | hi'
    · rw [List.getElem?_append_left (by omega), if_pos ⟨hi, hi'⟩]
    · rw [List.getElem?_append_right (by omega), List.getElem?_drop,
        if_neg (by omega)]
      congr 1
      omega

end LtnTsTools.Region
