import Mathlib.Tactic

/-!
# Scattering values over cells

A loop folds each of some values into the cell that it is sent to.  Every cell ends as the fold
of the values sent to it, and a sum over all cells is a sum over all values.  The cells of groups
of neighbours are their last indices.
-/

namespace LtnTsTools.Scatter

variable {α β ι : Type*}

/-- `for (i in is) cells[node(i)] = f(cells[node(i)], value(i));` -/
def scatter (f : β → α → β) (node : ι → ℕ) (value : ι → α) (cells : List β) (is : List ι) :
    List β :=
  is.foldl (fun cells i ↦ cells.modify (node i) (f · (value i))) cells

variable {f : β → α → β} {node : ι → ℕ} {value : ι → α} {cells : List β}

theorem scatter_cons (i : ι) (is : List ι) : scatter f node value cells (i :: is) =
    scatter f node value (cells.modify (node i) (f · (value i))) is := rfl

theorem scatter_append (is js : List ι) : scatter f node value cells (is ++ js) =
    scatter f node value (scatter f node value cells is) js := by
  rw [scatter, List.foldl_append]
  rfl

@[simp] theorem length_scatter (is : List ι) :
    (scatter f node value cells is).length = cells.length := by
  induction is generalizing cells with
  | nil => rfl
  | cons i is ih => rw [scatter_cons, ih, List.length_modify]

theorem scatter_congr {node' : ι → ℕ} {is : List ι} (h : ∀ i ∈ is, node i = node' i) :
    scatter f node value cells is = scatter f node' value cells is := by
  induction is generalizing cells with
  | nil => rfl
  | cons i is ih =>
      obtain ⟨hi, his⟩ := List.forall_mem_cons.mp h
      rw [scatter_cons, scatter_cons, hi, ih his]

/-- Each cell takes the values that are sent to it, each of them once. -/
theorem getElem?_scatter (is : List ι) (k : ℕ) : (scatter f node value cells is)[k]? =
    cells[k]?.map fun c ↦ ((is.filter fun i ↦ node i = k).map value).foldl f c := by
  induction is generalizing cells with
  | nil => simp [scatter]
  | cons i is ih =>
      rw [scatter_cons, ih, List.getElem?_modify]
      by_cases hi : node i = k
      · simp [hi, Function.comp_def]
      · simp [hi]

/-- What a change of one cell does to a sum over all. -/
theorem sum_map_modify {c : β → ℕ} {g : β → β} {i : ℕ} {b : β} (h : cells[i]? = some b) :
    ((cells.modify i g).map c).sum + c b = (cells.map c).sum + c (g b) := by
  induction cells generalizing i with
  | nil => simp at h
  | cons x xs ih =>
      cases i with
      | zero =>
          obtain rfl : x = b := by simpa using h
          simp only [List.modify_zero_cons, List.map_cons, List.sum_cons]
          omega
      | succ i =>
          have hrest := ih (i := i) (by simpa using h)
          simp only [List.modify_succ_cons, List.map_cons, List.sum_cons]
          omega

/-- If every value has a cell, all cells together hold all values. -/
theorem sum_cells {M : Type*} [AddCommMonoid M] {n m : ℕ} {node : ℕ → ℕ} (x : ℕ → M)
    (hnode : ∀ j < n, node j < m) :
    ∑ k ∈ Finset.range m, ∑ j ∈ Finset.range n with node j = k, x j =
      ∑ j ∈ Finset.range n, x j := by
  apply Finset.sum_fiberwise_of_maps_to
  intro j hj
  exact Finset.mem_range.mpr (hnode j (Finset.mem_range.mp hj))

/-- Counters that are cut to `M` add up exactly if none of them is cut. -/
theorem sum_mod_eq_iff {s : Finset ι} {x : ι → ℕ} {M : ℕ} (hM : 0 < M) :
    ∑ i ∈ s, x i % M = ∑ i ∈ s, x i ↔ ∀ i ∈ s, x i < M := by
  rw [Finset.sum_eq_sum_iff_of_le fun i _ ↦ Nat.mod_le (x i) M]
  refine forall₂_congr fun i _ ↦ ?_
  exact ⟨fun h ↦ h ▸ Nat.mod_lt _ hM, Nat.mod_eq_of_lt⟩

/-! ## Groups of neighbours -/

/-- The last index of the group of `j`: groups of `size` indices below `n`, the last one cut. -/
def groupEnd (n size j : ℕ) : ℕ := min ((j / size + 1) * size - 1) (n - 1)

variable {n size j q : ℕ}

theorem groupEnd_lt (h : j < n) : groupEnd n size j < n := by
  unfold groupEnd
  omega

theorem groupEnd_of_mem (hlow : q * size ≤ j) (hhigh : j < (q + 1) * size) :
    groupEnd n size j = min ((q + 1) * size - 1) (n - 1) := by
  rw [groupEnd, Nat.div_eq_of_lt_le hlow hhigh]

end LtnTsTools.Scatter
