import Mathlib.Data.List.Defs
import Mathlib.Tactic

/-!
# Neighbours

The consecutive pairs of a list that grows at its end, and what is counted over them.
-/

namespace LtnTsTools.Neighbours

variable {α : Type*}

/-- A list that grows gains the pair of its old end and its new one. -/
theorem consecutivePairs_concat (l : List α) (b : α) :
    (l ++ [b]).consecutivePairs = l.consecutivePairs ++ l.getLast?.toList.map (·, b) := by
  induction l with
  | nil => rfl
  | cons a rest ih =>
      cases rest with
      | nil => rfl
      | cons c rest =>
          rw [List.getLast?_cons_cons]
          exact congrArg (List.cons (a, c)) ih

theorem consecutivePairs_concat_of_last {l : List α} {a : α} (h : l.getLast? = some a) (b : α) :
    (l ++ [b]).consecutivePairs = l.consecutivePairs ++ [(a, b)] := by
  rw [consecutivePairs_concat, h]
  rfl

def countNeighbours (f : α → α → Bool) (l : List α) : ℕ :=
  l.consecutivePairs.countP fun x ↦ f x.1 x.2

def lastNeighbours (f : α → α → Bool) (l : List α) : Bool :=
  l.consecutivePairs.getLast?.any fun x ↦ f x.1 x.2

theorem countNeighbours_concat (f : α → α → Bool) (l : List α) (b : α) :
    countNeighbours f (l ++ [b]) =
      countNeighbours f l + if ∃ a ∈ l.getLast?, f a b then 1 else 0 := by
  rw [countNeighbours, consecutivePairs_concat, List.countP_append]
  cases hlast : l.getLast? with
  | none => simp [countNeighbours]
  | some a => simp [countNeighbours, List.countP_singleton]

theorem countNeighbours_concat_of_last (f : α → α → Bool) {l : List α} {a : α}
    (h : l.getLast? = some a) (b : α) :
    countNeighbours f (l ++ [b]) = countNeighbours f l + (f a b).toNat := by
  rw [countNeighbours_concat, h]
  cases hf : f a b <;> simp [hf]

theorem lastNeighbours_concat_of_last (f : α → α → Bool) {l : List α} {a : α}
    (h : l.getLast? = some a) (b : α) : lastNeighbours f (l ++ [b]) = f a b := by
  rw [lastNeighbours, consecutivePairs_concat_of_last h, List.getLast?_concat]
  rfl

theorem countNeighbours_eq (f : α → α → Bool) (l : List α) :
    countNeighbours f l = countNeighbours f l.dropLast + (lastNeighbours f l).toNat := by
  induction l using List.reverseRecOn with
  | nil => rfl
  | append_singleton l b ih =>
      rw [List.dropLast_concat]
      cases hlast : l.getLast? with
      | none =>
          rw [List.getLast?_eq_none_iff.mp hlast]
          rfl
      | some a =>
          rw [countNeighbours_concat_of_last f hlast, lastNeighbours_concat_of_last f hlast]

end LtnTsTools.Neighbours
