import Mathlib.Tactic

/-!
# Loops that leave a list early

A loop over a list takes each element in turn and ends behind the first one that satisfies a
stop condition.  On a list in order such a loop misses nothing of what it is looking for, if
no element behind the stop is wanted.
-/

namespace LtnTsTools.EarlyExit

variable {α β : Type*}

/-- `for (x in xs) { b = f(b, x); if (stop(x)) break; }` -/
def foldUntil (f : β → α → β) (stop : α → Prop) [DecidablePred stop] : β → List α → β
  | b, [] => b
  | b, x :: xs => if stop x then f b x else foldUntil f stop (f b x) xs

def scanned (stop : α → Prop) [DecidablePred stop] : List α → List α
  | [] => []
  | x :: xs => if stop x then [x] else x :: scanned stop xs

variable {stop p : α → Prop} [DecidablePred stop] [DecidablePred p] {r : α → α → Prop}

theorem foldUntil_eq (f : β → α → β) (xs : List α) (b : β) :
    foldUntil f stop b xs = (scanned stop xs).foldl f b := by
  induction xs generalizing b with
  | nil => rfl
  | cons x xs ih =>
      rw [foldUntil, scanned]
      split_ifs with hstop
      · rfl
      · rw [ih, List.foldl_cons]

theorem foldl_ite_eq (f : β → α → β) (xs : List α) (b : β) :
    xs.foldl (fun b x ↦ if p x then f b x else b) b =
      (xs.filter fun x ↦ decide (p x)).foldl f b := by
  rw [List.foldl_filter]
  simp only [decide_eq_true_eq]

/-- If nothing behind the stop is wanted, everything wanted is scanned. -/
theorem filter_scanned {xs : List α} (hsorted : xs.Pairwise r)
    (hbehind : ∀ x y, r x y → stop x → ¬p y) :
    ((scanned stop xs).filter fun x ↦ decide (p x)) = xs.filter fun x ↦ decide (p x) := by
  induction xs with
  | nil => rfl
  | cons x xs ih =>
      obtain ⟨hx, hxs⟩ := List.pairwise_cons.mp hsorted
      rw [scanned]
      split_ifs with hstop
      · have hnone : (xs.filter fun y ↦ decide (p y)) = [] := by
          rw [List.filter_eq_nil_iff]
          intro y hy
          simpa using hbehind x y (hx y hy) hstop
        rw [List.filter_cons, List.filter_cons, hnone, List.filter_nil]
      · rw [List.filter_cons, List.filter_cons, ih hxs]

/-- If all elements behind the stop satisfy it, only the first of them is scanned. -/
theorem scanned_eq {xs : List α} (hsorted : xs.Pairwise r)
    (hbehind : ∀ x y, r x y → stop x → stop y) :
    scanned stop xs =
      (xs.filter fun x ↦ decide (¬stop x)) ++ (xs.filter fun x ↦ decide (stop x)).take 1 := by
  induction xs with
  | nil => rfl
  | cons x xs ih =>
      obtain ⟨hx, hxs⟩ := List.pairwise_cons.mp hsorted
      rw [scanned]
      split_ifs with hstop
      · have hall : ∀ y ∈ xs, stop y := fun y hy ↦ hbehind x y (hx y hy) hstop
        simpa [hstop] using hall
      · simp [hstop, ih hxs]

end LtnTsTools.EarlyExit
