import Mathlib.Data.List.Chain
import Mathlib.Data.List.Induction
import Mathlib.Tactic.Linarith

/-!
# Recent entries

A list takes new entries at its end, and then drops entries from its front for as long as they
are expired for the newest one.  It is always an end of all entries so far, and on a clock that
moves forward in small steps it is all entries of a fixed window.
-/

namespace LtnTsTools.RecentWindow

variable {ι : Type*}

section Entries

variable (expired : ι → ι → Bool)

/-- A new entry, and the expired ones dropped. -/
def remember (held : List ι) (x : ι) : List ι := (held ++ [x]).dropWhile (expired x)

def rememberAll (held xs : List ι) : List ι := xs.foldl (remember expired) held

@[simp] theorem rememberAll_append (held xs ys : List ι) :
    rememberAll expired held (xs ++ ys) = rememberAll expired (rememberAll expired held xs) ys :=
  List.foldl_append

theorem remember_suffix (held : List ι) (x : ι) : remember expired held x <:+ held ++ [x] :=
  List.dropWhile_suffix _

theorem rememberAll_suffix (xs held : List ι) : rememberAll expired held xs <:+ held ++ xs := by
  induction xs generalizing held with
  | nil => simp [rememberAll]
  | cons x rest ih =>
      refine (ih (remember expired held x)).trans ?_
      obtain ⟨front, hfront⟩ := remember_suffix expired held x
      exact ⟨front, by rw [← List.append_assoc, hfront, List.append_assoc]; rfl⟩

variable {expired}

theorem getLast?_remember {held : List ι} {x : ι} (hx : expired x x = false) :
    (remember expired held x).getLast? = some x := by
  unfold remember
  induction held with
  | nil => simp [hx]
  | cons y rest ih =>
      rw [List.cons_append, List.dropWhile_cons]
      split_ifs
      · exact ih
      · rw [← List.cons_append, List.getLast?_concat]

theorem getLast?_rememberAll (hself : ∀ x, expired x x = false) {held xs : List ι} (hxs : xs ≠ []) :
    (rememberAll expired held xs).getLast? = xs.getLast? := by
  induction xs using List.reverseRecOn with
  | nil => exact absurd rfl hxs
  | append_singleton xs x =>
      rw [rememberAll_append, List.getLast?_concat]
      exact getLast?_remember (hself x)

end Entries

section Clock

variable {time : ι → ℤ}

/-- From an entry to the next one the clock moves forward, by a step at most. -/
def Steady (time : ι → ℤ) (step : ℤ) (xs : List ι) : Prop :=
  xs.IsChain fun a b ↦ time a ≤ time b ∧ time b ≤ time a + step

theorem Steady.sorted {step : ℤ} {xs : List ι} (h : Steady time step xs) :
    xs.Pairwise fun a b ↦ time a ≤ time b := by
  have hle : xs.IsChain fun a b ↦ time a ≤ time b := h.imp fun _ _ hab ↦ hab.1
  have htrans : Trans (fun a b : ι ↦ time a ≤ time b) (fun a b ↦ time a ≤ time b)
      (fun a b ↦ time a ≤ time b) := ⟨le_trans⟩
  exact hle.pairwise

/-- What is dropped from the front of a list in order is what is dropped anywhere in it. -/
theorem dropWhile_eq_filter {p : ι → Bool} {xs : List ι}
    (hmono : xs.Pairwise fun a b ↦ p b = true → p a = true) :
    xs.dropWhile p = xs.filter fun x ↦ !p x := by
  induction xs with
  | nil => rfl
  | cons x rest ih =>
      obtain ⟨hx, hrest⟩ := List.pairwise_cons.mp hmono
      cases hp : p x with
      | true => simp [hp, ih hrest]
      | false =>
          have hall : ∀ y ∈ rest, p y = false := by
            intro y hy
            by_contra hyp
            have hback := hx y hy (by simpa using hyp)
            simp [hp] at hback
          rw [List.dropWhile_cons_of_neg (by simp [hp]), List.filter_cons_of_pos (by simp [hp]),
            List.filter_eq_self.mpr fun y hy ↦ by simp [hall y hy]]

/-- On a steady clock what is held is what was added within the window: expiry has to be right
for entries that are not older than the window and one step. -/
theorem rememberAll_eq_filter {expired : ι → ι → Bool} {window step : ℤ}
    (hexpired : ∀ x y, time y ≤ time x → time x < time y + window + step →
      (expired x y = true ↔ time y + window ≤ time x))
    {xs : List ι} {x : ι} (hsteady : Steady time step (xs ++ [x])) (hwindow : 0 < window)
    (hstep : 0 ≤ step) :
    rememberAll expired [] (xs ++ [x]) =
      (xs ++ [x]).filter fun y ↦ decide (time x < time y + window) := by
  induction xs using List.reverseRecOn generalizing x with
  | nil =>
      have hself : expired x x = false := by
        rw [Bool.eq_false_iff, Ne, hexpired x x le_rfl (by linarith)]
        linarith
      simp [rememberAll, remember, hself, hwindow]
  | append_singleton ys a ih =>
      have hsorted := hsteady.sorted
      obtain ⟨hbefore, -, hlink⟩ := List.isChain_append.mp hsteady
      obtain ⟨hax, hxa⟩ := hlink a (by simp) x (by simp)
      have hheld := ih hbefore
      -- the entries that were held are no older than the window and a step
      have hyoung : ∀ y ∈ (ys ++ [a]).filter (fun y ↦ decide (time a < time y + window)) ++ [x],
          (expired x y = true ↔ time y + window ≤ time x) := by
        intro y hy
        rcases List.mem_append.mp hy with hold | hnew
        · obtain ⟨hmem, hrecent⟩ := List.mem_filter.mp hold
          have hle : time y ≤ time x := (List.pairwise_append.mp hsorted).2.2 y hmem x (by simp)
          have hlt : time a < time y + window := by simpa using hrecent
          exact hexpired x y hle (by linarith)
        · rw [List.mem_singleton.mp hnew]
          exact hexpired x x le_rfl (by linarith)
      have hmono : ((ys ++ [a]).filter (fun y ↦ decide (time a < time y + window)) ++
          [x]).Pairwise fun b c ↦ expired x c = true → expired x b = true := by
        have hsub : ((ys ++ [a]).filter (fun y ↦ decide (time a < time y + window)) ++
            [x]).Sublist (ys ++ [a] ++ [x]) := List.filter_sublist.append_right [x]
        refine (hsorted.sublist hsub).imp_of_mem fun hb hc hbc hexp ↦ ?_
        rw [hyoung _ hb]
        rw [hyoung _ hc] at hexp
        linarith
      rw [rememberAll_append, hheld]
      refine (dropWhile_eq_filter hmono).trans ?_
      have hswap : ∀ y ∈ (ys ++ [a]).filter (fun y ↦ decide (time a < time y + window)) ++ [x],
          (!expired x y) = decide (time x < time y + window) := by
        intro y hy
        rw [Bool.not_eq_eq_eq_not, ← decide_not, Bool.eq_iff_iff, hyoung y hy]
        simp
      rw [List.filter_congr hswap, List.filter_append, List.filter_append _ [x], List.filter_filter]
      congr 1
      refine List.filter_congr fun y _ ↦ ?_
      rw [Bool.and_eq_left_iff_imp, decide_eq_true_eq, decide_eq_true_eq]
      exact fun hlt ↦ by linarith

end Clock

end LtnTsTools.RecentWindow
