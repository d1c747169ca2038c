import Mathlib.Tactic

/-!
# Searching for positions

The first position from a point on that has a property, and the positions that are
found when the search is taken up again behind each find.  If nothing is passed over
between a find and the point where the search goes on, these are all positions with
the property, in order.  The property at hand is mostly that a pattern occurs there.
-/

namespace LtnTsTools.Occurrence

variable {P : ℕ → Prop}

/-- The outcome of a search for the first position from `j` on. -/
def FirstFrom (P : ℕ → Prop) (j : ℕ) : Option ℕ → Prop
  | some i => j ≤ i ∧ P i ∧ ∀ x, j ≤ x → x < i → ¬P x
  | none => ∀ x, j ≤ x → ¬P x

/-- Positions that are passed over before the search. -/
theorem FirstFrom.skip {j j' : ℕ} {r : Option ℕ} (h : FirstFrom P j' r) (hle : j ≤ j')
    (hskip : ∀ x, j ≤ x → x < j' → ¬P x) : FirstFrom P j r := by
  cases r with
  | none =>
      intro x hx
      rcases Nat.lt_or_ge x j' with hlt | hge
      · exact hskip x hx hlt
      · exact h x hge
  | some i =>
      refine ⟨hle.trans h.1, h.2.1, fun x hx hlt ↦ ?_⟩
      rcases Nat.lt_or_ge x j' with hlt' | hge
      · exact hskip x hx hlt'
      · exact h.2.2 x hge hlt

theorem FirstFrom.unique {j i i' : ℕ} (h : FirstFrom P j (some i)) (h' : FirstFrom P j (some i')) :
    i = i' := by
  have hle : i' ≤ i := not_lt.mp fun hlt ↦ h'.2.2 i h.1 hlt h.2.1
  have hge : i ≤ i' := not_lt.mp fun hlt ↦ h.2.2 i' h'.1 hlt h'.2.1
  exact le_antisymm hge hle

/-- A search that counts from the position where it starts. -/
theorem FirstFrom.shift {j : ℕ} {r : Option ℕ} (h : FirstFrom (fun i ↦ P (j + i)) 0 r) :
    FirstFrom P j (r.map (j + ·)) := by
  have hshift : ∀ x, j ≤ x → ∃ i, x = j + i := fun x hx ↦ ⟨x - j, by omega⟩
  cases r with
  | none =>
      intro x hx
      obtain ⟨i, rfl⟩ := hshift x hx
      exact h i (Nat.zero_le i)
  | some i =>
      refine ⟨Nat.le_add_right j i, h.2.1, fun x hx hlt ↦ ?_⟩
      obtain ⟨i', rfl⟩ := hshift x hx
      exact h.2.2 i' (Nat.zero_le i') (Nat.lt_of_add_lt_add_left hlt)

/-- The positions found from `j` on; behind a find the search goes on at a position
that passes nothing over. -/
inductive Visits (P : ℕ → Prop) : ℕ → List ℕ → Prop
  | done {j : ℕ} (h : FirstFrom P j none) : Visits P j []
  | found {j i next : ℕ} {rest : List ℕ} (h : FirstFrom P j (some i)) (hnext : i < next)
      (hgap : ∀ x, i < x → x < next → ¬P x) (hrest : Visits P next rest) : Visits P j (i :: rest)

theorem Visits.mem_iff {j : ℕ} {l : List ℕ} (h : Visits P j l) (x : ℕ) :
    x ∈ l ↔ j ≤ x ∧ P x := by
  induction h with
  | done h => simpa using h x
  | @found j i next rest h hnext hgap _ ih =>
      rw [List.mem_cons, ih]
      constructor
      · rintro (rfl | ⟨hx, hP⟩)
        · exact ⟨h.1, h.2.1⟩
        · exact ⟨h.1.trans (hnext.le.trans hx), hP⟩
      · rintro ⟨hx, hP⟩
        rcases Nat.lt_trichotomy x i with hlt | rfl | hgt
        · exact absurd hP (h.2.2 x hx hlt)
        · exact .inl rfl
        · exact .inr ⟨Nat.le_of_not_lt fun hlt ↦ hgap x hgt hlt hP, hP⟩

theorem Visits.pairwise {j : ℕ} {l : List ℕ} (h : Visits P j l) : l.Pairwise (· < ·) := by
  induction h with
  | done _ => exact .nil
  | found _ hnext _ hrest ih =>
      exact .cons (fun x hx ↦ hnext.trans_le ((hrest.mem_iff x).mp hx).1) ih

/-- All positions with the property, in order. -/
theorem Visits.eq_filter [DecidablePred P] {n : ℕ} {l : List ℕ} (h : Visits P 0 l)
    (hn : ∀ x, P x → x < n) : l = (List.range n).filter P := by
  apply h.pairwise.eq_of_mem_iff (List.pairwise_lt_range.filter _)
  intro x
  rw [h.mem_iff, List.mem_filter, List.mem_range, decide_eq_true_iff]
  exact ⟨fun hx ↦ ⟨hn x hx.2, hx.2⟩, fun hx ↦ ⟨Nat.zero_le x, hx.2⟩⟩

/-! ## Searches in both directions -/

def LeastOf (S : Set ℕ) : Option ℕ → Prop
  | some i => IsLeast S i
  | none => S = ∅

def GreatestOf (S : Set ℕ) : Option ℕ → Prop
  | some i => IsGreatest S i
  | none => S = ∅

theorem LeastOf.eq_none_iff {S : Set ℕ} {r : Option ℕ} (h : LeastOf S r) : r = none ↔ S = ∅ := by
  cases r with
  | none => exact iff_of_true rfl h
  | some i => exact iff_of_false (Option.some_ne_none i) (Set.nonempty_of_mem h.1).ne_empty

theorem GreatestOf.eq_none_iff {S : Set ℕ} {r : Option ℕ} (h : GreatestOf S r) :
    r = none ↔ S = ∅ := by
  cases r with
  | none => exact iff_of_true rfl h
  | some i => exact iff_of_false (Option.some_ne_none i) (Set.nonempty_of_mem h.1).ne_empty

/-- The first of some positions from `i` on that has the property. -/
def searchUp (P : ℕ → Prop) [DecidablePred P] : ℕ → ℕ → Option ℕ
  | 0, _ => none
  | rounds + 1, i => if P i then some i else searchUp P rounds (i + 1)

/-- The last position in front of `n` that has the property. -/
def searchDown (P : ℕ → Prop) [DecidablePred P] : ℕ → Option ℕ
  | 0 => none
  | i + 1 => if P i then some i else searchDown P i

theorem searchUp_spec (P : ℕ → Prop) [DecidablePred P] (rounds : ℕ) :
    ∀ i, LeastOf {x | i ≤ x ∧ x < i + rounds ∧ P x} (searchUp P rounds i) := by
  induction rounds with
  | zero =>
      intro i
      refine Set.eq_empty_of_forall_notMem fun x hx ↦ ?_
      exact absurd hx.2.1 hx.1.not_gt
  | succ rounds ih =>
      intro i
      rw [searchUp]
      split_ifs with hi
      · exact ⟨⟨le_rfl, by omega, hi⟩, fun x hx ↦ hx.1⟩
      · have hset : {x | i ≤ x ∧ x < i + (rounds + 1) ∧ P x} =
            {x | i + 1 ≤ x ∧ x < i + 1 + rounds ∧ P x} := by
          ext x
          constructor
          · rintro ⟨hx, hlt, hP⟩
            have hne : x ≠ i := fun heq ↦ hi (heq ▸ hP)
            exact ⟨by omega, by omega, hP⟩
          · rintro ⟨hx, hlt, hP⟩
            exact ⟨by omega, by omega, hP⟩
        rw [hset]
        exact ih (i + 1)

theorem searchDown_spec (P : ℕ → Prop) [DecidablePred P] (n : ℕ) :
    GreatestOf {x | x < n ∧ P x} (searchDown P n) := by
  induction n with
  | zero => exact Set.eq_empty_of_forall_notMem fun x hx ↦ absurd hx.1 (Nat.not_lt_zero x)
  | succ n ih =>
      rw [searchDown]
      split_ifs with hn
      · exact ⟨⟨Nat.lt_succ_self n, hn⟩, fun x hx ↦ Nat.lt_succ_iff.mp hx.1⟩
      · have hset : {x | x < n + 1 ∧ P x} = {x | x < n ∧ P x} := by
          ext x
          refine and_congr_left fun hP ↦ ?_
          have hne : x ≠ n := fun heq ↦ hn (heq ▸ hP)
          omega
        rw [hset]
        exact ih

/-! ## Patterns -/

variable {α : Type*} {pat xs : List α}

def OccursAt (pat xs : List α) (i : ℕ) : Prop := pat <+: xs.drop i

instance [DecidableEq α] (pat xs : List α) : DecidablePred (OccursAt pat xs) :=
  fun i ↦ inferInstanceAs (Decidable (pat <+: xs.drop i))

theorem OccursAt.getElem? {i k : ℕ} (h : OccursAt pat xs i) (hk : k < pat.length) :
    xs[i + k]? = pat[k]? := by
  rw [← List.getElem?_drop, List.getElem?_eq_getElem hk]
  exact List.prefix_iff_getElem?.mp h k hk

theorem OccursAt.le_length {i : ℕ} (h : OccursAt pat xs i) (hpat : pat ≠ []) :
    i + pat.length ≤ xs.length := by
  have hlen := h.length_le
  have hpos := List.length_pos_iff.mpr hpat
  rw [List.length_drop] at hlen
  omega

theorem occursAt_drop {j i : ℕ} : OccursAt pat (xs.drop j) i ↔ OccursAt pat xs (j + i) := by
  rw [OccursAt, List.drop_drop, OccursAt]

theorem occursAt_cons {a : α} {i : ℕ} :
    OccursAt (a :: pat) xs i ↔ xs[i]? = some a ∧ OccursAt pat xs (i + 1) := by
  unfold OccursAt
  rcases Nat.lt_or_ge i xs.length with hi | hi
  · rw [List.drop_eq_getElem_cons hi, List.cons_prefix_cons, List.getElem?_eq_getElem hi,
      Option.some.injEq, eq_comm]
  · rw [List.drop_eq_nil_of_le hi, List.getElem?_eq_none hi]
    simp

end LtnTsTools.Occurrence
