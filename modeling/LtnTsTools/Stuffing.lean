import Mathlib.Data.List.DropRight
import Mathlib.Tactic

/-!
# Stuffing marks into a string

A string without long runs of a symbol: where the symbol has occurred a given number of
times in a row, a mark is put in front of whatever could be misread.  The receiver that
counts as the sender does takes out exactly the marks.  A receiver that goes on counting
when it has taken out a mark also takes out marks of the string itself, and is right
only for the strings in which it meets none at a wrong count.
-/

namespace LtnTsTools

/-- What is counted, and what is put in front of which symbols at which count. -/
structure Stuffing (α : Type*) where
  zero : α
  mark : α
  limit : ℕ
  special : α → Bool
  limit_pos : 0 < limit
  mark_ne_zero : mark ≠ zero
  special_mark : special mark = true

namespace Stuffing

variable {α : Type*}

theorem forall_split_cons {x m : α} {rest : List α} {Q : List α → Prop} :
    (∀ pre post, x :: rest = pre ++ m :: post → Q pre) ↔
      (x = m → Q []) ∧ ∀ pre post, rest = pre ++ m :: post → Q (x :: pre) := by
  constructor
  · intro h
    refine ⟨?_, fun pre post hrest ↦ h (x :: pre) post (congrArg _ hrest)⟩
    rintro rfl
    exact h [] rest rfl
  · rintro ⟨hnil, hcons⟩ pre post hsplit
    cases pre with
    | nil => exact hnil (List.cons.inj hsplit).1
    | cons y pre =>
        obtain ⟨rfl, hrest⟩ := List.cons.inj hsplit
        exact hcons pre post hrest

variable [DecidableEq α] (s : Stuffing α)

def next (k : ℕ) (x : α) : ℕ := if x = s.zero then k + 1 else 0

/-- The sender's count, which starts anew at a mark. -/
def advance (k : ℕ) (x : α) : ℕ := s.next (if k = s.limit ∧ s.special x then 0 else k) x

def escape : ℕ → List α → List α
  | _, [] => []
  | k, x :: rest =>
      if k = s.limit ∧ s.special x then s.mark :: x :: escape (s.advance k x) rest
      else x :: escape (s.advance k x) rest

/-- The receiver that counts as the sender does. -/
def unescape : ℕ → List α → List α
  | _, [] => []
  | k, x :: rest =>
      if k = s.limit ∧ x = s.mark then unescape 0 rest else x :: unescape (s.next k x) rest

/-- A receiver that goes on counting, and takes the symbol behind a mark as it is. -/
def unescapeOn : ℕ → List α → List α
  | _, [] => []
  | k, [x] => if s.limit ≤ k ∧ x = s.mark then [] else [x]
  | k, x :: y :: rest =>
      if s.limit ≤ k ∧ x = s.mark then y :: unescapeOn (s.next k y) rest
      else x :: unescapeOn (s.next k x) (y :: rest)

theorem unescape_escape (l : List α) : ∀ k, s.unescape k (s.escape k l) = l := by
  induction l with
  | nil => exact fun _ ↦ rfl
  | cons x rest ih =>
      intro k
      rw [escape]
      by_cases hspecial : k = s.limit ∧ s.special x
      · have hfresh : ¬((0 : ℕ) = s.limit ∧ x = s.mark) := fun h ↦ s.limit_pos.ne h.1
        rw [if_pos hspecial, unescape, if_pos ⟨hspecial.1, rfl⟩, unescape, if_neg hfresh, advance,
          if_pos hspecial, ih]
      · have hplain : ¬(k = s.limit ∧ x = s.mark) := by
          rintro ⟨hk, rfl⟩
          exact hspecial ⟨hk, s.special_mark⟩
        rw [if_neg hspecial, unescape, if_neg hplain, advance, if_neg hspecial, ih]

/-! ## The receiver that goes on counting -/

variable {s}

theorem unescapeOn_mark {k : ℕ} (h : s.limit ≤ k) (x : α) (rest : List α) :
    s.unescapeOn k (s.mark :: x :: rest) = x :: s.unescapeOn (s.next k x) rest := by
  rw [unescapeOn, if_pos ⟨h, rfl⟩]

theorem unescapeOn_cons {k : ℕ} {x : α} (h : ¬(s.limit ≤ k ∧ x = s.mark)) (rest : List α) :
    s.unescapeOn k (x :: rest) = x :: s.unescapeOn (s.next k x) rest := by
  cases rest with
  | nil => exact if_neg h
  | cons y rest => rw [unescapeOn, if_neg h]

theorem next_le_next {k z : ℕ} (h : k ≤ z) (x : α) : s.next k x ≤ s.next z x := by
  unfold next
  split_ifs <;> omega

/-- The sender's count is never the greater one. -/
theorem advance_le_next {k z : ℕ} (h : k ≤ z) (x : α) : s.advance k x ≤ s.next z x := by
  refine next_le_next ?_ x
  split_ifs
  · exact Nat.zero_le z
  · exact h

/-- A symbol at a right count. -/
theorem unescapeOn_escape_cons {k z : ℕ} {x : α} (h : k ≤ z)
    (hright : s.limit ≤ z → x = s.mark → k = s.limit) (rest : List α) :
    s.unescapeOn z (s.escape k (x :: rest)) =
      x :: s.unescapeOn (s.next z x) (s.escape (s.advance k x) rest) := by
  rw [escape]
  by_cases hspecial : k = s.limit ∧ s.special x
  · rw [if_pos hspecial, unescapeOn_mark (hspecial.1 ▸ h)]
  · rw [if_neg hspecial, unescapeOn_cons]
    rintro ⟨hz, rfl⟩
    exact hspecial ⟨hright hz rfl, s.special_mark⟩

/-- At a wrong count a mark of the string is lost, and the symbol behind it is taken. -/
theorem unescapeOn_escape_lost {k z : ℕ} (hz : s.limit ≤ z) (hk : k ≠ s.limit) (rest : List α) :
    s.unescapeOn z (s.escape k (s.mark :: rest)) =
      match rest with
      | [] => []
      | y :: rest => y :: s.unescapeOn (s.next z y) (s.escape (s.advance 0 y) rest) := by
  have hplain : ¬(k = s.limit ∧ s.special s.mark = true) := fun h ↦ hk h.1
  have hfresh : s.advance k s.mark = 0 := if_neg s.mark_ne_zero
  rw [escape, if_neg hplain, hfresh]
  cases rest with
  | nil => exact if_pos ⟨hz, rfl⟩
  | cons y rest =>
      rw [escape, if_neg fun h ↦ s.limit_pos.ne h.1]
      exact unescapeOn_mark hz y _

theorem length_unescapeOn_escape_le {n : ℕ} :
    ∀ {l : List α} {k z : ℕ}, l.length ≤ n → k ≤ z →
      (s.unescapeOn z (s.escape k l)).length ≤ l.length := by
  induction n with
  | zero =>
      intro l k z hl _
      rw [List.eq_nil_of_length_eq_zero (Nat.le_zero.mp hl)]
      rfl
  | succ n ih =>
      intro l k z hl hkz
      cases l with
      | nil => rfl
      | cons x rest =>
          rw [List.length_cons] at hl ⊢
          by_cases hlost : s.limit ≤ z ∧ x = s.mark ∧ k ≠ s.limit
          · obtain ⟨hz, rfl, hk⟩ := hlost
            rw [unescapeOn_escape_lost hz hk]
            cases rest with
            | nil => exact Nat.zero_le _
            | cons y rest =>
                rw [List.length_cons] at hl ⊢
                have hrest := @ih rest (s.advance 0 y) (s.next z y) (by omega)
                  (advance_le_next (Nat.zero_le z) y)
                rw [List.length_cons]
                omega
          · have hright : s.limit ≤ z → x = s.mark → k = s.limit := by tauto
            rw [unescapeOn_escape_cons hkz hright, List.length_cons]
            exact Nat.succ_le_succ (ih (Nat.le_of_succ_le_succ hl) (advance_le_next hkz x))

/-- The string is received right exactly when no mark of it comes at a wrong count: the
receiver's is at the limit, and the sender's is not. -/
theorem unescapeOn_escape_iff (l : List α) : ∀ {k z : ℕ}, k ≤ z →
    (s.unescapeOn z (s.escape k l) = l ↔
      ∀ pre post, l = pre ++ s.mark :: post →
        s.limit ≤ pre.foldl s.next z → pre.foldl s.advance k = s.limit) := by
  induction l with
  | nil =>
      intro k z _
      apply iff_of_true rfl
      intro pre post hsplit
      simp at hsplit
  | cons x rest ih =>
      intro k z hkz
      rw [forall_split_cons]
      by_cases hlost : s.limit ≤ z ∧ x = s.mark ∧ k ≠ s.limit
      · obtain ⟨hz, rfl, hk⟩ := hlost
        refine iff_of_false (fun heq ↦ ?_) fun h ↦ hk (h.1 rfl hz)
        have hlen := congrArg List.length heq
        rw [unescapeOn_escape_lost hz hk] at hlen
        cases rest with
        | nil => exact absurd hlen (by simp)
        | cons y rest =>
            have hrest := @length_unescapeOn_escape_le α _ s _ rest (s.advance 0 y) (s.next z y)
              le_rfl (advance_le_next (Nat.zero_le z) y)
            simp only [List.length_cons] at hlen
            omega
      · have hright : x = s.mark → s.limit ≤ z → k = s.limit := by tauto
        rw [unescapeOn_escape_cons hkz fun hz hx ↦ hright hx hz, List.cons_inj_right,
          ih (advance_le_next hkz x)]
        exact (and_iff_right hright).symm

def run (s : Stuffing α) (l : List α) : ℕ := (l.rtakeWhile (· = s.zero)).length

theorem run_concat (l : List α) (x : α) : s.run (l ++ [x]) = s.next (s.run l) x := by
  rw [run, next, List.rtakeWhile_concat]
  by_cases hx : x = s.zero
  · rw [if_pos (decide_eq_true hx), if_pos hx, List.length_append]
    rfl
  · rw [if_neg (by simpa using hx), if_neg hx]
    rfl

theorem run_le_length (l : List α) : s.run l ≤ l.length := by
  induction l using List.reverseRecOn with
  | nil => exact le_rfl
  | append_singleton l x ih =>
      rw [run_concat, List.length_append, List.length_singleton, next]
      split_ifs <;> omega

/-- The count over a string goes on with a run that fills it. -/
theorem foldl_next (l : List α) (z : ℕ) :
    l.foldl s.next z = if s.run l = l.length then z + s.run l else s.run l := by
  induction l using List.reverseRecOn with
  | nil => rfl
  | append_singleton l x ih =>
      have hle := s.run_le_length l
      rw [List.foldl_append, List.foldl_cons, List.foldl_nil, ih, run_concat, List.length_append,
        List.length_singleton, next, next]
      by_cases hx : x = s.zero
      · rw [if_pos hx, if_pos hx]
        split_ifs <;> omega
      · rw [if_neg hx, if_neg hx, if_neg (by omega)]

end Stuffing

end LtnTsTools
