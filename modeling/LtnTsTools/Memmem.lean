import LtnTsTools.Occurrence

/-!
# Substring search

`ltn_memmem` of `memmem.h`, which looks at the second byte of the pattern first and
skips by one or two bytes according to whether the first two bytes of the pattern are
the same.  Every read is checked, so that a result says that none left the buffer.
-/

namespace LtnTsTools.Nal

open Occurrence

/-- Bytes of a buffer; `none` where they do not all lie in it. -/
def readBytes (y : List UInt8) (i n : ℕ) : Option (List UInt8) :=
  if i + n ≤ y.length then some ((y.drop i).take n) else none

/-- The loop of `ltn_memmem` for the pattern `x0 :: x1 :: tail`; every round moves on,
so that the length of the buffer is fuel enough. -/
def memmemLoop (y : List UInt8) (x0 x1 : UInt8) (tail : List UInt8) (k l : ℕ) :
    ℕ → ℕ → Option (Option ℕ)
  | 0, _ => none
  | fuel + 1, j =>
      if j ≤ y.length - (tail.length + 2) then
        match y[j + 1]?, readBytes y (j + 2) tail.length, y[j]? with
        | some y1, some bytes, some y0 =>
            if x1 ≠ y1 then memmemLoop y x0 x1 tail k l fuel (j + k)
            else if bytes = tail ∧ x0 = y0 then some (some j)
            else memmemLoop y x0 x1 tail k l fuel (j + l)
        | _, _, _ => none
      else some none

/-- `ltn_memmem`: where the pattern `x` stands in `y`. -/
def ltnMemmem (y x : List UInt8) : Option (Option ℕ) :=
  if x.length > y.length then some none
  else
    match x with
    | [] => some none
    | [x0] => some (y.findIdx? fun b ↦ b == x0)
    | x0 :: x1 :: tail =>
        memmemLoop y x0 x1 tail (if x0 = x1 then 2 else 1) (if x0 = x1 then 1 else 2)
          (y.length + 1) 0

/-- Where the second byte differs, the pattern stands neither here nor, if its first
two bytes are the same, one byte further. -/
theorem not_occursAt_of_ne {y tail : List UInt8} {x0 x1 y1 : UInt8} {j : ℕ}
    (hy1 : y[j + 1]? = some y1) (hne : x1 ≠ y1) :
    ∀ x, j ≤ x → x < j + (if x0 = x1 then 2 else 1) → ¬OccursAt (x0 :: x1 :: tail) y x := by
  intro x hx hlt hocc
  rw [occursAt_cons, occursAt_cons] at hocc
  obtain ⟨h0, h1, -⟩ := hocc
  rcases Nat.eq_or_lt_of_le hx with rfl | hgt
  · exact hne (Option.some.inj (h1.symm.trans hy1))
  · split_ifs at hlt with hsame
    · obtain rfl : x = j + 1 := by omega
      exact hne (hsame ▸ Option.some.inj (h0.symm.trans hy1))
    · omega

/-- Where the second byte is right and the others are not, the pattern stands neither
here nor, if its first two bytes differ, one byte further. -/
theorem not_occursAt_of_eq {y tail : List UInt8} {x0 x1 : UInt8} {j : ℕ}
    (hy1 : y[j + 1]? = some x1) (hno : ¬OccursAt (x0 :: x1 :: tail) y j) :
    ∀ x, j ≤ x → x < j + (if x0 = x1 then 1 else 2) → ¬OccursAt (x0 :: x1 :: tail) y x := by
  intro x hx hlt hocc
  rcases Nat.eq_or_lt_of_le hx with rfl | hgt
  · exact hno hocc
  · split_ifs at hlt with hsame
    · omega
    · obtain rfl : x = j + 1 := by omega
      rw [occursAt_cons] at hocc
      exact hsame (Option.some.inj (hocc.1.symm.trans hy1))

/-- The skips that pass nothing over. -/
structure Skips (y : List UInt8) (x0 x1 : UInt8) (tail : List UInt8) (k l : ℕ) : Prop where
  moves : 1 ≤ k ∧ k ≤ 2 ∧ 1 ≤ l ∧ l ≤ 2
  ofNe : ∀ j y1, y[j + 1]? = some y1 → x1 ≠ y1 →
    ∀ x, j ≤ x → x < j + k → ¬OccursAt (x0 :: x1 :: tail) y x
  ofEq : ∀ j, y[j + 1]? = some x1 → ¬OccursAt (x0 :: x1 :: tail) y j →
    ∀ x, j ≤ x → x < j + l → ¬OccursAt (x0 :: x1 :: tail) y x

theorem skips (y : List UInt8) (x0 x1 : UInt8) (tail : List UInt8) :
    Skips y x0 x1 tail (if x0 = x1 then 2 else 1) (if x0 = x1 then 1 else 2) where
  moves := by split_ifs <;> omega
  ofNe := fun _ _ ↦ not_occursAt_of_ne
  ofEq := fun _ ↦ not_occursAt_of_eq

/-- What a round of the loop compares is whether the pattern stands there. -/
theorem occursAt_iff {y tail : List UInt8} {x0 x1 : UInt8} {j : ℕ} (h0 : j < y.length)
    (h1 : j + 1 < y.length) : OccursAt (x0 :: x1 :: tail) y j ↔
      x1 = y[j + 1] ∧ (y.drop (j + 2)).take tail.length = tail ∧ x0 = y[j] := by
  rw [occursAt_cons, occursAt_cons, List.getElem?_eq_getElem h0, List.getElem?_eq_getElem h1,
    OccursAt, List.prefix_iff_eq_take]
  simp only [Option.some.injEq]
  constructor
  · rintro ⟨h0, h1, ht⟩
    exact ⟨h1.symm, ht.symm, h0.symm⟩
  · rintro ⟨h1, ht, h0⟩
    exact ⟨h0.symm, h1.symm, ht.symm⟩

theorem memmemLoop_spec {y tail : List UInt8} {x0 x1 : UInt8} {k l : ℕ}
    (h : Skips y x0 x1 tail k l) (hlen : tail.length + 2 ≤ y.length) (fuel : ℕ) :
    ∀ j ≤ y.length, y.length < fuel + j → ∃ r, memmemLoop y x0 x1 tail k l fuel j = some r ∧
      FirstFrom (OccursAt (x0 :: x1 :: tail) y) j r := by
  have hmoves := h.moves
  induction fuel with
  | zero =>
      intro j hj hfuel
      omega
  | succ fuel ih =>
      intro j hj hfuel
      rw [memmemLoop]
      by_cases hin : j ≤ y.length - (tail.length + 2)
      · have h0 : j < y.length := by omega
        have h1 : j + 1 < y.length := by omega
        have hbytes : readBytes y (j + 2) tail.length =
            some ((y.drop (j + 2)).take tail.length) := if_pos (by omega)
        have hat := @occursAt_iff y tail x0 x1 j h0 h1
        have hy1 := List.getElem?_eq_getElem h1
        simp only [if_pos hin, hy1, hbytes, List.getElem?_eq_getElem h0]
        by_cases hne : x1 = y[j + 1]
        · rw [if_neg (not_not.mpr hne)]
          split_ifs with hall
          · exact ⟨some j, rfl, le_rfl, hat.mpr ⟨hne, hall⟩, fun x hx hlt ↦ absurd hlt hx.not_gt⟩
          · obtain ⟨r, hr, hfirst⟩ := ih (j + l) (by omega) (by omega)
            have hno : ¬OccursAt (x0 :: x1 :: tail) y j := fun hocc ↦ hall (hat.mp hocc).2
            exact ⟨r, hr, hfirst.skip (by omega) (h.ofEq j (hne ▸ hy1) hno)⟩
        · rw [if_pos hne]
          obtain ⟨r, hr, hfirst⟩ := ih (j + k) (by omega) (by omega)
          exact ⟨r, hr, hfirst.skip (by omega) (h.ofNe j _ hy1 hne)⟩
      · refine ⟨none, if_neg hin, fun x hx hocc ↦ ?_⟩
        have hle := hocc.le_length (List.cons_ne_nil _ _)
        simp only [List.length_cons] at hle
        omega

/-- `ltn_memmem` reads inside the buffer and finds the first place of a pattern of two
bytes or more. -/
theorem ltnMemmem_spec {x : List UInt8} (hx : 2 ≤ x.length) (y : List UInt8) :
    ∃ r, ltnMemmem y x = some r ∧ FirstFrom (OccursAt x y) 0 r := by
  match x, hx with
  | x0 :: x1 :: tail, _ =>
      rw [ltnMemmem]
      by_cases hlong : (x0 :: x1 :: tail).length > y.length
      · refine ⟨none, if_pos hlong, fun i _ hocc ↦ ?_⟩
        have hle := hocc.le_length (List.cons_ne_nil _ _)
        omega
      · rw [if_neg hlong]
        rw [List.length_cons, List.length_cons] at hlong
        exact memmemLoop_spec (skips y x0 x1 tail) (by omega) (y.length + 1) 0 (Nat.zero_le _)
          (by omega)

end LtnTsTools.Nal
