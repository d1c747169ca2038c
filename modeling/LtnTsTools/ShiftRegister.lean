import Mathlib.Tactic

/-!
# Division by a shift register

A register of any width that divides a string of bits, the most significant bit
first, by a polynomial whose constant term is one.  The register is linear in what
it holds and what it is fed, and no step loses information.  So a string no longer
than the register leaves zero behind exactly when the register held that string.
-/

namespace LtnTsTools.ShiftRegister

variable {w : ℕ} {poly : BitVec w}

def feed (poly c : BitVec w) (b : Bool) : BitVec w :=
  if c.msb ^^ b then (c <<< 1) ^^^ poly else c <<< 1

def divide (poly c : BitVec w) (bits : List Bool) : BitVec w := bits.foldl (feed poly) c

theorem divide_append (poly c : BitVec w) (xs ys : List Bool) :
    divide poly c (xs ++ ys) = divide poly (divide poly c xs) ys := List.foldl_append

/-! ## Linearity -/

theorem feed_xor (poly c c' : BitVec w) (b b' : Bool) :
    feed poly (c ^^^ c') (b ^^ b') = feed poly c b ^^^ feed poly c' b' := by
  have hcancel : ∀ x y : BitVec w, x ^^^ poly ^^^ (y ^^^ poly) = x ^^^ y := by
    intro x y
    rw [BitVec.xor_assoc, BitVec.xor_comm y poly, ← BitVec.xor_assoc poly poly y,
      BitVec.xor_self, BitVec.zero_xor]
  have hbit : ((c ^^^ c').msb ^^ (b ^^ b')) = ((c.msb ^^ b) ^^ (c'.msb ^^ b')) := by
    rw [BitVec.msb_xor]
    cases c.msb <;> cases c'.msb <;> cases b <;> cases b' <;> rfl
  rw [feed, feed, feed, hbit, BitVec.shiftLeft_xor_distrib]
  generalize (c.msb ^^ b) = top
  generalize (c'.msb ^^ b') = top'
  cases top <;> cases top' <;> simp only [Bool.xor_self, Bool.xor_true, Bool.xor_false,
    Bool.not_false, Bool.false_eq_true, if_true, if_false]
  · rw [BitVec.xor_assoc]
  · ac_rfl
  · exact (hcancel _ _).symm

@[simp] theorem feed_zero_false (poly : BitVec w) : feed poly 0#w false = 0#w := by
  simp [feed]

theorem divide_xor (poly c c' : BitVec w) {xs ys : List Bool} (h : xs.length = ys.length) :
    divide poly (c ^^^ c') (List.zipWith (· ^^ ·) xs ys) =
      divide poly c xs ^^^ divide poly c' ys := by
  induction xs generalizing ys c c' with
  | nil =>
      obtain rfl : ys = [] := List.length_eq_zero_iff.mp h.symm
      rfl
  | cons x xs ih =>
      cases ys with
      | nil => simp at h
      | cons y ys =>
          simp only [divide, List.zipWith_cons_cons, List.foldl_cons]
          rw [feed_xor]
          exact ih _ _ (by simpa using h)

/-! ## Invertibility -/

/-- The constant term of the polynomial is one. -/
def ConstantOne (poly : BitVec w) : Prop := poly.getLsbD 0 = true

theorem eq_zero_of_feed_false (hpoly : ConstantOne poly) {c : BitVec w}
    (h : feed poly c false = 0#w) :
    c = 0#w := by
  have hbit : ∀ i, (feed poly c false).getLsbD i = false := by
    simp [h]
  rw [feed, Bool.xor_false] at hbit
  cases hmsb : c.msb with
  | true =>
      -- the step sets the lowest bit
      have hlow := hbit 0
      rw [hmsb, if_pos rfl, BitVec.getLsbD_xor, hpoly] at hlow
      simp at hlow
  | false =>
      rw [hmsb, if_neg Bool.false_ne_true] at hbit
      apply BitVec.eq_of_getLsbD_eq
      intro i hi
      rw [BitVec.getLsbD_zero]
      by_cases htop : i + 1 < w
      · have hnext := hbit (i + 1)
        rw [BitVec.getLsbD_shiftLeft] at hnext
        simpa [htop] using hnext
      · rw [BitVec.msb_eq_getLsbD_last] at hmsb
        rwa [show i = w - 1 by omega]

theorem feed_injective (hpoly : ConstantOne poly) {c c' : BitVec w} {b : Bool}
    (h : feed poly c b = feed poly c' b) : c = c' := by
  have hdiff : feed poly (c ^^^ c') false = 0#w := by
    have hxor := feed_xor poly c c' b b
    rwa [h, BitVec.xor_self, Bool.xor_self] at hxor
  exact BitVec.xor_eq_zero_iff.mp (eq_zero_of_feed_false hpoly hdiff)

/-- Zeros do not clear the register. -/
theorem divide_replicate_false_eq_zero_iff (hpoly : ConstantOne poly) {c : BitVec w} (n : ℕ) :
    divide poly c (List.replicate n false) = 0#w ↔ c = 0#w := by
  induction n generalizing c with
  | zero => rfl
  | succ n ih =>
      rw [List.replicate_succ]
      refine Iff.trans ih ⟨eq_zero_of_feed_false hpoly, ?_⟩
      rintro rfl
      exact feed_zero_false poly

/-! ## Strings that fit the register -/

/-- A string of bits at the top of the register. -/
def align (w : ℕ) (bits : List Bool) : BitVec w :=
  bits.foldr (fun b c ↦ (c >>> 1) ||| (if b then BitVec.twoPow w (w - 1) else 0#w)) 0#w

theorem getMsbD_align {bits : List Bool} {i : ℕ} (hi : i < w) :
    (align w bits).getMsbD i = bits.getD i false := by
  induction bits generalizing i with
  | nil => simp [align]
  | cons b bits ih =>
      have htop : (if b then BitVec.twoPow w (w - 1) else 0#w).getMsbD i =
          (b && decide (i = 0)) := by
        cases b with
        | false => simp
        | true =>
            rw [if_pos rfl, BitVec.getMsbD_eq_getLsbD, BitVec.getLsbD_twoPow]
            by_cases h : i = 0
            · simp [h]
              omega
            · simp [h]
              omega
      rw [align, List.foldr_cons, BitVec.getMsbD_or, BitVec.getMsbD_ushiftRight]
      cases i with
      | zero => simpa using htop
      | succ i =>
          have hnext := @ih i (by omega)
          rw [align] at hnext
          simp [hi, hnext, htop]

theorem align_injective {xs ys : List Bool} (hlen : xs.length = ys.length) (hw : xs.length ≤ w)
    (h : align w xs = align w ys) : xs = ys := by
  apply List.ext_getElem hlen
  intro i hx hy
  have hbit := congrArg (·.getMsbD i) h
  simpa [getMsbD_align (hx.trans_le hw), hx, hy] using hbit

/-- The register gives up the bit it is fed and moves the rest up. -/
theorem feed_align {b : Bool} {bits : List Bool} (hw : bits.length < w) :
    feed poly (align w (b :: bits)) b = align w bits := by
  have hmsb : (align w (b :: bits)).msb = b := by
    rw [BitVec.msb_eq_getMsbD_zero, getMsbD_align (by omega), List.getD_cons_zero]
  rw [feed, hmsb, Bool.xor_self, if_neg Bool.false_ne_true]
  apply BitVec.eq_of_getMsbD_eq
  intro i hi
  rw [BitVec.getMsbD_shiftLeft, getMsbD_align hi]
  by_cases hlast : i + 1 < w
  · simp [getMsbD_align hlast]
  · have hend : i + 1 = w := by omega
    rw [hend, BitVec.getMsbD_of_ge _ _ le_rfl, List.getD_eq_getElem?_getD,
      List.getElem?_eq_none (by omega)]
    rfl

/-- A string that fits the register leaves zero behind exactly when the register
held it. -/
theorem divide_eq_zero_iff (hpoly : ConstantOne poly) {c : BitVec w} {bits : List Bool}
    (hw : bits.length ≤ w) : divide poly c bits = 0#w ↔ c = align w bits := by
  induction bits generalizing c with
  | nil => rfl
  | cons b bits ih =>
      rw [List.length_cons] at hw
      have hnext := @ih (feed poly c b) (by omega)
      rw [← @feed_align _ poly b _ (by omega)] at hnext
      refine hnext.trans ⟨feed_injective hpoly, ?_⟩
      rintro rfl
      rfl

/-- A string that fits the register may be added to it first. -/
theorem iterate_feed_align (c : BitVec w) {bits : List Bool} (hw : bits.length ≤ w) :
    (feed poly · false)^[bits.length] (c ^^^ align w bits) = divide poly c bits := by
  induction bits generalizing c with
  | nil => simp [align, divide]
  | cons b bits ih =>
      rw [List.length_cons] at hw
      have hfeed : feed poly (c ^^^ align w (b :: bits)) false =
          feed poly c b ^^^ align w bits := by
        rw [← Bool.xor_self b, feed_xor, feed_align (by omega)]
      rw [List.length_cons, Function.iterate_succ_apply, hfeed, ih _ (by omega)]
      rfl

/-! ## Bursts -/

theorem eq_replicate_false {bits : List Bool} (h : ∀ j, bits.getD j false = false) :
    bits = List.replicate bits.length false := by
  apply List.ext_getElem (by simp)
  intro j hj _
  have hbit := h j
  rw [List.getD_eq_getElem?_getD, List.getElem?_eq_getElem hj, Option.getD_some] at hbit
  rw [hbit, List.getElem_replicate]

/-- A string that fits the register is divided without remainder only if it is
zero. -/
theorem eq_replicate_of_divide_short (hpoly : ConstantOne poly) {bits : List Bool}
    (hw : bits.length ≤ w) (h : divide poly 0#w bits = 0#w) :
    bits = List.replicate bits.length false := by
  have hzero := (divide_replicate_false_eq_zero_iff hpoly bits.length).mpr (Eq.refl 0#w)
  rw [divide_eq_zero_iff hpoly hw] at h
  rw [divide_eq_zero_iff hpoly (by simpa using hw)] at hzero
  exact align_injective (by simp) hw (h.symm.trans hzero)

/-- The set bits of a string lie within `n` positions from `i` on. -/
def WithinBurst (i n : ℕ) (bits : List Bool) : Prop :=
  ∀ j, bits.getD j false = true → i ≤ j ∧ j < i + n

theorem WithinBurst.split {i n : ℕ} {bits : List Bool} (h : WithinBurst i n bits) :
    ∃ a b mid, mid.length ≤ n ∧
      bits = List.replicate a false ++ (mid ++ List.replicate b false) := by
  have hout : ∀ j, ¬(i ≤ j ∧ j < i + n) → bits.getD j false = false := fun j hj ↦ by
    cases hbit : bits.getD j false with
    | false => rfl
    | true => exact absurd (h j hbit) hj
  have hfront : bits.take i = List.replicate (bits.take i).length false := by
    refine eq_replicate_false fun j ↦ ?_
    rw [List.getD_eq_getElem?_getD, List.getElem?_take]
    split_ifs with hj
    · rw [← List.getD_eq_getElem?_getD]
      exact hout j (by omega)
    · rfl
  have hback : bits.drop (i + n) = List.replicate (bits.drop (i + n)).length false := by
    refine eq_replicate_false fun j ↦ ?_
    rw [List.getD_eq_getElem?_getD, List.getElem?_drop, ← List.getD_eq_getElem?_getD]
    exact hout _ (by omega)
  refine ⟨(bits.take i).length, (bits.drop (i + n)).length, (bits.drop i).take n, by simp, ?_⟩
  rw [← hfront, ← hback, ← List.drop_drop, List.take_append_drop, List.take_append_drop]

/-- A burst no longer than the register is divided without remainder only if it is
none. -/
theorem WithinBurst.eq_replicate_of_divide (hpoly : ConstantOne poly) {i : ℕ} {bits : List Bool}
    (hburst : WithinBurst i w bits) (h : divide poly 0#w bits = 0#w) :
    bits = List.replicate bits.length false := by
  obtain ⟨a, b, mid, hmid, rfl⟩ := hburst.split
  -- the zeros in front leave the register at zero, those behind do not bring it back
  rw [divide_append, (divide_replicate_false_eq_zero_iff hpoly a).mpr rfl, divide_append,
    divide_replicate_false_eq_zero_iff hpoly b] at h
  rw [eq_replicate_of_divide_short hpoly hmid h]
  simp

end LtnTsTools.ShiftRegister
