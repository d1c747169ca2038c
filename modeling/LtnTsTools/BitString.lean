import Mathlib.Data.List.GetD
import Mathlib.Tactic

/-!
# Strings of bits

Numbers of a given width and sequences of bytes as strings of bits, the most
significant bit first.  A writer appends to such a string and a reader takes from
its front, so the two meet here.
-/

namespace LtnTsTools.BitString

/-- The low `n` bits of a number. -/
def bitsOf : ℕ → ℕ → List Bool
  | 0, _ => []
  | n + 1, v => v.testBit n :: bitsOf n v

def bytesToBits (bytes : List UInt8) : List Bool := bytes.flatMap fun b ↦ bitsOf 8 b.toNat

@[simp] theorem length_bitsOf (n v : ℕ) : (bitsOf n v).length = n := by
  induction n with
  | zero => rfl
  | succ n ih => simp [bitsOf, ih]

@[simp] theorem bytesToBits_nil : bytesToBits [] = [] := rfl

theorem bytesToBits_cons (b : UInt8) (bytes : List UInt8) :
    bytesToBits (b :: bytes) = bitsOf 8 b.toNat ++ bytesToBits bytes := by
  simp [bytesToBits]

@[simp] theorem bytesToBits_append (xs ys : List UInt8) :
    bytesToBits (xs ++ ys) = bytesToBits xs ++ bytesToBits ys := by
  simp [bytesToBits]

@[simp] theorem length_bytesToBits (bytes : List UInt8) :
    (bytesToBits bytes).length = 8 * bytes.length := by
  induction bytes with
  | nil => rfl
  | cons b rest ih =>
      rw [bytesToBits_cons, List.length_append, length_bitsOf, ih, List.length_cons]
      omega

theorem getElem?_bitsOf {n v i : ℕ} (hi : i < n) :
    (bitsOf n v)[i]? = some (v.testBit (n - 1 - i)) := by
  induction n generalizing i with
  | zero => omega
  | succ n ih =>
      cases i with
      | zero => simp [bitsOf]
      | succ i =>
          rw [bitsOf, List.getElem?_cons_succ, ih (by omega)]
          congr 2
          omega

theorem bitsOf_mod {n m : ℕ} (v : ℕ) (hnm : n ≤ m) : bitsOf n (v % 2 ^ m) = bitsOf n v := by
  induction n with
  | zero => rfl
  | succ n ih =>
      have hbit : (v % 2 ^ m).testBit n = v.testBit n := by
        rw [Nat.testBit_mod_two_pow, decide_eq_true (by omega), Bool.true_and]
      rw [bitsOf, bitsOf, hbit, ih (by omega)]

/-- A bit moved in from below. -/
theorem bitsOf_snoc (n v : ℕ) (b : Bool) :
    bitsOf (n + 1) (2 * v + b.toNat) = bitsOf n v ++ [b] := by
  induction n with
  | zero =>
      cases b <;> simp [bitsOf, Nat.testBit_zero]
  | succ n ih =>
      have hbit : (2 * v + b.toNat).testBit (n + 1) = v.testBit n := by
        have hb : b.toNat < 2 := Bool.toNat_lt b
        rw [Nat.testBit_succ, show (2 * v + b.toNat) / 2 = v by omega]
      rw [bitsOf, hbit, ih, bitsOf, List.cons_append]

/-- The width of a string determines the numbers that it can spell. -/
theorem bitsOf_inj {n v w : ℕ} (h : bitsOf n v = bitsOf n w) : v % 2 ^ n = w % 2 ^ n := by
  refine Nat.eq_of_testBit_eq fun i ↦ ?_
  rw [Nat.testBit_mod_two_pow, Nat.testBit_mod_two_pow]
  by_cases hi : i < n
  · have hbit := congrArg (fun l ↦ l[n - 1 - i]?) h
    rw [getElem?_bitsOf (by omega), getElem?_bitsOf (by omega),
      show n - 1 - (n - 1 - i) = i by omega, Option.some.injEq] at hbit
    rw [hbit]
  · rw [decide_eq_false hi, Bool.false_and, Bool.false_and]

def ofBits (l : List Bool) : ℕ := l.foldl (fun v b ↦ 2 * v + b.toNat) 0

theorem ofBits_snoc (l : List Bool) (b : Bool) : ofBits (l ++ [b]) = 2 * ofBits l + b.toNat := by
  rw [ofBits, List.foldl_append]
  rfl

theorem ofBits_lt (l : List Bool) : ofBits l < 2 ^ l.length := by
  induction l using List.reverseRecOn with
  | nil => exact Nat.one_pos
  | append_singleton l b ih =>
      have hb := Bool.toNat_lt b
      rw [ofBits_snoc, List.length_append, List.length_singleton, pow_succ]
      omega

theorem bitsOf_ofBits (l : List Bool) : bitsOf l.length (ofBits l) = l := by
  induction l using List.reverseRecOn with
  | nil => rfl
  | append_singleton l b ih =>
      rw [ofBits_snoc, List.length_append, List.length_singleton, bitsOf_snoc, ih]

theorem ofBits_bitsOf {n v : ℕ} (hv : v < 2 ^ n) : ofBits (bitsOf n v) = v := by
  have hspelt := bitsOf_ofBits (bitsOf n v)
  have hlt := ofBits_lt (bitsOf n v)
  rw [length_bitsOf] at hspelt hlt
  have hmod := bitsOf_inj hspelt
  rwa [Nat.mod_eq_of_lt hlt, Nat.mod_eq_of_lt hv] at hmod

theorem bytesToBits_inj {xs ys : List UInt8} (h : bytesToBits xs = bytesToBits ys) : xs = ys := by
  induction xs generalizing ys with
  | nil =>
      have hlen := congrArg List.length h
      rw [length_bytesToBits, length_bytesToBits, List.length_nil] at hlen
      exact (List.length_eq_zero_iff.mp (by omega)).symm
  | cons x xs ih =>
      cases ys with
      | nil => simpa using congrArg List.length h
      | cons y ys =>
          rw [bytesToBits_cons, bytesToBits_cons] at h
          obtain ⟨hhead, htail⟩ := List.append_inj h (by simp)
          have hbyte := bitsOf_inj hhead
          rw [Nat.mod_eq_of_lt (UInt8.toNat_lt x), Nat.mod_eq_of_lt (UInt8.toNat_lt y)] at hbyte
          rw [UInt8.toNat_inj.mp hbyte, ih htail]

/-- Strings of eight bits for each byte are those of bytes. -/
theorem exists_bytes : ∀ {k : ℕ} {l : List Bool}, l.length = 8 * k →
    ∃ bytes, bytesToBits bytes = l := by
  intro k
  induction k with
  | zero => exact fun hl ↦ ⟨[], (List.length_eq_zero_iff.mp hl).symm⟩
  | succ k ih =>
      intro l hl
      obtain ⟨bytes, hbytes⟩ := ih (l := l.drop 8) (by rw [List.length_drop]; omega)
      have hlen : (l.take 8).length = 8 := List.length_take_of_le (by omega)
      have hspelt := bitsOf_ofBits (l.take 8)
      have hlt := ofBits_lt (l.take 8)
      rw [hlen] at hspelt hlt
      refine ⟨UInt8.ofNat (ofBits (l.take 8)) :: bytes, ?_⟩
      rw [bytesToBits_cons, UInt8.toNat_ofNat_of_lt' hlt, hspelt, hbytes, List.take_append_drop]

/-- Bit `i` lies in byte `i / 8`. -/
theorem getD_bytesToBits (bytes : List UInt8) (i : ℕ) :
    (bytesToBits bytes).getD i false = (bytes.getD (i / 8) 0).toNat.testBit (7 - i % 8) := by
  induction bytes generalizing i with
  | nil => simp
  | cons b rest ih =>
      rw [bytesToBits_cons]
      by_cases hi : i < 8
      · rw [List.getD_eq_getElem?_getD, List.getElem?_append_left (by simpa using hi),
          getElem?_bitsOf hi, show i / 8 = 0 by omega, show i % 8 = i by omega]
        rfl
      · calc (bitsOf 8 b.toNat ++ bytesToBits rest).getD i false
            _ = (bytesToBits rest).getD (i - 8) false := by
              rw [List.getD_append_right _ _ _ _ (by simpa using Nat.le_of_not_lt hi),
                length_bitsOf]
            _ = (rest.getD ((i - 8) / 8) 0).toNat.testBit (7 - (i - 8) % 8) := ih (i - 8)
            _ = ((b :: rest).getD (i / 8) 0).toNat.testBit (7 - i % 8) := by
              rw [show i / 8 = (i - 8) / 8 + 1 by omega, List.getD_cons_succ,
                show (i - 8) % 8 = i % 8 by omega]

/-- What is left of the bits behind whole bytes are the bits of the bytes left. -/
theorem drop_bytesToBits (bytes : List UInt8) (n : ℕ) :
    (bytesToBits bytes).drop (8 * n) = bytesToBits (bytes.drop n) := by
  induction n generalizing bytes with
  | zero => rfl
  | succ n ih =>
      cases bytes with
      | nil => simp
      | cons b rest =>
          rw [bytesToBits_cons, List.drop_succ_cons, ← ih,
            show 8 * (n + 1) = (bitsOf 8 b.toNat).length + 8 * n by rw [length_bitsOf]; omega,
            List.drop_length_add_append]

end LtnTsTools.BitString
