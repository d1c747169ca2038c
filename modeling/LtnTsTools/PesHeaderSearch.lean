import LtnTsTools.NalHeaders

/-!
# The search for PES headers

`ltntstools_contains_pes_header` and `ltntstools_contains_pes_header_reverse` of `ts.c`.  The
search in reverse looks at every position where three bytes are left, the other one leaves the
last of these positions out.
-/

namespace LtnTsTools.Ts

open Nal Occurrence

/-- What both loops compare; `pattern` is a start code. -/
def patternAt (buf : List UInt8) (i : ℕ) : Prop := (buf.drop i).take 3 = startCode

instance (buf : List UInt8) : DecidablePred (patternAt buf) :=
  fun _ ↦ inferInstanceAs (Decidable (_ = _))

/-- `ltntstools_contains_pes_header`; `none` is -1. -/
def containsPesHeader (buf : List UInt8) : Option ℕ :=
  searchUp (patternAt buf) (buf.length - 3) 0

/-- `ltntstools_contains_pes_header_reverse`, from `lengthBytes - 3` down to 0. -/
def containsPesHeaderReverse (buf : List UInt8) : Option ℕ :=
  searchDown (patternAt buf) (buf.length - 2)

/-- One search returns the first start code, the other one the last, and both fail together. -/
structure SearchesAgree (buf : List UInt8) : Prop where
  first : LeastOf {i | StartCodeAt buf i} (containsPesHeader buf)
  last : GreatestOf {i | StartCodeAt buf i} (containsPesHeaderReverse buf)
  none_iff : containsPesHeader buf = none ↔ containsPesHeaderReverse buf = none

theorem containsPesHeader_spec (buf : List UInt8) :
    LeastOf {i | i + 3 < buf.length ∧ StartCodeAt buf i} (containsPesHeader buf) := by
  have hset : {i | 0 ≤ i ∧ i < 0 + (buf.length - 3) ∧ patternAt buf i} =
      {i | i + 3 < buf.length ∧ StartCodeAt buf i} := by
    ext i
    rw [Set.mem_ofPred_eq, Set.mem_ofPred_eq, patternAt, startCodeAt_iff, Nat.zero_add,
      Nat.lt_sub_iff_add_lt, and_iff_right (Nat.zero_le i)]
  rw [← hset]
  exact searchUp_spec (patternAt buf) (buf.length - 3) 0

theorem containsPesHeaderReverse_spec (buf : List UInt8) :
    GreatestOf {i | StartCodeAt buf i} (containsPesHeaderReverse buf) := by
  have hset : {i | i < buf.length - 2 ∧ patternAt buf i} = {i | StartCodeAt buf i} := by
    ext i
    rw [Set.mem_ofPred_eq, Set.mem_ofPred_eq, patternAt, startCodeAt_iff,
      and_iff_right_iff_imp]
    intro h
    have hle := h.add_three_le
    omega
  rw [← hset]
  exact searchDown_spec (patternAt buf) (buf.length - 2)

/-- The searches agree exactly when the first start code is not in the last three bytes. -/
theorem searches_agree_iff (buf : List UInt8) :
    SearchesAgree buf ↔ ¬IsLeast {i | StartCodeAt buf i} (buf.length - 3) := by
  have hforward := containsPesHeader_spec buf
  have hreverse := containsPesHeaderReverse_spec buf
  constructor
  · intro h hlast
    have hlen := hlast.1.add_three_le
    cases hfound : containsPesHeader buf with
    | none =>
        have hempty := h.first
        rw [hfound] at hempty
        exact Set.eq_empty_iff_forall_notMem.mp hempty _ hlast.1
    | some i =>
        rw [hfound] at hforward
        have hle := hlast.2 hforward.1.2
        have hlt := hforward.1.1
        omega
  · intro hno
    have hfirst : LeastOf {i | StartCodeAt buf i} (containsPesHeader buf) := by
      cases hfound : containsPesHeader buf with
      | none =>
          rw [hfound] at hforward
          have hbehind : ∀ i, StartCodeAt buf i → buf.length - 3 ≤ i := by
            intro i hi
            have hnot := Set.eq_empty_iff_forall_notMem.mp hforward i
            have hge : ¬i + 3 < buf.length := fun hlt ↦ hnot ⟨hlt, hi⟩
            omega
          refine Set.eq_empty_of_forall_notMem fun i hi ↦ hno ⟨?_, hbehind⟩
          have hle := StartCodeAt.add_three_le hi
          have hge := hbehind i hi
          obtain rfl : i = buf.length - 3 := by omega
          exact hi
      | some i =>
          rw [hfound] at hforward
          refine ⟨hforward.1.2, fun j hj ↦ ?_⟩
          have hlt := hforward.1.1
          rcases Nat.lt_or_ge (j + 3) buf.length with hin | hout
          · exact hforward.2 ⟨hin, hj⟩
          · omega
    exact ⟨hfirst, hreverse, hfirst.eq_none_iff.trans hreverse.eq_none_iff.symm⟩

/-- A start code alone is found by one search only. -/
theorem searches_disagree :
    containsPesHeader [0, 0, 1] = none ∧ containsPesHeaderReverse [0, 0, 1] = some 0 ∧
      ¬SearchesAgree [0, 0, 1] := by
  refine ⟨by decide, by decide, fun h ↦ ?_⟩
  exact absurd (h.none_iff.mp (by decide)) (by decide)

end LtnTsTools.Ts
