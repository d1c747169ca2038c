import Mathlib.Tactic

/-!
# Enumeration with a cursor of the caller

A call looks at one element after the other from a cursor on, which lies with the caller, and
returns the first one that is a hit.  Its loop has a counter of its own.  If counter and cursor
run in step, the calls up to the first that fails return all hits in order.  If the loop always
counts as many rounds as there are elements, a call that finds nothing leaves the elements,
unless it began with the first one or an element holds it up.
-/

namespace LtnTsTools.CursorEnumeration

variable {β : Type*}

/-- What a round makes of the element it looks at: it is returned, passed over, or looked at
once more. -/
inductive Outcome (β : Type*)
  | found (b : β)
  | next
  | stay

/-- The loop of a call, with the rounds that are left, its counter and the cursor, of which
`pick` chooses the element to look at; `none` if there is no such element. -/
def loop (o : ℕ → Option (Outcome β)) (pick : ℕ → ℕ → ℕ) :
    ℕ → ℕ → ℕ → Option (Option (ℕ × β) × ℕ)
  | 0, _, e => some (none, e)
  | rounds + 1, i, e =>
      match o (pick i e) with
      | none => none
      | some (.found b) => some (some (pick i e, b), e + 1)
      | some .next => loop o pick rounds (i + 1) (e + 1)
      | some .stay => loop o pick rounds (i + 1) e

/-- What calls return, from a cursor on, until one of them fails. -/
inductive Enumerates {γ : Type*} (call : ℕ → Option (Option γ × ℕ)) : ℕ → List γ → Prop
  | stop {e e' : ℕ} (h : call e = some (none, e')) : Enumerates call e []
  | found {e e' : ℕ} {c : γ} {l : List γ} (h : call e = some (some c, e'))
      (rest : Enumerates call e' l) : Enumerates call e (c :: l)

section Calls

variable {γ : Type*} {call : ℕ → Option (Option γ × ℕ)} {e e' : ℕ} {l : List γ} {c : γ}

theorem not_enumerates (h : call e = none) : ¬Enumerates call e l := by
  rintro (⟨h'⟩ | ⟨h', -⟩) <;> cases h.symm.trans h'

theorem enumerates_of_fails (h : call e = some (none, e')) : Enumerates call e l ↔ l = [] := by
  constructor
  · rintro (_ | ⟨h', -⟩)
    · rfl
    · cases h.symm.trans h'
  · rintro rfl
    exact .stop h

theorem enumerates_of_found (h : call e = some (some c, e')) :
    Enumerates call e (c :: l) ↔ Enumerates call e' l := by
  constructor
  · rintro (_ | ⟨h', hrest⟩)
    cases h.symm.trans h'
    exact hrest
  · exact .found h

theorem Enumerates.unique {l' : List γ} (h : Enumerates call e l) :
    Enumerates call e l' → l = l' := by
  induction h generalizing l' with
  | stop hcall => exact fun h' ↦ ((enumerates_of_fails hcall).mp h').symm
  | found hcall _ ih =>
      rintro (⟨hstop⟩ | ⟨hfound, hrest⟩)
      · cases hcall.symm.trans hstop
      · cases hcall.symm.trans hfound
        rw [ih hrest]

end Calls

def returned (o : ℕ → Option (Outcome β)) (j : ℕ) : Option (ℕ × β) :=
  match o j with
  | some (.found b) => some (j, b)
  | _ => none

/-- The hits among `n` elements, from the cursor on. -/
def returnedFrom (o : ℕ → Option (Outcome β)) (n e : ℕ) : List (ℕ × β) :=
  (List.range' e (n - e)).filterMap (returned o)

section Elements

variable {o : ℕ → Option (Outcome β)} {n e j : ℕ} {b : β}

theorem returned_eq_none_iff : returned o j = none ↔ ∀ b, o j ≠ some (.found b) := by
  rw [returned]
  split
  · next b h => simp [h]
  · next h => simpa using h

theorem returnedFrom_of_le (h : n ≤ e) : returnedFrom o n e = [] := by
  rw [returnedFrom, Nat.sub_eq_zero_of_le h]
  rfl

theorem returnedFrom_of_lt (h : e < n) :
    returnedFrom o n e = (returned o e).toList ++ returnedFrom o n (e + 1) := by
  rw [returnedFrom, show n - e = n - (e + 1) + 1 by omega, List.range'_succ, List.filterMap_cons]
  cases returned o e <;> rfl

theorem returnedFrom_found (h : e < n) (hfound : o e = some (.found b)) :
    returnedFrom o n e = (e, b) :: returnedFrom o n (e + 1) := by
  rw [returnedFrom_of_lt h, returned, hfound]
  rfl

theorem returnedFrom_skip (d : ℕ) : ∀ {e}, e + d ≤ n →
    (∀ x, e ≤ x → x < e + d → o x = some .next) →
      returnedFrom o n e = returnedFrom o n (e + d) := by
  induction d with
  | zero => exact fun _ _ ↦ rfl
  | succ d ih =>
      intro e hle hnext
      rw [returnedFrom_of_lt (by omega), returned, hnext e le_rfl (by omega)]
      have hrest := @ih (e + 1) (by omega) fun x hx hlt ↦ hnext x (by omega) (by omega)
      rw [show e + 1 + d = e + (d + 1) by omega] at hrest
      exact hrest

theorem returnedFrom_eq_nil_iff :
    returnedFrom o n e = [] ↔ ∀ j, e ≤ j → j < n → ∀ b, o j ≠ some (.found b) := by
  rw [returnedFrom, List.filterMap_eq_nil_iff]
  refine forall_congr' fun j ↦ ?_
  rw [List.mem_range'_1, returned_eq_none_iff]
  constructor
  · exact fun h hle hlt ↦ h ⟨hle, by omega⟩
  · exact fun h hin ↦ h hin.1 (by omega)

/-- The elements from the cursor on are all passed over, or one of them is the first that is
not. -/
theorem first_cases (hn : ∀ j, o j = none ↔ n ≤ j) (e : ℕ) :
    (∀ x, e ≤ x → x < n → o x = some .next) ∨
      ∃ d, e + d < n ∧ (∀ x, e ≤ x → x < e + d → o x = some .next) ∧
        (o (e + d) = some .stay ∨ ∃ b, o (e + d) = some (.found b)) := by
  by_cases hall : ∀ x, e ≤ x → x < n → o x = some .next
  · exact .inl hall
  · right
    have hex : ∃ d, e + d < n ∧ o (e + d) ≠ some .next := by
      push Not at hall
      obtain ⟨x, hx, hlt, hne⟩ := hall
      obtain ⟨d, rfl⟩ := Nat.exists_eq_add_of_le hx
      exact ⟨d, hlt, hne⟩
    classical
    obtain ⟨hlt, hne⟩ := Nat.find_spec hex
    refine ⟨Nat.find hex, hlt, fun x hx hbefore ↦ ?_, ?_⟩
    · obtain ⟨d, rfl⟩ := Nat.exists_eq_add_of_le hx
      by_contra hno
      exact Nat.find_min hex (by omega) ⟨by omega, hno⟩
    · cases ho : o (e + Nat.find hex) with
      | none => exact absurd ((hn _).mp ho) (by omega)
      | some outcome =>
          cases outcome with
          | found b => exact .inr ⟨b, rfl⟩
          | next => exact absurd ho hne
          | stay => exact .inl rfl

/-- What is not passed over lies behind what is. -/
theorem le_of_ne_next {m i : ℕ} {outcome : Outcome β}
    (hnext : ∀ x, e ≤ x → x < m → o x = some .next) (hi : e ≤ i) (h : o i = some outcome)
    (hne : outcome ≠ .next) : m ≤ i := by
  by_contra hlt
  exact hne (Option.some.inj (h.symm.trans (hnext i hi (not_le.mp hlt))))

/-! ## One call -/

theorem loop_skip (d : ℕ) : ∀ {rounds i e},
    (∀ x, e ≤ x → x < e + d → o x = some .next) →
      loop o (fun _ e ↦ e) (rounds + d) i e = loop o (fun _ e ↦ e) rounds (i + d) (e + d) := by
  induction d with
  | zero => exact fun _ ↦ rfl
  | succ d ih =>
      intro rounds i e hnext
      rw [← Nat.add_assoc, loop, hnext e le_rfl (by omega)]
      have hrest := @ih rounds (i + 1) (e + 1) fun x hx hlt ↦ hnext x (by omega) (by omega)
      rw [Nat.add_right_comm i 1 d, Nat.add_right_comm e 1 d] at hrest
      exact hrest

theorem loop_stay (hstay : o e = some .stay) (rounds : ℕ) :
    ∀ i, loop o (fun _ e ↦ e) rounds i e = some (none, e) := by
  induction rounds with
  | zero => exact fun _ ↦ rfl
  | succ rounds ih =>
      intro i
      rw [loop, hstay]
      exact ih (i + 1)

/-- A counter that starts at the cursor stays with it, as long as nothing holds it up. -/
theorem loop_counter (hstay : ∀ j, o j ≠ some .stay) (rounds : ℕ) : ∀ e,
    loop o (fun i _ ↦ i) rounds e e = loop o (fun _ e ↦ e) rounds e e := by
  induction rounds with
  | zero => exact fun _ ↦ rfl
  | succ rounds ih =>
      intro e
      rw [loop, loop]
      cases ho : o e with
      | none => rfl
      | some outcome =>
          cases outcome with
          | found b => rfl
          | next => exact ih (e + 1)
          | stay => exact absurd ho (hstay e)

/-! ## All calls -/

/-- A call that looks at each element from the cursor on once. -/
def callInStep (o : ℕ → Option (Outcome β)) (n e : ℕ) : Option (Option (ℕ × β) × ℕ) :=
  if e + 1 > n then some (none, e) else loop o (fun _ e ↦ e) (n - e) e e

/-- A call of as many rounds as there are elements. -/
def callFromZero (o : ℕ → Option (Outcome β)) (n e : ℕ) : Option (Option (ℕ × β) × ℕ) :=
  if e + 1 > n then some (none, e) else loop o (fun _ e ↦ e) n 0 e

theorem enumerates_inStep (hn : ∀ j, o j = none ↔ n ≤ j) (hstay : ∀ j, o j ≠ some .stay) :
    ∀ e, Enumerates (callInStep o n) e (returnedFrom o n e) := by
  intro e
  induction hrest : n - e using Nat.strong_induction_on generalizing e with
  | _ left ih =>
      rcases Nat.lt_or_ge e n with hlt | hge
      · have hcall : callInStep o n e = loop o (fun _ e ↦ e) (n - e) e e := if_neg (by omega)
        rcases first_cases hn e with hnext | ⟨d, hd, hnext, hstop⟩
        · have hskip := @loop_skip _ o (n - e) 0 e e fun x hx hx' ↦ hnext x hx (by omega)
          rw [Nat.zero_add] at hskip
          rw [returnedFrom_skip (n - e) (by omega) fun x hx hx' ↦ hnext x hx (by omega),
            returnedFrom_of_le (by omega)]
          exact .stop (hcall.trans hskip)
        · obtain ⟨b, hfound⟩ := hstop.resolve_left (hstay _)
          have hskip := @loop_skip _ o d (n - e - d - 1 + 1) e e hnext
          rw [loop, hfound, show n - e - d - 1 + 1 + d = n - e by omega] at hskip
          rw [returnedFrom_skip d hd.le hnext, returnedFrom_found hd hfound]
          exact .found (hcall.trans hskip) (ih _ (by omega) (e + d + 1) rfl)
      · rw [returnedFrom_of_le hge]
        exact .stop (if_pos (by omega))

/-- No hit lies behind an element that holds a call up; and there is such an element, or the
last element is a hit, or all have been seen, or there is no hit and the calls begin with the
first element. -/
def Reaches (o : ℕ → Option (Outcome β)) (n e : ℕ) : Prop :=
  (∀ i j, e ≤ i → i < j → o i = some .stay → ∀ b, o j ≠ some (.found b)) ∧
    ((∃ i, e ≤ i ∧ o i = some .stay) ∨ (∃ b, o (n - 1) = some (.found b)) ∨ n ≤ e ∨
      e = 0 ∧ ∀ j b, o j ≠ some (.found b))

theorem reaches_found {d : ℕ} (hlt : e + d < n)
    (hnext : ∀ x, e ≤ x → x < e + d → o x = some .next) (hfound : o (e + d) = some (.found b)) :
    Reaches o n e ↔ Reaches o n (e + d + 1) := by
  have hlater : ∀ {i}, e ≤ i → o i = some .stay → e + d + 1 ≤ i := by
    intro i hi hstay
    refine (le_of_ne_next hnext hi hstay nofun).lt_of_ne ?_
    rintro rfl
    cases hfound.symm.trans hstay
  have hlast : n ≤ e + d + 1 → ∃ b, o (n - 1) = some (.found b) := by
    intro hle
    rw [show n - 1 = e + d by omega]
    exact ⟨b, hfound⟩
  refine and_congr ⟨fun h i j hi ↦ h i j (by omega), fun h i j hi hij hstay ↦
    h i j (hlater hi hstay) hij hstay⟩ ?_
  constructor
  · rintro (⟨i, hi, hstay⟩ | hhit | hseen | ⟨-, hno⟩)
    · exact .inl ⟨i, hlater hi hstay, hstay⟩
    · exact .inr (.inl hhit)
    · omega
    · exact absurd hfound (hno _ b)
  · rintro (⟨i, hi, hstay⟩ | hhit | hseen | ⟨hzero, -⟩)
    · exact .inl ⟨i, by omega, hstay⟩
    · exact .inr (.inl hhit)
    · exact .inr (.inl (hlast hseen))
    · omega

theorem lt_of_eq_some (hn : ∀ j, o j = none ↔ n ≤ j) {outcome : Outcome β}
    (h : o j = some outcome) : j < n := by
  by_contra hge
  rw [(hn j).mpr (not_lt.mp hge)] at h
  cases h

theorem reaches_passed (hn : ∀ j, o j = none ↔ n ≤ j) (hlt : e < n)
    (hnext : ∀ x, e ≤ x → x < n → o x = some .next) : Reaches o n e ↔ e = 0 := by
  have hstay : ∀ {i}, e ≤ i → o i ≠ some .stay := by
    intro i hi hstay
    exact (lt_of_eq_some hn hstay).not_ge (le_of_ne_next hnext hi hstay nofun)
  have hfound : ∀ {i b}, e ≤ i → o i ≠ some (.found b) := by
    intro i b hi hfound
    exact (lt_of_eq_some hn hfound).not_ge (le_of_ne_next hnext hi hfound nofun)
  constructor
  · rintro ⟨-, ⟨i, hi, hs⟩ | ⟨b, hb⟩ | hseen | ⟨hzero, -⟩⟩
    · exact absurd hs (hstay hi)
    · exact absurd hb (hfound (by omega))
    · omega
    · exact hzero
  · rintro rfl
    exact ⟨fun i _ hi _ hs ↦ absurd hs (hstay hi),
      .inr (.inr (.inr ⟨rfl, fun j b ↦ hfound (Nat.zero_le j)⟩))⟩

theorem reaches_stay {d : ℕ} (hnext : ∀ x, e ≤ x → x < e + d → o x = some .next)
    (hstay : o (e + d) = some .stay) :
    Reaches o n e ↔ ∀ j, e + d < j → ∀ b, o j ≠ some (.found b) := by
  constructor
  · exact fun h j hj ↦ h.1 (e + d) j (Nat.le_add_right e d) hj hstay
  · refine fun h ↦ ⟨fun i j hi hij hs ↦ ?_, .inl ⟨e + d, Nat.le_add_right e d, hstay⟩⟩
    exact h j ((le_of_ne_next hnext hi hs nofun).trans_lt hij)

/-- Calls of as many rounds as there are elements return all hits, without looking behind the
elements, exactly under this condition. -/
theorem enumerates_fromZero_iff (hn : ∀ j, o j = none ↔ n ≤ j) :
    ∀ e, Enumerates (callFromZero o n) e (returnedFrom o n e) ↔ Reaches o n e := by
  intro e
  induction hrest : n - e using Nat.strong_induction_on generalizing e with
  | _ left ih =>
      rcases Nat.lt_or_ge e n with hlt | hge
      · have hcall : callFromZero o n e = loop o (fun _ e ↦ e) n 0 e := if_neg (by omega)
        rcases first_cases hn e with hnext | ⟨d, hd, hnext, hstay | ⟨b, hfound⟩⟩
        · -- nothing is found; only a call that began with the first element ends in time
          have hskip := @loop_skip _ o (n - e) e 0 e fun x hx hx' ↦ hnext x hx (by omega)
          rw [show e + (n - e) = n by omega] at hskip
          rw [returnedFrom_skip (n - e) (by omega) fun x hx hx' ↦ hnext x hx (by omega),
            returnedFrom_of_le (by omega), reaches_passed hn hlt hnext]
          cases e with
          | zero => exact iff_of_true (.stop (hcall.trans hskip)) rfl
          | succ e =>
              rw [loop, (hn n).mpr le_rfl] at hskip
              exact iff_of_false (not_enumerates (hcall.trans hskip)) (Nat.succ_ne_zero e)
        · -- the call is held up, and so are all that follow
          have hskip := @loop_skip _ o d (n - d) 0 e hnext
          rw [loop_stay hstay, Nat.sub_add_cancel (by omega)] at hskip
          rw [enumerates_of_fails (hcall.trans hskip), returnedFrom_eq_nil_iff,
            reaches_stay hnext hstay]
          constructor
          · intro h j hj b hb
            exact h j (by omega) (lt_of_eq_some hn hb) b hb
          · intro h j hj _ b hb
            refine h j ((le_of_ne_next hnext hj hb nofun).lt_of_ne ?_) b hb
            rintro rfl
            cases hstay.symm.trans hb
        · have hskip := @loop_skip _ o d (n - d - 1 + 1) 0 e hnext
          rw [loop, hfound, show n - d - 1 + 1 + d = n by omega] at hskip
          rw [returnedFrom_skip d hd.le hnext, returnedFrom_found hd hfound,
            enumerates_of_found (hcall.trans hskip), reaches_found hd hnext hfound]
          exact ih _ (by omega) (e + d + 1) rfl
      · rw [returnedFrom_of_le hge]
        refine iff_of_true (.stop (if_pos (by omega)))
          ⟨fun i j hi _ hs ↦ ?_, .inr (.inr (.inl hge))⟩
        exact absurd (lt_of_eq_some hn hs) (by omega)

end Elements

end LtnTsTools.CursorEnumeration
