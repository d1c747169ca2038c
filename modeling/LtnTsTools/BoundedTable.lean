import Mathlib.Tactic

/-!
# Tables with a number of slots

A table whose first `count` slots are its entries, and to which what is new is added behind
them as long as there is a slot.
-/

namespace LtnTsTools.BoundedTable

variable {n : ℕ} {α : Type*}

structure Table (n : ℕ) (α : Type*) where
  slots : Fin n → α
  count : ℕ
  count_le : count ≤ n

def Table.entries (t : Table n α) : List α := (List.ofFn t.slots).take t.count

def Table.empty (slots : Fin n → α) : Table n α := ⟨slots, 0, Nat.zero_le n⟩

def Table.poke (t : Table n α) (h : t.count < n) (f : α → α) : Table n α :=
  { t with slots := Function.update t.slots ⟨t.count, h⟩ (f (t.slots ⟨t.count, h⟩)) }

/-- What is neither among the entries nor finds them all is put behind them. -/
def Table.add [DecidableEq α] (t : Table n α) (a : α) : Table n α :=
  if h : t.count < n then
    if ∃ i : Fin n, i < t.count ∧ t.slots i = a then t
    else ⟨Function.update t.slots ⟨t.count, h⟩ a, t.count + 1, h⟩
  else t

/-- What `Table.add` does to the list of the entries. -/
def insertNew [DecidableEq α] (n : ℕ) (l : List α) (a : α) : List α :=
  if l.length < n ∧ a ∉ l then l ++ [a] else l

theorem Table.length_entries (t : Table n α) : t.entries.length = t.count := by
  rw [Table.entries, List.length_take, List.length_ofFn, Nat.min_eq_left t.count_le]

theorem Table.getElem?_entries (t : Table n α) {i : ℕ} (hi : i < t.count) :
    t.entries[i]? = some (t.slots ⟨i, hi.trans_le t.count_le⟩) := by
  rw [Table.entries, List.getElem?_take_of_lt hi, List.getElem?_ofFn,
    dif_pos (hi.trans_le t.count_le)]

theorem Table.mem_entries_iff {t : Table n α} {a : α} :
    a ∈ t.entries ↔ ∃ i : Fin n, i < t.count ∧ t.slots i = a := by
  rw [List.mem_iff_getElem?]
  constructor
  · rintro ⟨i, hi⟩
    have hlt : i < t.count := by
      rw [← t.length_entries]
      exact (List.getElem?_eq_some_iff.mp hi).1
    rw [t.getElem?_entries hlt] at hi
    exact ⟨⟨i, hlt.trans_le t.count_le⟩, hlt, Option.some.inj hi⟩
  · rintro ⟨i, hlt, rfl⟩
    exact ⟨i, t.getElem?_entries hlt⟩

theorem Table.entries_congr {t t' : Table n α} (hcount : t.count = t'.count)
    (hslots : ∀ i : Fin n, i < t.count → t.slots i = t'.slots i) : t.entries = t'.entries := by
  refine List.ext_getElem? fun i ↦ ?_
  rcases Nat.lt_or_ge i t.count with hi | hi
  · rw [t.getElem?_entries hi, t'.getElem?_entries (hcount ▸ hi), hslots ⟨i, _⟩ hi]
  · rw [List.getElem?_eq_none (t.length_entries.trans_le hi),
      List.getElem?_eq_none (t'.length_entries.trans_le (hcount ▸ hi))]

theorem Table.entries_poke (t : Table n α) (h : t.count < n) (f : α → α) :
    (t.poke h f).entries = t.entries := by
  refine Table.entries_congr rfl fun i hi ↦ ?_
  exact Function.update_of_ne (fun heq ↦ (heq ▸ hi).ne rfl) _ _

theorem Table.entries_add [DecidableEq α] (t : Table n α) (a : α) :
    (t.add a).entries = insertNew n t.entries a := by
  have hmem : a ∈ t.entries ↔ _ := Table.mem_entries_iff
  rw [Table.add, insertNew, t.length_entries]
  by_cases h : t.count < n
  · by_cases hknown : ∃ i : Fin n, i < t.count ∧ t.slots i = a
    · rw [dif_pos h, if_pos hknown, if_neg fun hnew ↦ hnew.2 (hmem.mpr hknown)]
    · rw [dif_pos h, if_neg hknown, if_pos ⟨h, fun hin ↦ hknown (hmem.mp hin)⟩]
      refine List.ext_getElem? fun i ↦ ?_
      set t' : Table n α := ⟨Function.update t.slots ⟨t.count, h⟩ a, t.count + 1, h⟩
      rcases Nat.lt_trichotomy i t.count with hi | rfl | hi
      · have hne : (⟨i, hi.trans h⟩ : Fin n) ≠ ⟨t.count, h⟩ := Fin.ne_of_lt hi
        rw [t'.getElem?_entries (hi.trans (Nat.lt_succ_self _)),
          List.getElem?_append_left (by rwa [t.length_entries]), t.getElem?_entries hi]
        exact congrArg some (Function.update_of_ne hne a t.slots)
      · rw [t'.getElem?_entries (Nat.lt_succ_self _),
          List.getElem?_append_right t.length_entries.le, t.length_entries, Nat.sub_self]
        exact congrArg some (Function.update_self _ a t.slots)
      · rw [List.getElem?_eq_none (t'.length_entries.trans_le hi), List.getElem?_eq_none]
        rw [List.length_append, t.length_entries]
        exact hi
  · rw [dif_neg h, if_neg fun hnew ↦ h hnew.1]

section InsertNew

variable [DecidableEq α] {l : List α} {a b : α}

theorem mem_of_mem_insertNew {x : α} (h : x ∈ insertNew n l a) : x ∈ l ∨ x = a := by
  rw [insertNew] at h
  split_ifs at h
  · simpa using h
  · exact .inl h

/-- Where there is a slot, two insertions come to the same only for the same element, or
for two that are known. -/
theorem insertNew_eq_iff (hroom : l.length < n) :
    insertNew n l a = insertNew n l b ↔ a = b ∨ a ∈ l ∧ b ∈ l := by
  rw [insertNew, insertNew]
  simp only [hroom, true_and]
  by_cases ha : a ∈ l <;> by_cases hb : b ∈ l
  · simp [ha, hb]
  · have hne : a ≠ b := fun heq ↦ hb (heq ▸ ha)
    simp [ha, hb, hne]
  · have hne : a ≠ b := fun heq ↦ ha (heq ▸ hb)
    simp [ha, hb, hne]
  · simp [ha, hb]

end InsertNew

end LtnTsTools.BoundedTable
