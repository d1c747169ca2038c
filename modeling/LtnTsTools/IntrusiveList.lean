import Mathlib.Tactic

/-!
# Circular lists of linked cells

Doubly linked lists whose links are kept in the elements: every cell holds the
addresses of the cells behind and before it, and a list is the ring through one
cell that serves as its head.  All changes of a list are made of one operation,
which makes one cell follow another.
-/

namespace LtnTsTools.IntrusiveList

structure Links where
  next : ℕ → ℕ
  prev : ℕ → ℕ

/-- Makes `b` follow `a`. -/
def Links.join (l : Links) (a b : ℕ) : Links :=
  ⟨Function.update l.next a b, Function.update l.prev b a⟩

/-- A cell linked into the gap behind `a`. -/
def Links.insertAfter (l : Links) (entry a : ℕ) : Links :=
  (l.join entry (l.next a)).join a entry

/-- A cell taken out, and linked to itself. -/
def Links.remove (l : Links) (entry : ℕ) : Links :=
  (l.join (l.prev entry) (l.next entry)).join entry entry

/-- `b` follows `a` in both directions. -/
def Joined (l : Links) (a b : ℕ) : Prop := l.next a = b ∧ l.prev b = a

structure Ring (l : Links) (head : ℕ) (es : List ℕ) : Prop where
  nodup : (head :: es).Nodup
  chain : (head :: (es ++ [head])).IsChain (Joined l)

theorem joined_join (l : Links) (a b : ℕ) : Joined (l.join a b) a b :=
  ⟨Function.update_self .., Function.update_self ..⟩

theorem Joined.join {l : Links} {x y a b : ℕ} (h : Joined l x y) (hx : x ≠ a) (hy : y ≠ b) :
    Joined (l.join a b) x y :=
  ⟨(Function.update_of_ne hx ..).trans h.1, (Function.update_of_ne hy ..).trans h.2⟩

/-- A chain keeps its links when no cell but its last gets a new successor, and no
cell but its first a new predecessor. -/
theorem isChain_join {l : Links} {a b : ℕ} {cells : List ℕ} (h : cells.IsChain (Joined l))
    (ha : a ∉ cells.dropLast) (hb : b ∉ cells.tail) : cells.IsChain (Joined (l.join a b)) := by
  rw [List.isChain_iff_getElem] at h ⊢
  intro i hi
  refine (h i hi).join ?_ ?_
  · rintro rfl
    refine ha (List.mem_iff_getElem.mpr ⟨i, ?_, List.getElem_dropLast ..⟩)
    rw [List.length_dropLast]
    omega
  · rintro rfl
    refine hb (List.mem_iff_getElem.mpr ⟨i, ?_, List.getElem_tail ..⟩)
    rw [List.length_tail]
    omega

theorem ring_nil {l : Links} {head : ℕ} (hnext : l.next head = head) (hprev : l.prev head = head) :
    Ring l head [] :=
  ⟨List.nodup_singleton head, by simpa [Joined] using ⟨hnext, hprev⟩⟩

theorem Ring.notMem {l : Links} {head : ℕ} {es : List ℕ} (h : Ring l head es) : head ∉ es :=
  (List.nodup_cons.mp h.nodup).1

/-- What follows the head: the elements, and the head again. -/
theorem exists_follower (head : ℕ) (es : List ℕ) : ∃ x t, es ++ [head] = x :: t := by
  cases es with
  | nil => exact ⟨head, [], rfl⟩
  | cons e rest => exact ⟨e, rest ++ [head], rfl⟩

theorem nodup_closed {head : ℕ} {es : List ℕ} (h : (head :: es).Nodup) : (es ++ [head]).Nodup :=
  (List.perm_append_singleton head es).nodup_iff.mpr h

theorem Ring.insert {l : Links} {head entry : ℕ} {es : List ℕ} (h : Ring l head es)
    (hentry : entry ∉ head :: es) : Ring (l.insertAfter entry head) head (entry :: es) := by
  refine ⟨(List.Perm.swap ..).nodup_iff.mp (h.nodup.cons hentry), ?_⟩
  have hnew : entry ∉ es ++ [head] := by simpa [or_comm] using hentry
  rw [List.mem_cons, not_or] at hentry
  obtain ⟨x, t, ht⟩ := exists_follower head es
  have hnodup := nodup_closed h.nodup
  have hdrop : (x :: t).dropLast = es := by rw [← ht, List.dropLast_concat]
  have hchain := h.chain
  rw [ht] at hchain hnew hnodup
  obtain ⟨⟨hnext, -⟩, hrest⟩ := List.isChain_cons_cons.mp hchain
  have hfirst : (x :: t).IsChain (Joined (l.join entry x)) :=
    isChain_join hrest (hdrop ▸ hentry.2) (List.nodup_cons.mp hnodup).1
  have hkept : (x :: t).IsChain (Joined ((l.join entry x).join head entry)) :=
    isChain_join hfirst (hdrop ▸ h.notMem) fun hmem ↦ hnew (List.mem_of_mem_tail hmem)
  rw [Links.insertAfter, hnext, List.cons_append, ht, List.isChain_cons_cons,
    List.isChain_cons_cons]
  exact ⟨joined_join .., (joined_join ..).join hentry.1 (List.ne_of_not_mem_cons hnew).symm, hkept⟩

theorem Ring.remove {l : Links} {head entry : ℕ} {es : List ℕ} (h : Ring l head (entry :: es)) :
    Ring (l.remove entry) head es := by
  obtain ⟨hentry, hnodup⟩ := List.nodup_cons.mp ((List.Perm.swap ..).nodup_iff.mp h.nodup)
  refine ⟨hnodup, ?_⟩
  obtain ⟨x, t, ht⟩ := exists_follower head es
  have hdrop : (x :: t).dropLast = es := by rw [← ht, List.dropLast_concat]
  have hmem : ∀ c, c ∈ head :: (x :: t) ↔ c ∈ head :: es := by
    intro c
    rw [← ht, List.mem_cons, List.mem_append, List.mem_singleton, List.mem_cons]
    tauto
  have hchain := h.chain
  rw [List.cons_append, ht, List.isChain_cons_cons, List.isChain_cons_cons] at hchain
  obtain ⟨⟨-, hprev⟩, ⟨hnext, -⟩, hrest⟩ := hchain
  have hfirst : (x :: t).IsChain (Joined (l.join head x)) :=
    isChain_join hrest (hdrop ▸ (List.nodup_cons.mp hnodup).1)
      (List.nodup_cons.mp (ht ▸ nodup_closed hnodup)).1
  have hring : (head :: x :: t).IsChain (Joined (l.join head x)) :=
    List.isChain_cons_cons.mpr ⟨joined_join .., hfirst⟩
  rw [Links.remove, hprev, hnext, ht]
  exact isChain_join hring (fun hin ↦ hentry ((hmem _).mp (List.mem_of_mem_dropLast hin)))
    fun hin ↦ hentry ((hmem _).mp (List.mem_of_mem_tail hin))

end LtnTsTools.IntrusiveList
