import Mathlib.Data.List.Sort
import Mathlib.Tactic

/-!
# Holding items back to put them in order

A list of bounded depth that is kept in the order of a key.  An arrival finds
the list full and pushes the least item out, or an item at the very bottom of
the order, which nothing can precede any more; else it only joins the list.
What has been pushed out, followed by what is still held, is in order as long as
no item arrives behind `depth` items of greater key.
-/

namespace LtnTsTools.HoldBack

open scoped List

variable {ι : Type*} (key : ι → ℕ) (depth : ℕ)

/-- The item behind all those whose key is not greater. -/
def place (x : ι) (held : List ι) : List ι := held.orderedInsert (fun a b ↦ key a < key b) x

/-- The least item leaves when it has to or when it may. -/
def release : List ι → List ι × List ι
  | [] => ([], [])
  | h :: rest => if rest.length + 1 = depth ∨ key h = 0 then (rest, [h]) else (h :: rest, [])

/-- One arrival: what is held afterwards, and what is pushed out. -/
def push (held : List ι) (x : ι) : List ι × List ι :=
  (place key x (release key depth held).1, (release key depth held).2)

def pushAll (held : List ι) : List ι → List ι × List ι
  | [] => (held, [])
  | x :: rest =>
      let one := push key depth held x
      let more := pushAll one.1 rest
      (more.1, one.2 ++ more.2)

def InOrder (xs : List ι) : Prop := xs.Pairwise fun a b ↦ key a ≤ key b

variable {key depth}

theorem place_perm (x : ι) (held : List ι) : (place key x held).Perm (x :: held) :=
  List.perm_orderedInsert _ _ _

theorem place_inOrder {x : ι} {held : List ι} (h : InOrder key held) :
    InOrder key (place key x held) := by
  induction held with
  | nil => exact List.pairwise_singleton _ _
  | cons a rest ih =>
      obtain ⟨ha, hrest⟩ := List.pairwise_cons.mp h
      rw [place, List.orderedInsert]
      split_ifs with hlt
      · refine List.pairwise_cons.mpr ⟨?_, h⟩
        intro b hb
        rcases List.mem_cons.mp hb with rfl | hb
        · exact hlt.le
        · exact hlt.le.trans (ha b hb)
      · refine List.pairwise_cons.mpr ⟨?_, ih hrest⟩
        intro b hb
        rcases List.mem_cons.mp ((place_perm x rest).mem_iff.mp hb) with rfl | hb
        · exact not_lt.mp hlt
        · exact ha b hb

/-- Nothing is lost or duplicated by letting the head go. -/
theorem release_append (held : List ι) :
    (release key depth held).2 ++ (release key depth held).1 = held := by
  cases held with
  | nil => rfl
  | cons h rest =>
      rw [release]
      split_ifs <;> rfl

theorem push_perm (held : List ι) (x : ι) :
    ((push key depth held x).2 ++ (push key depth held x).1).Perm (x :: held) := by
  have hplace := @place_perm _ key x (release key depth held).1
  have hmiddle := (hplace.append_left (release key depth held).2).trans List.perm_middle
  rwa [release_append] at hmiddle

theorem length_release_lt {held : List ι} (hdepth : 0 < depth) (h : held.length ≤ depth) :
    (release key depth held).1.length < depth := by
  cases held with
  | nil => exact hdepth
  | cons a rest =>
      rw [List.length_cons] at h
      rw [release]
      split_ifs with hgo
      · exact h
      · rw [List.length_cons]
        omega

structure Kept (key : ι → ℕ) (depth : ℕ) (held : List ι) : Prop where
  in_order : InOrder key held
  length_le : held.length ≤ depth

theorem Kept.release {held : List ι} (h : Kept key depth held) :
    InOrder key (release key depth held).1 := by
  have happ := h.in_order
  rw [← @release_append _ key depth held] at happ
  exact (List.pairwise_append.mp happ).2.1

theorem Kept.push {held : List ι} (hdepth : 0 < depth) (h : Kept key depth held) (x : ι) :
    Kept key depth (push key depth held x).1 := by
  refine ⟨place_inOrder h.release, ?_⟩
  have hlt := @length_release_lt _ key depth held hdepth h.length_le
  rw [HoldBack.push, (place_perm x _).length_eq, List.length_cons]
  omega

theorem pushAll_perm (xs held : List ι) :
    ((pushAll key depth held xs).2 ++ (pushAll key depth held xs).1).Perm (xs ++ held) := by
  induction xs generalizing held with
  | nil => exact List.Perm.refl _
  | cons x rest ih =>
      rw [pushAll]
      simp only [List.append_assoc, List.cons_append]
      calc (push key depth held x).2 ++ ((pushAll key depth (push key depth held x).1 rest).2 ++
            (pushAll key depth (push key depth held x).1 rest).1)
          ~ (push key depth held x).2 ++ (rest ++ (push key depth held x).1) :=
            (ih _).append_left _
        _ ~ rest ++ ((push key depth held x).2 ++ (push key depth held x).1) :=
            List.perm_append_comm_assoc _ _ _
        _ ~ rest ++ x :: held := (push_perm held x).append_left rest
        _ ~ x :: (rest ++ held) := List.perm_middle

/-! ## Order -/

/-- All that has arrived is out or held, in order, and whatever is out was at the
bottom or the least of `depth` items. -/
structure Orderly (key : ι → ℕ) (depth : ℕ) (arrived out held : List ι) : Prop where
  perm : (out ++ held).Perm arrived
  in_order : InOrder key (out ++ held)
  full : ∀ d ∈ out, key d = 0 ∨ depth ≤ arrived.countP fun a ↦ key d ≤ key a

/-- Items that are out do not come behind an arrival with fewer than `depth`
greater ones before it. -/
theorem Orderly.out_le {arrived out held : List ι} (h : Orderly key depth arrived out held) {x : ι}
    (hx : arrived.countP (fun a ↦ key x < key a) < depth) : ∀ d ∈ out, key d ≤ key x := by
  intro d hd
  rcases h.full d hd with hzero | hmany
  · omega
  · by_contra hgt
    have hmono : arrived.countP (fun a ↦ key d ≤ key a) ≤ arrived.countP fun a ↦ key x < key a := by
      apply List.countP_mono_left
      intro a _ ha
      simp only [decide_eq_true_eq] at ha ⊢
      omega
    omega

theorem Orderly.release {arrived out held : List ι} (h : Orderly key depth arrived out held)
    (hlen : held.length ≤ depth) :
    Orderly key depth arrived (out ++ (release key depth held).2) (release key depth held).1 := by
  have happ : out ++ (HoldBack.release key depth held).2 ++ (HoldBack.release key depth held).1 =
      out ++ held := by
    rw [List.append_assoc, release_append]
  refine ⟨happ ▸ h.perm, happ ▸ h.in_order, ?_⟩
  intro d hd
  rcases List.mem_append.mp hd with hd | hd
  · exact h.full d hd
  · cases held with
    | nil => cases hd
    | cons a rest =>
        rw [HoldBack.release] at hd
        split_ifs at hd with hgo
        · obtain rfl := List.mem_singleton.mp hd
          refine hgo.symm.imp_right fun hfull ↦ ?_
          -- the whole list is at or above its head
          have hin := (List.pairwise_append.mp h.in_order).2.1
          have hall : (d :: rest).countP (fun a ↦ key d ≤ key a) = (d :: rest).length := by
            apply List.countP_eq_length.mpr
            intro a ha
            rcases List.mem_cons.mp ha with rfl | ha
            · simp
            · simpa using (List.pairwise_cons.mp hin).1 a ha
          rw [← h.perm.countP_eq, List.countP_append, hall, List.length_cons]
          omega
        · cases hd

theorem Orderly.place {arrived out held : List ι} (h : Orderly key depth arrived out held) {x : ι}
    (hx : arrived.countP (fun a ↦ key x < key a) < depth) :
    Orderly key depth (arrived ++ [x]) out (place key x held) := by
  have hout := h.out_le hx
  obtain ⟨hsorted, hheld, hcross⟩ := List.pairwise_append.mp h.in_order
  refine ⟨?_, ?_, ?_⟩
  · calc out ++ HoldBack.place key x held
        ~ out ++ x :: held := (place_perm x held).append_left out
      _ ~ x :: (out ++ held) := List.perm_middle
      _ ~ x :: arrived := h.perm.cons x
      _ ~ arrived ++ [x] := (List.perm_append_singleton x arrived).symm
  · refine List.pairwise_append.mpr ⟨hsorted, place_inOrder hheld, ?_⟩
    intro d hd a ha
    rcases List.mem_cons.mp ((place_perm x held).mem_iff.mp ha) with rfl | ha
    · exact hout d hd
    · exact hcross d hd a ha
  · intro d hd
    refine (h.full d hd).imp_right fun hmany ↦ hmany.trans ?_
    rw [List.countP_append]
    exact Nat.le_add_right _ _

/-- No item arrives behind `depth` items of greater key. -/
def NeverLate (key : ι → ℕ) (depth : ℕ) (xs : List ι) : Prop :=
  ∀ before x after, xs = before ++ x :: after →
    before.countP (fun a ↦ key x < key a) < depth

theorem Orderly.pushAll {arrived out held : List ι} (h : Orderly key depth arrived out held)
    (hdepth : 0 < depth) (hkept : Kept key depth held) {xs : List ι}
    (hxs : NeverLate key depth (arrived ++ xs)) :
    Orderly key depth (arrived ++ xs) (out ++ (pushAll key depth held xs).2)
      (pushAll key depth held xs).1 := by
  induction xs generalizing arrived out held with
  | nil => simpa [HoldBack.pushAll] using h
  | cons x rest ih =>
      have hone := (h.release hkept.length_le).place (hxs arrived x rest rfl)
      have hmore := ih hone (hkept.push hdepth x) (by simpa using hxs)
      simpa [HoldBack.pushAll, HoldBack.push] using hmore

theorem pushAll_inOrder (hdepth : 0 < depth) {xs : List ι} (hxs : NeverLate key depth xs) :
    InOrder key ((pushAll key depth [] xs).2 ++ (pushAll key depth [] xs).1) := by
  have hnil : Orderly key depth [] [] [] := ⟨.refl _, .nil, by simp⟩
  have hall := @Orderly.pushAll _ _ _ [] [] [] hnil hdepth ⟨.nil, Nat.zero_le _⟩ xs hxs
  simpa using hall.in_order

end LtnTsTools.HoldBack
