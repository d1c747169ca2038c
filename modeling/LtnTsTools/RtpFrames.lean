import LtnTsTools.Draining
import LtnTsTools.RtpAnalyzer

/-!
# Searching for RTP frames

`rtp_frame_queryPositions` of `rtp-analyzer.c`: every header found is the start of a
frame, which goes up to the next one found; behind a header one transport packet is passed
over.  What it finds in a buffer does not change when more bytes arrive behind it, and a
search that starts at a header found before finds it again, so that the frames between
headers can be taken off a growing buffer.
-/

namespace LtnTsTools.Rtp

open Draining

/-- The 32 bits at an address, as a little-endian host reads them. -/
def word32At (p : List UInt8) (i : ℕ) : UInt32 :=
  .ofNat ((p.getD i 0).toNat + (p.getD (i + 1) 0).toNat * 2 ^ 8 +
    (p.getD (i + 2) 0).toNat * 2 ^ 16 + (p.getD (i + 3) 0).toNat * 2 ^ 24)

/-- The `struct rtp_hdr` at the front of some bytes. -/
def rtpHdrAt (p : List UInt8) : RtpHdr where
  cc := (p.getD 0 0).toNat % 16
  x := (p.getD 0 0).toNat / 16 % 2
  p := (p.getD 0 0).toNat / 32 % 2
  version := (p.getD 0 0).toNat / 64
  pt := (p.getD 1 0).toNat % 128
  m := (p.getD 1 0).toNat / 128
  seq := .ofNat ((p.getD 2 0).toNat + (p.getD 3 0).toNat * 2 ^ 8)
  ts := word32At p 4
  ssrc := word32At p 8

/-- `struct rtp_frame_position_s`. -/
structure RtpFramePosition where
  offset : ℕ
  lengthBytes : ℕ
  frame : RtpHdr
deriving DecidableEq

/-- The tests of `rtp_frame_queryPositions` on the bytes from a position on. -/
def isRtpFrame (ssrc : UInt32) (p : List UInt8) : Bool :=
  let hdr := rtpHdrAt p
  if hdr.version ≠ 2 then false
  else if hdr.pt ≠ 33 then false
  else if hdr.x = 1 then false
  else if hdr.cc ≠ 0 then false
  else if hdr.ssrc ≠ ssrc then false
  else if p.getD 12 0 ≠ 0x47 then false
  else if p.getD (12 + 188) 0 ≠ 0x47 then
    if p.getD (12 + 188) 0 >>> 6 ≠ 2 then false
    else p.getD (12 + 188 + 12) 0 == 0x47
  else true

/-- The length of the last entry, when the next header is found. -/
def setPriorLength (arr : List RtpFramePosition) (offset : ℕ) : List RtpFramePosition :=
  arr.modify (arr.length - 1) fun e ↦ { e with lengthBytes := offset - e.offset }

/-- The loop of `rtp_frame_queryPositions`. -/
def queryLoop (buf : List UInt8) (addr : ℕ) (ssrc : UInt32) :
    ℕ → ℕ → List RtpFramePosition → List RtpFramePosition
  | 0, _, arr => arr
  | fuel + 1, i, arr =>
      if i + 2 * 188 < buf.length then
        if isRtpFrame ssrc (buf.drop i) then
          queryLoop buf addr ssrc fuel (i + (12 + 188))
            (setPriorLength arr (addr + i) ++ [⟨addr + i, 0, rtpHdrAt (buf.drop i)⟩])
        else queryLoop buf addr ssrc fuel (i + 1) arr
      else arr

/-- `rtp_frame_queryPositions`; its allocations succeed. -/
def rtpFrameQueryPositions (buf : List UInt8) (addr : ℕ) (ssrc : UInt32) :
    List RtpFramePosition :=
  queryLoop buf addr ssrc (buf.length + 1) 0 []

/-! ## Positions -/

/-- The positions of the headers found in the bytes from `pos` on, when the first `skip`
of them are passed over. -/
def positions (ssrc : UInt32) : ℕ → ℕ → List UInt8 → List ℕ
  | _, _, [] => []
  | skip + 1, pos, _ :: rest => positions ssrc skip (pos + 1) rest
  | 0, pos, b :: rest =>
      if 2 * 188 < rest.length + 1 ∧ isRtpFrame ssrc (b :: rest) then
        pos :: positions ssrc 199 (pos + 1) rest
      else positions ssrc 0 (pos + 1) rest

variable {ssrc : UInt32}

theorem positions_cons {b : UInt8} {rest : List UInt8} (pos : ℕ)
    (h : 2 * 188 < rest.length + 1) : positions ssrc 0 pos (b :: rest) =
      if isRtpFrame ssrc (b :: rest) then pos :: positions ssrc 199 (pos + 1) rest
      else positions ssrc 0 (pos + 1) rest := by
  rw [positions]
  simp only [h, true_and]

theorem positions_skip (l : List UInt8) : ∀ skip pos, positions ssrc skip pos l =
    positions ssrc 0 (pos + skip) (l.drop skip) := by
  induction l with
  | nil =>
      intro skip pos
      simp [positions]
  | cons b rest ih =>
      intro skip pos
      cases skip with
      | zero => rfl
      | succ skip =>
          rw [positions, ih skip (pos + 1), List.drop_succ_cons, Nat.add_assoc, Nat.add_comm 1]

theorem positions_shift (l : List UInt8) (d : ℕ) : ∀ skip pos, positions ssrc skip (pos + d) l =
    (positions ssrc skip pos l).map (· + d) := by
  induction l with
  | nil => exact fun _ _ ↦ rfl
  | cons b rest ih =>
      intro skip pos
      have hnext : pos + d + 1 = pos + 1 + d := Nat.add_right_comm pos d 1
      cases skip with
      | succ skip => rw [positions, positions, hnext, ih]
      | zero =>
          rw [positions, positions, hnext, ih, ih]
          split_ifs <;> rfl

/-- Where a header is found there are bytes enough for the tests. -/
theorem mem_positions {x : ℕ} (l : List UInt8) : ∀ {skip pos : ℕ}, x ∈ positions ssrc skip pos l →
    pos + skip ≤ x ∧ x + 2 * 188 < pos + l.length := by
  induction l with
  | nil =>
      intro skip pos hx
      cases hx
  | cons b rest ih =>
      intro skip pos hx
      rw [List.length_cons]
      cases skip with
      | succ skip =>
          have hrest := ih hx
          omega
      | zero =>
          rw [positions] at hx
          split_ifs at hx with hfound
          · rcases List.mem_cons.mp hx with rfl | hx
            · omega
            · have hrest := ih hx
              omega
          · have hrest := ih hx
            omega

theorem positions_short {l : List UInt8} (skip pos : ℕ) (h : l.length ≤ 2 * 188) :
    positions ssrc skip pos l = [] := by
  apply List.eq_nil_iff_forall_not_mem.mpr
  intro x hx
  have hx := mem_positions l hx
  omega

/-- Headers found are a packet apart. -/
theorem pairwise_positions (l : List UInt8) : ∀ skip pos,
    (positions ssrc skip pos l).Pairwise (· + (12 + 188) ≤ ·) := by
  induction l with
  | nil => exact fun _ _ ↦ .nil
  | cons b rest ih =>
      intro skip pos
      cases skip with
      | succ skip => exact ih skip (pos + 1)
      | zero =>
          rw [positions]
          split_ifs
          · refine List.pairwise_cons.mpr ⟨fun x hx ↦ ?_, ih 199 (pos + 1)⟩
            have hle := (mem_positions rest hx).1
            omega
          · exact ih 0 (pos + 1)

/-- The tests read no further than the second packet and a header behind it. -/
theorem isRtpFrame_append {p more : List UInt8} (h : 2 * 188 < p.length) :
    isRtpFrame ssrc (p ++ more) = isRtpFrame ssrc p := by
  have hread : ∀ i < 213, (p ++ more).getD i 0 = p.getD i 0 := by
    intro i hi
    exact List.getD_append p more 0 i (by omega)
  have hhdr : rtpHdrAt (p ++ more) = rtpHdrAt p := by
    unfold rtpHdrAt word32At
    simp only [hread _ (show 0 < 213 by omega), hread _ (show 1 < 213 by omega),
      hread _ (show 2 < 213 by omega), hread _ (show 3 < 213 by omega),
      hread _ (show 4 < 213 by omega), hread _ (show 4 + 1 < 213 by omega),
      hread _ (show 4 + 2 < 213 by omega), hread _ (show 4 + 3 < 213 by omega),
      hread _ (show 8 < 213 by omega), hread _ (show 8 + 1 < 213 by omega),
      hread _ (show 8 + 2 < 213 by omega), hread _ (show 8 + 3 < 213 by omega)]
  unfold isRtpFrame
  rw [hhdr, hread 12 (by omega), hread (12 + 188) (by omega), hread (12 + 188 + 12) (by omega)]

/-- More bytes behind a buffer leave what is found in it, and add only headers that did
not have bytes enough behind them. -/
theorem positions_append (l more : List UInt8) : ∀ skip pos, ∃ extra,
    positions ssrc skip pos (l ++ more) = positions ssrc skip pos l ++ extra ∧
      ∀ x ∈ extra, pos + l.length ≤ x + 2 * 188 := by
  induction l with
  | nil =>
      intro skip pos
      refine ⟨positions ssrc skip pos more, rfl, fun x hx ↦ ?_⟩
      have hle := (mem_positions more hx).1
      rw [List.length_nil]
      omega
  | cons b rest ih =>
      intro skip pos
      have hlen : pos + (b :: rest).length = pos + 1 + rest.length := by
        rw [List.length_cons]
        omega
      rw [List.cons_append, hlen]
      cases skip with
      | succ skip => exact ih skip (pos + 1)
      | zero =>
          by_cases hlong : 2 * 188 < rest.length + 1
          · have hsame : isRtpFrame ssrc (b :: (rest ++ more)) = isRtpFrame ssrc (b :: rest) :=
              @isRtpFrame_append ssrc (b :: rest) more (by rwa [List.length_cons])
            have hlong' : 2 * 188 < (rest ++ more).length + 1 := by
              rw [List.length_append]
              omega
            rw [positions_cons pos hlong, positions_cons pos hlong', hsame]
            split_ifs
            · obtain ⟨extra, heq, hextra⟩ := ih 199 (pos + 1)
              exact ⟨extra, congrArg _ heq, hextra⟩
            · exact ih 0 (pos + 1)
          · rw [@positions_short ssrc (b :: rest) 0 pos (by rw [List.length_cons]; omega)]
            refine ⟨positions ssrc 0 pos (b :: (rest ++ more)), rfl, fun x hx ↦ ?_⟩
            have hle := (mem_positions _ hx).1
            omega

/-- What is found in the front of a buffer. -/
theorem positions_take (l : List UInt8) {n : ℕ} (hn : n ≤ l.length) :
    positions ssrc 0 0 (l.take n) = (positions ssrc 0 0 l).filter (· + 2 * 188 < n) := by
  obtain ⟨extra, heq, hextra⟩ := @positions_append ssrc (l.take n) (l.drop n) 0 0
  have hlen : (l.take n).length = n := List.length_take_of_le hn
  rw [Nat.zero_add, hlen] at hextra
  rw [List.take_append_drop] at heq
  have hin : ∀ x ∈ positions ssrc 0 0 (l.take n), decide (x + 2 * 188 < n) = true := by
    intro x hx
    have hlt := (mem_positions _ hx).2
    rw [Nat.zero_add, hlen] at hlt
    exact decide_eq_true hlt
  have hout : ∀ x ∈ extra, ¬decide (x + 2 * 188 < n) = true := by
    intro x hx hlt
    exact absurd (of_decide_eq_true hlt) (Nat.not_lt.mpr (hextra x hx))
  rw [heq, List.filter_append, List.filter_eq_self.mpr hin, List.filter_eq_nil_iff.mpr hout,
    List.append_nil]

/-- A search from a header found before finds it again, and those behind it. -/
theorem positions_restart (l : List UInt8) : ∀ {skip pos i : ℕ} {before behind : List ℕ},
    positions ssrc skip pos l = before ++ i :: behind →
      positions ssrc 0 i (l.drop (i - pos)) = i :: behind := by
  induction l with
  | nil =>
      intro skip pos i before behind h
      simp [positions] at h
  | cons b rest ih =>
      intro skip pos i before behind h
      have hlater : ∀ {skip before}, positions ssrc skip (pos + 1) rest = before ++ i :: behind →
          positions ssrc 0 i ((b :: rest).drop (i - pos)) = i :: behind := by
        intro skip before hrest
        have hle := (mem_positions rest (hrest ▸ List.mem_append_right _ List.mem_cons_self)).1
        rw [show i - pos = i - (pos + 1) + 1 by omega, List.drop_succ_cons]
        exact ih hrest
      cases skip with
      | succ skip => exact hlater h
      | zero =>
          have hstart := h
          rw [positions] at h
          split_ifs at h with hfound
          · cases before with
            | nil =>
                obtain ⟨rfl, -⟩ := List.cons.inj h
                rw [Nat.sub_self]
                exact hstart
            | cons x before => exact hlater (List.cons.inj h).2
          · exact hlater h

/-! ## The entries -/

/-- Entries for positions in a row: each up to the next one, and the last without a
length. -/
def entries (buf : List UInt8) (addr : ℕ) : List ℕ → List RtpFramePosition
  | [] => []
  | [i] => [⟨addr + i, 0, rtpHdrAt (buf.drop i)⟩]
  | i :: j :: rest => ⟨addr + i, j - i, rtpHdrAt (buf.drop i)⟩ :: entries buf addr (j :: rest)

theorem length_entries (buf : List UInt8) (addr : ℕ) (l : List ℕ) :
    (entries buf addr l).length = l.length := by
  induction l with
  | nil => rfl
  | cons i rest ih =>
      cases rest with
      | nil => rfl
      | cons j rest => exact congrArg Nat.succ ih

theorem entries_ne_nil (buf : List UInt8) (addr i : ℕ) (rest : List ℕ) :
    entries buf addr (i :: rest) ≠ [] := by
  rw [← List.length_pos_iff_ne_nil, length_entries]
  exact Nat.succ_pos _

theorem setPriorLength_cons (e : RtpFramePosition) {arr : List RtpFramePosition} (h : arr ≠ [])
    (offset : ℕ) : setPriorLength (e :: arr) offset = e :: setPriorLength arr offset := by
  obtain ⟨e', rest, rfl⟩ := List.exists_cons_of_ne_nil h
  rfl

theorem setPriorLength_entries (buf : List UInt8) (addr j : ℕ) (l : List ℕ) :
    setPriorLength (entries buf addr l) (addr + j) ++ [⟨addr + j, 0, rtpHdrAt (buf.drop j)⟩] =
      entries buf addr (l ++ [j]) := by
  induction l with
  | nil => rfl
  | cons i rest ih =>
      cases rest with
      | nil =>
          have hlen : addr + j - (addr + i) = j - i := Nat.add_sub_add_left addr j i
          rw [List.singleton_append, entries, entries, entries, ← hlen]
          rfl
      | cons i' rest =>
          rw [entries, setPriorLength_cons _ (entries_ne_nil buf addr i' rest),
            List.cons_append, ih]
          rfl

theorem queryLoop_eq (buf : List UInt8) (addr fuel : ℕ) : ∀ {i : ℕ} {l : List ℕ},
    buf.length < fuel + i →
      queryLoop buf addr ssrc fuel i (entries buf addr l) =
        entries buf addr (l ++ positions ssrc 0 i (buf.drop i)) := by
  induction fuel with
  | zero =>
      intro i l hfuel
      rw [List.drop_eq_nil_of_le (by omega), positions, List.append_nil, queryLoop]
  | succ fuel ih =>
      intro i l hfuel
      rw [queryLoop]
      by_cases hin : i + 2 * 188 < buf.length
      · have hcons : buf.drop i = buf[i] :: buf.drop (i + 1) := List.drop_eq_getElem_cons (by omega)
        have hlong : 2 * 188 < (buf.drop (i + 1)).length + 1 := by
          rw [List.length_drop]
          omega
        rw [if_pos hin, hcons, positions_cons i hlong]
        split_ifs
        · rw [← hcons, setPriorLength_entries, ih (by omega), positions_skip _ 199, List.drop_drop,
            List.append_assoc]
          rfl
        · exact ih (by omega)
      · rw [if_neg hin, positions_short 0 i (by rw [List.length_drop]; omega), List.append_nil]

/-- The search returns an entry for every header found. -/
theorem rtpFrameQueryPositions_eq (buf : List UInt8) (addr : ℕ) (ssrc : UInt32) :
    rtpFrameQueryPositions buf addr ssrc = entries buf addr (positions ssrc 0 0 buf) :=
  @queryLoop_eq ssrc buf addr (buf.length + 1) 0 [] (Nat.lt_succ_self _)

/-! ## Taking frames off a buffer -/

/-- The bytes between headers in a row. -/
def cuts (l : List UInt8) : List ℕ → List (List UInt8)
  | [] => []
  | [_] => []
  | i :: j :: rest => (l.drop i).take (j - i) :: cuts l (j :: rest)

/-- The first frame that is followed by a header, and what is left from that on. -/
def nextFrame (ssrc : UInt32) (l : List UInt8) : Option (List UInt8 × List UInt8) :=
  match positions ssrc 0 0 l with
  | [] => none
  | [_] => none
  | i :: j :: _ => some ((l.drop i).take (j - i), l.drop j)

theorem bounds_of_positions {l : List UInt8} {i j : ℕ} {t : List ℕ}
    (h : positions ssrc 0 0 l = i :: j :: t) : i + (12 + 188) ≤ j ∧ j + 2 * 188 < l.length := by
  have hin := (mem_positions l (h ▸ List.mem_cons_of_mem i List.mem_cons_self)).2
  have hpair := @pairwise_positions ssrc l 0 0
  rw [h] at hpair
  rw [Nat.zero_add] at hin
  exact ⟨(List.pairwise_cons.mp hpair).1 j List.mem_cons_self, hin⟩

theorem incremental_nextFrame (ssrc : UInt32) : Incremental (nextFrame ssrc) where
  shrinks := by
    intro l frame rest h
    unfold nextFrame at h
    split at h
    · cases h
    · cases h
    · next i j t heq =>
        obtain ⟨-, rfl⟩ := Prod.mk.inj (Option.some.inj h)
        obtain ⟨hgap, hin⟩ := bounds_of_positions heq
        rw [List.length_drop]
        omega
  extends_ := by
    intro l frame rest more h
    unfold nextFrame at h ⊢
    split at h
    · cases h
    · cases h
    · next i j t heq =>
        obtain ⟨rfl, rfl⟩ := Prod.mk.inj (Option.some.inj h)
        obtain ⟨extra, happend, -⟩ := @positions_append ssrc l more 0 0
        obtain ⟨hgap, hin⟩ := bounds_of_positions heq
        rw [happend, heq]
        simp only [List.cons_append, Option.some.injEq, Prod.mk.injEq]
        rw [List.drop_append_of_le_length (by omega), List.drop_append_of_le_length (by omega),
          List.take_append_of_le_length (by rw [List.length_drop]; omega)]
        exact ⟨rfl, rfl⟩

/-- The first frame from a position on, in the positions of the whole buffer. -/
theorem nextFrame_drop (l : List UInt8) (k : ℕ) :
    nextFrame ssrc (l.drop k) =
      match positions ssrc 0 k (l.drop k) with
      | [] => none
      | [_] => none
      | i :: j :: _ => some ((l.drop i).take (j - i), l.drop j) := by
  have hshift := @positions_shift ssrc (l.drop k) k 0 0
  rw [Nat.zero_add] at hshift
  rw [hshift, nextFrame]
  rcases positions ssrc 0 0 (l.drop k) with - | ⟨i, - | ⟨j, t⟩⟩
  · rfl
  · rfl
  · simp only [List.map_cons, List.drop_drop, Nat.add_sub_add_right, Nat.add_comm k]

/-- From a header on, all frames are taken that are followed by one. -/
theorem drains_from (l : List UInt8) (js : List ℕ) : ∀ {i : ℕ},
    positions ssrc 0 i (l.drop i) = i :: js →
      Drains (nextFrame ssrc) (l.drop i) (cuts l (i :: js)) (l.drop (js.getLastD i)) := by
  induction js with
  | nil =>
      intro i h
      refine .stuck ?_
      rw [nextFrame_drop, h]
  | cons j js ih =>
      intro i h
      have hnext : nextFrame ssrc (l.drop i) = some ((l.drop i).take (j - i), l.drop j) := by
        rw [nextFrame_drop, h]
      have hrestart := positions_restart (l.drop i) (h.trans (List.singleton_append).symm)
      have hle := (mem_positions (l.drop i) (h ▸ List.mem_cons_of_mem i List.mem_cons_self)).1
      rw [List.drop_drop, show i + (j - i) = j by omega] at hrestart
      rw [List.getLastD_cons]
      exact .take hnext (ih hrestart)

/-- A search and one frame after the other come to the same: nothing is taken of a buffer
with less than two headers, and else what is left starts with the last one. -/
theorem drains_positions (l : List UInt8) :
    Drains (nextFrame ssrc) l (cuts l (positions ssrc 0 0 l))
      (if (positions ssrc 0 0 l).length < 2 then l
        else l.drop ((positions ssrc 0 0 l).getLastD 0)) := by
  have hfirst := @nextFrame_drop ssrc l 0
  rw [List.drop_zero] at hfirst
  rcases h : positions ssrc 0 0 l with - | ⟨i, - | ⟨j, t⟩⟩
  · exact .stuck (by rw [hfirst, h])
  · exact .stuck (by rw [hfirst, h])
  · have hrestart := positions_restart l (h.trans (List.singleton_append).symm)
    rw [Nat.sub_zero] at hrestart
    rw [if_neg (by simp), List.getLastD_cons, List.getLastD_cons]
    exact .take (by rw [hfirst, h]) (drains_from l t hrestart)

end LtnTsTools.Rtp
