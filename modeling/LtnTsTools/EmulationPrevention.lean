import LtnTsTools.NalHeaders
import LtnTsTools.Stuffing

/-!
# Emulation prevention

`ltn_nal_h264_strip_emulation_prevention` takes the bytes 03 out of a NAL that stand
behind two zero bytes.  It works in place: what is behind a byte that goes is moved down,
and the scan goes on over the moved bytes, so that zero bytes in front of the 03 count
once more.  The syntax it cites starts to count anew behind a 03.  `memcpy` is called on
overlapping memory and taken to move it, and a NAL is no longer than an `int`, as its
scanner returns it.
-/

namespace LtnTsTools.Nal

/-- `memcpy`, also where source and destination overlap. -/
def memcpy (mem : List UInt8) (dst src n : ℕ) : List UInt8 :=
  mem.take dst ++ (mem.drop src).take n ++ mem.drop (dst + n)

/-- The test of a round: 00 00 03 at an offset into the NAL. -/
def EmulatesAt (mem : List UInt8) (ptr lengthBytes i : ℕ) : Prop :=
  i + 2 < lengthBytes ∧ mem[ptr + i]? = some 0 ∧ mem[ptr + i + 1]? = some 0 ∧
    mem[ptr + i + 2]? = some 3

instance (mem : List UInt8) (ptr lengthBytes i : ℕ) :
    Decidable (EmulatesAt mem ptr lengthBytes i) :=
  inferInstanceAs (Decidable (_ ∧ _))

/-- The loop of `ltn_nal_h264_strip_emulation_prevention`, up to the length before it. -/
def stripLoop (ptr lengthBytes : ℕ) : ℕ → ℕ → List UInt8 → ℕ → List UInt8 × ℕ
  | 0, _, mem, dropped => (mem, dropped)
  | fuel + 1, i, mem, dropped =>
      if i < lengthBytes then
        if EmulatesAt mem ptr lengthBytes i then
          stripLoop ptr lengthBytes fuel (i + 1)
            (memcpy mem (ptr + i + 2) (ptr + i + 3) (lengthBytes - i - 3)) (dropped + 1)
        else stripLoop ptr lengthBytes fuel (i + 1) mem dropped
      else (mem, dropped)

/-- `ltn_nal_h264_strip_emulation_prevention`: the memory and the header behind it. -/
def ltnNalH264StripEmulationPrevention (mem : List UInt8) (h : NalHeader) :
    Option (List UInt8 × NalHeader) :=
  if h.lengthBytes < 4 then none
  else
    let (mem, dropped) := stripLoop h.ptr h.lengthBytes h.lengthBytes 1 mem 0
    some (mem, { h with lengthBytes := h.lengthBytes - dropped })

/-- A 03 goes in front of every byte up to 3 that comes behind two zero bytes. -/
def emulationPrevention : Stuffing UInt8 where
  zero := 0
  mark := 3
  limit := 2
  special x := x ≤ 3
  limit_pos := by decide
  mark_ne_zero := by decide
  special_mark := by decide

/-- A NAL with its start code; the payload is counted for itself. -/
def escapedNal (header : UInt8) (rbsp : List UInt8) : List UInt8 :=
  startCode ++ header :: emulationPrevention.escape 0 rbsp

/-! ## The loop -/

/-- A removal moves what is behind the byte down, and the last byte stays as it is. -/
theorem memcpy_remove {pre rest behind : List UInt8} {x last : UInt8}
    (hlast : (x :: rest).getLast? = some last) :
    memcpy (pre ++ x :: (rest ++ behind)) pre.length (pre.length + 1) rest.length =
      pre ++ (rest ++ last :: behind) := by
  obtain ⟨front, hfront⟩ := List.getLast?_eq_some_iff.mp hlast
  have hlen : rest.length = front.length := by simpa using congrArg List.length hfront
  have hbehind : (pre ++ x :: (rest ++ behind)).drop (pre.length + rest.length) =
      last :: behind := by
    calc (pre ++ x :: (rest ++ behind)).drop (pre.length + rest.length)
        _ = (x :: rest ++ behind).drop rest.length := by
          rw [← List.drop_drop, List.drop_left, List.cons_append]
        _ = (front ++ last :: behind).drop front.length := by
          rw [hfront, hlen, List.append_assoc, List.singleton_append]
        _ = last :: behind := List.drop_left
  have hmoved : (pre ++ x :: (rest ++ behind)).drop (pre.length + 1) = rest ++ behind := by
    rw [List.append_cons]
    exact List.drop_left' (by simp)
  rw [memcpy, List.take_left, hmoved, List.take_left, hbehind, List.append_assoc]

/-- A scan that meets no 00 00 03 leaves all as it is. -/
theorem stripLoop_idle {ptr lengthBytes : ℕ} {mem : List UInt8} {dropped : ℕ} (fuel : ℕ) :
    ∀ {i : ℕ}, (∀ j, i ≤ j → ¬EmulatesAt mem ptr lengthBytes j) →
      stripLoop ptr lengthBytes fuel i mem dropped = (mem, dropped) := by
  induction fuel with
  | zero => exact fun _ ↦ rfl
  | succ fuel ih =>
      intro i hidle
      rw [stripLoop, if_neg (hidle i le_rfl), ih fun j hj ↦ hidle j (Nat.le_of_succ_le hj),
        ite_self]

/-- Behind the last byte there are only copies of it. -/
theorem not_emulatesAt_copies {pre behind : List UInt8} {x v : UInt8} {ptr i m : ℕ}
    (hi : ptr + i = pre.length) {j : ℕ} (hj : i ≤ j) :
    ¬EmulatesAt (pre ++ x :: (List.replicate m v ++ behind)) ptr (i + 1 + m) j := by
  rintro ⟨hin, -, hzero, hmark⟩
  have hcopy : ∀ q < m, (pre ++ x :: (List.replicate m v ++ behind))[pre.length + 1 + q]? =
      some v := by
    intro q hq
    have hindex : pre.length + 1 + q - (pre ++ [x]).length = q := by simp
    rw [List.append_cons, List.getElem?_append_right (by simp), hindex,
      List.getElem?_append_left (by simpa using hq), List.getElem?_replicate_of_lt hq]
  obtain ⟨q, rfl⟩ := Nat.exists_eq_add_of_le hj
  rw [show ptr + (i + q) + 1 = pre.length + 1 + q by omega, hcopy q (by omega)] at hzero
  rw [show ptr + (i + q) + 2 = pre.length + 1 + (q + 1) by omega, hcopy _ (by omega)] at hmark
  rw [hzero] at hmark
  exact absurd hmark (by decide)

/-- There the scan leaves all as it is. -/
theorem stripLoop_copies {pre behind : List UInt8} {x v : UInt8} {ptr i m lengthBytes d : ℕ}
    (hi : ptr + i = pre.length) (hlen : lengthBytes = i + 1 + m) (fuel : ℕ) :
    stripLoop ptr lengthBytes fuel i (pre ++ x :: (List.replicate m v ++ behind)) d =
      (pre ++ x :: (List.replicate m v ++ behind), d) :=
  stripLoop_idle fuel fun _ hj ↦ hlen ▸ not_emulatesAt_copies hi hj

/-- What the last two bytes say of the count of zero bytes. -/
def Counts (a b : UInt8) (z : ℕ) : Prop := (1 ≤ z ↔ b = 0) ∧ (2 ≤ z ↔ a = 0 ∧ b = 0)

theorem Counts.next {a b : UInt8} {z : ℕ} (h : Counts a b z) (x : UInt8) :
    Counts b x (emulationPrevention.next z x) := by
  obtain ⟨hone, -⟩ := h
  have hzero : emulationPrevention.zero = 0 := rfl
  rw [Stuffing.next, hzero]
  by_cases hx : x = 0
  · rw [if_pos hx, Counts]
    refine ⟨iff_of_true (Nat.le_add_left 1 z) hx, ?_⟩
    rw [and_iff_left hx, ← hone]
    omega
  · rw [if_neg hx, Counts]
    exact ⟨iff_of_false (by omega) hx, iff_of_false (by omega) fun h ↦ hx h.2⟩

/-- A round removes a 03 behind two zero bytes. -/
theorem emulatesAt_iff {pre tail : List UInt8} {a b x : UInt8} {z ptr i lengthBytes : ℕ}
    (hcounts : Counts a b z) (hi : ptr + i = pre.length) (hin : i + 2 < lengthBytes) :
    EmulatesAt (pre ++ a :: b :: x :: tail) ptr lengthBytes i ↔ 2 ≤ z ∧ x = 3 := by
  have hread : ∀ q, (pre ++ a :: b :: x :: tail)[pre.length + q]? = (a :: b :: x :: tail)[q]? := by
    intro q
    rw [List.getElem?_append_right (Nat.le_add_right _ q), Nat.add_sub_cancel_left]
  have hfirst := hread 0
  rw [Nat.add_zero] at hfirst
  rw [EmulatesAt, hi, hfirst, hread, hread, hcounts.2, and_iff_right hin]
  simp [and_assoc]

/-- A removal in front of the copies of the last byte makes one copy more. -/
theorem memcpy_copies {pre rest behind : List UInt8} {a b x v : UInt8} {d n : ℕ}
    (hlast : (x :: rest).getLast? = some v) (hn : n = rest.length + d) :
    memcpy (pre ++ a :: b :: (x :: rest ++ (List.replicate d v ++ behind))) (pre.length + 2)
        (pre.length + 3) n =
      pre ++ a :: b :: (rest ++ (List.replicate (d + 1) v ++ behind)) := by
  have hend : (x :: (rest ++ List.replicate d v)).getLast? = some v := by
    rw [← List.cons_append, List.getLast?_append, hlast, List.getLast?_replicate]
    split_ifs <;> rfl
  have hremove := @memcpy_remove (pre ++ [a, b]) _ behind _ _ hend
  rw [List.length_append, List.length_append, List.length_replicate, ← hn] at hremove
  simpa [List.replicate_succ'] using hremove

section Rounds

variable {ptr lengthBytes fuel i d z : ℕ} {pre rest behind : List UInt8} {a b x v : UInt8}

theorem stripLoop_kept (hcounts : Counts a b z) (hi : ptr + i = pre.length)
    (hin : i + 2 < lengthBytes) (hmark : ¬(2 ≤ z ∧ x = 3)) :
    stripLoop ptr lengthBytes (fuel + 1) i (pre ++ a :: b :: x :: rest) d =
      stripLoop ptr lengthBytes fuel (i + 1) (pre ++ [a] ++ b :: x :: rest) d := by
  rw [stripLoop, if_pos (by omega), if_neg (mt (emulatesAt_iff hcounts hi hin).mp hmark),
    ← List.append_cons]

/-- A round that takes a byte out, in front of the copies of the last one. -/
theorem stripLoop_removed (hcounts : Counts a b z) (hi : ptr + i = pre.length)
    (hlast : (3 :: rest).getLast? = some v) (hlen : lengthBytes = i + 3 + rest.length + d)
    (hz : 2 ≤ z) :
    stripLoop ptr lengthBytes (fuel + 1) i
        (pre ++ a :: b :: (3 :: rest ++ (List.replicate d v ++ behind))) d =
      stripLoop ptr lengthBytes fuel (i + 1)
        (pre ++ [a] ++ b :: (rest ++ (List.replicate (d + 1) v ++ behind))) (d + 1) := by
  have htest := (@emulatesAt_iff pre (rest ++ (List.replicate d v ++ behind)) a b 3 z ptr i
    lengthBytes hcounts hi (by omega)).mpr ⟨hz, rfl⟩
  rw [stripLoop, if_pos (by omega), List.cons_append, if_pos htest, hi, ← List.cons_append,
    memcpy_copies hlast (show lengthBytes - i - 3 = rest.length + d by omega), ← List.append_cons]

end Rounds

/-- The loop is the receiver that goes on counting; behind what it leaves there is as much
as it has dropped. -/
theorem stripLoop_eq {ptr lengthBytes : ℕ} {behind : List UInt8} {v : UInt8} (fuel : ℕ) :
    ∀ {pre input : List UInt8} {a b : UInt8} {z i d : ℕ}, input.length ≤ fuel → Counts a b z →
      ptr + i = pre.length → (b :: input).getLast? = some v →
      lengthBytes = i + 2 + input.length + d →
      ∃ stale, stripLoop ptr lengthBytes fuel i
          (pre ++ a :: b :: (input ++ (List.replicate d v ++ behind))) d =
            (pre ++ a :: b :: (emulationPrevention.unescapeOn z input ++ (stale ++ behind)),
              stale.length) ∧
        stale.length + (emulationPrevention.unescapeOn z input).length = d + input.length := by
  induction fuel with
  | zero =>
      intro pre input a b z i d hfuel _ hi hlast hlen
      obtain rfl := List.eq_nil_of_length_eq_zero (Nat.le_zero.mp hfuel)
      obtain rfl : b = v := by simpa using hlast
      exact ⟨List.replicate d b, by simp [stripLoop, Stuffing.unescapeOn], by
        simp [Stuffing.unescapeOn]⟩
  | succ fuel ih =>
      intro pre input a b z i d hfuel hcounts hi hlast hlen
      have hi' : ptr + (i + 1) = (pre ++ [a]).length := by
        rw [List.length_append, List.length_singleton, ← hi, Nat.add_assoc]
      cases input with
      | nil =>
          obtain rfl : b = v := by simpa using hlast
          refine ⟨List.replicate d b, ?_, by simp [Stuffing.unescapeOn]⟩
          rw [List.length_nil] at hlen
          rw [List.length_replicate]
          exact @stripLoop_copies pre behind a b ptr i (d + 1) lengthBytes d hi (by omega) _
      | cons x rest =>
          rw [List.length_cons] at hfuel hlen
          rw [List.getLast?_cons_cons] at hlast
          by_cases hmark : 2 ≤ z ∧ x = 3
          · obtain ⟨hz, rfl⟩ := hmark
            rw [stripLoop_removed hcounts hi hlast (by omega) hz]
            cases rest with
            | nil =>
                -- the byte was the last one: nothing but copies of it is left
                obtain rfl : 3 = v := by simpa using hlast
                have hgone : emulationPrevention.unescapeOn z [3] = [] := if_pos ⟨hz, rfl⟩
                rw [List.length_nil] at hlen
                have hidle := @stripLoop_copies (pre ++ [a]) behind b 3 ptr (i + 1) (d + 1)
                  lengthBytes (d + 1) hi' (by omega) fuel
                refine ⟨List.replicate (d + 1) 3, ?_, ?_⟩
                · rw [hgone, List.length_replicate]
                  simp only [← List.append_cons] at hidle ⊢
                  exact hidle
                · rw [hgone, List.length_replicate]
                  rfl
            | cons y rest =>
                rw [List.length_cons] at hfuel hlen
                rw [List.getLast?_cons_cons] at hlast
                obtain ⟨stale, hloop, hstale⟩ := @ih (pre ++ [a]) rest b y
                  (emulationPrevention.next z y) (i + 1) (d + 1) (by omega) (hcounts.next y) hi'
                  hlast (by omega)
                have hgone : emulationPrevention.unescapeOn z (3 :: y :: rest) =
                    y :: emulationPrevention.unescapeOn (emulationPrevention.next z y) rest :=
                  Stuffing.unescapeOn_mark hz y rest
                refine ⟨stale, ?_, ?_⟩
                · rw [hgone]
                  simp only [← List.append_cons] at hloop ⊢
                  exact hloop
                · rw [hgone, List.length_cons, ← Nat.add_assoc, hstale]
                  simp only [List.length_cons]
                  omega
          · obtain ⟨stale, hloop, hstale⟩ := @ih (pre ++ [a]) rest b x
              (emulationPrevention.next z x) (i + 1) d (by omega) (hcounts.next x) hi' hlast
              (by omega)
            rw [List.cons_append, stripLoop_kept hcounts hi (by omega) hmark,
              Stuffing.unescapeOn_cons hmark]
            refine ⟨stale, ?_, ?_⟩
            · simp only [← List.append_cons] at hloop ⊢
              exact hloop
            · rw [List.length_cons, ← Nat.add_assoc, hstale]
              rfl

/-- What becomes of a NAL: its payload as the receiver that goes on counting takes it, and
nothing outside of the NAL changes. -/
theorem strip_eq (before payload behind : List UInt8) (header : UInt8) (nalType : ℕ)
    (nalName : Option String) :
    let kept := emulationPrevention.unescapeOn (emulationPrevention.next 0 header) payload
    ∃ stale, ltnNalH264StripEmulationPrevention
        (before ++ (startCode ++ header :: payload) ++ behind)
        ⟨before.length, 4 + payload.length, nalType, nalName⟩ =
      some (before ++ (startCode ++ header :: kept) ++ (stale ++ behind),
        ⟨before.length, 4 + kept.length, nalType, nalName⟩) := by
  intro kept
  have hlast : ∃ v, (1 :: header :: payload).getLast? = some v :=
    ⟨_, List.getLast?_eq_some_getLast (List.cons_ne_nil _ _)⟩
  obtain ⟨v, hv⟩ := hlast
  have hcounts : Counts 0 1 0 := ⟨by decide, by decide⟩
  obtain ⟨stale, hloop, hstale⟩ := @stripLoop_eq before.length (4 + payload.length) behind v
    (4 + payload.length) (before ++ [0]) (header :: payload) 0 1 0 1 0
    (by rw [List.length_cons]; omega) hcounts (by simp) hv (by rw [List.length_cons]; omega)
  have hheader : emulationPrevention.unescapeOn 0 (header :: payload) = header :: kept :=
    Stuffing.unescapeOn_cons (fun h ↦ absurd h.1 (by decide)) payload
  have hmem : before ++ (startCode ++ header :: payload) ++ behind =
      before ++ [0] ++ 0 :: 1 :: (header :: payload ++ (List.replicate 0 v ++ behind)) := by
    simp [startCode]
  rw [hheader] at hloop hstale
  refine ⟨stale, ?_⟩
  rw [ltnNalH264StripEmulationPrevention, if_neg (by simp), hmem]
  simp only [hloop]
  refine congrArg some (Prod.ext ?_ ?_)
  · simp [startCode]
  · simp only [List.length_cons] at hstale
    simp only [NalHeader.mk.injEq, and_true, true_and]
    omega

/-! ## Which NALs come out right -/

/-- The function leaves the start code, the header and the RBSP, with their length, and
the memory outside of the NAL. -/
def StripsExactly (header : UInt8) (rbsp : List UInt8) : Prop :=
  ∀ (before behind : List UInt8) (nalType : ℕ) (nalName : Option String),
    ∃ stale, ltnNalH264StripEmulationPrevention (before ++ escapedNal header rbsp ++ behind)
        ⟨before.length, (escapedNal header rbsp).length, nalType, nalName⟩ =
      some (before ++ (startCode ++ header :: rbsp) ++ (stale ++ behind),
        ⟨before.length, (startCode ++ header :: rbsp).length, nalType, nalName⟩)

def zeroRun (l : List UInt8) : ℕ := emulationPrevention.run l

/-- A byte 03 of the RBSP is taken for one that was put in: the zero bytes in front of it
are odd in number, and at least three, or up to a header that is zero. -/
def LosesMark (header : UInt8) (rbsp : List UInt8) : Prop :=
  ∃ pre post, rbsp = pre ++ 3 :: post ∧ Odd (zeroRun pre) ∧
    (3 ≤ zeroRun pre ∨ header = 0 ∧ zeroRun pre = pre.length)

/-- The sender's count goes from one to two and back in a run of zero bytes. -/
theorem foldl_advance (l : List UInt8) :
    l.foldl emulationPrevention.advance 0 =
      if zeroRun l = 0 then 0 else 2 - zeroRun l % 2 := by
  induction l using List.reverseRecOn with
  | nil => rfl
  | append_singleton l x ih =>
      have hconcat : zeroRun (l ++ [x]) = emulationPrevention.next (zeroRun l) x :=
        Stuffing.run_concat l x
      rw [List.foldl_append, List.foldl_cons, List.foldl_nil, ih, hconcat, Stuffing.advance,
        Stuffing.next, Stuffing.next]
      by_cases hx : x = emulationPrevention.zero
      · have hspecial : emulationPrevention.special x := hx ▸ rfl
        have hlimit : emulationPrevention.limit = 2 := rfl
        rw [if_pos hx, if_pos hx]
        simp only [and_iff_left hspecial, hlimit]
        split_ifs <;> omega
      · rw [if_neg hx, if_neg hx, if_pos rfl]

theorem unescapeOn_escape_eq_iff (header : UInt8) (rbsp : List UInt8) :
    emulationPrevention.unescapeOn (emulationPrevention.next 0 header)
        (emulationPrevention.escape 0 rbsp) = rbsp ↔ ¬LosesMark header rbsp := by
  rw [Stuffing.unescapeOn_escape_iff rbsp (Nat.zero_le _), LosesMark, not_exists]
  apply forall_congr'
  intro pre
  rw [not_exists]
  apply forall_congr'
  intro post
  rw [not_and]
  apply imp_congr_right
  intro _
  have hlimit : emulationPrevention.limit = 2 := rfl
  have hzero : emulationPrevention.zero = 0 := rfl
  rw [foldl_advance, Stuffing.foldl_next, hlimit, Stuffing.next, hzero, ← zeroRun, Nat.odd_iff]
  by_cases hheader : header = 0
  · simp only [hheader, if_true, true_and]
    split_ifs <;> omega
  · simp only [hheader, if_false, false_and, or_false]
    split_ifs <;> omega

/-- The function takes a payload as the syntax of a NAL does, which counts as the sender,
exactly when it loses no byte 03. -/
theorem unescapeOn_eq_unescape_iff (header : UInt8) (rbsp : List UInt8) :
    emulationPrevention.unescapeOn (emulationPrevention.next 0 header)
        (emulationPrevention.escape 0 rbsp) =
      emulationPrevention.unescape 0 (emulationPrevention.escape 0 rbsp) ↔
        ¬LosesMark header rbsp := by
  rw [Stuffing.unescape_escape, unescapeOn_escape_eq_iff]

/-- Emulation prevention is undone exactly for the RBSPs that lose no byte 03. -/
theorem stripsExactly_iff (header : UInt8) (rbsp : List UInt8) :
    StripsExactly header rbsp ↔ ¬LosesMark header rbsp := by
  rw [← unescapeOn_escape_eq_iff]
  have hlength : ∀ payload : List UInt8,
      (startCode ++ header :: payload).length = 4 + payload.length := by
    intro payload
    rw [List.length_append, List.length_cons, Nat.add_comm payload.length 1, ← Nat.add_assoc]
    rfl
  constructor
  · intro hstrips
    obtain ⟨stale, hstrip⟩ := strip_eq [] (emulationPrevention.escape 0 rbsp) [] header 0 none
    obtain ⟨stale', hexact⟩ := hstrips [] [] 0 none
    rw [escapedNal, hlength, hstrip] at hexact
    obtain ⟨hmem, hnal⟩ := Prod.mk.inj (Option.some.inj hexact)
    have hlen := Nat.add_left_cancel ((hlength rbsp) ▸ congrArg NalHeader.lengthBytes hnal)
    simp only [List.nil_append, List.append_nil, List.append_assoc, List.cons_append,
      List.append_cancel_left_eq, List.cons.injEq, true_and] at hmem
    exact (List.append_inj hmem hlen).1
  · intro hkept before behind nalType nalName
    rw [escapedNal, hlength, hlength]
    have hstrip := strip_eq before (emulationPrevention.escape 0 rbsp) behind header nalType nalName
    rwa [hkept] at hstrip

/-- Of the RBSP 00 00 00 03 the last byte is lost, and of 00 03 behind a header of zero. -/
theorem mark_lost : ¬StripsExactly 0x65 [0, 0, 0, 3] ∧ ¬StripsExactly 0 [0, 3] := by
  have hrun : ltnNalH264StripEmulationPrevention
      ([] ++ [0, 0, 1, 0x65, 0, 0, 3, 0, 3] ++ []) ⟨0, 9, 5, none⟩ =
        some ([0, 0, 1, 0x65, 0, 0, 0, 3, 3], ⟨0, 7, 5, none⟩) := by decide
  have hheader : ltnNalH264StripEmulationPrevention ([] ++ [0, 0, 1, 0, 0, 3] ++ [])
      ⟨0, 6, 0, none⟩ = some ([0, 0, 1, 0, 0, 3], ⟨0, 5, 0, none⟩) := by decide
  constructor
  · intro hstrips
    obtain ⟨stale, hexact⟩ := hstrips [] [] 5 none
    have hnal := (Prod.mk.inj (Option.some.inj (hrun.symm.trans hexact))).2
    exact absurd hnal (by decide)
  · intro hstrips
    obtain ⟨stale, hexact⟩ := hstrips [] [] 0 none
    have hnal := (Prod.mk.inj (Option.some.inj (hheader.symm.trans hexact))).2
    exact absurd hnal (by decide)

end LtnTsTools.Nal
