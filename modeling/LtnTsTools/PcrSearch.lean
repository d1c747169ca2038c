import Mathlib.Data.List.GetD
import LtnTsTools.TransportPacket

/-!
# Clock references in a buffer

`ltntstools_findSyncPosition` and `ltntstools_queryPCRs` of `ts.c`, on a buffer
of bytes.  On a buffer of whole packets with sync bytes the search finds exactly
the packets that carry a clock reference, at their own offsets.
-/

namespace LtnTsTools

/-- `struct ltntstools_pcr_position_s`. -/
structure PcrPosition where
  pcr : ℤ
  offset : ℕ
  pid : ℕ
deriving DecidableEq

/-- `ltntstools_pcr_position_reset`. -/
def pcrPositionReset : PcrPosition := ⟨-1, 0, 0⟩

namespace Ts

/-- The packet at `buf + i`; what lies behind the buffer reads as zero. -/
def packetAt (buf : List UInt8) (i : ℕ) : Packet where
  bytes := (buf.drop i ++ List.replicate 188 0).take 188
  length_bytes := by
    rw [List.length_take, List.length_append, List.length_replicate]
    omega

/-- `ltntstools_findSyncPosition`; `none` is `-1`. -/
def findSyncPosition (buf : List UInt8) : Option ℕ :=
  if buf.length < 3 * 188 then none
  else
    (List.range 188).find? fun i ↦
      buf.getD i 0 == 0x47 && buf.getD (i + 188) 0 == 0x47 && buf.getD (i + 2 * 188) 0 == 0x47

/-- The loop of `ltntstools_queryPCRs`: an RTP header is skipped by twelve bytes
and the step of the loop. -/
def queryPcrsLoop (buf : List UInt8) (limit addr : ℕ) : ℕ → ℕ → List PcrPosition
  | 0, _ => []
  | fuel + 1, i =>
      if i < limit then
        let pkt := packetAt buf i
        if pkt.byte 0 = 0x80 ∧ pkt.byte 12 = 0x47 then
          queryPcrsLoop buf limit addr fuel (i + 12 + 188)
        else
          match scr pkt with
          | none => queryPcrsLoop buf limit addr fuel (i + 188)
          | some v => ⟨v, addr + i, pid pkt⟩ :: queryPcrsLoop buf limit addr fuel (i + 188)
      else []

/-- `ltntstools_queryPCRs`; `none` is the error return.  A step of the loop is at
least 188 bytes, so the length of the buffer is fuel enough. -/
def queryPcrs (buf : List UInt8) (addr : ℕ) : Option (List PcrPosition) :=
  match findSyncPosition buf with
  | none => none
  | some offset => some (queryPcrsLoop buf (buf.length - offset) addr buf.length offset)

/-- `ltntstools_scr_add` with `MAX_SCR_VALUE` 2576980377600. -/
def scrAdd (scr ticks : ℤ) : ℤ :=
  let clock := scr + ticks
  if clock > 2576980377600 then clock - 2576980377600
  else if clock < 0 then clock + 2576980377600
  else clock

/-! ## Whole packets -/

def packetBytes (pkts : List Packet) : List UInt8 := pkts.flatMap Packet.bytes

@[simp] theorem packetBytes_nil : packetBytes [] = [] := rfl

@[simp] theorem packetBytes_cons (pkt : Packet) (rest : List Packet) :
    packetBytes (pkt :: rest) = pkt.bytes ++ packetBytes rest := rfl

@[simp] theorem packetBytes_append (pkts rest : List Packet) :
    packetBytes (pkts ++ rest) = packetBytes pkts ++ packetBytes rest :=
  List.flatMap_append

@[simp] theorem length_packetBytes (pkts : List Packet) :
    (packetBytes pkts).length = 188 * pkts.length := by
  induction pkts with
  | nil => rfl
  | cons pkt rest ih =>
      rw [packetBytes_cons, List.length_append, ih, pkt.length_bytes, List.length_cons]
      omega

theorem drop_packetBytes (pkts rest : List Packet) :
    (packetBytes (pkts ++ rest)).drop (188 * pkts.length) = packetBytes rest := by
  rw [packetBytes_append]
  exact List.drop_left' (length_packetBytes pkts)

theorem take_packetBytes (pkts rest : List Packet) :
    (packetBytes (pkts ++ rest)).take (188 * pkts.length) = packetBytes pkts := by
  rw [packetBytes_append]
  exact List.take_left' (length_packetBytes pkts)

theorem packetAt_packetBytes (pkts rest : List Packet) (pkt : Packet) :
    packetAt (packetBytes (pkts ++ pkt :: rest)) (188 * pkts.length) = pkt := by
  have hbytes : ((packetBytes (pkts ++ pkt :: rest)).drop (188 * pkts.length) ++
      List.replicate 188 0).take 188 = pkt.bytes := by
    rw [drop_packetBytes, packetBytes_cons, List.append_assoc]
    exact List.take_left' pkt.length_bytes
  cases pkt
  simp only [packetAt, Packet.mk.injEq]
  exact hbytes

theorem getD_packetBytes (pkts rest : List Packet) (pkt : Packet) :
    (packetBytes (pkts ++ pkt :: rest)).getD (188 * pkts.length) 0 = pkt.bytes.getD 0 0 := by
  have hlen : 0 < pkt.bytes.length := by rw [pkt.length_bytes]; norm_num
  calc (packetBytes (pkts ++ pkt :: rest)).getD (188 * pkts.length) 0
      _ = (packetBytes (pkt :: rest)).getD 0 0 := by
        rw [packetBytes_append, List.getD_append_right _ _ _ _ (length_packetBytes pkts).le,
          length_packetBytes, Nat.sub_self]
      _ = pkt.bytes.getD 0 0 := by rw [packetBytes_cons, List.getD_append _ _ _ _ hlen]

theorem syncPresent_iff (pkt : Packet) :
    syncPresent pkt = true ↔ pkt.bytes.getD 0 0 = 0x47 := by
  rw [syncPresent, beq_iff_eq, Packet.byte, ← UInt8.toNat_inj]
  rfl

/-- Whole packets with sync bytes are in sync from the start on, if there are at
least three. -/
theorem findSyncPosition_packetBytes {pkts : List Packet}
    (hsync : ∀ pkt ∈ pkts, syncPresent pkt = true) :
    findSyncPosition (packetBytes pkts) = if pkts.length < 3 then none else some 0 := by
  unfold findSyncPosition
  rw [length_packetBytes]
  match pkts, hsync with
  | [], _ => simp
  | [_], _ => simp
  | [_, _], _ => simp
  | a :: b :: c :: rest, hsync =>
      have ha := (syncPresent_iff a).mp (hsync a (by simp))
      have hb := (syncPresent_iff b).mp (hsync b (by simp))
      have hc := (syncPresent_iff c).mp (hsync c (by simp))
      have h0 := getD_packetBytes [] (b :: c :: rest) a
      have h1 := getD_packetBytes [a] (c :: rest) b
      have h2 := getD_packetBytes [a, b] rest c
      rw [ha] at h0
      rw [hb] at h1
      rw [hc] at h2
      rw [if_neg (by simp only [List.length_cons]; omega),
        if_neg (by simp only [List.length_cons]; omega), List.find?_eq_some_iff_getElem]
      refine ⟨?_, 0, by simp, by simp, by simp⟩
      have hall : (packetBytes (a :: b :: c :: rest)).getD 0 0 = 0x47 ∧
          (packetBytes (a :: b :: c :: rest)).getD 188 0 = 0x47 ∧
          (packetBytes (a :: b :: c :: rest)).getD 376 0 = 0x47 := ⟨h0, h1, h2⟩
      simp only [Nat.zero_add, Nat.reduceMul, hall, beq_self_eq_true, Bool.and_self]

/-- The clock references of packets in a row, the first of which has number `k`. -/
def clockPositions : ℕ → List Packet → List PcrPosition
  | _, [] => []
  | k, pkt :: rest =>
      match scr pkt with
      | none => clockPositions (k + 1) rest
      | some v => ⟨v, 188 * k, pid pkt⟩ :: clockPositions (k + 1) rest

theorem queryPcrsLoop_packetBytes (rest : List Packet) :
    ∀ (pkts : List Packet) (fuel : ℕ), (∀ pkt ∈ rest, syncPresent pkt = true) →
      rest.length < fuel →
      queryPcrsLoop (packetBytes (pkts ++ rest)) (188 * (pkts ++ rest).length) 0 fuel
        (188 * pkts.length) = clockPositions pkts.length rest := by
  induction rest with
  | nil =>
      intro pkts fuel _ hfuel
      obtain ⟨fuel, rfl⟩ : ∃ n, fuel = n + 1 := ⟨fuel - 1, by omega⟩
      rw [queryPcrsLoop, if_neg (by simp)]
      rfl
  | cons pkt rest ih =>
      intro pkts fuel hsync hfuel
      obtain ⟨fuel, rfl⟩ : ∃ n, fuel = n + 1 := ⟨fuel - 1, by omega⟩
      have hnext := ih (pkts ++ [pkt]) fuel (fun p hp ↦ hsync p (List.mem_cons_of_mem pkt hp))
        (by simpa using hfuel)
      rw [List.append_assoc, List.singleton_append,
        show (pkts ++ [pkt]).length = pkts.length + 1 by simp,
        show 188 * (pkts.length + 1) = 188 * pkts.length + 188 by ring] at hnext
      have h47 : pkt.byte 0 = 0x47 := by
        simpa [syncPresent] using hsync pkt List.mem_cons_self
      rw [queryPcrsLoop, if_pos (by simp), packetAt_packetBytes, if_neg (by omega),
        clockPositions, hnext]
      cases scr pkt with
      | none => rfl
      | some v => simp only [Nat.zero_add]

/-- The search of a buffer of whole packets with sync bytes. -/
theorem queryPcrs_packetBytes {pkts : List Packet}
    (hsync : ∀ pkt ∈ pkts, syncPresent pkt = true) :
    queryPcrs (packetBytes pkts) 0 =
      if pkts.length < 3 then none else some (clockPositions 0 pkts) := by
  unfold queryPcrs
  rw [findSyncPosition_packetBytes hsync]
  split_ifs with hlen
  · rfl
  · have hloop := queryPcrsLoop_packetBytes pkts [] (188 * pkts.length) hsync (by omega)
    simp only [List.nil_append, List.length_nil, Nat.mul_zero] at hloop
    simp only [Nat.sub_zero, length_packetBytes, hloop]

end Ts

end LtnTsTools
