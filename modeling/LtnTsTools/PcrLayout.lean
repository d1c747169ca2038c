import Mathlib.Data.List.GetD
import LtnTsTools.PcrQuery

/-!
# Clock references in a framed buffer

A buffer in sync holds packets, each of which may have an RTP header in front of
it, and ends in bytes that make no whole packet.  The scan of
`ltntstools_queryPCRs` passes every packet without a header and every header, but
no packet behind a header; at the end it passes the partial packet if that is
longer than the sync position.
-/

namespace LtnTsTools.Ts

structure RtpHeader where
  bytes : List UInt8
  length_bytes : bytes.length = 12
  version : bytes.getD 0 0 = 0x80

/-- A transport packet, with an RTP header in front of it if it is the first of a
datagram. -/
structure FramedPacket where
  header : Option RtpHeader
  packet : Packet
  sync : syncPresent packet = true

namespace FramedPacket

def headerBytes (f : FramedPacket) : List UInt8 := f.header.elim [] RtpHeader.bytes

def bytes (f : FramedPacket) : List UInt8 := f.headerBytes ++ f.packet.bytes

end FramedPacket

/-- A buffer that `ltntstools_findSyncPosition` accepts, taken apart from the sync
position on.  The packet that the rest begins is cut, behind a header or not. -/
structure PcrBuffer where
  lead : List UInt8
  packets : List FramedPacket
  rest : List UInt8
  cut : rest.length < 188 ∨
    (rest.length < 200 ∧ rest.getD 0 0 = 0x80 ∧ rest.getD 12 0 = 0x47)
  sync : findSyncPosition (lead ++ packets.flatMap FramedPacket.bytes ++ rest) = some lead.length

def PcrBuffer.bytes (b : PcrBuffer) : List UInt8 :=
  b.lead ++ b.packets.flatMap FramedPacket.bytes ++ b.rest

/-- The clock references that the packets carry, the first one at position `i` of
the buffer. -/
def carriedClocks : ℕ → List FramedPacket → List PcrPosition
  | _, [] => []
  | i, f :: rest =>
      ((scr f.packet).map fun v : ℕ ↦
          PcrPosition.mk v (i + f.headerBytes.length) (pid f.packet)).toList ++
        carriedClocks (i + f.bytes.length) rest

/-- The bytes of a packet that one round of the scan examines: `pkt[0]` and
`pkt[12]` for a header, and what `ltntstools_scr` and `ltntstools_pid` look at. -/
def examined (pkt : Packet) : List ℕ :=
  if pkt.byte 0 = 0x80 then [0, 12]
  else if syncPresent pkt = false then [0]
  else if adaptionFieldControl pkt < 2 then [0, 3]
  else if pkt.byte 4 = 0 then [0, 3, 4]
  else if pkt.byte 5 &&& 0x10 = 0 then [0, 3, 4, 5]
  else [0, 3, 4, 5, 6, 7, 8, 9, 10, 11, 1, 2]

def examinedAt (mem : List UInt8) (i : ℕ) : List ℕ := (examined (packetAt mem i)).map (i + ·)

/-- The bytes that `ltntstools_queryPCRs` examines, the search for the sync
position included. -/
def queryPcrsExamined (buf beyond : List UInt8) : List ℕ :=
  match findSyncPosition buf with
  | none => []
  | some offset =>
      (List.range (offset + 1)).flatMap (fun i ↦ [i, i + 188, i + 2 * 188]) ++
        (visited (buf ++ beyond) (buf.length - offset) buf.length offset).flatMap
          (examinedAt (buf ++ beyond))

/-! ## Bytes of a packet in a buffer -/

theorem byte_packetAt (mem : List UInt8) (i : ℕ) {k : ℕ} (hk : k < 188) :
    (packetAt mem i).byte k = (mem.getD (i + k) 0).toNat := by
  have hbyte : (packetAt mem i).byte k =
      (((mem.drop i ++ List.replicate 188 0).take 188).getD k 0).toNat := rfl
  rw [hbyte, List.getD_eq_getElem?_getD, List.getElem?_take_of_lt hk, List.getD_eq_getElem?_getD]
  congr 1
  rcases lt_or_ge k (mem.drop i).length with hin | hout
  · rw [List.getElem?_append_left hin, List.getElem?_drop]
  · rw [List.getElem?_append_right hout, List.getElem?_replicate_of_lt (by omega),
      List.getElem?_eq_none (by rw [List.length_drop] at hout; omega)]
    rfl

theorem packetAt_of_split {mem front after : List UInt8} {pkt : Packet}
    (h : mem = front ++ (pkt.bytes ++ after)) : packetAt mem front.length = pkt := by
  have hbytes : (mem.drop front.length ++ List.replicate 188 0).take 188 = pkt.bytes := by
    rw [h, List.drop_left, List.append_assoc]
    exact List.take_left' pkt.length_bytes
  cases pkt
  simp only [packetAt, Packet.mk.injEq]
  exact hbytes

theorem getD_of_split {mem front after : List UInt8} (h : mem = front ++ after) (k : ℕ) :
    mem.getD (front.length + k) 0 = after.getD k 0 := by
  rw [h, List.getD_append_right _ _ _ _ (by omega), Nat.add_sub_cancel_left]

theorem examined_lt (pkt : Packet) : ∀ k ∈ examined pkt, k < 13 := by
  unfold examined
  split_ifs <;> decide

theorem mem_examinedAt {mem : List UInt8} {i k : ℕ} :
    k ∈ examinedAt mem i ↔ ∃ j ∈ examined (packetAt mem i), i + j = k := List.mem_map

/-! ## The scan of framed packets -/

namespace FramedPacket

variable {mem front after : List UInt8} {f : FramedPacket}

theorem length_bytes (f : FramedPacket) : 188 ≤ f.bytes.length ∧ f.bytes.length ≤ 200 := by
  have hpacket := f.packet.length_bytes
  have hlen : f.bytes.length = f.headerBytes.length + 188 := by
    rw [bytes, List.length_append, hpacket]
  unfold headerBytes at hlen
  cases hheader : f.header with
  | none => simp [hheader] at hlen; omega
  | some h =>
      have hh := h.length_bytes
      simp [hheader, hh] at hlen
      omega

theorem byte_zero (f : FramedPacket) : f.packet.byte 0 = 0x47 := by
  simpa [syncPresent] using f.sync

/-- The header of a packet is recognised, by the sync byte behind it. -/
theorem rtpHeaderAt_of_header (hmem : mem = front ++ (f.bytes ++ after)) {h : RtpHeader}
    (hheader : f.header = some h) : RtpHeaderAt (packetAt mem front.length) := by
  have hbytes : f.bytes ++ after = h.bytes ++ (f.packet.bytes ++ after) := by
    simp [bytes, headerBytes, hheader]
  have hlen := h.length_bytes
  constructor
  · rw [byte_packetAt mem _ (by norm_num), getD_of_split hmem, hbytes,
      List.getD_append _ _ _ _ (by omega), h.version]
    rfl
  · rw [byte_packetAt mem _ (by norm_num), getD_of_split hmem, hbytes,
      List.getD_append_right _ _ _ _ (by omega), hlen, Nat.sub_self,
      List.getD_append _ _ _ _ (by rw [f.packet.length_bytes]; norm_num)]
    exact f.byte_zero

theorem packetAt_of_no_header (hmem : mem = front ++ (f.bytes ++ after))
    (hheader : f.header = none) : packetAt mem front.length = f.packet := by
  refine @packetAt_of_split mem front after f.packet ?_
  rw [hmem]
  simp [bytes, headerBytes, hheader]

/-- One packet of the buffer: the scan goes on behind it. -/
theorem nextPosition_eq (hmem : mem = front ++ (f.bytes ++ after)) :
    nextPosition mem front.length = front.length + f.bytes.length := by
  have hpacket := f.packet.length_bytes
  cases hheader : f.header with
  | none =>
      have hnot : ¬RtpHeaderAt (packetAt mem front.length) := by
        rw [packetAt_of_no_header hmem hheader]
        rintro ⟨h80, -⟩
        rw [f.byte_zero] at h80
        cases h80
      rw [nextPosition_of_packet hnot]
      simp [bytes, headerBytes, hheader, hpacket]
  | some h =>
      rw [nextPosition_of_rtp (rtpHeaderAt_of_header hmem hheader)]
      simp [bytes, headerBytes, hheader, hpacket, h.length_bytes]

theorem clockAt_eq (hmem : mem = front ++ (f.bytes ++ after)) :
    clockAt mem 0 front.length = if f.header.isSome then none
      else (scr f.packet).map fun v : ℕ ↦
        ⟨v, front.length + f.headerBytes.length, pid f.packet⟩ := by
  cases hheader : f.header with
  | none =>
      have hpkt := packetAt_of_no_header hmem hheader
      have hnot : ¬RtpHeaderAt (packetAt mem front.length) := by
        rw [hpkt]
        rintro ⟨h80, -⟩
        rw [f.byte_zero] at h80
        cases h80
      rw [clockAt_of_packet hnot, hpkt]
      simp [headerBytes, hheader]
  | some h => exact clockAt_of_rtp (rtpHeaderAt_of_header hmem hheader)

end FramedPacket

/-- The clock references that the scan finds: those of packets without a header. -/
def foundClocks : ℕ → List FramedPacket → List PcrPosition
  | _, [] => []
  | i, f :: rest =>
      (if f.header.isSome then none
        else (scr f.packet).map fun v : ℕ ↦
          PcrPosition.mk v (i + f.headerBytes.length) (pid f.packet)).toList ++
        foundClocks (i + f.bytes.length) rest

def starts : ℕ → List FramedPacket → List ℕ
  | _, [] => []
  | i, f :: rest => i :: starts (i + f.bytes.length) rest

theorem starts_lt (fs : List FramedPacket) :
    ∀ {i j : ℕ}, j ∈ starts i fs → j + 188 ≤ i + (fs.flatMap FramedPacket.bytes).length := by
  induction fs with
  | nil =>
      intro i j hj
      cases hj
  | cons f rest ih =>
      intro i j hj
      have hlen := f.length_bytes
      rw [List.flatMap_cons, List.length_append]
      rcases List.mem_cons.mp hj with rfl | hj
      · omega
      · have hlater := ih hj
        omega

/-- The scan of a buffer passes its packets one by one and comes to the rest. -/
theorem scan_packets {mem after : List UInt8} {limit : ℕ} (fuel : ℕ) (fs : List FramedPacket) :
    ∀ front : List UInt8, mem = front ++ (fs.flatMap FramedPacket.bytes ++ after) →
      (front ++ fs.flatMap FramedPacket.bytes).length < limit + 188 →
      visited mem limit (fs.length + fuel) front.length =
          starts front.length fs ++
            visited mem limit fuel (front ++ fs.flatMap FramedPacket.bytes).length ∧
        (starts front.length fs).filterMap (clockAt mem 0) = foundClocks front.length fs := by
  induction fs with
  | nil =>
      intro front _ _
      simp [starts, foundClocks]
  | cons f rest ih =>
      intro front hmem hlimit
      have hlen := f.length_bytes
      have hhere : mem = front ++ (f.bytes ++ (rest.flatMap FramedPacket.bytes ++ after)) := by
        rw [hmem, List.flatMap_cons, List.append_assoc]
      have hend : front ++ (f :: rest).flatMap FramedPacket.bytes =
          (front ++ f.bytes) ++ rest.flatMap FramedPacket.bytes := by
        rw [List.flatMap_cons, List.append_assoc]
      rw [hend] at hlimit ⊢
      obtain ⟨hvisited, hclocks⟩ := ih (front ++ f.bytes) (by rw [hhere, List.append_assoc]) hlimit
      have hinside : front.length < limit := by
        simp only [List.length_append] at hlimit
        omega
      rw [List.length_append] at hvisited hclocks
      constructor
      · rw [List.length_cons, Nat.add_right_comm, visited, if_pos hinside, f.nextPosition_eq hhere,
          hvisited, starts, List.cons_append]
      · rw [starts, List.filterMap_cons, f.clockAt_eq hhere, foundClocks, hclocks]
        generalize (if f.header.isSome = true then none else Option.map _ (scr f.packet)) = found
        cases found <;> rfl

/-! ## The rest of the buffer -/

/-- Of a packet with `r` bytes in the buffer, those that the scan examines are in
the buffer and show that it carries no clock reference. -/
def SettledIn (r : ℕ) (pkt : Packet) : Prop :=
  (pkt.byte 0 = 0x80 → 12 < r) ∧
    (pkt.byte 0 = 0x47 → 3 < r ∧
      (2 ≤ adaptionFieldControl pkt → 4 < r ∧
        (pkt.byte 4 ≠ 0 → 5 < r ∧ pkt.byte 5 &&& 0x10 = 0)))

instance (r : ℕ) (pkt : Packet) : Decidable (SettledIn r pkt) :=
  inferInstanceAs (Decidable (_ ∧ _))

theorem settledIn_iff {mem : List UInt8} {i r : ℕ} (hr : 0 < r) :
    clockAt mem 0 i = none ∧ (∀ k ∈ examined (packetAt mem i), k < r) ↔
      SettledIn r (packetAt mem i) := by
  generalize hpkt : packetAt mem i = pkt
  have hclock : clockAt mem 0 i = none ↔ RtpHeaderAt pkt ∨ scr pkt = none := by
    by_cases hrtp : RtpHeaderAt (packetAt mem i)
    · rw [clockAt_of_rtp hrtp, ← hpkt]
      exact iff_of_true rfl (Or.inl hrtp)
    · rw [clockAt_of_packet hrtp, ← hpkt, Option.map_eq_none_iff]
      exact (or_iff_right hrtp).symm
  rw [hclock]
  unfold SettledIn examined scr syncPresent RtpHeaderAt
  by_cases h80 : pkt.byte 0 = 0x80
  · simp [h80, hr]
  · by_cases h47 : pkt.byte 0 = 0x47
    · split_ifs <;> simp_all <;> omega
    · simp [h80, h47, hr]

/-- A byte of the partial packet, read in the buffer with the memory behind it. -/
theorem byte_packetAt_rest {mem front rest beyond : List UInt8}
    (hmem : mem = front ++ (rest ++ beyond)) {k : ℕ} (hk : k < 188) (hin : k < rest.length) :
    (packetAt mem front.length).byte k = (packetAt rest 0).byte k := by
  rw [byte_packetAt mem _ hk, getD_of_split hmem, byte_packetAt rest 0 hk, Nat.zero_add,
    List.getD_append _ _ _ _ hin]

/-- The memory behind the buffer has no part in it. -/
theorem settledIn_packetAt_rest {mem front rest beyond : List UInt8}
    (hmem : mem = front ++ (rest ++ beyond)) (hrest : 0 < rest.length) :
    SettledIn rest.length (packetAt mem front.length) ↔
      SettledIn rest.length (packetAt rest 0) := by
  have hbyte : ∀ k < 6, k < rest.length →
      (packetAt mem front.length).byte k = (packetAt rest 0).byte k := fun k hk hin ↦
    byte_packetAt_rest hmem (by omega) hin
  unfold SettledIn adaptionFieldControl
  rw [hbyte 0 (by norm_num) hrest]
  refine and_congr_right fun _ ↦ imp_congr_right fun _ ↦ and_congr_right fun h3 ↦ ?_
  rw [hbyte 3 (by norm_num) h3]
  refine imp_congr_right fun _ ↦ and_congr_right fun h4 ↦ ?_
  rw [hbyte 4 (by norm_num) h4]
  refine imp_congr_right fun _ ↦ and_congr_right fun h5 ↦ ?_
  rw [hbyte 5 (by norm_num) h5]

/-- The scan passes the rest if that is longer than the sync position, and ends
there. -/
theorem visited_rest {mem front rest beyond : List UInt8} {lead fuel : ℕ}
    (hmem : mem = front ++ (rest ++ beyond)) (hlead : lead < 188)
    (hcut : rest.length < 188 ∨
      (rest.length < 200 ∧ rest.getD 0 0 = 0x80 ∧ rest.getD 12 0 = 0x47)) :
    visited mem (front.length + rest.length - lead) (fuel + 2) front.length =
      if lead < rest.length then [front.length] else [] := by
  rw [visited]
  by_cases hpass : lead < rest.length
  · have hnext : ¬nextPosition mem front.length < front.length + rest.length - lead := by
      have hstep := add_le_nextPosition mem front.length
      rcases lt_or_ge rest.length 188 with hshort | hsize
      · omega
      · -- a cut packet behind a whole header: the header is recognised and skipped
        obtain ⟨hlong, h80, h47⟩ := hcut.resolve_left (Nat.not_lt.mpr hsize)
        have hrtp : RtpHeaderAt (packetAt mem front.length) := by
          constructor
          · rw [byte_packetAt mem _ (by norm_num), getD_of_split hmem,
              List.getD_append _ _ _ _ (by omega), h80]
            rfl
          · rw [byte_packetAt mem _ (by norm_num), getD_of_split hmem,
              List.getD_append _ _ _ _ (by omega), h47]
            rfl
        rw [nextPosition_of_rtp hrtp]
        omega
    rw [if_pos (by omega), if_pos hpass, visited, if_neg hnext]
  · rw [if_neg (by omega), if_neg hpass]

/-! ## Exactness -/

theorem le_offset_of_foundClocks (fs : List FramedPacket) :
    ∀ {i : ℕ} {q : PcrPosition}, q ∈ foundClocks i fs → i ≤ q.offset := by
  induction fs with
  | nil =>
      intro i q hq
      cases hq
  | cons f rest ih =>
      intro i q hq
      rw [foundClocks] at hq
      rcases List.mem_append.mp hq with hq | hq
      · split_ifs at hq
        · cases hq
        · obtain ⟨v, -, rfl⟩ := Option.map_eq_some_iff.mp (Option.mem_toList.mp hq)
          exact Nat.le_add_right _ _
      · exact (Nat.le_add_right _ _).trans (ih hq)

/-- The scan finds the references that the packets carry, and nothing in the rest,
exactly when no packet behind a header carries one. -/
theorem found_eq_carried_iff (fs : List FramedPacket) :
    ∀ {i : ℕ} {more : List PcrPosition},
      (∀ q ∈ more, i + (fs.flatMap FramedPacket.bytes).length ≤ q.offset) →
      (foundClocks i fs ++ more = carriedClocks i fs ↔
        (∀ f ∈ fs, f.header.isSome = true → scr f.packet = none) ∧ more = []) := by
  induction fs with
  | nil => simp [foundClocks, carriedClocks]
  | cons f rest ih =>
      intro i more hmore
      have hlen := f.length_bytes
      have hlater : ∀ q ∈ more,
          i + f.bytes.length + (rest.flatMap FramedPacket.bytes).length ≤ q.offset := by
        intro q hq
        have hoffset := hmore q hq
        rw [List.flatMap_cons, List.length_append] at hoffset
        omega
      have hrest := @ih (i + f.bytes.length) more hlater
      rw [foundClocks, carriedClocks, List.append_assoc, List.forall_mem_cons, and_assoc, ← hrest]
      cases hheader : f.header.isSome with
      | false => simp
      | true =>
          cases hscr : scr f.packet with
          | none => simp
          | some v =>
              -- everything that is found lies behind the packet that is missed
              refine iff_of_false (fun heq ↦ ?_) (by simp)
              have hhead : PcrPosition.mk v (i + f.headerBytes.length) (pid f.packet) ∈
                  foundClocks (i + f.bytes.length) rest ++ more := by
                rw [if_pos rfl] at heq
                simp only [Option.toList_none, List.nil_append] at heq
                rw [heq]
                simp
              have hshort : f.headerBytes.length < f.bytes.length := by
                rw [FramedPacket.bytes, List.length_append, f.packet.length_bytes]
                omega
              rcases List.mem_append.mp hhead with hmem | hmem
              · have hle := le_offset_of_foundClocks rest hmem
                dsimp only at hle
                omega
              · have hle := hlater _ hmem
                dsimp only at hle
                omega

theorem le_length_flatMap_bytes (fs : List FramedPacket) :
    188 * fs.length ≤ (fs.flatMap FramedPacket.bytes).length := by
  induction fs with
  | nil => simp
  | cons f rest ih =>
      have hlen := f.length_bytes
      rw [List.flatMap_cons, List.length_append, List.length_cons]
      omega

namespace PcrBuffer

variable (b : PcrBuffer) (beyond : List UInt8)

/-- The query returns the clock references of the whole packets, and examines no
byte behind the buffer. -/
def Exact : Prop :=
  queryPcrsIn b.bytes beyond 0 = some (carriedClocks b.lead.length b.packets) ∧
    ∀ k ∈ queryPcrsExamined b.bytes beyond, k < b.bytes.length

theorem lead_lt : b.lead.length < 188 ∧ 564 ≤ b.bytes.length := by
  have hsync := b.sync
  unfold findSyncPosition at hsync
  split_ifs at hsync with hlen
  exact ⟨List.mem_range.mp (List.mem_of_find?_eq_some hsync), Nat.not_lt.mp hlen⟩

theorem length_packets_add_two_le : b.packets.length + 2 ≤ b.bytes.length := by
  have hpackets := le_length_flatMap_bytes b.packets
  have hlong := b.lead_lt.2
  have hsum : b.bytes.length =
      b.lead.length + (b.packets.flatMap FramedPacket.bytes).length + b.rest.length := by
    rw [bytes, List.length_append, List.length_append]
  omega

def wholeLength : ℕ := (b.lead ++ b.packets.flatMap FramedPacket.bytes).length

theorem length_bytes : b.bytes.length = b.wholeLength + b.rest.length :=
  List.length_append

theorem scan_eq :
    visited (b.bytes ++ beyond) (b.bytes.length - b.lead.length) b.bytes.length b.lead.length =
        starts b.lead.length b.packets ++
          (if b.lead.length < b.rest.length then [b.wholeLength] else []) ∧
      (starts b.lead.length b.packets).filterMap (clockAt (b.bytes ++ beyond) 0) =
        foundClocks b.lead.length b.packets := by
  obtain ⟨fuel, hfuel⟩ := Nat.exists_eq_add_of_le b.length_packets_add_two_le
  have hlead := b.lead_lt.1
  have hlen := b.length_bytes
  have hmem : b.bytes ++ beyond = b.lead ++
      (b.packets.flatMap FramedPacket.bytes ++ (b.rest ++ beyond)) := by
    simp only [bytes, List.append_assoc]
  obtain ⟨hvisited, hclocks⟩ := @scan_packets _ _ (b.bytes.length - b.lead.length) (fuel + 2)
    b.packets b.lead hmem (by change b.wholeLength < _; omega)
  refine ⟨?_, hclocks⟩
  have hrest := @visited_rest (b.bytes ++ beyond) (b.lead ++ b.packets.flatMap FramedPacket.bytes)
    b.rest beyond b.lead.length fuel (by simp only [bytes, List.append_assoc]) hlead b.cut
  rw [show b.packets.length + (fuel + 2) = b.bytes.length by omega] at hvisited
  rw [hvisited, hlen]
  exact congrArg _ hrest

/-- The clock reference that the scan takes from the rest of the buffer. -/
def restClocks : List PcrPosition :=
  if b.lead.length < b.rest.length then (clockAt (b.bytes ++ beyond) 0 b.wholeLength).toList
  else []

theorem queryPcrsIn_eq : queryPcrsIn b.bytes beyond 0 =
    some (foundClocks b.lead.length b.packets ++ b.restClocks beyond) := by
  obtain ⟨hvisited, hclocks⟩ := b.scan_eq beyond
  unfold queryPcrsIn
  rw [show findSyncPosition b.bytes = some b.lead.length from b.sync, Option.map_some,
    queryPcrsLoop_eq, hvisited, List.filterMap_append, hclocks, restClocks]
  split_ifs
  · rw [List.filterMap_cons]
    cases clockAt (b.bytes ++ beyond) 0 b.wholeLength <;> rfl
  · rfl

/-- The scan stays in the buffer if it does so in the rest. -/
theorem examined_lt_iff :
    (∀ k ∈ queryPcrsExamined b.bytes beyond, k < b.bytes.length) ↔
      (b.lead.length < b.rest.length →
        ∀ k ∈ examined (packetAt (b.bytes ++ beyond) b.wholeLength), k < b.rest.length) := by
  obtain ⟨hlead, hlong⟩ := b.lead_lt
  have hlen := b.length_bytes
  unfold queryPcrsExamined
  rw [show findSyncPosition b.bytes = some b.lead.length from b.sync]
  simp only [(b.scan_eq beyond).1, List.flatMap_append]
  constructor
  · intro hall hpass k hk
    have hin := hall (b.wholeLength + k) (by
      rw [if_pos hpass]
      simp only [List.mem_append, List.flatMap_cons, List.flatMap_nil, List.append_nil]
      exact Or.inr (Or.inr (mem_examinedAt.mpr ⟨k, hk, rfl⟩)))
    omega
  · intro hrest k hk
    rcases List.mem_append.mp hk with hk | hk
    · obtain ⟨i, hi, hk⟩ := List.mem_flatMap.mp hk
      have hi := List.mem_range.mp hi
      simp only [List.mem_cons, List.not_mem_nil, or_false] at hk
      omega
    · rcases List.mem_append.mp hk with hk | hk
      · obtain ⟨i, hi, hk⟩ := List.mem_flatMap.mp hk
        obtain ⟨j, hj, rfl⟩ := mem_examinedAt.mp hk
        have hsmall := examined_lt _ j hj
        have hstart := starts_lt b.packets hi
        have hwhole : b.wholeLength =
            b.lead.length + (b.packets.flatMap FramedPacket.bytes).length := List.length_append
        omega
      · split_ifs at hk with hpass
        · rw [List.flatMap_cons, List.flatMap_nil, List.append_nil] at hk
          obtain ⟨j, hj, rfl⟩ := mem_examinedAt.mp hk
          have hin := hrest hpass j hj
          omega
        · cases hk

/-- The query is exact, whatever lies behind the buffer, exactly when no packet
behind an RTP header carries a clock reference and the partial packet at the end is
either not longer than the sync position or shows that it carries none. -/
theorem exact_iff : b.Exact beyond ↔
    (∀ f ∈ b.packets, f.header.isSome = true → scr f.packet = none) ∧
      (b.rest.length ≤ b.lead.length ∨ SettledIn b.rest.length (packetAt b.rest 0)) := by
  have hmore : ∀ q ∈ b.restClocks beyond,
      b.lead.length + (b.packets.flatMap FramedPacket.bytes).length ≤ q.offset := by
    intro q hq
    unfold restClocks at hq
    split_ifs at hq
    · rw [offset_of_clockAt (Option.mem_toList.mp hq)]
      exact List.length_append.ge
    · cases hq
  unfold Exact
  rw [b.queryPcrsIn_eq, b.examined_lt_iff, Option.some.injEq, found_eq_carried_iff _ hmore,
    and_assoc]
  refine and_congr_right fun _ ↦ ?_
  rcases lt_or_ge b.lead.length b.rest.length with hpass | hpass
  · have hrest : 0 < b.rest.length := by omega
    have hsettled := @settledIn_iff (b.bytes ++ beyond) b.wholeLength b.rest.length hrest
    have hmem := @settledIn_packetAt_rest (b.bytes ++ beyond)
      (b.lead ++ b.packets.flatMap FramedPacket.bytes) b.rest beyond
      (by simp only [bytes, List.append_assoc]) hrest
    rw [or_iff_right (Nat.not_le.mpr hpass), ← hmem]
    refine Iff.trans ?_ hsettled
    rw [restClocks, if_pos hpass, forall_prop_of_true hpass, Option.toList_eq_nil_iff]
  · rw [restClocks, if_neg (Nat.not_lt.mpr hpass)]
    exact iff_of_true ⟨rfl, fun hlt ↦ absurd hlt (Nat.not_lt.mpr hpass)⟩ (Or.inl hpass)

end PcrBuffer

theorem clockPacket_sync : syncPresent clockPacket = true := by decide +kernel

theorem plainPacket_sync : syncPresent plainPacket = true := by decide +kernel

theorem length_plainHeader : (0x80 :: List.replicate 11 0 : List UInt8).length = 12 := rfl

def plainHeader : RtpHeader := ⟨0x80 :: List.replicate 11 0, length_plainHeader, rfl⟩

def threeClocks : List FramedPacket := List.replicate 3 ⟨none, clockPacket, clockPacket_sync⟩

/-- Three packets with clock references, a header and a packet without one. -/
def plainDatagram : List FramedPacket :=
  threeClocks ++ [⟨some plainHeader, plainPacket, plainPacket_sync⟩]

def clockDatagram : List FramedPacket :=
  threeClocks ++ [⟨some plainHeader, clockPacket, clockPacket_sync⟩]

theorem sync_plainDatagram : findSyncPosition ([] ++ plainDatagram.flatMap FramedPacket.bytes ++
    [0x47, 0, 0, 0x10]) = some ([] : List UInt8).length := by decide +kernel

theorem sync_clockDatagram : findSyncPosition ([] ++ clockDatagram.flatMap FramedPacket.bytes ++
    []) = some ([] : List UInt8).length := by decide +kernel

theorem sync_threeClocks : findSyncPosition ([] ++ threeClocks.flatMap FramedPacket.bytes ++
    [0x47]) = some ([] : List UInt8).length := by decide +kernel

/-- The packet behind the header and the four bytes at the end carry no clock
reference. -/
def datagramBuffer : PcrBuffer :=
  ⟨[], plainDatagram, [0x47, 0, 0, 0x10], Or.inl (by norm_num), sync_plainDatagram⟩

theorem exact_datagramBuffer : datagramBuffer.Exact [] :=
  (datagramBuffer.exact_iff []).mpr (by decide +kernel)

/-- The packet behind the header carries a clock reference. -/
def missedBuffer : PcrBuffer := ⟨[], clockDatagram, [], Or.inl (by norm_num), sync_clockDatagram⟩

def cutBuffer : PcrBuffer := ⟨[], threeClocks, [0x47], Or.inl (by norm_num), sync_threeClocks⟩

/-- The reference behind the header is missed, and the search for one in the cut
packet looks two bytes behind the buffer. -/
theorem queryPcrs_inexact :
    (carriedClocks 0 missedBuffer.packets =
        [⟨0, 0, 0x31⟩, ⟨0, 188, 0x31⟩, ⟨0, 376, 0x31⟩, ⟨0, 576, 0x31⟩] ∧
      queryPcrsIn missedBuffer.bytes [] 0 =
        some [⟨0, 0, 0x31⟩, ⟨0, 188, 0x31⟩, ⟨0, 376, 0x31⟩] ∧ ¬missedBuffer.Exact []) ∧
      cutBuffer.bytes.length = 565 ∧ 567 ∈ queryPcrsExamined cutBuffer.bytes [] ∧
      ¬cutBuffer.Exact [] := by
  have hcarried : carriedClocks 0 missedBuffer.packets =
      [⟨0, 0, 0x31⟩, ⟨0, 188, 0x31⟩, ⟨0, 376, 0x31⟩, ⟨0, 576, 0x31⟩] := by decide +kernel
  have hquery : queryPcrsIn missedBuffer.bytes [] 0 =
      some [⟨0, 0, 0x31⟩, ⟨0, 188, 0x31⟩, ⟨0, 376, 0x31⟩] := by decide +kernel
  have hlength : cutBuffer.bytes.length = 565 := by decide +kernel
  have hbehind : 567 ∈ queryPcrsExamined cutBuffer.bytes [] := by decide +kernel
  refine ⟨⟨hcarried, hquery, fun hexact ↦ ?_⟩, hlength, hbehind, fun hexact ↦ ?_⟩
  · have hfound := hquery.symm.trans (hexact.1.trans (congrArg some hcarried))
    exact absurd hfound (by decide)
  · have hin := hexact.2 567 hbehind
    rw [hlength] at hin
    exact absurd hin (by norm_num)

end LtnTsTools.Ts
