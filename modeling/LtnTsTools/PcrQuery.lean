import LtnTsTools.PcrSearch

/-!
# The two clock reference queries

`ltntstools_queryPCRs` and `ltntstools_queryPCR_pid` of `ts.c`, each as a scan
that passes positions of the buffer.  The query for one pid starts its scan at
the first byte of the buffer, wherever the sync position is, so the two agree
exactly when no reference of the pid is passed by one scan alone before one that
both pass.  The full query is then compared with the packets of a buffer that may
hold RTP headers and end in a partial packet.
-/

namespace LtnTsTools.Ts

/-- `pkt[0] == 0x80 && pkt[12] == 0x47`. -/
def RtpHeaderAt (pkt : Packet) : Prop := pkt.byte 0 = 0x80 ∧ pkt.byte 12 = 0x47

instance (pkt : Packet) : Decidable (RtpHeaderAt pkt) := inferInstanceAs (Decidable (_ ∧ _))

/-- Where the scan goes on: an RTP header is skipped together with the packet
behind it. -/
def nextPosition (mem : List UInt8) (i : ℕ) : ℕ :=
  if RtpHeaderAt (packetAt mem i) then i + 12 + 188 else i + 188

def visited (mem : List UInt8) (limit : ℕ) : ℕ → ℕ → List ℕ
  | 0, _ => []
  | fuel + 1, i =>
      if i < limit then i :: visited mem limit fuel (nextPosition mem i) else []

def clockAt (mem : List UInt8) (addr i : ℕ) : Option PcrPosition :=
  if RtpHeaderAt (packetAt mem i) then none
  else (scr (packetAt mem i)).map fun v : ℕ ↦ ⟨v, addr + i, pid (packetAt mem i)⟩

/-- `ltntstools_queryPCRs` on a buffer with the memory that lies behind it. -/
def queryPcrsIn (buf beyond : List UInt8) (addr : ℕ) : Option (List PcrPosition) :=
  (findSyncPosition buf).map fun offset ↦
    queryPcrsLoop (buf ++ beyond) (buf.length - offset) addr buf.length offset

/-- The loop of `ltntstools_queryPCR_pid`. -/
def queryPcrPidLoop (mem : List UInt8) (limit pcrPid : ℕ) : ℕ → ℕ → Option PcrPosition
  | 0, _ => none
  | fuel + 1, i =>
      if i < limit then
        let pkt := packetAt mem i
        if RtpHeaderAt pkt then queryPcrPidLoop mem limit pcrPid fuel (i + 12 + 188)
        else if pid pkt ≠ pcrPid then queryPcrPidLoop mem limit pcrPid fuel (i + 188)
        else
          match scr pkt with
          | none => queryPcrPidLoop mem limit pcrPid fuel (i + 188)
          | some v => some ⟨v, i, pcrPid⟩
      else none

/-- `ltntstools_queryPCR_pid`; `none` is the error return.  The offset that the
search for the sync position returns is one of an inner scope: the scan starts at
zero. -/
def queryPcrPid (buf beyond : List UInt8) (pcrPid : ℕ) (pktAligned : Bool) :
    Option PcrPosition :=
  if pktAligned = false ∧ findSyncPosition buf = none then none
  else queryPcrPidLoop (buf ++ beyond) buf.length pcrPid buf.length 0

/-! ## Scans -/

theorem nextPosition_of_rtp {mem : List UInt8} {i : ℕ} (h : RtpHeaderAt (packetAt mem i)) :
    nextPosition mem i = i + 12 + 188 := if_pos h

theorem nextPosition_of_packet {mem : List UInt8} {i : ℕ} (h : ¬RtpHeaderAt (packetAt mem i)) :
    nextPosition mem i = i + 188 := if_neg h

theorem clockAt_of_rtp {mem : List UInt8} {addr i : ℕ} (h : RtpHeaderAt (packetAt mem i)) :
    clockAt mem addr i = none := if_pos h

theorem clockAt_of_packet {mem : List UInt8} {addr i : ℕ} (h : ¬RtpHeaderAt (packetAt mem i)) :
    clockAt mem addr i =
      (scr (packetAt mem i)).map fun v : ℕ ↦ ⟨v, addr + i, pid (packetAt mem i)⟩ := by
  rw [clockAt, if_neg h]

theorem add_le_nextPosition (mem : List UInt8) (i : ℕ) : i + 188 ≤ nextPosition mem i := by
  unfold nextPosition
  split_ifs <;> omega

theorem lt_nextPosition (mem : List UInt8) (i : ℕ) : i < nextPosition mem i :=
  (Nat.lt_add_of_pos_right (by norm_num)).trans_le (add_le_nextPosition mem i)

theorem visited_bounds {mem : List UInt8} {limit : ℕ} (fuel : ℕ) :
    ∀ {i j : ℕ}, j ∈ visited mem limit fuel i → i ≤ j ∧ j < limit := by
  induction fuel with
  | zero =>
      intro i j hj
      cases hj
  | succ fuel ih =>
      intro i j hj
      rw [visited] at hj
      split_ifs at hj with hlt
      · rcases List.mem_cons.mp hj with rfl | hlater
        · exact ⟨le_rfl, hlt⟩
        · have hnext := lt_nextPosition mem i
          have hbounds := ih hlater
          exact ⟨by omega, hbounds.2⟩
      · cases hj

theorem pairwise_visited (mem : List UInt8) (limit : ℕ) (fuel : ℕ) :
    ∀ i, (visited mem limit fuel i).Pairwise (· < ·) := by
  induction fuel with
  | zero => exact fun _ ↦ List.Pairwise.nil
  | succ fuel ih =>
      intro i
      rw [visited]
      split_ifs
      · refine List.pairwise_cons.mpr ⟨fun j hj ↦ ?_, ih _⟩
        exact (lt_nextPosition mem i).trans_le (visited_bounds fuel hj).1
      · exact List.Pairwise.nil

theorem queryPcrsLoop_eq (mem : List UInt8) (limit addr fuel : ℕ) :
    ∀ i, queryPcrsLoop mem limit addr fuel i =
      (visited mem limit fuel i).filterMap (clockAt mem addr) := by
  induction fuel with
  | zero => exact fun _ ↦ rfl
  | succ fuel ih =>
      intro i
      rw [queryPcrsLoop, visited]
      by_cases hlt : i < limit
      · rw [if_pos hlt, if_pos hlt, List.filterMap_cons, ← ih]
        by_cases hrtp : RtpHeaderAt (packetAt mem i)
        · rw [clockAt_of_rtp hrtp, nextPosition_of_rtp hrtp]
          exact if_pos hrtp
        · rw [clockAt_of_packet hrtp, nextPosition_of_packet hrtp]
          refine (if_neg hrtp).trans ?_
          cases scr (packetAt mem i) <;> rfl
      · rw [if_neg hlt, if_neg hlt]
        rfl

/-- The first of the references that a scan finds, of those that are on a pid. -/
theorem queryPcrPidLoop_eq (mem : List UInt8) (limit pcrPid fuel : ℕ) :
    ∀ i, queryPcrPidLoop mem limit pcrPid fuel i =
      ((visited mem limit fuel i).filterMap (clockAt mem 0)).find? fun p ↦ p.pid == pcrPid := by
  induction fuel with
  | zero => exact fun _ ↦ rfl
  | succ fuel ih =>
      intro i
      rw [queryPcrPidLoop, visited]
      by_cases hlt : i < limit
      · rw [if_pos hlt, if_pos hlt, List.filterMap_cons]
        by_cases hrtp : RtpHeaderAt (packetAt mem i)
        · rw [clockAt_of_rtp hrtp, nextPosition_of_rtp hrtp]
          simp only [hrtp, if_true, ih]
        · rw [clockAt_of_packet hrtp, nextPosition_of_packet hrtp]
          simp only [hrtp, if_false, ih]
          by_cases hpid : pid (packetAt mem i) = pcrPid
          · cases scr (packetAt mem i) <;> simp [hpid]
          · cases scr (packetAt mem i) <;> simp [hpid]
      · rw [if_neg hlt, if_neg hlt]
        rfl

/-! ## The first hit of two scans -/

section FirstHit

variable {α : Type*} [LinearOrder α] {p : α → Bool}

/-- In an increasing list the first hit is the least one. -/
theorem find?_eq_some_iff_least {l : List α} (hl : l.Pairwise (· < ·)) {a : α} :
    l.find? p = some a ↔ (a ∈ l ∧ p a = true) ∧ ∀ b ∈ l, p b = true → a ≤ b := by
  constructor
  · intro h
    obtain ⟨hpa, front, back, rfl, hfront⟩ := List.find?_eq_some_iff_append.mp h
    refine ⟨⟨by simp, hpa⟩, fun b hb hpb ↦ ?_⟩
    rcases List.mem_append.mp hb with hb | hb
    · exact absurd hpb (by simpa using hfront b hb)
    · rcases List.mem_cons.mp hb with rfl | hb
      · exact le_rfl
      · exact (List.pairwise_cons.mp (List.pairwise_append.mp hl).2.1).1 b hb |>.le
  · rintro ⟨⟨ha, hpa⟩, hleast⟩
    cases hfind : l.find? p with
    | none => exact absurd hpa (by simpa using List.find?_eq_none.mp hfind a ha)
    | some b =>
        obtain ⟨hpb, front, back, rfl, hfront⟩ := List.find?_eq_some_iff_append.mp hfind
        have hba : a ≤ b := hleast b (by simp) hpb
        rcases List.mem_append.mp ha with ha | ha
        · exact absurd hpa (by simpa using hfront a ha)
        · rcases List.mem_cons.mp ha with rfl | ha
          · rfl
          · have hab := (List.pairwise_cons.mp (List.pairwise_append.mp hl).2.1).1 a ha
            exact absurd hba (not_le.mpr hab)

/-- Every hit of one list alone lies behind a hit of both. -/
def SharedFirst (p : α → Bool) (l l' : List α) : Prop :=
  ∀ a, p a = true → Xor (a ∈ l) (a ∈ l') → ∃ b, b < a ∧ p b = true ∧ b ∈ l ∧ b ∈ l'

/-- Two increasing lists have the same first hit exactly when every hit of one of
them alone lies behind a hit of both. -/
theorem find?_eq_find?_iff {l l' : List α} (hl : l.Pairwise (· < ·)) (hl' : l'.Pairwise (· < ·)) :
    l.find? p = l'.find? p ↔ SharedFirst p l l' := by
  constructor
  · intro heq a hpa hone
    -- the common first hit is in both lists, so it is another one than `a`
    have hfirst : ∃ b, l.find? p = some b ∧ b ≤ a := by
      rcases hone with ⟨ha, -⟩ | ⟨ha, -⟩
      · obtain ⟨b, hb⟩ := Option.isSome_iff_exists.mp (List.find?_isSome.mpr ⟨a, ha, hpa⟩)
        exact ⟨b, hb, ((find?_eq_some_iff_least hl).mp hb).2 a ha hpa⟩
      · obtain ⟨b, hb⟩ := Option.isSome_iff_exists.mp (List.find?_isSome.mpr ⟨a, ha, hpa⟩)
        exact ⟨b, heq.trans hb, ((find?_eq_some_iff_least hl').mp hb).2 a ha hpa⟩
    obtain ⟨b, hb, hle⟩ := hfirst
    obtain ⟨⟨hmem, hpb⟩, -⟩ := (find?_eq_some_iff_least hl).mp hb
    obtain ⟨⟨hmem', -⟩, -⟩ := (find?_eq_some_iff_least hl').mp (heq ▸ hb)
    refine ⟨b, lt_of_le_of_ne hle ?_, hpb, hmem, hmem'⟩
    rintro rfl
    rcases hone with ⟨-, hnot⟩ | ⟨-, hnot⟩
    · exact hnot hmem'
    · exact hnot hmem
  · intro hshared
    have hone : ∀ {m m' : List α}, m.Pairwise (· < ·) → m'.Pairwise (· < ·) →
        SharedFirst p m m' → ∀ a, m.find? p = some a → m'.find? p = some a := by
      intro m m' hm hm' hshared a ha
      obtain ⟨⟨hmem, hpa⟩, hleast⟩ := (find?_eq_some_iff_least hm).mp ha
      have hboth : a ∈ m' := by
        by_contra hnot
        obtain ⟨b, hlt, hpb, hb, -⟩ := hshared a hpa (Or.inl ⟨hmem, hnot⟩)
        exact absurd (hleast b hb hpb) (not_le.mpr hlt)
      refine (find?_eq_some_iff_least hm').mpr ⟨⟨hboth, hpa⟩, fun b hb hpb ↦ ?_⟩
      by_contra hlt
      have hlt := not_le.mp hlt
      have hnot : b ∉ m := fun hbm ↦ absurd (hleast b hbm hpb) (not_le.mpr hlt)
      obtain ⟨c, hclt, hpc, hc, -⟩ := hshared b hpb (Or.inr ⟨hb, hnot⟩)
      exact absurd (hleast c hc hpc) (not_le.mpr (hclt.trans hlt))
    refine Option.ext fun a ↦ ⟨hone hl hl' hshared a, hone hl' hl (fun a hpa hxor ↦ ?_) a⟩
    obtain ⟨b, hlt, hpb, hb, hb'⟩ := hshared a hpa hxor.symm
    exact ⟨b, hlt, hpb, hb', hb⟩

end FirstHit

def clockOf (mem : List UInt8) (pcrPid i : ℕ) : Bool :=
  !decide (RtpHeaderAt (packetAt mem i)) && pid (packetAt mem i) == pcrPid &&
    (scr (packetAt mem i)).isSome

theorem find?_filterMap_clockAt (mem : List UInt8) (pcrPid : ℕ) (is : List ℕ) :
    (is.filterMap (clockAt mem 0)).find? (fun p ↦ p.pid == pcrPid) =
      (is.find? (clockOf mem pcrPid)).bind (clockAt mem 0) := by
  rw [List.find?_filterMap]
  congr 2
  funext i
  by_cases hrtp : RtpHeaderAt (packetAt mem i)
  · simp [clockOf, clockAt_of_rtp hrtp, hrtp]
  · rw [clockAt_of_packet hrtp]
    cases hscr : scr (packetAt mem i) <;> simp [clockOf, hrtp, hscr]

theorem offset_of_clockAt {mem : List UInt8} {i : ℕ} {q : PcrPosition}
    (h : clockAt mem 0 i = some q) : q.offset = i := by
  unfold clockAt at h
  split_ifs at h
  obtain ⟨v, -, rfl⟩ := Option.map_eq_some_iff.mp h
  exact Nat.zero_add i

theorem exists_clockAt {mem : List UInt8} {pcrPid i : ℕ} (h : clockOf mem pcrPid i = true) :
    ∃ q, clockAt mem 0 i = some q := by
  simp only [clockOf, Bool.and_eq_true, Bool.not_eq_true', decide_eq_false_iff_not] at h
  obtain ⟨v, hv⟩ := Option.isSome_iff_exists.mp h.2
  exact ⟨_, by rw [clockAt_of_packet h.1.1, hv]; rfl⟩

/-- What a scan reports tells the position of its first hit. -/
theorem report_inj {mem : List UInt8} {pcrPid : ℕ} {is js : List ℕ} :
    (is.find? (clockOf mem pcrPid)).bind (clockAt mem 0) =
        (js.find? (clockOf mem pcrPid)).bind (clockAt mem 0) ↔
      is.find? (clockOf mem pcrPid) = js.find? (clockOf mem pcrPid) := by
  refine ⟨fun h ↦ ?_, fun h ↦ by rw [h]⟩
  cases hi : is.find? (clockOf mem pcrPid) with
  | none =>
      cases hj : js.find? (clockOf mem pcrPid) with
      | none => rfl
      | some j =>
          obtain ⟨q, hq⟩ := exists_clockAt (List.find?_some hj)
          simp [hi, hj, hq] at h
  | some i =>
      obtain ⟨q, hq⟩ := exists_clockAt (List.find?_some hi)
      cases hj : js.find? (clockOf mem pcrPid) with
      | none => simp [hi, hj, hq] at h
      | some j =>
          have hqj : clockAt mem 0 j = some q := by simpa [hi, hj, hq, eq_comm] using h
          rw [← offset_of_clockAt hq, ← offset_of_clockAt hqj]

/-- The query for one pid reports the first entry of the full query that is on
that pid, and fails if there is none. -/
def QueriesAgree (buf beyond : List UInt8) (pcrPid : ℕ) : Prop :=
  queryPcrPid buf beyond pcrPid false =
    (queryPcrsIn buf beyond 0).bind (·.find? fun p ↦ p.pid == pcrPid)

/-- The two queries agree on a pid exactly when every reference of the pid that
only one of the scans passes lies behind one that both pass. -/
theorem queries_agree_iff (buf beyond : List UInt8) (pcrPid : ℕ) :
    QueriesAgree buf beyond pcrPid ↔ ∀ offset, findSyncPosition buf = some offset →
      SharedFirst (clockOf (buf ++ beyond) pcrPid)
        (visited (buf ++ beyond) buf.length buf.length 0)
        (visited (buf ++ beyond) (buf.length - offset) buf.length offset) := by
  unfold QueriesAgree queryPcrPid queryPcrsIn
  cases hsync : findSyncPosition buf with
  | none => simp
  | some offset =>
      have hagree := (@report_inj (buf ++ beyond) pcrPid _ _).trans
        (find?_eq_find?_iff (pairwise_visited (buf ++ beyond) buf.length buf.length 0)
          (pairwise_visited (buf ++ beyond) (buf.length - offset) buf.length offset))
      simp only [Option.map_some, Option.bind_some, queryPcrsLoop_eq, queryPcrPidLoop_eq,
        find?_filterMap_clockAt, reduceCtorEq, and_false, if_false, Option.some.injEq, forall_eq']
      exact hagree

/-- A buffer in sync from its first byte on. -/
theorem queries_agree_of_aligned {buf : List UInt8} (h : findSyncPosition buf = some 0)
    (beyond : List UInt8) (pcrPid : ℕ) : QueriesAgree buf beyond pcrPid := by
  simp [QueriesAgree, queryPcrPid, queryPcrsIn, h, queryPcrsLoop_eq, queryPcrPidLoop_eq]

/-- A packet of pid 0x31 with the clock reference zero. -/
def clockPacket : Packet :=
  (((((Packet.filled 0).set 0 0x47).set 2 0x31).set 3 0x20).set 4 7).set 5 0x10

def plainPacket : Packet := (((Packet.filled 0).set 0 0x47).set 2 0x31).set 3 0x10

/-- A datagram whose first packet has no clock reference: both scans find the one
behind it. -/
theorem queries_agree_datagram :
    findSyncPosition ((0x80 :: List.replicate 11 0) ++
      packetBytes [plainPacket, clockPacket, clockPacket]) = some 12 ∧
      QueriesAgree ((0x80 :: List.replicate 11 0) ++
        packetBytes [plainPacket, clockPacket, clockPacket]) [] 0x31 := by
  have hsync : findSyncPosition ((0x80 :: List.replicate 11 0) ++
      packetBytes [plainPacket, clockPacket, clockPacket]) = some 12 := by decide +kernel
  refine ⟨hsync, (queries_agree_iff _ _ _).mpr fun offset hoffset a hclock hone ↦ ?_⟩
  obtain rfl : offset = 12 := by rw [hsync] at hoffset; exact (Option.some.inj hoffset).symm
  rw [show visited _ _ _ 0 = [0, 200, 388] by decide +kernel,
    show visited _ _ _ 12 = [12, 200, 388] by decide +kernel] at hone
  have hplace : a = 0 ∨ a = 12 := by
    simp only [Xor, List.mem_cons, List.not_mem_nil, or_false] at hone
    omega
  rcases hplace with rfl | rfl
  · exact absurd hclock (by decide +kernel)
  · exact absurd hclock (by decide +kernel)

/-- One stray byte before three packets, each with a clock reference: the full
query finds them, the query for their pid finds nothing. -/
theorem queries_disagree :
    findSyncPosition (0 :: packetBytes [clockPacket, clockPacket, clockPacket]) = some 1 ∧
      queryPcrsIn (0 :: packetBytes [clockPacket, clockPacket, clockPacket]) [] 0 =
        some [⟨0, 1, 0x31⟩, ⟨0, 189, 0x31⟩, ⟨0, 377, 0x31⟩] ∧
      queryPcrPid (0 :: packetBytes [clockPacket, clockPacket, clockPacket]) [] 0x31 false = none ∧
      ¬QueriesAgree (0 :: packetBytes [clockPacket, clockPacket, clockPacket]) [] 0x31 := by
  unfold QueriesAgree
  decide +kernel

end LtnTsTools.Ts
