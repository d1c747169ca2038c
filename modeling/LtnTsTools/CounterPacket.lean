import LtnTsTools.TransportPacket

/-!
# Packets that carry a counter

`ltntstools_generatePacketWith64bCounter`, `ltntstools_updatePacketWith64bCounter` and
`ltntstools_verifyPacketWith64bCounter` of `ts.c`.  The verifier compares the byte of the pid with
all of the pid, and does not look at the four bytes in front of the counter.
-/

namespace LtnTsTools.Ts

/-- What is assigned of a packet with a counter: the header and the counter. -/
def assignCounter (pkt : Packet) (pid : UInt16) (cc : UInt8) (counter : UInt64) : Packet :=
  let pkt := pkt.set 0 0x47
  let pkt := pkt.set 1 ((pid &&& 0x1fff) >>> 8).toNat
  let pkt := pkt.set 2 pid.toNat
  let pkt := pkt.set 3 (0x10 ||| (cc &&& 0x0f).toNat)
  let pkt := pkt.set 8 (counter >>> 56).toNat
  let pkt := pkt.set 9 (counter >>> 48).toNat
  let pkt := pkt.set 10 (counter >>> 40).toNat
  let pkt := pkt.set 11 (counter >>> 32).toNat
  let pkt := pkt.set 12 (counter >>> 24).toNat
  let pkt := pkt.set 13 (counter >>> 16).toNat
  let pkt := pkt.set 14 (counter >>> 8).toNat
  pkt.set 15 counter.toNat

/-- `ltntstools_generatePacketWith64bCounter`: the packet and the continuity counter it leaves
behind, or the error for a buffer that is too short. -/
def generatePacketWith64bCounter (lengthBytes : ℤ) (pid : UInt16) (cc : UInt8)
    (counter : UInt64) : Option (Packet × UInt8) :=
  if lengthBytes < 188 then none
  else some (assignCounter (Packet.filled 0xff) pid cc counter, cc + 1)

/-- `ltntstools_updatePacketWith64bCounter`. -/
def updatePacketWith64bCounter (pkt : Packet) (lengthBytes : ℤ) (pid : UInt16) (cc : UInt8)
    (counter : UInt64) : Option (Packet × UInt8) :=
  if lengthBytes < 188 then none else some (assignCounter pkt pid cc counter, cc + 1)

/-- The static packet of the verifier, before its first call and later. -/
abbrev VerifyPacket := {p : Packet // p = Packet.filled 0 ∨ p = Packet.filled 0xff}

def counterAt (pkt : Packet) : UInt64 :=
  .ofNat (pkt.byte 8 <<< 56 ||| pkt.byte 9 <<< 48 ||| pkt.byte 10 <<< 40 ||| pkt.byte 11 <<< 32 |||
    pkt.byte 12 <<< 24 ||| pkt.byte 13 <<< 16 ||| pkt.byte 14 <<< 8 ||| pkt.byte 15)

/-- `ltntstools_verifyPacketWith64bCounter`: the result, what is found in `currentCounter`, and
the static packet. -/
def verifyPacketWith64bCounter (verifyPacket : VerifyPacket) (pkt : Packet) (lengthBytes : ℤ)
    (pid : UInt16) (lastCounter currentCounter : UInt64) : ℤ × UInt64 × VerifyPacket :=
  if lengthBytes < 188 then (-1, currentCounter, verifyPacket)
  else
    let verifyPacket :=
      if verifyPacket.1.byte 0 = 0 then ⟨Packet.filled 0xff, .inr rfl⟩ else verifyPacket
    if pkt.byte 0 ≠ 0x47 then (-1, currentCounter, verifyPacket)
    else if pkt.byte 1 ≠ ((pid &&& 0x1fff) >>> 8).toNat then (-1, currentCounter, verifyPacket)
    else if pkt.byte 2 ≠ pid.toNat then (-1, currentCounter, verifyPacket)
    else if pkt.byte 3 &&& 0xf0 ≠ 0x10 then (-1, currentCounter, verifyPacket)
    else if lastCounter + 1 ≠ counterAt pkt then (-1, counterAt pkt, verifyPacket)
    else if verifyPacket.1.bytes.drop 16 ≠ pkt.bytes.drop 16 then
      (-1, counterAt pkt, verifyPacket)
    else (0, counterAt pkt, verifyPacket)

/-! ## The bytes that are checked -/

def counterByte (counter : UInt64) (k : ℕ) : ℕ := counter.toNat / 2 ^ (56 - 8 * k) % 256

/-- The bytes of a packet with the counter, for some continuity counter, except for the four
in front of the counter. -/
structure Resembles (pkt : Packet) (pid : UInt16) (counter : UInt64) : Prop where
  sync : pkt.byte 0 = 0x47
  high : pkt.byte 1 = pid.toNat / 256 % 32
  low : pkt.byte 2 = pid.toNat % 256
  control : pkt.byte 3 / 16 = 1
  counter_eq : ∀ k < 8, pkt.byte (8 + k) = counterByte counter k
  rest : ∀ i, 16 ≤ i → i < 188 → pkt.byte i = 0xff

theorem byte_filled (v : UInt8) {i : ℕ} (hi : i < 188) : (Packet.filled v).byte i = v.toNat := by
  rw [Packet.byte, Packet.filled, List.getD_eq_getElem?_getD, List.getElem?_replicate_of_lt hi,
    Option.getD_some]

theorem eq_of_byte_eq {p q : Packet} (h : ∀ i < 188, p.byte i = q.byte i) : p = q := by
  obtain ⟨ps, hp⟩ := p
  obtain ⟨qs, hq⟩ := q
  rw [Packet.mk.injEq]
  refine List.ext_getElem (hp.trans hq.symm) fun i hi hi' ↦ ?_
  have hbyte := h i (hi.trans_eq hp)
  rw [Packet.byte, Packet.byte, List.getD_eq_getElem?_getD, List.getD_eq_getElem?_getD,
    List.getElem?_eq_getElem hi, List.getElem?_eq_getElem hi'] at hbyte
  exact UInt8.toNat_inj.mp hbyte

theorem toNat_counterAt (pkt : Packet) : (counterAt pkt).toNat =
    pkt.byte 8 * 2 ^ 56 + pkt.byte 9 * 2 ^ 48 + pkt.byte 10 * 2 ^ 40 + pkt.byte 11 * 2 ^ 32 +
      pkt.byte 12 * 2 ^ 24 + pkt.byte 13 * 2 ^ 16 + pkt.byte 14 * 2 ^ 8 + pkt.byte 15 := by
  have h8 := pkt.byte_lt 8
  have h9 := pkt.byte_lt 9
  have h10 := pkt.byte_lt 10
  have h11 := pkt.byte_lt 11
  have h12 := pkt.byte_lt 12
  have h13 := pkt.byte_lt 13
  have h14 := pkt.byte_lt 14
  have h15 := pkt.byte_lt 15
  -- the bytes above the last, each shifted in behind the one before
  let high := (((((pkt.byte 8 * 2 ^ 8 + pkt.byte 9) * 2 ^ 8 + pkt.byte 10) * 2 ^ 8 +
    pkt.byte 11) * 2 ^ 8 + pkt.byte 12) * 2 ^ 8 + pkt.byte 13) * 2 ^ 8 + pkt.byte 14
  calc (counterAt pkt).toNat
      _ = (high <<< 8 ||| pkt.byte 15) % 2 ^ 64 := by
        rw [counterAt, shiftLeft_or_shiftLeft (j := 8) 48 h9,
          shiftLeft_or_shiftLeft (j := 8) 40 h10, shiftLeft_or_shiftLeft (j := 8) 32 h11,
          shiftLeft_or_shiftLeft (j := 8) 24 h12, shiftLeft_or_shiftLeft (j := 8) 16 h13,
          shiftLeft_or_shiftLeft (j := 8) 8 h14, UInt64.toNat_ofNat']
      _ = (high * 2 ^ 8 + pkt.byte 15) % 2 ^ 64 := by
        rw [← Nat.shiftLeft_add_eq_or_of_lt h15, Nat.shiftLeft_eq]
      _ = high * 2 ^ 8 + pkt.byte 15 := Nat.mod_eq_of_lt (by omega)
      _ = _ := by ring

theorem sum_counterByte (counter : UInt64) :
    counterByte counter 0 * 2 ^ 56 + counterByte counter 1 * 2 ^ 48 +
      counterByte counter 2 * 2 ^ 40 + counterByte counter 3 * 2 ^ 32 +
      counterByte counter 4 * 2 ^ 24 + counterByte counter 5 * 2 ^ 16 +
      counterByte counter 6 * 2 ^ 8 + counterByte counter 7 = counter.toNat := by
  -- the counter, one byte shorter at a time
  have hshort : ∀ j, counter.toNat / 2 ^ j =
      counter.toNat / 2 ^ (j + 8) * 256 + counter.toNat / 2 ^ j % 256 := by
    intro j
    rw [pow_add, ← Nat.div_div_eq_div_mul]
    exact (Nat.div_add_mod' _ 256).symm
  have h0 := hshort 0
  have h8 := hshort 8
  have h16 := hshort 16
  have h24 := hshort 24
  have h32 := hshort 32
  have h40 := hshort 40
  have h48 := hshort 48
  have h56 : counter.toNat / 2 ^ 56 % 256 = counter.toNat / 2 ^ 56 :=
    Nat.mod_eq_of_lt (Nat.div_lt_of_lt_mul counter.toNat_lt)
  rw [pow_zero, Nat.div_one] at h0
  simp only [counterByte, Nat.reduceMul, Nat.reduceSub, Nat.reduceAdd, pow_zero, Nat.div_one]
    at h0 h8 h16 h24 h32 h40 h48 ⊢
  linarith only [h0, h8, h16, h24, h32, h40, h48, h56]

theorem counterAt_eq_iff (pkt : Packet) (counter : UInt64) :
    counterAt pkt = counter ↔ ∀ k < 8, pkt.byte (8 + k) = counterByte counter k := by
  have hbyte := pkt.byte_lt
  rw [← UInt64.toNat_inj, toNat_counterAt]
  constructor
  · intro h k hk
    rw [counterByte, ← h]
    have h8 := hbyte 8
    have h9 := hbyte 9
    have h10 := hbyte 10
    have h11 := hbyte 11
    have h12 := hbyte 12
    have h13 := hbyte 13
    have h14 := hbyte 14
    have h15 := hbyte 15
    interval_cases k <;> norm_num <;> omega
  · intro h
    rw [h 0 (by norm_num), h 1 (by norm_num), h 2 (by norm_num), h 3 (by norm_num),
      h 4 (by norm_num), h 5 (by norm_num), h 6 (by norm_num), h 7 (by norm_num)]
    exact sum_counterByte counter

/-- The four bytes in front of the counter are free. -/
theorem Resembles.set {pkt : Packet} {pid : UInt16} {counter : UInt64}
    (h : Resembles pkt pid counter) {i : ℕ} (hi : 4 ≤ i) (hlt : i < 8) (v : ℕ) :
    Resembles (pkt.set i v) pid counter where
  sync := by rw [Packet.byte_set_ne (by omega), h.sync]
  high := by rw [Packet.byte_set_ne (by omega), h.high]
  low := by rw [Packet.byte_set_ne (by omega), h.low]
  control := by rw [Packet.byte_set_ne (by omega), h.control]
  counter_eq k hk := by rw [Packet.byte_set_ne (by omega), h.counter_eq k hk]
  rest j hj hj' := by rw [Packet.byte_set_ne (by omega), h.rest j hj hj']

/-! ## Generation -/

theorem resembles_assignCounter (pid : UInt16) (cc : UInt8) (counter : UInt64) :
    Resembles (assignCounter (Packet.filled 0xff) pid cc counter) pid counter where
  sync := by simp (disch := omega) [assignCounter]
  high := by
    have hpid : ((pid &&& 0x1fff) >>> 8).toNat = pid.toNat / 256 % 32 :=
      and_1fff_shiftRight pid.toNat
    simp (disch := omega) only [assignCounter, Packet.byte_set_ne, Packet.byte_set_self, hpid]
    omega
  low := by simp (disch := omega) [assignCounter]
  control := by
    have hcc : (cc &&& 0x0f).toNat = cc.toNat % 16 := and_f cc.toNat
    have hor : ∀ c < 16, (0x10 ||| c) % 256 / 16 = 1 := by decide
    simp (disch := omega) only [assignCounter, Packet.byte_set_ne, Packet.byte_set_self, hcc]
    exact hor _ (Nat.mod_lt _ (by norm_num))
  counter_eq := by
    intro k hk
    interval_cases k <;>
      simp (disch := omega) [assignCounter, counterByte, Nat.shiftRight_eq_div_pow]
  rest := by
    intro i hi hlt
    simp (disch := omega) only [assignCounter, Packet.byte_set_ne, byte_filled]
    rfl

theorem byte_assignCounter_gap (pid : UInt16) (cc : UInt8) (counter : UInt64) {i : ℕ}
    (hi : 4 ≤ i) (hlt : i < 8) :
    (assignCounter (Packet.filled 0xff) pid cc counter).byte i = 0xff := by
  simp (disch := omega) only [assignCounter, Packet.byte_set_ne, byte_filled]
  rfl

theorem byte_assignCounter_cc (pid : UInt16) (cc : UInt8) (counter : UInt64) :
    (assignCounter (Packet.filled 0xff) pid cc counter).byte 3 % 16 = cc.toNat % 16 := by
  have hcc : (cc &&& 0x0f).toNat = cc.toNat % 16 := and_f cc.toNat
  have hor : ∀ c < 16, (0x10 ||| c) % 256 % 16 = c := by decide
  simp (disch := omega) only [assignCounter, Packet.byte_set_ne, Packet.byte_set_self, hcc]
  exact hor _ (Nat.mod_lt _ (by norm_num))

theorem generate_eq (pid : UInt16) (cc : UInt8) (counter : UInt64) :
    generatePacketWith64bCounter 188 pid cc counter =
      some (assignCounter (Packet.filled 0xff) pid cc counter, cc + 1) :=
  if_neg (by norm_num)

def Generated (pkt : Packet) (pid : UInt16) (counter : UInt64) : Prop :=
  ∃ cc, generatePacketWith64bCounter 188 pid cc counter = some (pkt, cc + 1)

/-- Bytes 4 to 7 are as they were filled. -/
def GapFilled (pkt : Packet) : Prop := ∀ i, 4 ≤ i → i < 8 → pkt.byte i = 0xff

theorem generated_iff (pkt : Packet) (pid : UInt16) (counter : UInt64) :
    Generated pkt pid counter ↔ Resembles pkt pid counter ∧ GapFilled pkt := by
  constructor
  · rintro ⟨cc, hcc⟩
    cases (generate_eq pid cc counter).symm.trans hcc
    exact ⟨resembles_assignCounter pid cc counter, fun i ↦ byte_assignCounter_gap pid cc counter⟩
  · rintro ⟨hbytes, hgap⟩
    -- the continuity counter is in the packet
    refine ⟨UInt8.ofNat (pkt.byte 3), ?_⟩
    rw [generate_eq]
    refine congrArg (fun p ↦ some (p, _)) (eq_of_byte_eq fun i hi ↦ ?_)
    have hsame := resembles_assignCounter pid (UInt8.ofNat (pkt.byte 3)) counter
    have hcc := byte_assignCounter_cc pid (UInt8.ofNat (pkt.byte 3)) counter
    rw [UInt8.toNat_ofNat', Nat.mod_eq_of_lt (pkt.byte_lt 3)] at hcc
    rcases (by omega : i = 0 ∨ i = 1 ∨ i = 2 ∨ i = 3 ∨ (4 ≤ i ∧ i < 8) ∨ (8 ≤ i ∧ i < 16) ∨
      16 ≤ i) with rfl | rfl | rfl | rfl | hi4 | ⟨hi8, hi16⟩ | hi16
    · rw [hsame.sync, hbytes.sync]
    · rw [hsame.high, hbytes.high]
    · rw [hsame.low, hbytes.low]
    · have h1 := hsame.control
      have h2 := hbytes.control
      omega
    · rw [byte_assignCounter_gap pid _ counter hi4.1 hi4.2, hgap i hi4.1 hi4.2]
    · obtain ⟨k, rfl⟩ := Nat.exists_eq_add_of_le hi8
      have hk : k < 8 := by omega
      rw [hsame.counter_eq k hk, hbytes.counter_eq k hk]
    · rw [hsame.rest i hi16 hi, hbytes.rest i hi16 hi]

/-! ## Updates -/

def updateStep (pid : UInt16) (s : Packet × UInt8) (counter : UInt64) : Option (Packet × UInt8) :=
  updatePacketWith64bCounter s.1 188 pid s.2 counter

def generateStep (pid : UInt16) (s : Packet × UInt8) (counter : UInt64) :
    Option (Packet × UInt8) :=
  generatePacketWith64bCounter 188 pid s.2 counter

theorem assignCounter_congr {p q : Packet} (pid : UInt16) (cc : UInt8) (counter : UInt64)
    (h : ∀ i, (4 ≤ i ∧ i < 8) ∨ 16 ≤ i → i < 188 → p.byte i = q.byte i) :
    assignCounter p pid cc counter = assignCounter q pid cc counter := by
  refine eq_of_byte_eq fun i hi ↦ ?_
  rcases (by omega : ((4 ≤ i ∧ i < 8) ∨ 16 ≤ i) ∨ i < 4 ∨ (8 ≤ i ∧ i < 16)) with
    hoff | hhead | hcounter
  · simp (disch := omega) only [assignCounter, Packet.byte_set_ne]
    exact h i hoff hi
  · interval_cases i <;>
      simp (disch := omega) only [assignCounter, Packet.byte_set_ne, Packet.byte_set_self]
  · obtain ⟨hlow, hhigh⟩ := hcounter
    interval_cases i <;>
      simp (disch := omega) only [assignCounter, Packet.byte_set_ne, Packet.byte_set_self]

/-- What the assignments leave alone is as it was filled. -/
def Filled (pkt : Packet) : Prop :=
  ∀ i, (4 ≤ i ∧ i < 8) ∨ 16 ≤ i → i < 188 → pkt.byte i = (Packet.filled 0xff).byte i

theorem filled_assignCounter (pid : UInt16) (cc : UInt8) (counter : UInt64) :
    Filled (assignCounter (Packet.filled 0xff) pid cc counter) := by
  intro i hoff hi
  simp (disch := omega) only [assignCounter, Packet.byte_set_ne]

theorem generateStep_eq (pid : UInt16) (s : Packet × UInt8) (counter : UInt64) :
    generateStep pid s counter =
      some (assignCounter (Packet.filled 0xff) pid s.2 counter, s.2 + 1) :=
  generate_eq pid s.2 counter

theorem updateStep_eq {s : Packet × UInt8} (h : Filled s.1) (pid : UInt16) (counter : UInt64) :
    updateStep pid s counter = generateStep pid s counter := by
  rw [generateStep_eq, updateStep, updatePacketWith64bCounter, if_neg (by norm_num),
    assignCounter_congr pid s.2 counter h]

theorem foldlM_updateStep (pid : UInt16) (counters : List UInt64) : ∀ s : Packet × UInt8,
    Filled s.1 → counters.foldlM (updateStep pid) s = counters.foldlM (generateStep pid) s := by
  induction counters with
  | nil => exact fun _ _ ↦ rfl
  | cons counter rest ih =>
      intro s h
      rw [List.foldlM_cons, List.foldlM_cons, updateStep_eq h, generateStep_eq]
      exact ih _ (filled_assignCounter pid s.2 counter)

/-- Packets that are made anew count on, and the last of them carries the last counter. -/
theorem foldlM_generateStep (pid : UInt16) (counters : List UInt64) : ∀ cc first,
    counters.foldlM (generateStep pid)
        (assignCounter (Packet.filled 0xff) pid cc first, cc + 1) =
      some (assignCounter (Packet.filled 0xff) pid (cc + UInt8.ofNat counters.length)
        (counters.getLastD first), cc + UInt8.ofNat counters.length + 1) := by
  induction counters with
  | nil =>
      intro cc first
      rw [List.length_nil, List.getLastD_nil, show UInt8.ofNat 0 = 0 from rfl, UInt8.add_zero]
      rfl
  | cons counter rest ih =>
      intro cc first
      have hcc : cc + UInt8.ofNat (counter :: rest).length = cc + 1 + UInt8.ofNat rest.length := by
        rw [List.length_cons, Nat.add_comm, UInt8.ofNat_add, ← UInt8.add_assoc]
        rfl
      rw [List.foldlM_cons, generateStep_eq, List.getLastD_cons, hcc]
      exact ih (cc + 1) counter

/-- Behind a generated packet, updates for any counters come to the packets, and to the
continuity counters, that are made anew: the packet shows the last counter, with filled bytes
around it, under a continuity counter one ahead for each update. -/
theorem updates_regenerate (pid : UInt16) (cc : UInt8) (first : UInt64) (counters : List UInt64) :
    ∃ s, ((generatePacketWith64bCounter 188 pid cc first).bind fun s ↦
          counters.foldlM (updateStep pid) s) = some s ∧
      ((generatePacketWith64bCounter 188 pid cc first).bind fun s ↦
          counters.foldlM (generateStep pid) s) = some s ∧
      s.2 = cc + 1 + UInt8.ofNat counters.length ∧
      Resembles s.1 pid (counters.getLastD first) ∧ GapFilled s.1 ∧
      s.1.byte 3 % 16 = (cc + UInt8.ofNat counters.length).toNat % 16 := by
  set start := (assignCounter (Packet.filled 0xff) pid cc first, cc + 1)
  have hupdates := foldlM_updateStep pid counters start (filled_assignCounter pid cc first)
  have hrun := foldlM_generateStep pid counters cc first
  rw [generate_eq, Option.bind_some, Option.bind_some]
  refine ⟨_, hupdates.trans hrun, hrun, ?_, resembles_assignCounter pid _ _,
    fun i ↦ byte_assignCounter_gap pid _ _, byte_assignCounter_cc pid _ _⟩
  rw [UInt8.add_assoc, UInt8.add_comm _ 1, ← UInt8.add_assoc]

/-! ## Verification -/

def Verified (verifyPacket : VerifyPacket) (pkt : Packet) (pid : UInt16)
    (counter currentCounter : UInt64) : Prop :=
  let r := verifyPacketWith64bCounter verifyPacket pkt 188 pid (counter - 1) currentCounter
  r.1 = 0 ∧ r.2.1 = counter

theorem filled_drop_eq_iff (pkt : Packet) :
    (Packet.filled 0xff).bytes.drop 16 = pkt.bytes.drop 16 ↔
      ∀ i, 16 ≤ i → i < 188 → pkt.byte i = 0xff := by
  constructor
  · intro h i hi hlt
    have hat := congrArg (fun l ↦ l[i - 16]?) h
    simp only [List.getElem?_drop, show 16 + (i - 16) = i by omega] at hat
    rw [Packet.byte, List.getD_eq_getElem?_getD, ← hat, Packet.filled,
      List.getElem?_replicate_of_lt hlt]
    rfl
  · intro h
    have hlen : ((Packet.filled 0xff).bytes.drop 16).length = (pkt.bytes.drop 16).length := by
      rw [List.length_drop, List.length_drop, pkt.length_bytes, Packet.length_bytes]
    refine List.ext_getElem hlen fun i hi hi' ↦ ?_
    rw [List.length_drop, pkt.length_bytes] at hi'
    have hbyte := h (16 + i) (Nat.le_add_right 16 i) (by omega)
    have hat : 16 + i < pkt.bytes.length := by
      rw [pkt.length_bytes]
      omega
    rw [Packet.byte, List.getD_eq_getElem?_getD, List.getElem?_eq_getElem hat] at hbyte
    rw [List.getElem_drop, List.getElem_drop, ← UInt8.toNat_inj]
    exact (congrArg UInt8.toNat (List.getElem_replicate _)).trans hbyte.symm

theorem verified_iff (verifyPacket : VerifyPacket) (pkt : Packet) (pid : UInt16)
    (counter currentCounter : UInt64) :
    Verified verifyPacket pkt pid counter currentCounter ↔
      Resembles pkt pid counter ∧ pid.toNat < 256 := by
  have hstatic : (if verifyPacket.1.byte 0 = 0 then ⟨Packet.filled 0xff, .inr rfl⟩
      else verifyPacket : VerifyPacket) = ⟨Packet.filled 0xff, .inr rfl⟩ := by
    split_ifs with hzero
    · rfl
    · obtain ⟨p, rfl | rfl⟩ := verifyPacket
      · exact absurd (byte_filled 0 (by norm_num)) hzero
      · rfl
  have hhigh : ((pid &&& 0x1fff) >>> 8).toNat = pid.toNat / 256 % 32 := and_1fff_shiftRight _
  have hcontrol : ∀ b < 256, b &&& 0xf0 = 0x10 ↔ b / 16 = 1 := by decide +kernel
  have hcounter : counter - 1 + 1 = counter := UInt64.sub_add_cancel counter 1
  have hlow := pkt.byte_lt 2
  rw [Verified, verifyPacketWith64bCounter, if_neg (by norm_num), hstatic, hhigh, hcounter]
  dsimp only
  constructor
  · intro h
    split_ifs at h with h0 h1 h2 h3 h8 h16
    · exact absurd h.1 (by norm_num)
    · exact absurd h.1 (by norm_num)
    · exact absurd h.1 (by norm_num)
    · exact absurd h.1 (by norm_num)
    · exact absurd h.1 (by norm_num)
    · exact absurd h.1 (by norm_num)
    · rw [not_ne_iff] at h0 h1 h2 h3 h8 h16
      refine ⟨⟨h0, h1, ?_, (hcontrol _ (pkt.byte_lt 3)).mp h3, ?_, ?_⟩, by omega⟩
      · omega
      · exact (counterAt_eq_iff pkt counter).mp h8.symm
      · exact (filled_drop_eq_iff pkt).mp h16
  · rintro ⟨⟨h0, h1, h2, h3, h8, h16⟩, hpid⟩
    rw [← hcontrol _ (pkt.byte_lt 3)] at h3
    rw [← counterAt_eq_iff] at h8
    rw [← filled_drop_eq_iff] at h16
    rw [Nat.mod_eq_of_lt hpid] at h2
    rw [if_neg (not_not_intro h0), if_neg (not_not_intro h1), if_neg (not_not_intro h2),
      if_neg (not_not_intro h3), if_neg (not_not_intro h8.symm), if_neg (not_not_intro h16)]
    exact ⟨rfl, h8⟩

/-- The verifier takes what is generated, and nothing else, for exactly these packets: when the
packet is as one with the counter outside of the four bytes, these bytes are filled if and only
if the pid is a byte. -/
theorem verified_iff_generated_iff (verifyPacket : VerifyPacket) (pkt : Packet) (pid : UInt16)
    (counter currentCounter : UInt64) :
    (Verified verifyPacket pkt pid counter currentCounter ↔ Generated pkt pid counter) ↔
      (Resembles pkt pid counter → (pid.toNat < 256 ↔ GapFilled pkt)) := by
  rw [verified_iff, generated_iff]
  exact and_congr_right_iff

def highPidPacket : Packet := assignCounter (Packet.filled 0xff) 256 0 1

/-- The packet that is generated for pid 1, with byte 4 cleared. -/
def damagedPacket : Packet := (assignCounter (Packet.filled 0xff) 1 0 1).set 4 0

/-- The first is generated and not taken, the second is taken and not generated. -/
theorem verified_ne_generated :
    (Generated highPidPacket 256 1 ∧ ∀ v current, ¬Verified v highPidPacket 256 1 current) ∧
      (∀ v current, Verified v damagedPacket 1 1 current) ∧ ¬Generated damagedPacket 1 1 := by
  refine ⟨⟨⟨0, rfl⟩, fun v current h ↦ ?_⟩, fun v current ↦ ?_, fun h ↦ ?_⟩
  · exact absurd ((verified_iff _ _ _ _ _).mp h).2 (by decide)
  · rw [verified_iff]
    exact ⟨(resembles_assignCounter 1 0 1).set le_rfl (by norm_num) 0, by decide⟩
  · exact absurd (((generated_iff _ _ _).mp h).2 4 le_rfl (by norm_num)) (by decide)

end LtnTsTools.Ts
