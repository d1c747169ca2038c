import LtnTsTools.TransportPacket

/-!
# Packets that carry a clock reference only

`ltntstools_pcr_packTo` and `ltntstools_generatePCROnlyPacket` of `ts.c`, and that
the accessors read back what they write.
-/

namespace LtnTsTools.Ts

/-- `ltntstools_pcr_packTo`, with the destination inside a packet. -/
def pcrPackTo (dst : Packet) (off : ℕ) (pcr : UInt64) : Packet :=
  let base := pcr / 300
  let ext := pcr % 300
  let dst := dst.set off (base >>> 25).toNat
  let dst := dst.set (off + 1) (base >>> 17).toNat
  let dst := dst.set (off + 2) (base >>> 9).toNat
  let dst := dst.set (off + 3) (base >>> 1).toNat
  let dst := dst.set (off + 4) (base <<< 7).toNat
  let dst := dst.set (off + 4) (dst.byte (off + 4) ||| 0x7e)
  let dst := dst.set (off + 4) (dst.byte (off + 4) ||| ((ext &&& 0x100) >>> 8).toNat)
  dst.set (off + 5) ext.toNat

/-- `ltntstools_generatePCROnlyPacket`: the packet and the continuity counter it
leaves behind, or the error for a buffer that is too short. -/
def generatePCROnlyPacket (lengthBytes : ℤ) (pid : UInt16) (cc : UInt8) (pcr : UInt64) :
    Option (Packet × UInt8) :=
  if lengthBytes < 188 then none
  else
    let pkt := Packet.filled 0xff
    let pkt := pkt.set 0 0x47
    let pkt := pkt.set 1 ((pid &&& 0x1fff) >>> 8).toNat
    let pkt := pkt.set 2 pid.toNat
    let pkt := pkt.set 3 (0x20 ||| (cc &&& 0x0f).toNat)
    let pkt := pkt.set 4 183
    let pkt := pkt.set 5 0x10
    some (pcrPackTo pkt 6 pcr, cc + 1)

theorem byte_pcrPackTo_of_lt {dst : Packet} {off j : ℕ} {pcr : UInt64} (h : j < off) :
    (pcrPackTo dst off pcr).byte j = dst.byte j := by
  unfold pcrPackTo
  simp only
  rw [Packet.byte_set_ne (by omega), Packet.byte_set_ne (by omega), Packet.byte_set_ne (by omega),
    Packet.byte_set_ne (by omega), Packet.byte_set_ne (by omega), Packet.byte_set_ne (by omega),
    Packet.byte_set_ne (by omega), Packet.byte_set_ne (by omega)]

/-- The shared byte: the lowest bit of the base, six reserved bits and the highest
bit of the extension. -/
theorem sharedByte (base ext : ℕ) (hext : ext < 300) :
    ((base <<< 7 % 2 ^ 64 % 256 ||| 0x7e) % 256 ||| (ext &&& 0x100) >>> 8) % 256 =
      base % 2 * 128 + 126 + ext / 256 := by
  have hbase : base <<< 7 % 2 ^ 64 % 256 = base % 2 * 128 := by
    rw [Nat.shiftLeft_eq]
    omega
  have hnine : ∀ e < 300, (e &&& 0x100) >>> 8 = e / 256 := by decide +kernel
  have hmark : ∀ b < 2, ∀ e < 2, ((b * 128 ||| 0x7e) % 256 ||| e) % 256 = b * 128 + 126 + e := by
    decide
  rw [hbase, hnine ext hext]
  exact hmark _ (by omega) _ (by omega)

theorem holdsPcr_pcrPackTo (dst : Packet) {off : ℕ} (hoff : off + 6 ≤ 188) (pcr : UInt64) :
    HoldsPcr (pcrPackTo dst off pcr) off (pcr.toNat / 300) (pcr.toNat % 300) := by
  have hshared := sharedByte (pcr.toNat / 300) (pcr.toNat % 300) (Nat.mod_lt _ (by norm_num))
  have hfour : (pcrPackTo dst off pcr).byte (off + 4) =
      pcr.toNat / 300 % 2 * 128 + 126 + pcr.toNat % 300 / 256 := by
    rw [← hshared]
    simp (disch := omega) [pcrPackTo]
  constructor
  case baseBit => omega
  case extBit => omega
  all_goals simp (disch := omega) [pcrPackTo, Nat.shiftRight_eq_div_pow]

theorem generatePCROnlyPacket_spec {lengthBytes : ℤ} (hlen : 188 ≤ lengthBytes) (pid : UInt16)
    (cc : UInt8) (pcr : UInt64) :
    ∃ pkt, generatePCROnlyPacket lengthBytes pid cc pcr = some (pkt, cc + 1) ∧
      scr pkt = some (pcr.toNat % (300 * 2 ^ 33)) ∧ Ts.pid pkt = pid.toNat % 2 ^ 13 ∧
      continuityCounter pkt = cc.toNat % 16 := by
  have hpid : ((pid &&& 0x1fff) >>> 8).toNat = pid.toNat / 256 % 32 :=
    and_1fff_shiftRight pid.toNat
  have hcc : (cc &&& 0x0f).toNat = cc.toNat % 16 := and_f cc.toNat
  have hor : ∀ c < 16, 0x20 ||| c = 32 + c := by decide
  rw [generatePCROnlyPacket, if_neg (by omega), hpid, hcc, hor _ (Nat.mod_lt _ (by norm_num))]
  refine ⟨_, rfl, ?_, ?_, ?_⟩
  · rw [scr, adaptionFieldControl_eq, syncPresent,
      (holdsPcr_pcrPackTo _ (by norm_num) pcr).pcrToScr_eq_mod,
      byte_pcrPackTo_of_lt (by norm_num), byte_pcrPackTo_of_lt (by norm_num),
      byte_pcrPackTo_of_lt (by norm_num), byte_pcrPackTo_of_lt (by norm_num)]
    simp
    omega
  · rw [pid_eq, byte_pcrPackTo_of_lt (by norm_num), byte_pcrPackTo_of_lt (by norm_num)]
    simp
    omega
  · rw [continuityCounter_eq, byte_pcrPackTo_of_lt (by norm_num)]
    simp
    omega

/-- The clock reference is read back modulo its field, from the bytes as they are
packed and from a packet that carries nothing else; that packet has the identifier
and the continuity counter it was asked for, and the counter goes on by one. -/
theorem pcr_round_trip (dst : Packet) {off : ℕ} (hoff : off + 6 ≤ 188) {lengthBytes : ℤ}
    (hlen : 188 ≤ lengthBytes) (pid : UInt16) (cc : UInt8) (pcr : UInt64) :
    pcrToScr (pcrPackTo dst off pcr) off = pcr.toNat % (300 * 2 ^ 33) ∧
      ∃ pkt, generatePCROnlyPacket lengthBytes pid cc pcr = some (pkt, cc + 1) ∧
        scr pkt = some (pcr.toNat % (300 * 2 ^ 33)) ∧ Ts.pid pkt = pid.toNat % 2 ^ 13 ∧
        continuityCounter pkt = cc.toNat % 16 :=
  ⟨(holdsPcr_pcrPackTo dst hoff pcr).pcrToScr_eq_mod,
    generatePCROnlyPacket_spec hlen pid cc pcr⟩

/-- The largest values of all arguments. -/
theorem pcr_round_trip_largest :
    pcrToScr (pcrPackTo (Packet.filled 0) 182 0xffffffffffffffff) 182 =
        18446744073709551615 % (300 * 2 ^ 33) ∧
      ∃ pkt, generatePCROnlyPacket 188 0xffff 0xff 0xffffffffffffffff = some (pkt, 0) ∧
        scr pkt = some (18446744073709551615 % (300 * 2 ^ 33)) ∧ Ts.pid pkt = 8191 ∧
        continuityCounter pkt = 15 :=
  pcr_round_trip (Packet.filled 0) (by norm_num) (by norm_num) 0xffff 0xff 0xffffffffffffffff

end LtnTsTools.Ts
