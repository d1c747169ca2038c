import LtnTsTools.NalBitReader
import LtnTsTools.NalCollection
import LtnTsTools.PartialMachine
import LtnTsTools.TransportPacket

/-!
# Slice counters

The slice counters of `nal_h264.c` and `nal_h265.c`: every slice header that starts in a
packet is read through a window of four bytes, whether they lie in the packet or not, and
a slice type below the number of types is counted, whether it is one or an error.  `none`
is a read behind the packet, or an access outside of the counts.  What the functions print
is left out.
-/

namespace LtnTsTools.Nal

open BitString ExpGolomb Occurrence NalBitReader PartialMachine

/-! ## Counts -/

/-- `struct h264_slice_data_s`, which is `struct h265_slice_data_s` too. -/
structure SliceData where
  sliceType : ℕ
  count : UInt64
  name : Char

/-- The fields that `struct h264_slice_counter_s` and `struct h265_slice_counter_s` begin
with, for `n` slice types. -/
structure SliceCounter (n : ℕ) where
  pid : ℕ
  slice : Fin n → SliceData
  nextHistoryPos : ℤ
  sliceHistory : ℤ → Char

/-- `H264_SLICE_COUNTER_HISTORY_LENGTH` and `H265_SLICE_COUNTER_HISTORY_LENGTH`. -/
def historyLength : ℤ := 20

/-- `h264_slice_counter_update` and `h265_slice_counter_update`. -/
def SliceCounter.update {n : ℕ} (s : SliceCounter n) (sliceType : ℤ) : Option (SliceCounter n) :=
  if h : 0 ≤ sliceType ∧ sliceType < n then
    let i : Fin n := ⟨sliceType.toNat, by omega⟩
    some
      { s with
        slice := Function.update s.slice i { s.slice i with count := (s.slice i).count + 1 }
        nextHistoryPos := (s.nextHistoryPos + 1).bmod (2 ^ 32)
        sliceHistory :=
          Function.update s.sliceHistory (s.nextHistoryPos.tmod historyLength) (s.slice i).name }
  else none

/-- A slice type that was read is counted if it is less than the number of types. -/
def SliceCounter.note {n : ℕ} (s : SliceCounter n) (sliceType : ℤ) : Option (SliceCounter n) :=
  if sliceType < n then s.update sliceType else some s

/-- The entries of both tables `slice_defaults`, of which the first `n` are taken. -/
def sliceDefaults (names : List Char) (n : ℕ) (i : Fin n) : SliceData :=
  ⟨i, 0, names.getD i ' '⟩

/-- `h264_slice_counter_reset` and `h265_slice_counter_reset`; the history ends at `last`. -/
def SliceCounter.reset {n : ℕ} (names : List Char) (last : ℤ) (s : SliceCounter n) :
    SliceCounter n :=
  { s with
    slice := sliceDefaults names n
    sliceHistory := fun i ↦
      if i = last then Char.ofNat 0
      else if 0 ≤ i ∧ i < historyLength then ' ' else s.sliceHistory i }

/-! ## The packet loop -/

/-- The window of four bytes behind a NAL header. -/
def sliceReader (pkt : Packet) (offset : ℕ) : NalBitReader :=
  .init (pkt.bytes.drop (offset + 4)) 4

/-- The loop of `h264_slice_counter_write_packet` and of `h265_slice_counter_write_packet`. -/
def packetLoop {σ : Type*} (find : ℤ → Option ℕ) (nal : σ → ℕ → Option σ) :
    ℕ → ℤ → σ → Option σ
  | 0, _, _ => none
  | fuel + 1, offset, s =>
      if offset < 188 - 5 then
        match find offset with
        | none => some s
        | some i =>
            match nal s i with
            | none => none
            | some s => packetLoop find nal fuel i s
      else some s

/-- The loop of `h264_slice_counter_write` and of `h265_slice_counter_write`. -/
def writePackets {σ : Type*} (pid : σ → ℕ) (packet : σ → Packet → Option σ) (s : σ)
    (pkts : List Packet) : Option σ :=
  pkts.foldlM (fun s pkt ↦ if pid s = 0x2000 ∨ Ts.pid pkt = pid s then packet s pkt else some s) s

/-! ## H.264 -/

/-- `struct h264_slice_counter_s`, for `MAX_H264_SLICE_TYPES`. -/
abbrev H264SliceCounter := SliceCounter 10

/-- `h264_slice_counter_alloc`; `memory` is what `malloc` returns. -/
def h264SliceCounterAlloc (memory : H264SliceCounter) (pid : ℕ) : H264SliceCounter :=
  { memory with pid := pid }.reset ['P', 'B', 'I', 'p', 'i', 'P', 'B', 'I', 'p', 'i'] 20

/-- The body of the loop of `h264_slice_counter_write_packet`. -/
def h264SliceNal (pkt : Packet) (s : H264SliceCounter) (offset : ℕ) : Option H264SliceCounter :=
  if h264NalTypeAt pkt.bytes offset ∈ [1, 2, 5, 19] then
    (sliceReader pkt offset).readUe.bind fun firstMb ↦
      firstMb.2.readUe.bind fun sliceType ↦ s.note sliceType.1
  else some s

/-- `h264_slice_counter_write_packet`. -/
def h264SliceCounterWritePacket (s : H264SliceCounter) (pkt : Packet) : Option H264SliceCounter :=
  packetLoop (ltnNalH264FindHeader pkt.bytes) (h264SliceNal pkt) 188 (-1) s

/-- `h264_slice_counter_write`. -/
def h264SliceCounterWrite (s : H264SliceCounter) (pkts : List Packet) : Option H264SliceCounter :=
  writePackets SliceCounter.pid h264SliceCounterWritePacket s pkts

/-! ## H.265 -/

/-- `struct h265_slice_counter_s`, for `MAX_H265_SLICE_TYPES`. -/
structure H265SliceCounter extends SliceCounter 3 where
  spsValid : ℕ
  spsVideoParameterSetId : ℕ
  spsMaxSubLayersMinus1 : ℕ
  spsTemporalIdNestingFlag : ℕ
  ppsValid : ℕ
  ppsPicParameterSetId : ℕ
  ppsSeqParameterSetId : ℕ
  dependentSliceSegmentsEnabledFlag : ℕ
  outputFlagPresentFlag : ℕ
  numExtraSliceHeaderBits : ℕ

/-- `h265_slice_counter_alloc`; `memory` is what `malloc` returns. -/
def h265SliceCounterAlloc (memory : H265SliceCounter) (pid : ℕ) : H265SliceCounter :=
  { memory with
    toSliceCounter := { memory.toSliceCounter with pid := pid }.reset ['B', 'P', 'I'] 19 }

def H265SliceCounter.readSps (s : H265SliceCounter) (br : NalBitReader) :
    Option H265SliceCounter :=
  (br.readBits 4).bind fun vps ↦
    (vps.2.readBits 3).bind fun layers ↦
      (layers.2.readBits 1).map fun nesting ↦
        { s with
          spsVideoParameterSetId := vps.1
          spsMaxSubLayersMinus1 := layers.1
          spsTemporalIdNestingFlag := nesting.1
          spsValid := 1 }

def H265SliceCounter.readPps (s : H265SliceCounter) (br : NalBitReader) :
    Option H265SliceCounter :=
  br.readUe.bind fun pps ↦
    pps.2.readUe.bind fun sps ↦
      (sps.2.readBits 1).bind fun dependent ↦
        (dependent.2.readBits 1).bind fun output ↦
          (output.2.readBits 3).map fun extra ↦
            { s with
              ppsPicParameterSetId := (pps.1 % 2 ^ 32).toNat
              ppsSeqParameterSetId := (sps.1 % 2 ^ 32).toNat
              dependentSliceSegmentsEnabledFlag := dependent.1
              outputFlagPresentFlag := output.1
              numExtraSliceHeaderBits := extra.1
              ppsValid := 1 }

/-- The fields of a slice segment that is not the first one of its picture: whether it is a
dependent one, and a bit of its address. -/
def H265SliceCounter.readAddress (s : H265SliceCounter) (firstFlag : ℕ) (br : NalBitReader) :
    Option (ℕ × NalBitReader) :=
  if firstFlag = 0 then
    (if s.dependentSliceSegmentsEnabledFlag ≠ 0 then br.readBits 1 else some (0, br)).bind
      fun dependent ↦ (dependent.2.readBits 1).map fun address ↦ (dependent.1, address.2)
  else some (0, br)

/-- The slice type, which a dependent slice segment does not have. -/
def H265SliceCounter.readSliceType (s : H265SliceCounter) (dependent : ℕ) (br : NalBitReader) :
    Option ℤ :=
  if dependent = 0 then
    (br.skipBits s.numExtraSliceHeaderBits).bind fun br ↦ br.readUe.map Prod.fst
  else some (-1)

def H265SliceCounter.readSlice (s : H265SliceCounter) (nalType : ℕ) (br : NalBitReader) :
    Option H265SliceCounter :=
  (br.readBits 1).bind fun first ↦
    (if 16 ≤ nalType ∧ nalType ≤ 23 then first.2.readBits 1 else some (0, first.2)).bind
      fun prior ↦
        prior.2.readUe.bind fun pps ↦
          (s.readAddress first.1 pps.2).bind fun dependent ↦
            (s.readSliceType dependent.1 dependent.2).bind fun sliceType ↦
              (s.note sliceType).map fun counter ↦ { s with toSliceCounter := counter }

/-- The body of the loop of `h265_slice_counter_write_packet`. -/
def h265SliceNal (pkt : Packet) (s : H265SliceCounter) (offset : ℕ) : Option H265SliceCounter :=
  let nalType := h265NalTypeAt pkt.bytes offset
  if nalType = 33 then
    if s.spsValid ≠ 0 then some s else s.readSps (sliceReader pkt offset)
  else if nalType = 34 then
    if s.ppsValid ≠ 0 then some s else s.readPps (sliceReader pkt offset)
  else if nalType ≤ 9 ∨ 16 ≤ nalType ∧ nalType ≤ 21 then
    if s.ppsValid = 0 then some s else s.readSlice nalType (sliceReader pkt offset)
  else some s

/-- `h265_slice_counter_write_packet`. -/
def h265SliceCounterWritePacket (s : H265SliceCounter) (pkt : Packet) : Option H265SliceCounter :=
  packetLoop (ltnNalH265FindHeader pkt.bytes) (h265SliceNal pkt) 188 (-1) s

/-- `h265_slice_counter_write`. -/
def h265SliceCounterWrite (s : H265SliceCounter) (pkts : List Packet) : Option H265SliceCounter :=
  writePackets (fun s ↦ s.pid) h265SliceCounterWritePacket s pkts

/-! ## What is visited -/

def nals (pid : ℕ) (pkts : List Packet) : List (Packet × ℕ) :=
  (pkts.filter fun pkt ↦ pid = 0x2000 ∨ Ts.pid pkt = pid).flatMap fun pkt ↦
    (headers pkt.bytes).map (pkt, ·)

section Loop

variable {σ : Type*} {nal : Packet → σ → ℕ → Option σ} {pkt : Packet}

theorem HeaderAt.le {i : ℕ} (h : HeaderAt pkt.bytes i) : i ≤ 184 := by
  have hlt := h.1.2
  rw [pkt.length_bytes] at hlt
  omega

theorem findHeader_eq_none {i : ℕ} (h : HeaderAt pkt.bytes i) (hi : 183 ≤ i) :
    findHeader pkt.bytes i = none := by
  have hfirst := findHeader_spec pkt.bytes i
  cases hfound : findHeader pkt.bytes i with
  | none => rfl
  | some j =>
      rw [hfound] at hfirst
      have hj := hfirst.2.1.le
      have hgt := hfirst.1
      have hapart := h.1.1.apart hfirst.2.1.1.1 (by omega)
      omega

theorem packetLoop_eq (f : σ → ℕ → Option σ) (fuel : ℕ) : ∀ (offset : ℤ) (s : σ), offset ≤ 184 →
    187 ≤ fuel + offset → (183 ≤ offset → findHeader pkt.bytes offset = none) →
    packetLoop (findHeader pkt.bytes) f fuel offset s =
      (scanFrom (findHeader pkt.bytes) fuel offset).foldlM f s := by
  induction fuel with
  | zero =>
      intro offset s hle hfuel
      omega
  | succ fuel ih =>
      intro offset s hle hfuel hstop
      rw [packetLoop, scanFrom]
      have hfirst := findHeader_spec pkt.bytes offset
      cases hfound : findHeader pkt.bytes offset with
      | none => simp
      | some i =>
          rw [hfound] at hfirst hstop
          have hi := hfirst.2.1.le
          have hgt := hfirst.1
          have hinside : offset < 188 - 5 := not_le.mp fun hge ↦ Option.some_ne_none i (hstop hge)
          simp only [if_pos hinside, List.foldlM_cons]
          cases f s i with
          | none => rfl
          | some s' =>
              exact ih i s' (by omega) (by omega) fun hge ↦
                findHeader_eq_none hfirst.2.1 (Int.ofNat_le.mp hge)

theorem packetLoop_headers (f : σ → ℕ → Option σ) (s : σ) :
    packetLoop (findHeader pkt.bytes) f 188 (-1) s = (headers pkt.bytes).foldlM f s := by
  have hbound : ∀ x, HeaderAt pkt.bytes x → x < pkt.bytes.length - 3 :=
    fun x h ↦ Nat.lt_sub_of_add_lt h.1.2
  have hvisits := scanFrom_visits (findHeader_spec pkt.bytes) hbound 188 (-1) (by
    rw [pkt.length_bytes]
    omega)
  rw [packetLoop_eq f 188 (-1) s (by omega) (by omega) (by omega)]
  exact congrArg (List.foldlM f s) (hvisits.eq_filter hbound)

/-- A counter whose pid stays comes to the NALs of its pid, one after the other. -/
theorem writePackets_eq {pid : σ → ℕ} {packet : σ → Packet → Option σ}
    (hpacket : ∀ s pkt, packet s pkt = (headers pkt.bytes).foldlM (nal pkt) s)
    (hpid : ∀ pkt s i s', nal pkt s i = some s' → pid s' = pid s) (pkts : List Packet) :
    ∀ s, writePackets pid packet s pkts =
      (nals (pid s) pkts).foldlM (fun s x ↦ nal x.1 s x.2) s := by
  obtain rfl : packet = fun s pkt ↦ (headers pkt.bytes).foldlM (nal pkt) s := funext₂ hpacket
  have hkeep : ∀ pkt (l : List ℕ) s s', l.foldlM (nal pkt) s = some s' → pid s' = pid s := by
    intro pkt l
    induction l with
    | nil =>
        rintro s s' ⟨⟩
        rfl
    | cons i rest ih =>
        intro s s' h
        rw [List.foldlM_cons] at h
        obtain ⟨mid, hmid, hrest⟩ := Option.bind_eq_some_iff.mp h
        exact (ih mid s' hrest).trans (hpid pkt s i mid hmid)
  induction pkts with
  | nil => exact fun _ ↦ rfl
  | cons pkt rest ih =>
      intro s
      rw [writePackets, List.foldlM_cons, nals, List.filter_cons]
      by_cases htaken : pid s = 0x2000 ∨ Ts.pid pkt = pid s
      · simp only [if_pos htaken, decide_eq_true htaken, if_true, List.flatMap_cons,
          List.foldlM_append, List.foldlM_map]
        refine Option.bind_congr fun s' hs' ↦ ?_
        have hsame := hkeep pkt _ s s' hs'
        have hrest := ih s'
        rw [hsame] at hrest
        exact hrest
      · simp only [if_neg htaken, decide_eq_false htaken, Bool.false_eq_true, if_false]
        exact ih s

theorem writes_eq {pid : σ → ℕ} {packet : σ → Packet → Option σ}
    (calls : List (List Packet)) (s : σ) :
    calls.foldlM (writePackets pid packet) s = writePackets pid packet s calls.flatten := by
  induction calls generalizing s with
  | nil => rfl
  | cons pkts rest ih =>
      rw [List.foldlM_cons, List.flatten_cons, writePackets, writePackets, List.foldlM_append]
      exact Option.bind_congr fun s' _ ↦ ih s'

end Loop

/-! ## Windows -/

def windowBits (pkt : Packet) (offset : ℕ) : List Bool :=
  (bytesToBits (pkt.bytes.drop (offset + 4))).take 32

def windowFits (offset : ℕ) : Bool := offset + 8 ≤ 188

theorem length_windowBits (pkt : Packet) (offset : ℕ) : (windowBits pkt offset).length ≤ 32 :=
  List.length_take_le _ _

theorem faces_sliceReader (pkt : Packet) (offset : ℕ) :
    Faces (sliceReader pkt offset) (windowBits pkt offset) (windowFits offset) where
  ahead_eq := rfl
  pos_le := Nat.zero_le _
  closed_iff := by
    have hlimit : (sliceReader pkt offset).limit = 32 := rfl
    rw [hlimit, sliceReader, NalBitReader.init, windowFits, decide_eq_true_iff, List.length_drop,
      pkt.length_bytes]
    omega

section Rules

variable {br : NalBitReader} {l : List Bool} {closed : Bool} {β : Type*} {Q : Prop}

theorem readUe_bind_iff (h : Faces br l closed) (hlen : l.length ≤ 32)
    {f : ℤ × NalBitReader → Option β} (hnone : closed = false → ¬Complete l → ¬Q)
    (hnext : ∀ v br', Faces br' (pastCode l) closed → (closed = true ∨ Complete l) →
      ((f (v, br')).isSome ↔ Q)) : (br.readUe.bind f).isSome ↔ Q := by
  rcases h.readUe_step hlen with ⟨hopen, hcut, hread⟩ | ⟨hgoes, v, br', hread, hfaces⟩
  · rw [hread]
    exact iff_of_false Bool.false_ne_true (hnone hopen hcut)
  · rw [hread]
    exact hnext v br' hfaces hgoes

theorem readBits_bind_iff {n : ℕ} (h : Faces br l closed) (hn : n ≤ 32)
    {f : ℕ × NalBitReader → Option β} (hnone : closed = false → l.length < n → ¬Q)
    (hnext : ∀ v br', Faces br' (l.drop n) closed → (closed = true ∨ n ≤ l.length) →
      v = (if n ≤ l.length then ofBits (l.take n) else 0xFFFFFFFF) →
        ((f (v, br')).isSome ↔ Q)) : ((br.readBits n).bind f).isSome ↔ Q := by
  rcases h.readBits_step hn with ⟨hopen, hcut, hread⟩ | ⟨hgoes, v, br', hread, hfaces, hv⟩
  · rw [hread]
    exact iff_of_false Bool.false_ne_true (hnone hopen hcut)
  · rw [hread]
    exact hnext v br' hfaces hgoes hv

/-- A code in a header that only has to lie in the packet. -/
theorem readUe_bind_lies (h : Faces br l closed) (hlen : l.length ≤ 32)
    {f : ℤ × NalBitReader → Option β} (hnext : ∀ v br', Faces br' (pastCode l) closed →
      ((f (v, br')).isSome ↔ closed = true ∨ Q)) :
    (br.readUe.bind f).isSome ↔ closed = true ∨ Complete l ∧ Q := by
  apply readUe_bind_iff h hlen
  · rintro rfl hcut (hclosed | hall)
    · cases hclosed
    · exact hcut hall.1
  · intro v br' hfaces hgoes
    refine (hnext v br' hfaces).trans ?_
    rw [or_and_left, and_iff_right hgoes]

theorem readBits_bind_lies {n : ℕ} (h : Faces br l closed) (hn : n ≤ 32)
    {f : ℕ × NalBitReader → Option β} (hnext : ∀ v br', Faces br' (l.drop n) closed →
      ((f (v, br')).isSome ↔ closed = true ∨ Q)) :
    ((br.readBits n).bind f).isSome ↔ closed = true ∨ n ≤ l.length ∧ Q := by
  apply readBits_bind_iff h hn
  · rintro rfl hlt (hclosed | hall)
    · cases hclosed
    · exact hlt.not_ge hall.1
  · intro v br' hfaces hgoes _
    refine (hnext v br' hfaces).trans ?_
    rw [or_and_left, and_iff_right hgoes]

theorem readBits_map_lies {n : ℕ} (h : Faces br l closed) (hn : n ≤ 32)
    {f : ℕ × NalBitReader → β} :
    ((br.readBits n).map f).isSome ↔ closed = true ∨ n ≤ l.length := by
  rw [Option.isSome_map]
  rcases h.readBits_step hn with ⟨rfl, hlt, hread⟩ | ⟨hgoes, v, br', hread, -⟩
  · rw [hread]
    exact iff_of_false Bool.false_ne_true (not_or_intro Bool.false_ne_true hlt.not_ge)
  · rw [hread]
    exact iff_of_true rfl hgoes

theorem readFlag_bind_iff (h : Faces br l closed) {f : ℕ × NalBitReader → Option β}
    (hnone : l = [] → ¬Q)
    (hnext : ∀ v br', Faces br' (l.drop 1) closed → (v = 0 ↔ l.head? = some false) →
      ((f (v, br')).isSome ↔ Q)) : ((br.readBits 1).bind f).isSome ↔ Q := by
  apply readBits_bind_iff h (by norm_num)
  · intro _ hlt
    exact hnone (List.length_eq_zero_iff.mp (Nat.lt_one_iff.mp hlt))
  · intro v br' hfaces _ hv
    apply hnext v br' hfaces
    rw [hv]
    rcases l with - | ⟨b, l⟩
    · decide
    · cases b <;> simp [ofBits]

/-- What follows a flag that is only there under a condition. -/
theorem readFlagIf_bind_iff {c : Prop} [Decidable c] (h : Faces br l closed)
    {f : ℕ × NalBitReader → Option β} (hnone : l = [] → ¬Q)
    (hnext : ∀ v br', Faces br' (l.drop (if c then 1 else 0)) closed →
      (c → (v = 0 ↔ l.head? = some false)) → (¬c → v = 0) → ((f (v, br')).isSome ↔ Q)) :
    ((if c then br.readBits 1 else some (0, br)).bind f).isSome ↔ Q := by
  by_cases hc : c
  · simp only [if_pos hc] at hnext ⊢
    exact readFlag_bind_iff h hnone fun v br' hfaces hv ↦ hnext v br' hfaces (fun _ ↦ hv)
      (absurd hc)
  · simp only [if_neg hc, List.drop_zero] at hnext ⊢
    exact hnext 0 br h (fun hyes ↦ absurd hyes hc) fun _ ↦ rfl

end Rules

theorem SliceCounter.note_isSome_iff {n : ℕ} (s : SliceCounter n) (sliceType : ℤ) :
    (s.note sliceType).isSome ↔ 0 ≤ sliceType := by
  rw [SliceCounter.note]
  split_ifs with hlt
  · rw [SliceCounter.update]
    split_ifs with hin
    · exact iff_of_true rfl hin.1
    · exact iff_of_false Bool.false_ne_true fun hpos ↦ hin ⟨hpos, hlt⟩
  · exact iff_of_true rfl ((Int.natCast_nonneg n).trans (not_lt.mp hlt))

/-- The bits in front of the slice type show one: its run of zeros ends, and its code is not
cut off by the end of the packet. -/
def TypeFound (l : List Bool) (closed : Bool) : Prop := true ∈ l ∧ (closed = true ∨ Complete l)

instance (l : List Bool) (closed : Bool) : Decidable (TypeFound l closed) :=
  inferInstanceAs (Decidable (_ ∧ _))

theorem not_typeFound_nil (closed : Bool) : ¬TypeFound [] closed := fun h ↦ by cases h.1

theorem note_readUe_iff {n : ℕ} {s : SliceCounter n} {br : NalBitReader} {l : List Bool}
    {closed : Bool} (h : Faces br l closed) (hlen : l.length ≤ 32) :
    (br.readUe.bind fun r ↦ s.note r.1).isSome ↔ TypeFound l closed := by
  rw [TypeFound, ← h.readUe_nonneg_iff hlen]
  cases hread : br.readUe with
  | none => simp
  | some r =>
      rw [Option.bind_some, s.note_isSome_iff]
      constructor
      · exact fun hpos ↦ ⟨r.1, r.2, rfl, hpos⟩
      · rintro ⟨v, br', hr, hpos⟩
        cases hr
        exact hpos

/-- A slice header has its slice type in the window, and where the window does not lie in
the packet, also in the packet. -/
def H264Inside (x : Packet × ℕ) : Prop :=
  h264NalTypeAt x.1.bytes x.2 ∈ [1, 2, 5, 19] →
    TypeFound (pastCode (windowBits x.1 x.2)) (windowFits x.2)

instance (x : Packet × ℕ) : Decidable (H264Inside x) := inferInstanceAs (Decidable (_ → _))

theorem h264SliceNal_isSome_iff (s : H264SliceCounter) (x : Packet × ℕ) :
    (h264SliceNal x.1 s x.2).isSome ↔ H264Inside x := by
  have hlen := length_windowBits x.1 x.2
  rw [h264SliceNal, H264Inside]
  split_ifs with hslice
  · rw [imp_iff_right hslice]
    apply readUe_bind_iff (faces_sliceReader x.1 x.2) hlen
    · intro _ hcut
      rw [pastCode_of_not_complete hcut]
      exact not_typeFound_nil _
    · intro _ br' hfaces _
      exact note_readUe_iff hfaces (by rw [pastCode, List.length_drop]; omega)
  · exact iff_of_true rfl fun h ↦ absurd h hslice

namespace H265SliceCounter

variable {s : H265SliceCounter} {br : NalBitReader} {l : List Bool} {closed : Bool}

/-- The bits from the slice type on, of those from the address of a slice segment on; a
dependent slice segment has none. -/
def behindAddress (s : H265SliceCounter) (first : Bool) (l : List Bool) : List Bool :=
  if first then l.drop s.numExtraSliceHeaderBits
  else if s.dependentSliceSegmentsEnabledFlag = 0 then
    (l.drop 1).drop s.numExtraSliceHeaderBits
  else if l.head? = some false then ((l.drop 1).drop 1).drop s.numExtraSliceHeaderBits
  else []

/-- The bits from the slice type of a header on, in front of which lie one or two flags, a
code, the address and extra bits. -/
def typeBits (s : H265SliceCounter) (nalType : ℕ) (l : List Bool) : List Bool :=
  s.behindAddress (l.head? ≠ some false)
    (pastCode ((l.drop 1).drop (if 16 ≤ nalType ∧ nalType ≤ 23 then 1 else 0)))

/-- A parameter set that has not been seen yet, and a slice header, have the fields that are
read from them in the window or, where the window does not lie in the packet, in the packet;
a slice header has a slice type there. -/
def Inside (s : H265SliceCounter) (x : Packet × ℕ) : Prop :=
  let nalType := h265NalTypeAt x.1.bytes x.2
  let l := windowBits x.1 x.2
  if nalType = 33 then s.spsValid = 0 → windowFits x.2 = true ∨ 8 ≤ l.length
  else if nalType = 34 then
    s.ppsValid = 0 → windowFits x.2 = true ∨
      Complete l ∧ Complete (pastCode l) ∧ 5 ≤ (pastCode (pastCode l)).length
  else if nalType ≤ 9 ∨ 16 ≤ nalType ∧ nalType ≤ 21 then
    s.ppsValid ≠ 0 → TypeFound (s.typeBits nalType l) (windowFits x.2)
  else True

instance (s : H265SliceCounter) (x : Packet × ℕ) : Decidable (s.Inside x) := by
  unfold Inside
  infer_instance

theorem readSps_isSome_iff (h : Faces br l closed) :
    (s.readSps br).isSome ↔ closed = true ∨ 8 ≤ l.length := by
  have hsteps : (s.readSps br).isSome ↔ closed = true ∨
      4 ≤ l.length ∧ 3 ≤ (l.drop 4).length ∧ 1 ≤ ((l.drop 4).drop 3).length := by
    apply readBits_bind_lies h (by norm_num)
    intro vps br₁ h₁
    apply readBits_bind_lies h₁ (by norm_num)
    intro layers br₂ h₂
    exact readBits_map_lies h₂ (by norm_num)
  rw [hsteps]
  simp only [List.length_drop]
  exact or_congr_right (by omega)

theorem readPps_isSome_iff (h : Faces br l closed) (hlen : l.length ≤ 32) :
    (s.readPps br).isSome ↔ closed = true ∨
      Complete l ∧ Complete (pastCode l) ∧ 5 ≤ (pastCode (pastCode l)).length := by
  have hpast : (pastCode l).length ≤ 32 := by
    rw [pastCode, List.length_drop]
    omega
  have hbits : ∀ {k : List Bool}, 5 ≤ k.length ↔
      1 ≤ k.length ∧ 1 ≤ (k.drop 1).length ∧ 3 ≤ ((k.drop 1).drop 1).length := by
    intro k
    simp only [List.length_drop]
    omega
  rw [hbits]
  apply readUe_bind_lies h hlen
  intro pps br₁ h₁
  apply readUe_bind_lies h₁ hpast
  intro sps br₂ h₂
  apply readBits_bind_lies h₂ (by norm_num)
  intro dependent br₃ h₃
  apply readBits_bind_lies h₃ (by norm_num)
  intro output br₄ h₄
  exact readBits_map_lies h₄ (by norm_num)

theorem readSliceType_iff (dependent : ℕ) (h : Faces br l closed) (hlen : l.length ≤ 32) :
    ((s.readSliceType dependent br).bind fun sliceType ↦
      (s.note sliceType).map fun counter ↦ { s with toSliceCounter := counter }).isSome ↔
      dependent = 0 ∧ TypeFound (l.drop s.numExtraSliceHeaderBits) closed := by
  rw [readSliceType]
  split_ifs with hzero
  · rw [and_iff_right hzero]
    rcases h.skipBits_step (n := s.numExtraSliceHeaderBits) with
      ⟨-, hlt, hskip⟩ | ⟨-, br', hskip, hfaces⟩
    · rw [hskip, List.drop_eq_nil_of_le hlt.le]
      exact iff_of_false Bool.false_ne_true (not_typeFound_nil _)
    · have hshort : (l.drop s.numExtraSliceHeaderBits).length ≤ 32 := by
        rw [List.length_drop]
        omega
      rw [hskip, ← note_readUe_iff (s := s.toSliceCounter) hfaces hshort, Option.bind_some]
      cases br'.readUe with
      | none => exact Iff.rfl
      | some r => simp
  · simp [hzero, SliceCounter.note, SliceCounter.update]

theorem behindAddress_nil (s : H265SliceCounter) (first : Bool) :
    s.behindAddress first [] = [] := by
  simp [behindAddress]

theorem readAddress_iff {first : ℕ} (h : Faces br l closed) (hlen : l.length ≤ 32) :
    ((s.readAddress first br).bind fun dependent ↦
      (s.readSliceType dependent.1 dependent.2).bind fun sliceType ↦
        (s.note sliceType).map fun counter ↦ { s with toSliceCounter := counter }).isSome ↔
      TypeFound (s.behindAddress (first ≠ 0) l) closed := by
  rw [readAddress]
  by_cases hfirst : first = 0
  · rw [if_pos hfirst, Option.bind_assoc, decide_eq_false (not_not.mpr hfirst)]
    apply readFlagIf_bind_iff h
    · rintro rfl
      rw [behindAddress_nil]
      exact not_typeFound_nil _
    intro v br₁ h₁ hset hclear
    rw [Option.bind_map]
    apply readBits_bind_iff h₁ (by norm_num)
    · intro _ hlt
      have hend := List.length_eq_zero_iff.mp (Nat.lt_one_iff.mp hlt)
      have hnothing : s.behindAddress false l = [] := by
        rw [behindAddress, if_neg Bool.false_ne_true]
        by_cases henabled : s.dependentSliceSegmentsEnabledFlag = 0
        · rw [if_neg (not_not.mpr henabled), List.drop_zero] at hend
          rw [if_pos henabled, hend, List.drop_nil, List.drop_nil]
        · rw [if_pos henabled] at hend
          rw [if_neg henabled, hend, List.drop_nil, List.drop_nil, ite_self]
      rw [hnothing]
      exact not_typeFound_nil _
    · intro address br₂ h₂ _ _
      have hshort : ((l.drop (if s.dependentSliceSegmentsEnabledFlag ≠ 0 then 1 else 0)).drop
          1).length ≤ 32 := by
        rw [List.length_drop, List.length_drop]
        omega
      refine (readSliceType_iff v h₂ hshort).trans ?_
      rw [behindAddress, if_neg Bool.false_ne_true]
      by_cases henabled : s.dependentSliceSegmentsEnabledFlag = 0
      · rw [if_pos henabled, if_neg (not_not.mpr henabled), List.drop_zero,
          and_iff_right (hclear (not_not.mpr henabled))]
      · rw [if_neg henabled, if_pos henabled, hset henabled]
        split_ifs with hindependent
        · rw [and_iff_right hindependent]
        · exact iff_of_false (fun hboth ↦ hindependent hboth.1) (not_typeFound_nil _)
  · rw [if_neg hfirst, decide_eq_true hfirst, Option.bind_some]
    refine (readSliceType_iff 0 h hlen).trans ?_
    rw [and_iff_right rfl, behindAddress, if_pos rfl]

theorem readSlice_isSome_iff (nalType : ℕ) (h : Faces br l closed) (hlen : l.length ≤ 32) :
    (s.readSlice nalType br).isSome ↔ TypeFound (s.typeBits nalType l) closed := by
  have hnil : ∀ {first : Bool} {l : List Bool}, l = [] →
      ¬TypeFound (s.behindAddress first l) closed := by
    rintro first l rfl
    rw [behindAddress_nil]
    exact not_typeFound_nil _
  have hpast : pastCode [] = [] := rfl
  apply readFlag_bind_iff h
  · rintro rfl
    apply hnil
    rw [List.drop_nil, List.drop_nil, hpast]
  intro first br₁ h₁ hflag
  apply readFlagIf_bind_iff h₁
  · intro hend
    apply hnil
    rw [hend, List.drop_nil, hpast]
  intro prior br₂ h₂ _ _
  apply readUe_bind_iff h₂ (by rw [List.length_drop, List.length_drop]; omega)
  · intro _ hcut
    exact hnil (pastCode_of_not_complete hcut)
  intro pps br₃ h₃ _
  have hsame : decide (first ≠ 0) = decide (l.head? ≠ some false) :=
    decide_eq_decide.mpr (not_congr hflag)
  rw [typeBits, ← hsame]
  exact readAddress_iff h₃ (by
    rw [pastCode, List.length_drop, List.length_drop, List.length_drop]
    omega)

end H265SliceCounter

theorem h265SliceNal_isSome_iff (s : H265SliceCounter) (x : Packet × ℕ) :
    (h265SliceNal x.1 s x.2).isSome ↔ s.Inside x := by
  have hfaces := faces_sliceReader x.1 x.2
  have hlen := length_windowBits x.1 x.2
  rw [h265SliceNal, H265SliceCounter.Inside]
  split_ifs with hsps hseen hpps hseen hslice hseen
  · exact iff_of_true rfl fun hzero ↦ absurd hzero hseen
  · rw [H265SliceCounter.readSps_isSome_iff hfaces, imp_iff_right (not_not.mp hseen)]
  · exact iff_of_true rfl fun hzero ↦ absurd hzero hseen
  · rw [H265SliceCounter.readPps_isSome_iff hfaces hlen, imp_iff_right (not_not.mp hseen)]
  · exact iff_of_true rfl fun hnonzero ↦ absurd hseen hnonzero
  · rw [H265SliceCounter.readSlice_isSome_iff _ hfaces hlen, imp_iff_right hseen]
  · exact iff_of_true rfl trivial

/-! ## Whole runs -/

theorem SliceCounter.pid_note {n : ℕ} {s s' : SliceCounter n} {sliceType : ℤ}
    (h : s.note sliceType = some s') : s'.pid = s.pid := by
  rw [SliceCounter.note, SliceCounter.update] at h
  split_ifs at h <;> cases h <;> rfl

theorem pid_h264SliceNal {pkt : Packet} {s s' : H264SliceCounter} {i : ℕ}
    (h : h264SliceNal pkt s i = some s') : s'.pid = s.pid := by
  rw [h264SliceNal] at h
  split_ifs at h
  · obtain ⟨firstMb, -, h⟩ := Option.bind_eq_some_iff.mp h
    obtain ⟨sliceType, -, h⟩ := Option.bind_eq_some_iff.mp h
    exact SliceCounter.pid_note h
  · cases h
    rfl

theorem H265SliceCounter.pid_readSps {s s' : H265SliceCounter} {br : NalBitReader}
    (h : s.readSps br = some s') : s'.pid = s.pid := by
  obtain ⟨vps, -, h⟩ := Option.bind_eq_some_iff.mp h
  obtain ⟨layers, -, h⟩ := Option.bind_eq_some_iff.mp h
  obtain ⟨nesting, -, rfl⟩ := Option.map_eq_some_iff.mp h
  rfl

theorem H265SliceCounter.pid_readPps {s s' : H265SliceCounter} {br : NalBitReader}
    (h : s.readPps br = some s') : s'.pid = s.pid := by
  obtain ⟨pps, -, h⟩ := Option.bind_eq_some_iff.mp h
  obtain ⟨sps, -, h⟩ := Option.bind_eq_some_iff.mp h
  obtain ⟨dependent, -, h⟩ := Option.bind_eq_some_iff.mp h
  obtain ⟨output, -, h⟩ := Option.bind_eq_some_iff.mp h
  obtain ⟨extra, -, rfl⟩ := Option.map_eq_some_iff.mp h
  rfl

theorem H265SliceCounter.pid_readSlice {s s' : H265SliceCounter} {nalType : ℕ}
    {br : NalBitReader} (h : s.readSlice nalType br = some s') : s'.pid = s.pid := by
  obtain ⟨first, -, h⟩ := Option.bind_eq_some_iff.mp h
  obtain ⟨prior, -, h⟩ := Option.bind_eq_some_iff.mp h
  obtain ⟨pps, -, h⟩ := Option.bind_eq_some_iff.mp h
  obtain ⟨dependent, -, h⟩ := Option.bind_eq_some_iff.mp h
  obtain ⟨sliceType, -, h⟩ := Option.bind_eq_some_iff.mp h
  obtain ⟨counter, hnote, rfl⟩ := Option.map_eq_some_iff.mp h
  exact SliceCounter.pid_note hnote

theorem pid_h265SliceNal {pkt : Packet} {s s' : H265SliceCounter} {i : ℕ}
    (h : h265SliceNal pkt s i = some s') : s'.pid = s.pid := by
  rw [h265SliceNal] at h
  split_ifs at h
  · cases h
    rfl
  · exact H265SliceCounter.pid_readSps h
  · cases h
    rfl
  · exact H265SliceCounter.pid_readPps h
  · cases h
    rfl
  · exact H265SliceCounter.pid_readSlice h
  · cases h
    rfl

theorem h264Writes_isSome_iff (calls : List (List Packet)) (s : H264SliceCounter) :
    (calls.foldlM h264SliceCounterWrite s).isSome ↔
      ∀ x ∈ nals s.pid calls.flatten, H264Inside x := by
  have hwrites : calls.foldlM h264SliceCounterWrite s =
      (nals s.pid calls.flatten).foldlM (fun s x ↦ h264SliceNal x.1 s x.2) s :=
    (writes_eq calls s).trans (writePackets_eq
      (fun s pkt ↦ packetLoop_headers (h264SliceNal pkt) s)
      (fun _ _ _ _ h ↦ pid_h264SliceNal h) calls.flatten s)
  rw [hwrites, foldlM_isSome_iff_meets h264SliceNal_isSome_iff,
    meets_iff_forall fun s x ↦ (h264SliceNal_isSome_iff s x).mpr]

def h265Step (s : H265SliceCounter) (x : Packet × ℕ) : Option (H265SliceCounter × Unit) :=
  silent (fun s x ↦ h265SliceNal x.1 s x.2) s x

theorem h265Writes_isSome_iff (calls : List (List Packet)) (s : H265SliceCounter) :
    (calls.foldlM h265SliceCounterWrite s).isSome ↔
      Meets h265Step H265SliceCounter.Inside s (nals s.pid calls.flatten) := by
  have hwrites : calls.foldlM h265SliceCounterWrite s =
      (nals s.pid calls.flatten).foldlM (fun s x ↦ h265SliceNal x.1 s x.2) s :=
    (writes_eq calls s).trans (writePackets_eq
      (fun s pkt ↦ packetLoop_headers (h265SliceNal pkt) s)
      (fun _ _ _ _ h ↦ pid_h265SliceNal h) calls.flatten s)
  rw [hwrites, foldlM_isSome_iff_meets h265SliceNal_isSome_iff]
  exact Iff.rfl

/-- From new counters, whatever memory they were given, all slice types that are counted are
slice types and all bits lie in their packets exactly when every NAL has what is read from
it: for H.265 this depends on the parameter sets seen before. -/
theorem slice_counters_inside_iff (memory : H264SliceCounter) (memory' : H265SliceCounter)
    (pid : ℕ) (calls : List (List Packet)) :
    ((calls.foldlM h264SliceCounterWrite (h264SliceCounterAlloc memory pid)).isSome ↔
      ∀ x ∈ nals pid calls.flatten, H264Inside x) ∧
    ((calls.foldlM h265SliceCounterWrite (h265SliceCounterAlloc memory' pid)).isSome ↔
      Meets h265Step H265SliceCounter.Inside (h265SliceCounterAlloc memory' pid)
        (nals pid calls.flatten)) :=
  ⟨h264Writes_isSome_iff calls _, h265Writes_isSome_iff calls _⟩

/-- A packet of pid 256 that begins with the given bytes. -/
def slicePacket (bytes : List UInt8) : Packet where
  bytes := ([0x47, 0x01, 0x00, 0x10] ++ bytes ++ List.replicate 184 0xff).take 188
  length_bytes := by
    rw [List.length_take, List.length_append, List.length_append, List.length_replicate]
    simp only [List.length_cons, List.length_nil]
    omega

def zeroMemory : H265SliceCounter :=
  ⟨⟨0, fun _ ↦ ⟨0, 0, ' '⟩, 0, fun _ ↦ ' '⟩, 0, 0, 0, 0, 0, 0, 0, 0, 0, 0⟩

/-- A slice header of zeros has the slice type -1, and so has a dependent slice segment; a
slice header in the last five bytes of a packet is read from behind it. -/
theorem slice_counters_leave :
    (∀ memory, ¬(h264SliceCounterWrite (h264SliceCounterAlloc memory 256)
        [slicePacket [0, 0, 1, 1, 0, 0, 0, 0]]).isSome) ∧
      (∀ memory, ¬(h264SliceCounterWrite (h264SliceCounterAlloc memory 256)
        [slicePacket (List.replicate 179 0xff ++ [0, 0, 1, 1, 0])]).isSome) ∧
      ¬(h265SliceCounterWrite (h265SliceCounterAlloc zeroMemory 256)
        [slicePacket [0, 0, 1, 0x44, 0xe0, 0xff, 0, 0, 1, 0x02, 0x70]]).isSome := by
  have hwrite : ∀ pkt, (∃ x ∈ nals 256 [pkt], ¬H264Inside x) → ∀ memory,
      ¬(h264SliceCounterWrite (h264SliceCounterAlloc memory 256) [pkt]).isSome := by
    rintro pkt ⟨x, hx, hout⟩ memory hsome
    have hall := (h264Writes_isSome_iff [[pkt]] (h264SliceCounterAlloc memory 256)).mp
      (by simpa using hsome)
    exact hout (hall x hx)
  refine ⟨hwrite _ ?_, hwrite _ ?_, ?_⟩
  · decide +kernel
  · decide +kernel
  · decide +kernel

end LtnTsTools.Nal
