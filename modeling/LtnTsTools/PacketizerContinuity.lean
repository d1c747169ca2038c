import LtnTsTools.ContinuityAccounting
import LtnTsTools.Packetizer

/-!
# Continuity of the packetizers

The model of `ltntstools_ts_packetizer`, which pads its last packet behind the
payload, and the continuity of any sequence of calls of both packetizers that
share a pid and a counter.  One of them counts in eight bits and the other in
four; on the four bits that reach the packets they agree.
-/

namespace LtnTsTools.Packetizer

open Stats

/-! ## The plain packetizer -/

def plainPacket (pid cc : ℕ) (firstPacket : Bool) (chunk : List UInt8) : Option Packet :=
  let p := ((((Packet.filled 0).set 0 0x47).set 1 (pid >>> 8)).set 2 pid).set 3
    (0x10 ||| (cc &&& 0x0f))
  (p.copyIn 4 chunk).bind fun p ↦
    (p.copyIn (4 + chunk.length) (List.replicate (188 - chunk.length - 4) 0xff)).map fun p ↦
      if firstPacket then p.set 1 (p.byte 1 ||| 0x40) else p

/-- The loop, with the rows still free in the output array.  The row address
`cnt * packetSize` is an `int`; a count at which it would overflow is left
undefined. -/
def plainLoop (pid : ℕ) : ℕ → ℕ → ℕ → List UInt8 → Option (List Packet × ℕ)
  | _, _, cc, [] => some ([], cc)
  | 0, _, _, _ :: _ => none
  | rows + 1, cnt, cc, b :: bs =>
      let rest := b :: bs
      if 2 ^ 31 ≤ cnt * 188 then none
      else (plainPacket pid cc (cnt == 0) (rest.take 184)).bind fun pkt ↦
        (plainLoop pid rows (cnt + 1) ((cc + 1) % 256) (rest.drop 184)).map fun out ↦
          (pkt :: out.1, out.2)

/-- Rows allocated for the output.  The count is an `int` from `unsigned int`
arithmetic; for a negative one `calloc` has nothing to give. -/
def plainRows (byteCount : ℕ) : ℕ :=
  let packets := (byteCount / 184 + 1) * 188 % 2 ^ 32
  if packets < 2 ^ 31 then packets else 0

/-- `ltntstools_ts_packetizer`: the packets and the updated continuity counter. -/
def tsPacketizer (buf : List UInt8) (packetSize : ℤ) (cc pid : ℕ) :
    Option (List Packet × ℕ) :=
  if buf.length = 0 ∨ packetSize ≠ 188 ∨ pid > 0x1fff then none
  else plainLoop pid (plainRows buf.length) 0 cc buf

def body (p : Packet) : List UInt8 := p.bytes.drop 4

theorem plainHeader_bytes (pid cc : ℕ) (hpid : pid ≤ 0x1fff) :
    let h := ((((Packet.filled 0).set 0 0x47).set 1 (pid >>> 8)).set 2 pid).set 3
      (0x10 ||| (cc &&& 0x0f))
    h.byte 0 = 0x47 ∧ h.byte 1 = pid / 256 % 32 ∧ h.byte 2 = pid % 256 ∧
      h.byte 3 = cc % 16 + 16 := by
  have hcc := and_f cc
  have hor : ∀ b < 16, (0x10 ||| b) % 256 = b + 16 := by decide
  have hset := hor (cc % 16) (by omega)
  have hhigh : pid >>> 8 % 256 = pid / 256 % 32 := by
    rw [Nat.shiftRight_eq_div_pow]
    omega
  simp [hcc, hset, Nat.shiftRight_eq_div_pow]
  omega

theorem plainPacket_bytes {h : Packet} {chunk : List UInt8} (hchunk : chunk.length ≤ 184) :
    ∃ p q, h.copyIn 4 chunk = some p ∧
      p.copyIn (4 + chunk.length) (List.replicate (188 - chunk.length - 4) 0xff) = some q ∧
      q.bytes = h.bytes.take 4 ++ (chunk ++ List.replicate (184 - chunk.length) 0xff) := by
  have hlen : (h.bytes.take 4).length = 4 := Packet.length_take_bytes (by norm_num)
  obtain ⟨p, hp, hbytes⟩ := @Packet.copyIn_eq h 4 chunk (by omega)
  obtain ⟨q, hq, hpad⟩ := @Packet.copyIn_eq p (4 + chunk.length)
    (List.replicate (188 - chunk.length - 4) 0xff) (by rw [List.length_replicate]; omega)
  have hend : p.bytes.drop (4 + chunk.length +
      (List.replicate (188 - chunk.length - 4) (0xff : UInt8)).length) = [] := by
    apply List.drop_of_length_le
    rw [p.length_bytes, List.length_replicate]
    omega
  have hfront : p.bytes.take (4 + chunk.length) = h.bytes.take 4 ++ chunk := by
    rw [hbytes, ← List.append_assoc, List.take_left' (by rw [List.length_append, hlen])]
  refine ⟨p, q, hp, hq, ?_⟩
  calc q.bytes
      _ = h.bytes.take 4 ++ chunk ++ List.replicate (188 - chunk.length - 4) 0xff := by
        rw [hpad, hend, hfront, List.append_nil]
      _ = h.bytes.take 4 ++ (chunk ++ List.replicate (184 - chunk.length) 0xff) := by
        rw [List.append_assoc, show 188 - chunk.length - 4 = 184 - chunk.length by omega]

theorem plainPacket_spec {pid : ℕ} (cc : ℕ) (first : Bool) {chunk : List UInt8}
    (hpid : pid ≤ 0x1fff) (hchunk : chunk.length ≤ 184) :
    ∃ p, plainPacket pid cc first chunk = some p ∧ Headed pid first cc p ∧
      body p = chunk ++ List.replicate (184 - chunk.length) 0xff := by
  obtain ⟨h0, h1, h2, h3⟩ := plainHeader_bytes pid cc hpid
  unfold plainPacket
  simp only
  generalize ((((Packet.filled 0).set 0 0x47).set 1 (pid >>> 8)).set 2 pid).set 3
    (0x10 ||| (cc &&& 0x0f)) = h at h0 h1 h2 h3 ⊢
  obtain ⟨p, q, hp, hq, hbytes⟩ := @plainPacket_bytes h chunk hchunk
  have hlen : (h.bytes.take 4).length = 4 := Packet.length_take_bytes (by norm_num)
  have hkeep : ∀ j < 4, q.byte j = h.byte j := by
    intro j hj
    rw [Packet.byte, Packet.byte, hbytes, List.getD_eq_getElem?_getD, List.getD_eq_getElem?_getD,
      List.getElem?_append_left (by omega), List.getElem?_take_of_lt hj]
  have hbody : body q = chunk ++ List.replicate (184 - chunk.length) 0xff := by
    rw [body, hbytes, List.drop_left' hlen]
  have h1' := (hkeep 1 (by norm_num)).trans h1
  rw [hp, Option.bind_some, hq, Option.map_some]
  cases first with
  | false =>
      refine ⟨_, rfl, headed_of_bytes hpid ?_ ?_ ?_ (.inl ?_), hbody⟩
      · exact (hkeep 0 (by norm_num)).trans h0
      · simpa using h1'
      · exact (hkeep 2 (by norm_num)).trans h2
      · exact (hkeep 3 (by norm_num)).trans h3
  | true =>
      have hor : ∀ b < 32, (b ||| 0x40) % 256 = b + 64 := by decide
      refine ⟨_, rfl, headed_of_bytes hpid ?_ ?_ ?_ (.inl ?_), ?_⟩
      · simpa using (hkeep 0 (by norm_num)).trans h0
      · simp [h1', hor (pid / 256 % 32) (by omega)]
      · simpa using (hkeep 2 (by norm_num)).trans h2
      · simpa using (hkeep 3 (by norm_num)).trans h3
      · rw [body, if_pos rfl, Packet.set, List.drop_set_of_lt (by norm_num)]
        exact hbody

/-! ## Runs of packets -/

/-- Packets of one pid that count up from `cc`, with payload. -/
structure Numbered (pid cc : ℕ) (pkts : List Packet) : Prop where
  on_pid : ∀ p ∈ pkts, Ts.pid p = pid
  payload : ∀ p ∈ pkts, Ts.adaptionFieldControl p = 1 ∨ Ts.adaptionFieldControl p = 3
  counts : CountsFrom cc pkts

theorem Numbered.nil (pid cc : ℕ) : Numbered pid cc [] := ⟨by simp, by simp, trivial⟩

theorem countsFrom_congr {c c' : ℕ} (h : c % 16 = c' % 16) {pkts : List Packet}
    (hcounts : CountsFrom c pkts) : CountsFrom c' pkts := by
  induction pkts generalizing c c' with
  | nil => trivial
  | cons p rest ih => exact ⟨hcounts.1.trans h, ih (by omega) hcounts.2⟩

theorem countsFrom_append {c : ℕ} {xs ys : List Packet} (hx : CountsFrom c xs)
    (hy : CountsFrom (c + xs.length) ys) : CountsFrom c (xs ++ ys) := by
  induction xs generalizing c with
  | nil => exact hy
  | cons p rest ih =>
      refine ⟨hx.1, ih hx.2 ?_⟩
      rwa [List.length_cons, show c + (rest.length + 1) = c + 1 + rest.length by omega] at hy

theorem Numbered.cons {pid cc cc' : ℕ} {first : Bool} {p : Packet} {ps : List Packet}
    (hp : Headed pid first cc p) (hps : Numbered pid cc' ps) (hcc : cc' % 16 = (cc + 1) % 16) :
    Numbered pid cc (p :: ps) := by
  refine ⟨?_, ?_, hp.cc_eq, countsFrom_congr hcc hps.counts⟩
  · simpa using ⟨hp.pid_eq, hps.on_pid⟩
  · simpa using ⟨hp.control, hps.payload⟩

theorem Numbered.append {pid cc cc' : ℕ} {xs ys : List Packet} (hx : Numbered pid cc xs)
    (hy : Numbered pid cc' ys) (hcc : cc' % 16 = (cc + xs.length) % 16) :
    Numbered pid cc (xs ++ ys) := by
  refine ⟨?_, ?_, countsFrom_append hx.counts (countsFrom_congr hcc hy.counts)⟩
  · intro p hp
    exact (List.mem_append.mp hp).elim (hx.on_pid p) (hy.on_pid p)
  · intro p hp
    exact (List.mem_append.mp hp).elim (hx.payload p) (hy.payload p)

/-- A pid whose packets count up has no error. -/
theorem ccErrors_of_numbered {pid cc : ℕ} {pkts : List Packet} (h : Numbered pid cc pkts)
    (hnull : pid ≠ 0x1fff) : (pkts.foldl updatePid PidStatistics.zero).ccErrors = 0 := by
  have hsurv := survivors_of_kept pkts
  have hruns := closedRuns_of_kept pkts
  have hzero := @ccErrors_of_new (pkts.map (Slot.mk · true)) cc
    (by simpa using fun p hp ↦ h.on_pid p hp ▸ hnull) (by simpa using h.payload)
    (by simpa [Function.comp_def] using h.counts) (by simp [hruns])
    (by cases pkts <;> simp)
  rwa [hsurv, hruns] at hzero

/-! ## The loops -/

/-- What a finished loop of either packetizer leaves behind. -/
def Continues (pid cc : ℕ) (pkts : List Packet) (cc' : ℕ) : Prop :=
  Numbered pid cc pkts ∧ cc' % 16 = (cc + pkts.length) % 16

theorem Continues.cons {pid cc next cc' : ℕ} {first : Bool} {p : Packet} {ps : List Packet}
    (hp : Headed pid first cc p) (hps : Continues pid next ps cc')
    (hnext : next % 16 = (cc + 1) % 16) : Continues pid cc (p :: ps) cc' := by
  refine ⟨hps.1.cons hp hnext, ?_⟩
  rw [hps.2, List.length_cons]
  omega

theorem packetizeLoop_continues {r : Request} (hpid : r.pid ≤ 0x1fff) {rows cnt cc cc' : ℕ}
    {buf : List UInt8} {pkts : List Packet}
    (h : packetizeLoop r rows cnt cc buf = some (pkts, cc')) : Continues r.pid cc pkts cc' := by
  induction rows generalizing cnt cc buf pkts with
  | zero =>
      cases buf with
      | nil =>
          obtain ⟨rfl, rfl⟩ := Prod.mk.inj (Option.some.inj h)
          exact ⟨.nil _ _, rfl⟩
      | cons b bs => cases h
  | succ rows ih =>
      cases buf with
      | nil =>
          obtain ⟨rfl, rfl⟩ := Prod.mk.inj (Option.some.inj h)
          exact ⟨.nil _ _, rfl⟩
      | cons b bs =>
          obtain ⟨hd, off, cpy, p, heq, hcopy, -, hp, -, -, -⟩ :=
            packet_placed (cnt == 0) cc (List.cons_ne_nil b bs) hpid
          rw [packetizeLoop] at h
          simp only [heq, hcopy, and_f, Option.bind_some] at h
          split_ifs at h with hwrap
          obtain ⟨out, hout, hpair⟩ := Option.map_eq_some_iff.mp h
          obtain ⟨rfl, rfl⟩ := Prod.mk.inj hpair
          exact (ih hout).cons hp (by omega)

/-- The plain loop fills its packets one after the other and pads the last. -/
theorem plainLoop_continues {pid : ℕ} (hpid : pid ≤ 0x1fff) {rows cnt cc cc' : ℕ}
    {buf : List UInt8} {pkts : List Packet}
    (h : plainLoop pid rows cnt cc buf = some (pkts, cc')) :
    Continues pid cc pkts cc' ∧ pkts.length = (buf.length + 183) / 184 ∧
      (pkts.map body).flatten =
        buf ++ List.replicate (184 * pkts.length - buf.length) 0xff := by
  induction rows generalizing cnt cc buf pkts with
  | zero =>
      cases buf with
      | nil =>
          obtain ⟨rfl, rfl⟩ := Prod.mk.inj (Option.some.inj h)
          exact ⟨⟨.nil _ _, rfl⟩, rfl, rfl⟩
      | cons b bs => cases h
  | succ rows ih =>
      cases buf with
      | nil =>
          obtain ⟨rfl, rfl⟩ := Prod.mk.inj (Option.some.inj h)
          exact ⟨⟨.nil _ _, rfl⟩, rfl, rfl⟩
      | cons b bs =>
          have htake : ((b :: bs).take 184).length = min 184 (b :: bs).length :=
            List.length_take
          have hdrop : ((b :: bs).drop 184).length = (b :: bs).length - 184 := List.length_drop
          have hpos : 0 < (b :: bs).length := Nat.succ_pos _
          obtain ⟨p, hp, hhead, hbody⟩ := @plainPacket_spec pid cc (cnt == 0)
            ((b :: bs).take 184) hpid (by omega)
          rw [plainLoop] at h
          simp only [hp, Option.bind_some] at h
          split_ifs at h with hwrap
          obtain ⟨out, hout, hpair⟩ := Option.map_eq_some_iff.mp h
          obtain ⟨rfl, rfl⟩ := Prod.mk.inj hpair
          obtain ⟨hcont, hcount, hflat⟩ := ih hout
          refine ⟨hcont.cons hhead (by omega), by rw [List.length_cons]; omega, ?_⟩
          rw [List.map_cons, List.flatten_cons, hflat, hbody]
          by_cases hmore : 184 ≤ (b :: bs).length
          · -- a full packet
            have hfull : 184 - ((b :: bs).take 184).length = 0 := by omega
            have hpad : 184 * out.1.length - ((b :: bs).length - 184) =
                184 * (out.1.length + 1) - (b :: bs).length := by omega
            calc (b :: bs).take 184 ++ List.replicate (184 - ((b :: bs).take 184).length) 0xff ++
                  ((b :: bs).drop 184 ++
                    List.replicate (184 * out.1.length - ((b :: bs).drop 184).length) 0xff)
                _ = (b :: bs).take 184 ++ (b :: bs).drop 184 ++
                    List.replicate (184 * out.1.length - ((b :: bs).drop 184).length) 0xff := by
                  rw [hfull, List.replicate_zero, List.append_nil, List.append_assoc]
                _ = b :: bs ++
                    List.replicate (184 * (p :: out.1).length - (b :: bs).length) 0xff := by
                  rw [List.take_append_drop, List.length_cons (a := p), hdrop, hpad]
          · -- the last one
            have hlast : (b :: bs).drop 184 = [] := List.drop_of_length_le (by omega)
            have hnone : out.1.length = 0 := by
              rw [hcount, hlast]
              rfl
            have hpad : 184 * (out.1.length + 1) - (b :: bs).length = 184 - (b :: bs).length := by
              omega
            calc (b :: bs).take 184 ++ List.replicate (184 - ((b :: bs).take 184).length) 0xff ++
                  ((b :: bs).drop 184 ++
                    List.replicate (184 * out.1.length - ((b :: bs).drop 184).length) 0xff)
                _ = b :: bs ++ List.replicate (184 - (b :: bs).length) 0xff := by
                  rw [hlast, List.take_of_length_le (by omega), hnone, Nat.mul_zero,
                    Nat.zero_sub, List.replicate_zero, List.append_nil, List.append_nil]
                _ = b :: bs ++
                    List.replicate (184 * (p :: out.1).length - (b :: bs).length) 0xff := by
                  rw [List.length_cons (a := p), hpad]

/-- The plain loop ends when there is a row for every 184 bytes. -/
theorem plainLoop_isSome {pid : ℕ} (hpid : pid ≤ 0x1fff) {rows cnt cc : ℕ} {buf : List UInt8}
    (hrows : (buf.length + 183) / 184 ≤ rows)
    (hcnt : (cnt + (buf.length + 183) / 184) * 188 ≤ 2 ^ 31) :
    ∃ out, plainLoop pid rows cnt cc buf = some out := by
  induction rows generalizing cnt cc buf with
  | zero =>
      have hempty : buf = [] := List.eq_nil_of_length_eq_zero (by omega)
      subst hempty
      exact ⟨_, rfl⟩
  | succ rows ih =>
      cases buf with
      | nil => exact ⟨_, rfl⟩
      | cons b bs =>
          have htake : ((b :: bs).take 184).length ≤ 184 := List.length_take_le _ _
          have hdrop : ((b :: bs).drop 184).length = (b :: bs).length - 184 := List.length_drop
          have hpos : 0 < (b :: bs).length := Nat.succ_pos _
          obtain ⟨p, hp, -, -⟩ := plainPacket_spec cc (cnt == 0) hpid htake
          obtain ⟨out, hout⟩ := @ih (cnt + 1) ((cc + 1) % 256) ((b :: bs).drop 184) (by omega)
            (by omega)
          refine ⟨(p :: out.1, out.2), ?_⟩
          rw [plainLoop]
          simp only [hp, Option.bind_some, hout, Option.map_some]
          rw [if_neg (by omega)]

/-! ## Sequences of calls -/

inductive PacketizerCall
  | plain (buf : List UInt8) (packetSize : ℤ)
  | withPcr (buf : List UInt8) (packetSize : ℤ) (r : Request)

def packetizerCall (pid cc : ℕ) : PacketizerCall → Option (List Packet × ℕ)
  | .plain buf packetSize => tsPacketizer buf packetSize cc pid
  | .withPcr buf packetSize r => tsPacketizerWithPcr buf packetSize cc { r with pid := pid }

/-- Calls on one pid that share the counter: all packets, if every call succeeds. -/
def packetizerCalls (pid : ℕ) : ℕ → List PacketizerCall → Option (List Packet × ℕ)
  | cc, [] => some ([], cc)
  | cc, call :: rest =>
      (packetizerCall pid cc call).bind fun out ↦
        (packetizerCalls pid out.2 rest).map fun more ↦ (out.1 ++ more.1, more.2)

theorem tsPacketizer_continues {buf : List UInt8} {packetSize : ℤ} {cc pid : ℕ}
    {out : List Packet × ℕ} (h : tsPacketizer buf packetSize cc pid = some out) :
    Continues pid cc out.1 out.2 ∧ out.1.length = (buf.length + 183) / 184 ∧
      (out.1.map body).flatten =
        buf ++ List.replicate (184 * out.1.length - buf.length) 0xff := by
  unfold tsPacketizer at h
  split_ifs at h with hargs
  exact plainLoop_continues (by omega) h

theorem packetizerCall_continues {pid cc : ℕ} {call : PacketizerCall} {out : List Packet × ℕ}
    (h : packetizerCall pid cc call = some out) : Continues pid cc out.1 out.2 := by
  cases call with
  | plain buf packetSize => exact (tsPacketizer_continues h).1
  | withPcr buf packetSize r =>
      simp only [packetizerCall, tsPacketizerWithPcr] at h
      split_ifs at h with hargs
      exact @packetizeLoop_continues { r with pid := pid } (show pid ≤ 0x1fff by omega) _
        _ _ _ _ _ h

theorem packetizerCalls_continues {pid cc : ℕ} {calls : List PacketizerCall}
    {out : List Packet × ℕ} (h : packetizerCalls pid cc calls = some out) :
    Continues pid cc out.1 out.2 := by
  induction calls generalizing cc out with
  | nil =>
      obtain rfl := Option.some.inj h
      exact ⟨.nil _ _, rfl⟩
  | cons call rest ih =>
      obtain ⟨one, hone, h⟩ := Option.bind_eq_some_iff.mp h
      obtain ⟨more, hmore, rfl⟩ := Option.map_eq_some_iff.mp h
      obtain ⟨hfirst, hcc⟩ := packetizerCall_continues hone
      obtain ⟨hrest, hcc'⟩ := ih hmore
      refine ⟨hfirst.append hrest hcc, ?_⟩
      rw [hcc', List.length_append]
      omega

/-- The packetizers never break the continuity of a pid, in whatever order they
share its counter and whatever other pids surround them; and the plain one
carries its buffer, padded, in as few packets as it fits in. -/
theorem packetizers_keep_continuity {pid cc : ℕ} {calls : List PacketizerCall}
    {out : List Packet × ℕ} {updates : List (List Packet)} (hnull : pid ≠ 0x1fff)
    (hcalls : packetizerCalls pid cc calls = some out)
    (hstream : onPid pid updates.flatten = out.1) :
    ((statsAfter updates).pids pid).ccErrors = 0 ∧
      (∀ (buf : List UInt8) (packetSize : ℤ) (cc : ℕ) (out : List Packet × ℕ),
        tsPacketizer buf packetSize cc pid = some out →
          out.1.length = (buf.length + 183) / 184 ∧
          (out.1.map body).flatten =
            buf ++ List.replicate (184 * out.1.length - buf.length) 0xff) ∧
      ∀ (buf : List UInt8) (cc : ℕ), buf ≠ [] → (buf.length / 184 + 1) * 188 < 2 ^ 31 →
        pid ≤ 0x1fff → ∃ out, tsPacketizer buf 188 cc pid = some out := by
  refine ⟨?_, fun buf packetSize cc out h ↦ (tsPacketizer_continues h).2, ?_⟩
  · rw [pids_statsAfter, hstream]
    exact ccErrors_of_numbered (packetizerCalls_continues hcalls).1 hnull
  · intro buf cc hbuf hsize hpid
    have hpos : 0 < buf.length := List.length_pos_iff.mpr hbuf
    have hrows : plainRows buf.length = (buf.length / 184 + 1) * 188 := by
      unfold plainRows
      rw [Nat.mod_eq_of_lt (by omega), if_pos hsize]
    rw [tsPacketizer, if_neg (by omega)]
    exact plainLoop_isSome hpid (by omega) (by omega)

/-- A plain call and one with a clock, over the end of the counter. -/
theorem packetizers_keep_continuity_mixed :
    ((statsAfter [((packetizerCalls 0x100 15 [.plain [1] 188,
      .withPcr [2, 3] 188 ⟨0, 301, true, false, by decide⟩]).elim [] Prod.fst)]).pids
        0x100).ccErrors = 0 :=
  (@packetizers_keep_continuity 0x100 15 [.plain [1] 188,
    .withPcr [2, 3] 188 ⟨0, 301, true, false, by decide⟩]
    ((packetizerCalls 0x100 15 [.plain [1] 188,
      .withPcr [2, 3] 188 ⟨0, 301, true, false, by decide⟩]).elim ([], 0) id) _
    (by decide) (by decide +kernel) (by decide +kernel)).1

end LtnTsTools.Packetizer
