import LtnTsTools.PacketizerContinuity
import LtnTsTools.PesBitCount
import LtnTsTools.PesIsolation

/-!
# Packetizing and extracting

The packetizer cuts PES after PES into packets of one pid, some packets get lost,
and the extractor puts together what arrives.  The reference is a reassembler
that is told about every loss: it hands out a PES when all its packets and the
start behind it have arrived.  The extractor, which sees continuity counters
only, follows it as long as no lost run is a multiple of 16 packets, up to one
kind of PES whose count of bits is lost in an `int`.
-/

namespace LtnTsTools.PesExtractor

open RingBuffer Stats Pes PartialMachine Packetizer

/-! ## A reassembler that sees every loss -/

/-- What the reassembler does with a packet that was sent: the PES it is putting
together, and what it hands out. -/
def receive (pending : Option (List UInt8)) (slot : Slot) :
    Option (List UInt8) × List (List UInt8) :=
  if slot.kept = false then (none, [])
  else if Ts.payloadUnitStartIndicator slot.packet then
    (some (Ts.payload slot.packet), pending.toList)
  else (pending.map (· ++ Ts.payload slot.packet), [])

def receiveAll : Option (List UInt8) → List Slot → List (List UInt8)
  | _, [] => []
  | pending, slot :: rest =>
      (receive pending slot).2 ++ receiveAll (receive pending slot).1 rest

/-- What is handed out is a PES with time stamps only, and what is put together
fits into the room. -/
def Manageable (room : ℕ) (pending : Option (List UInt8)) (slot : Slot) : Prop :=
  (slot.kept = true → Ts.payloadUnitStartIndicator slot.packet = true →
    ∀ b ∈ pending, WithTimestamps b) ∧
  ∀ b ∈ (receive pending slot).1, b.length ≤ room

def AllManageable (room : ℕ) : Option (List UInt8) → List Slot → Prop :=
  Meets (fun pending slot ↦ some (receive pending slot)) (Manageable room)

theorem allManageable_cons {room : ℕ} {pending : Option (List UInt8)} {slot : Slot}
    {rest : List Slot} : AllManageable room pending (slot :: rest) ↔
      Manageable room pending slot ∧ AllManageable room (receive pending slot).1 rest := Iff.rfl

theorem receive_lost {slot : Slot} (pending : Option (List UInt8)) (h : slot.kept = false) :
    receive pending slot = (none, []) := if_pos h

theorem receive_start {slot : Slot} (pending : Option (List UInt8)) (h : slot.kept = true)
    (hpusi : Ts.payloadUnitStartIndicator slot.packet = true) :
    receive pending slot = (some (Ts.payload slot.packet), pending.toList) := by
  simp [receive, h, hpusi]

theorem receive_continuation {slot : Slot} (pending : Option (List UInt8)) (h : slot.kept = true)
    (hpusi : Ts.payloadUnitStartIndicator slot.packet = false) :
    receive pending slot = (pending.map (· ++ Ts.payload slot.packet), []) := by
  simp [receive, h, hpusi]

/-- The packets behind a start complete the PES or lose it. -/
theorem receiveAll_continuations {r : Request} {first : Bool} {cc cc' room : ℕ} {buf : List UInt8}
    {pkts : List Packet} (h : Packetized r first cc buf pkts cc') (hfirst : first = false)
    {slots : List Slot} (hslots : slots.map Slot.packet = pkts) (pending : Option (List UInt8))
    (rest : List Slot) :
    receiveAll pending (slots ++ rest) =
        receiveAll (if slots.all Slot.kept then pending.map (· ++ buf) else none) rest ∧
      ((∀ b ∈ pending, b.length + buf.length ≤ room) →
        AllManageable room (if slots.all Slot.kept then pending.map (· ++ buf) else none) rest →
        AllManageable room pending (slots ++ rest)) := by
  induction h generalizing slots pending with
  | nil =>
      obtain rfl := List.map_eq_nil_iff.mp hslots
      simp
  | @cons first cc cc' chunk tail p ps hne hp _ ih =>
      obtain ⟨slot, slots, rfl, rfl, hps⟩ := List.map_eq_cons_iff.mp hslots
      have hpusi : Ts.payloadUnitStartIndicator slot.packet = false := hp.pusi.trans hfirst
      cases hkept : slot.kept with
      | false =>
          have hlost := receive_lost pending hkept
          obtain ⟨hall, hman⟩ := ih rfl hps none
          simp only [Option.map_none, ite_self] at hall hman
          simp only [List.cons_append, receiveAll, hlost, List.nil_append, hall, List.all_cons,
            hkept, Bool.false_and, Bool.false_eq_true, if_false, true_and]
          intro _ hrest
          rw [allManageable_cons, hlost]
          exact ⟨⟨by simp [hkept], by simp [hlost]⟩, hman (by simp) hrest⟩
      | true =>
          have hnext := receive_continuation pending hkept hpusi
          obtain ⟨hall, hman⟩ := ih rfl hps (pending.map (· ++ Ts.payload slot.packet))
          rw [hp.payload_eq] at hnext hall hman
          have hmap : (pending.map (· ++ chunk)).map (· ++ tail) =
              pending.map (· ++ (chunk ++ tail)) := by
            cases pending <;> simp
          rw [hmap] at hall hman
          simp only [List.cons_append, receiveAll, hnext, List.nil_append, hall, List.all_cons,
            hkept, Bool.true_and, true_and]
          intro hroom hrest
          have hroom' : ∀ b ∈ pending.map (· ++ chunk), b.length + tail.length ≤ room := by
            intro b hb
            obtain ⟨b', hb', rfl⟩ := Option.mem_map.mp hb
            have hle := hroom b' hb'
            rw [List.length_append] at hle ⊢
            omega
          rw [allManageable_cons, hnext]
          refine ⟨⟨by simp [hpusi], ?_⟩, hman hroom' hrest⟩
          intro b hb
          rw [hnext] at hb
          exact (Nat.le_add_right _ _).trans (hroom' b hb)

def headKept (slots : List Slot) : Bool := slots.head?.any Slot.kept

/-- A whole PES: its start hands out what was pending, and it is pending itself if
nothing of it is lost. -/
theorem receiveAll_pes {r : Request} {cc cc' room : ℕ} {buf : List UInt8} {pkts : List Packet}
    (h : Packetized r true cc buf pkts cc') (hbuf : buf ≠ []) {slots : List Slot}
    (hslots : slots.map Slot.packet = pkts) (pending : Option (List UInt8)) (rest : List Slot) :
    receiveAll pending (slots ++ rest) =
        (if headKept slots then pending.toList else []) ++
          receiveAll (if slots.all Slot.kept then some buf else none) rest ∧
      ((∀ b ∈ pending, WithTimestamps b) → buf.length ≤ room →
        AllManageable room (if slots.all Slot.kept then some buf else none) rest →
        AllManageable room pending (slots ++ rest)) := by
  cases h with
  | nil => exact absurd rfl hbuf
  | @cons _ _ _ chunk tail p ps hne hp htail =>
      obtain ⟨slot, slots, rfl, rfl, hps⟩ := List.map_eq_cons_iff.mp hslots
      cases hkept : slot.kept with
      | false =>
          have hlost := receive_lost pending hkept
          obtain ⟨hall, hman⟩ := @receiveAll_continuations _ _ _ _ room _ _ htail rfl _
            hps none rest
          simp only [Option.map_none, ite_self] at hall hman
          simp only [List.cons_append, receiveAll, hlost, List.nil_append, hall, List.all_cons,
            hkept, Bool.false_and, Bool.false_eq_true, if_false, headKept, List.head?_cons,
            Option.any_some, true_and]
          intro _ _ hrest
          rw [allManageable_cons, hlost]
          exact ⟨⟨by simp [hkept], by simp [hlost]⟩, hman (by simp) hrest⟩
      | true =>
          have hnext := receive_start pending hkept hp.pusi
          obtain ⟨hall, hman⟩ := @receiveAll_continuations _ _ _ _ room _ _ htail rfl _ hps
            (some chunk) rest
          simp only [Option.map_some] at hall hman
          rw [hp.payload_eq] at hnext
          simp only [List.cons_append, receiveAll, hnext, hall, List.all_cons, hkept,
            Bool.true_and, if_true, headKept, List.head?_cons, Option.any_some, true_and]
          intro hstamps hroom hrest
          have hroom' : ∀ b ∈ some chunk, b.length + tail.length ≤ room := by
            rintro b ⟨⟩
            rwa [List.length_append] at hroom
          rw [allManageable_cons, hnext]
          refine ⟨⟨fun _ _ ↦ hstamps, ?_⟩, hman hroom' hrest⟩
          intro b hb
          rw [hnext] at hb
          exact (Nat.le_add_right _ _).trans (hroom' b hb)

/-- The PES, each with its packets, that arrive as a whole and are followed by the
start of the next one. -/
def wholeAndFollowed : List (List UInt8 × List Slot) → List (List UInt8)
  | x :: y :: rest =>
      (if x.2.all Slot.kept && headKept y.2 then [x.1] else []) ++ wholeAndFollowed (y :: rest)
  | _ => []

def IsSent (room : ℕ) (x : List UInt8 × List Slot) : Prop :=
  WithTimestamps x.1 ∧ x.1.length ≤ room ∧
    ∃ r cc cc', Packetized r true cc x.1 (x.2.map Slot.packet) cc'

theorem ne_nil_of_withTimestamps {buf : List UInt8} (h : WithTimestamps buf) : buf ≠ [] := by
  rintro rfl
  exact absurd h.sixteen_le (by simp)

/-- The reassembler hands out exactly these PES, behind the one that was pending. -/
theorem receiveAll_sent {room : ℕ} (sent : List (List UInt8 × List Slot))
    (h : ∀ x ∈ sent, IsSent room x) (pending : Option (List UInt8))
    (hpending : ∀ b ∈ pending, WithTimestamps b) :
    receiveAll pending (sent.map Prod.snd).flatten =
        (if (sent.head?.any fun x ↦ headKept x.2) then pending.toList else []) ++
          wholeAndFollowed sent ∧
      AllManageable room pending (sent.map Prod.snd).flatten := by
  induction sent generalizing pending with
  | nil => exact ⟨by simp [receiveAll, wholeAndFollowed], trivial⟩
  | cons x rest ih =>
      obtain ⟨hstamps, hroom, r, cc, cc', hx⟩ := h x List.mem_cons_self
      obtain ⟨hall, hman⟩ := @receiveAll_pes r cc cc' room x.1 _ hx
        (ne_nil_of_withTimestamps hstamps) x.2 rfl pending
        (rest.map Prod.snd).flatten
      have hnext : ∀ b ∈ (if x.2.all Slot.kept then some x.1 else none), WithTimestamps b := by
        split_ifs
        · rintro b ⟨⟩
          exact hstamps
        · simp
      obtain ⟨hrest, hrestman⟩ := ih (fun y hy ↦ h y (List.mem_cons_of_mem x hy)) _ hnext
      refine ⟨?_, hman hpending hroom hrestman⟩
      rw [List.map_cons, List.flatten_cons, hall, hrest]
      change (if headKept x.2 then pending.toList else []) ++ _ =
        (if headKept x.2 then pending.toList else []) ++ _
      congr 1
      cases rest with
      | nil => rfl
      | cons y rest =>
          simp only [List.head?_cons, Option.any_some, wholeAndFollowed]
          by_cases hwhole : x.2.all Slot.kept = true <;> by_cases hhead : headKept y.2 = true <;>
            simp [hwhole, hhead]

/-! ## The extractor follows the reassembler -/

structure Holds (pid room : ℕ) (ctx : Ctx) (held : Option (List UInt8)) : Prop where
  counted : Counted ctx
  room_le : room ≤ ctx.rb.size
  size_lt : ctx.rb.size < 2 ^ 31
  settings : ctx.settings = ⟨pid, false, true, false, false⟩
  appending : ctx.appending = held.isSome
  contents : ∀ b ∈ held, ctx.rb.contents = b
  alone : ctx.lastCCCounter = ctx.libstats.ccErrors

theorem Holds.pid_eq {pid room : ℕ} {ctx : Ctx} {held : Option (List UInt8)}
    (h : Holds pid room ctx held) : ctx.pid = pid := congrArg Settings.pid h.settings

/-- Of the PES with time stamps only, those are delivered whose count of bits is
not lost. -/
theorem isDelivered_iff {ctx : Ctx} {pid : ℕ} {buf : List UInt8}
    (h : ctx.settings = ⟨pid, false, true, false, false⟩) (hbuf : WithTimestamps buf)
    (hlen : buf.length < 2 ^ 31) : isDelivered ctx buf = !decide (CountWraps buf) := by
  have hskip : ctx.skipDataExtraction = false := congrArg Settings.skipDataExtraction h
  have hcb : ctx.cb = true := congrArg Settings.cb h
  obtain ⟨hclean, -⟩ := pesPacketParse_clean false hbuf hlen
  have hbits := pesPacketParse_bits hbuf hlen
  simp only [isDelivered, parseRing, hskip, hcb, hclean, Bool.not_false, Bool.true_and,
    Bool.and_true, bne, ← hbits]
  rfl

/-- A payload that fits behind what the ring holds. -/
theorem writePayload_of_fits {ctx : Ctx} {pkt : Packet} (h : Counted ctx)
    (hadapt : AdaptionInside pkt)
    (hfit : (ctx.rb.contents ++ Ts.payload pkt).length ≤ ctx.rb.size) :
    ∃ ctx', writePayload ctx pkt = .ok (ctx', false) ∧ Counted ctx' ∧
      ctx'.rb.contents = ctx.rb.contents ++ Ts.payload pkt ∧ ctx'.rb.size = ctx.rb.size := by
  rw [List.length_append, h.inv.length_contents] at hfit
  obtain ⟨rb, hwrite, hinv, hcont, hhead, hsize, -⟩ :=
    @rbWriteWithState_of_fits ctx.rb (Ts.payload pkt) h.inv (by omega) fun _ ↦ h.front
  obtain ⟨ctx', hpayload, hcounted, hrb⟩ :=
    writePayload_of_write h hadapt hwrite hinv hcont (hhead.trans h.front)
  exact ⟨ctx', hpayload, hcounted, by rw [hrb, hcont], by rw [hrb, hsize]⟩

/-- A start whose payload fits into the emptied ring. -/
theorem startPes_of_fits {ctx : Ctx} {pkt : Packet} {r : Ctx × List PesPacket}
    (hring : processRing ctx = .ok r) (hinv : Inv r.1.rb) (hadapt : AdaptionInside pkt)
    (hfit : (Ts.payload pkt).length ≤ r.1.rb.size) :
    (startPes ctx pkt).callbacks = r.2 ∧
      ∃ ctx', (startPes ctx pkt).next = .ok ctx' ∧ Counted ctx' ∧
        ctx'.rb.contents = Ts.payload pkt ∧ ctx'.rb.size = r.1.rb.size := by
  have hclear := counted_clearRing hinv
  have hempty : (clearRing r.1).rb.contents = [] := by rw [rb_clearRing, contents_rbEmpty]
  have hsize : (clearRing r.1).rb.size = r.1.rb.size := by
    rw [rb_clearRing]
    rfl
  obtain ⟨ctx', hwrite, hcounted, hcont, hsize'⟩ := writePayload_of_fits hclear hadapt
    (by rwa [hempty, hsize, List.nil_append])
  refine ⟨by rw [startPes, hring], ctx', ?_, hcounted, by rw [hcont, hempty, List.nil_append],
    hsize'.trans hsize⟩
  simp [startPes, hring, hwrite, Except.bind]

/-- A PES with time stamps only is closed and given to the callback, unless its
count of bits is lost. -/
theorem processRing_of_stamps {ctx : Ctx} {pid : ℕ} (h : Counted ctx)
    (hset : ctx.settings = ⟨pid, false, true, false, false⟩) (hbound : ctx.rb.size < 2 ^ 31)
    (hstamps : WithTimestamps ctx.rb.contents) :
    ∃ r, processRing ctx = .ok r ∧ r.1.rb = ctx.rb ∧
      r.2.map PesPacket.rawBuffer = [ctx.rb.contents].filter fun b ↦ !decide (CountWraps b) := by
  have hlen := h.inv.length_contents
  have hfill := h.inv.fill_le
  have hunordered : ctx.orderedOutput = false := congrArg Settings.orderedOutput hset
  have hlong : 16 ≤ rbUsed ctx.rb := hstamps.sixteen_le.trans_eq hlen
  refine ⟨_, processRing_of_counted h hlong, by rw [rb_deliverPes], ?_⟩
  rw [@raw_deliverPes_congr
    { ctx with largestRingFrame := max ctx.largestRingFrame (rbUsed ctx.rb) } ctx rfl hunordered,
    raw_deliverPes _ hunordered, isDelivered_iff hset hstamps (by omega)]
  simp [List.filter_cons]

def CountsPacket (ctx ctx' : Ctx) (pkt : Packet) : Prop :=
  ctx'.libstats = pidStatsUpdate ctx.libstats [pkt] ∧
    ctx'.lastCCCounter = (pidStatsUpdate ctx.libstats [pkt]).ccErrors

theorem countsPacket_of_frame {ctx mid ctx' : Ctx} {pkt : Packet} (h : CountsPacket ctx mid pkt)
    (hframe : ctx'.frame = mid.frame) : CountsPacket ctx ctx' pkt :=
  ⟨(congrArg Frame.libstats hframe).trans h.1, (congrArg Frame.lastCCCounter hframe).trans h.2⟩

theorem countsPacket_opened (ctx : Ctx) (pkt : Packet) :
    CountsPacket ctx (opened ctx pkt) pkt := by
  unfold opened
  split_ifs <;> exact ⟨rfl, rfl⟩

theorem countsPacket_passedOver (ctx : Ctx) (pkt : Packet) :
    CountsPacket ctx (passedOver ctx pkt) pkt := by
  unfold passedOver
  split_ifs <;> exact ⟨rfl, rfl⟩

/-- A packet of the extracted pid is counted, whatever else it does. -/
theorem countsPacket_of_own {ctx ctx' : Ctx} {pkt : Packet} (hpid : Ts.pid pkt = ctx.pid)
    (h : (writePacket ctx pkt).next = .ok ctx') : CountsPacket ctx ctx' pkt := by
  rcases writePacket_cases ctx pkt with
    ⟨hno, -⟩ | ⟨-, -, heq⟩ | ⟨-, -, -, heq⟩ | ⟨-, -, heq⟩
  · exact absurd hpid hno
  · rw [heq] at h
    exact Except.ok.inj h ▸ countsPacket_passedOver ctx pkt
  · rw [heq] at h
    exact @countsPacket_of_frame ctx (noted ctx pkt) _ _ ⟨rfl, rfl⟩ (frame_continuePes h)
  · rw [heq] at h
    exact countsPacket_of_frame (countsPacket_opened ctx pkt) (frame_startPes h)

section Step

variable {pid room : ℕ} {ctx : Ctx} {pending : Option (List UInt8)} {pkt : Packet}

theorem start_follows (hcounted : Counted ctx) (hsize : room ≤ ctx.rb.size)
    (hset : ctx.settings = ⟨pid, false, true, false, false⟩)
    (hbound : ctx.rb.size < 2 ^ 31) (hwanted : Wanted ctx pkt) (hadapt : AdaptionInside pkt)
    (hpusi : Ts.payloadUnitStartIndicator pkt = true)
    (hkeep : keepsAppending ctx pkt = pending.isSome)
    (hcont : ∀ b ∈ pending, ctx.rb.contents = b) (hstamps : ∀ b ∈ pending, WithTimestamps b)
    (hfit : (Ts.payload pkt).length ≤ room) :
    (writePacket ctx pkt).raw = pending.toList.filter (fun b ↦ !decide (CountWraps b)) ∧
      ∃ ctx', (writePacket ctx pkt).next = .ok ctx' ∧ Counted ctx' ∧
        ctx'.rb.contents = Ts.payload pkt ∧ ctx'.rb.size = ctx.rb.size ∧
        ctx'.frame = (opened ctx pkt).frame := by
  have hwrite : writePacket ctx pkt = startPes (opened ctx pkt) pkt := by
    rw [writePacket, chooseBranch_starts hwanted hpusi]
  have hopened := hcounted.opened pkt
  rw [hwrite]
  cases hp : pending with
  | none =>
      have hopen : opened ctx pkt = restart (noted ctx pkt) true := by
        rw [opened, hkeep, hp]
        rfl
      have hring : processRing (opened ctx pkt) = .ok (opened ctx pkt, []) := by
        apply processRing_of_empty
        rw [hopen]
        rfl
      have hsame : (opened ctx pkt).rb.size = ctx.rb.size := by
        rw [hopen]
        rfl
      obtain ⟨hcallbacks, ctx', hnext, hc, hcont', hsize'⟩ :=
        startPes_of_fits hring hopened.inv hadapt (hfit.trans (hsize.trans_eq hsame.symm))
      refine ⟨?_, ctx', hnext, hc, hcont', hsize'.trans hsame, frame_startPes hnext⟩
      rw [Outcome.raw, hcallbacks]
      rfl
  | some b =>
      have hopen : opened ctx pkt = noted ctx pkt := by
        rw [opened, hkeep, hp]
        rfl
      have hb : ctx.rb.contents = b := hcont b (by rw [hp]; rfl)
      have hbstamps : WithTimestamps b := hstamps b (by rw [hp]; rfl)
      obtain ⟨r, hring, hrb, hraw⟩ := @processRing_of_stamps (noted ctx pkt) pid
        (hcounted.noted pkt) hset hbound (hb ▸ hbstamps)
      have hrb' : r.1.rb = ctx.rb := hrb
      rw [← hopen] at hring
      obtain ⟨hcallbacks, ctx', hnext, hc, hcont', hsize'⟩ :=
        startPes_of_fits hring (hrb' ▸ hcounted.inv) hadapt (by rw [hrb']; omega)
      refine ⟨?_, ctx', hnext, hc, hcont', hsize'.trans (by rw [hrb']), frame_startPes hnext⟩
      rw [Outcome.raw, hcallbacks, hraw]
      exact congrArg (fun c ↦ [c].filter fun b ↦ !decide (CountWraps b)) hb

/-- A packet behind a start is added to what is pending. -/
theorem continuation_follows (hcounted : Counted ctx) (hsize : room ≤ ctx.rb.size)
    (hwanted : Wanted ctx pkt) (hadapt : AdaptionInside pkt)
    (hpusi : Ts.payloadUnitStartIndicator pkt = false) {b : List UInt8}
    (hkeep : keepsAppending ctx pkt = true) (hcont : ctx.rb.contents = b)
    (hfit : (b ++ Ts.payload pkt).length ≤ room) :
    (writePacket ctx pkt).raw = [] ∧
      ∃ ctx', (writePacket ctx pkt).next = .ok ctx' ∧ Counted ctx' ∧
        ctx'.rb.contents = b ++ Ts.payload pkt ∧ ctx'.rb.size = ctx.rb.size ∧
        ctx'.frame = (noted ctx pkt).frame := by
  have hwrite : writePacket ctx pkt = continuePes (noted ctx pkt) pkt := by
    rw [writePacket, chooseBranch_continues hwanted hpusi hkeep]
  obtain ⟨ctx', hpayload, hc, hcont', hsize'⟩ := writePayload_of_fits (hcounted.noted pkt) hadapt
    (show (ctx.rb.contents ++ Ts.payload pkt).length ≤ ctx.rb.size by rw [hcont]; omega)
  have hnext : (continuePes (noted ctx pkt) pkt).next = .ok ctx' := by
    simp [continuePes, hpayload, Except.map]
  rw [hwrite]
  exact ⟨rfl, ctx', hnext, hc, hcont'.trans (congrArg (· ++ Ts.payload pkt) hcont), hsize',
    frame_continuePes hnext⟩

/-- What holds of the context behind the two branches. -/
theorem holds_of_frame {held : Option (List UInt8)} {mid ctx' : Ctx} {b : List UInt8}
    (h : Holds pid room ctx held) (hmid : CountsPacket ctx mid pkt)
    (hset : mid.settings = ctx.settings) (happ : mid.appending = true)
    (hframe : ctx'.frame = mid.frame) (hcounted : Counted ctx') (hcont : ctx'.rb.contents = b)
    (hsize : ctx'.rb.size = ctx.rb.size) : Holds pid room ctx' (some b) := by
  have hnew := countsPacket_of_frame hmid hframe
  refine ⟨hcounted, h.room_le.trans_eq hsize.symm, hsize.trans_lt h.size_lt, ?_, ?_, ?_, ?_⟩
  · exact (congrArg Frame.settings hframe).trans (hset.trans h.settings)
  · exact (congrArg Frame.appending hframe).trans happ
  · rintro c ⟨⟩
    exact hcont
  · rw [hnew.1, hnew.2]

/-- What holds of the context behind a packet that is not used. -/
theorem holds_passedOver {held : Option (List UInt8)} (h : Holds pid room ctx held)
    (hkeep : keepsAppending ctx pkt = false) :
    Holds pid room (passedOver ctx pkt) none := by
  obtain ⟨hstats, hlast⟩ := countsPacket_passedOver ctx pkt
  have hsize : (passedOver ctx pkt).rb.size = ctx.rb.size := by
    unfold passedOver
    split_ifs <;> rfl
  refine ⟨h.counted.passedOver pkt, h.room_le.trans_eq hsize.symm, hsize.trans_lt h.size_lt,
    (settings_passedOver ctx pkt).trans h.settings, ?_, by simp, by rw [hstats, hlast]⟩
  unfold passedOver
  unfold keepsAppending at hkeep
  split_ifs with hcc
  · simpa [hcc, noted] using hkeep
  · rfl

/-- A packet that arrives moves the extractor as it moves the reassembler, which
has lost what is pending if the continuity is broken. -/
theorem Holds.follows {held : Option (List UInt8)} (h : Holds pid room ctx held)
    (hsync : Ts.syncPresent pkt = true) (hpid : Ts.pid pkt = pid)
    (hcontrol : Ts.adaptionFieldControl pkt ≠ 2) (hadapt : AdaptionInside pkt)
    (hpending : pending =
      if breaksContinuity (ctx.libstats.pids pid) pkt then none else held)
    (hman : Manageable room pending ⟨pkt, true⟩) :
    (writePacket ctx pkt).raw =
        (receive pending ⟨pkt, true⟩).2.filter (fun b ↦ !decide (CountWraps b)) ∧
      ∃ ctx', (writePacket ctx pkt).next = .ok ctx' ∧
        Holds pid room ctx' (receive pending ⟨pkt, true⟩).1 := by
  have hown : Ts.pid pkt = ctx.pid := hpid.trans h.pid_eq.symm
  have hwanted : Wanted ctx pkt := ⟨hown, hcontrol⟩
  have hkeep : keepsAppending ctx pkt = pending.isSome := by
    rw [keepsAppending_alone hsync hown h.alone, h.pid_eq, h.appending, hpending]
    cases breaksContinuity (ctx.libstats.pids pid) pkt <;> simp
  have hcont : ∀ b ∈ pending, ctx.rb.contents = b := by
    intro b hb
    rw [hpending] at hb
    split_ifs at hb
    · exact absurd hb (by simp)
    · exact h.contents b hb
  cases hpusi : Ts.payloadUnitStartIndicator pkt with
  | true =>
      have hreceive := @receive_start ⟨pkt, true⟩ pending rfl hpusi
      have hfit := hman.2 (Ts.payload pkt) (by rw [hreceive]; rfl)
      obtain ⟨hraw, ctx', hnext, hc, hcont', hsize', hframe⟩ := start_follows h.counted h.room_le
        h.settings h.size_lt hwanted hadapt hpusi hkeep hcont (hman.1 rfl hpusi) hfit
      rw [hreceive]
      exact ⟨hraw, ctx', hnext, holds_of_frame h (countsPacket_opened ctx pkt)
        (settings_opened ctx pkt) (appending_opened ctx pkt) hframe hc hcont' hsize'⟩
  | false =>
      have hreceive := @receive_continuation ⟨pkt, true⟩ pending rfl hpusi
      cases hp : pending with
      | none =>
          rw [hp] at hreceive hkeep
          have hwrite : writePacket ctx pkt = .idle (passedOver ctx pkt) := by
            rw [writePacket, chooseBranch_passedOver hown (.inr ⟨hpusi, hkeep⟩)]
          rw [hreceive, hwrite]
          exact ⟨rfl, _, rfl, holds_passedOver h hkeep⟩
      | some b =>
          rw [hp] at hreceive hkeep
          have hfit := hman.2 (b ++ Ts.payload pkt) (by rw [hp, hreceive]; rfl)
          obtain ⟨hraw, ctx', hnext, hc, hcont', hsize', hframe⟩ := continuation_follows h.counted
            h.room_le hwanted hadapt hpusi hkeep (hcont b (by rw [hp]; rfl)) hfit
          have happ : (noted ctx pkt).appending = true := by
            unfold keepsAppending at hkeep
            simp only [Option.isSome_some, Bool.and_eq_true] at hkeep
            exact hkeep.1
          rw [hreceive]
          exact ⟨hraw, ctx', hnext, @holds_of_frame _ _ _ _ _ (noted ctx pkt) _ _ h ⟨rfl, rfl⟩ rfl
            happ hframe hc hcont' hsize'⟩

end Step

/-! ## Runs with losses -/

/-- The packets on their way count up from the last one that was seen, of which
`n` are lost already. -/
def InStep (stats : PidStatistics) (n : ℕ) (pkts : List Packet) : Prop :=
  if stats.packetCount = 0 then ∃ c, CountsFrom c pkts else CountsFrom (stats.lastCC + 1 + n) pkts

/-- What the packetizer makes sure of in every packet. -/
def IsPayloadOf (pid : ℕ) (pkt : Packet) : Prop :=
  Ts.syncPresent pkt = true ∧ Ts.pid pkt = pid ∧
    (Ts.adaptionFieldControl pkt = 1 ∨ Ts.adaptionFieldControl pkt = 3) ∧ AdaptionInside pkt

theorem InStep.lost {stats : PidStatistics} {n : ℕ} {pkt : Packet} {rest : List Packet}
    (h : InStep stats n (pkt :: rest)) : InStep stats (n + 1) rest := by
  unfold InStep at h ⊢
  split_ifs at h ⊢
  · obtain ⟨c, hc⟩ := h
    exact ⟨c + 1, hc.2⟩
  · exact h.2

theorem InStep.seen {stats : PidStatistics} {n : ℕ} {pkt : Packet} {rest : List Packet}
    (h : InStep stats n (pkt :: rest)) : InStep (updatePid stats pkt) 0 rest := by
  have hnext : ∀ c, CountsFrom c (pkt :: rest) →
      CountsFrom (Ts.continuityCounter pkt + 1 + 0) rest := by
    intro c hc
    refine countsFrom_congr ?_ hc.2
    have hcc := hc.1
    omega
  unfold InStep at h ⊢
  rw [if_neg (show (updatePid stats pkt).packetCount ≠ 0 from Nat.succ_ne_zero _)]
  split_ifs at h
  · obtain ⟨c, hc⟩ := h
    exact hnext c hc
  · exact hnext _ h

/-- The counters tell a lost run, unless it is a multiple of 16. -/
theorem InStep.breaks_iff {stats : PidStatistics} {n pid : ℕ} {pkt : Packet} {rest : List Packet}
    (h : InStep stats n (pkt :: rest)) (hnull : pid ≠ 0x1fff) (hpkt : IsPayloadOf pid pkt)
    (hrun : n ≠ 0 → n % 16 ≠ 0) :
    breaksContinuity stats pkt = true ↔ stats.packetCount ≠ 0 ∧ n ≠ 0 := by
  obtain ⟨-, hpid, hcontrol, -⟩ := hpkt
  by_cases hnew : stats.packetCount = 0
  · simp [breaksContinuity_of_first hnew, hnew]
  · have hcounts := h
    rw [InStep, if_neg hnew] at hcounts
    have hcc := hcounts.1
    rw [breaksContinuity_of_payload (Nat.pos_of_ne_zero hnew) (hpid ▸ hnull) hcontrol]
    simp only [ne_eq, hnew, not_false_eq_true, true_and]
    omega

/-- Over packets of which runs are lost, the extractor hands out what the
reassembler hands out, less what is lost in the count of bits, and comes to its end. -/
theorem writeLoop_follows {pid room : ℕ} (hnull : pid ≠ 0x1fff) (slots : List Slot) {n : ℕ}
    {ctx : Ctx} {held : Option (List UInt8)} (h : Holds pid room ctx held)
    (hslots : ∀ slot ∈ slots, IsPayloadOf pid slot.packet)
    (hstep : InStep (ctx.libstats.pids pid) n (slots.map Slot.packet))
    (hnew : (ctx.libstats.pids pid).packetCount = 0 → held = none)
    (hruns : ∀ k ∈ closedRuns n slots, k % 16 ≠ 0)
    (hman : AllManageable room (if n = 0 then held else none) slots) :
    (writeLoop ctx (survivors slots)).raw =
        (receiveAll (if n = 0 then held else none) slots).filter (fun b ↦ !decide (CountWraps b)) ∧
      ∃ last, (writeLoop ctx (survivors slots)).next = .ok last := by
  induction slots generalizing n ctx held with
  | nil => exact ⟨rfl, ctx, rfl⟩
  | cons slot rest ih =>
      have hslots' := fun x hx ↦ hslots x (List.mem_cons_of_mem slot hx)
      obtain ⟨hone, hlater⟩ := allManageable_cons.mp hman
      cases hkept : slot.kept with
      | false =>
          have hlost := receive_lost (if n = 0 then held else none) hkept
          rw [hlost] at hlater
          simp only [closedRuns, hkept, Bool.false_eq_true, if_false] at hruns
          simp only [survivors_cons, hkept, Bool.false_eq_true, if_false, receiveAll, hlost,
            List.nil_append]
          exact ih (n := n + 1) h hslots' hstep.lost hnew hruns hlater
      | true =>
          obtain ⟨pkt, kept⟩ := slot
          obtain rfl : kept = true := hkept
          have hpkt := hslots ⟨pkt, true⟩ List.mem_cons_self
          obtain ⟨hsync, hpid, hcontrol, hadapt⟩ := hpkt
          simp only [closedRuns, if_true, List.mem_append] at hruns
          have hbreaks := InStep.breaks_iff hstep hnull (hslots ⟨pkt, true⟩ List.mem_cons_self)
            fun hn ↦ hruns n (.inl (by simp [hn]))
          have hpending : (if n = 0 then held else none) =
              if breaksContinuity (ctx.libstats.pids pid) pkt then none else held := by
            by_cases hseen : (ctx.libstats.pids pid).packetCount = 0
            · rw [hnew hseen, ite_self, ite_self]
            · have hbreaks' : breaksContinuity (ctx.libstats.pids pid) pkt = true ↔ n ≠ 0 :=
                hbreaks.trans (and_iff_right hseen)
              by_cases hn : n = 0 <;> simp [hbreaks', hn]
          obtain ⟨hraw, ctx', hnext, hholds⟩ := h.follows hsync hpid
            (by rcases hcontrol with hc | hc <;> omega) hadapt hpending hone
          have hown : Ts.pid pkt = ctx.pid := hpid.trans h.pid_eq.symm
          have hstats : ctx'.libstats.pids pid = updatePid (ctx.libstats.pids pid) pkt := by
            rw [(countsPacket_of_own hown hnext).1, pids_pidStatsUpdate]
            simp [onPid, hpid]
          obtain ⟨hrest, last, hlast⟩ := ih (n := 0) hholds hslots' (hstats ▸ hstep.seen)
            (fun hzero ↦ absurd hzero (by rw [hstats]; exact Nat.succ_ne_zero _))
            (fun k hk ↦ hruns k (.inr hk)) hlater
          simp only [survivors_cons, if_true, writeLoop, receiveAll, List.filter_append]
          refine ⟨?_, last, ?_⟩
          · rw [raw_andThen _ hnext, hraw, hrest]
            simp only [if_true]
          · rw [Outcome.andThen, hnext]
            exact hlast

/-! ## Clean multiplexes -/

theorem ccErrors_le_foldl (pkts : List Packet) (stats : PidStatistics) :
    stats.ccErrors ≤ (pkts.foldl updatePid stats).ccErrors := by
  induction pkts generalizing stats with
  | nil => exact le_rfl
  | cons pkt rest ih => exact (Nat.le_add_right _ _).trans (ih (updatePid stats pkt))

/-- Other pids that raise no error do not disturb the extractor. -/
theorem undisturbed_of_clean (pkts : List Packet) {ctx : Ctx}
    (halone : ctx.lastCCCounter = ctx.libstats.ccErrors)
    (hsync : ∀ pkt ∈ pkts, Ts.syncPresent pkt = true)
    (hclean : ∀ p, p ≠ ctx.pid →
      ((onPid p pkts).foldl updatePid (ctx.libstats.pids p)).ccErrors = 0) :
    Meets step Undisturbed ctx pkts := by
  induction pkts generalizing ctx with
  | nil => trivial
  | cons pkt rest ih =>
      have hsync' := fun x hx ↦ hsync x (List.mem_cons_of_mem pkt hx)
      refine ⟨fun _ _ ↦ .inl halone, ?_⟩
      have hpids : ∀ p, (onPid p rest).foldl updatePid
          ((pidStatsUpdate ctx.libstats [pkt]).pids p) =
            (onPid p (pkt :: rest)).foldl updatePid (ctx.libstats.pids p) := by
        intro p
        rw [pids_pidStatsUpdate, ← List.foldl_append, ← onPid_append, List.singleton_append]
      by_cases hpid : Ts.pid pkt = ctx.pid
      · cases hnext : (writePacket ctx pkt).next with
        | error e => simp [step, hnext]
        | ok ctx' =>
            obtain ⟨hstats, hlast⟩ := countsPacket_of_own hpid hnext
            have hsame : ctx'.pid = ctx.pid := congrArg Settings.pid (settings_writePacket hnext)
            simp only [step_of_next hnext]
            apply ih (by rw [hstats, hlast]) hsync'
            intro p hp
            rw [hstats, hpids]
            exact hclean p (hsame ▸ hp)
      · have hzero := hclean (Ts.pid pkt) hpid
        have hone : onPid (Ts.pid pkt) (pkt :: rest) = pkt :: onPid (Ts.pid pkt) rest := by
          simp [onPid]
        rw [hone, List.foldl_cons] at hzero
        have hle := ccErrors_le_foldl (onPid (Ts.pid pkt) rest)
          (updatePid (ctx.libstats.pids (Ts.pid pkt)) pkt)
        have hcount : (breaksContinuity (ctx.libstats.pids (Ts.pid pkt)) pkt).toNat = 0 := by
          simp only [updatePid] at hle hzero
          omega
        simp only [step, writePacket_foreign hpid, Outcome.idle]
        apply ih ?_ hsync'
        · intro p hp
          rw [hpids]
          exact hclean p hp
        · change ctx.lastCCCounter = _
          rw [ccErrors_of_synced (hsync pkt List.mem_cons_self), hcount, halone]
          rfl

/-! ## From the packetizer to the callback -/

/-- A PES and the arguments it is packetized with. -/
structure Job where
  bytes : List UInt8
  request : Request

/-- The PES are packetized one after the other, on one pid and with one counter. -/
def packetizeAll (pid : ℕ) : ℕ → List Job → Option (List (List Packet))
  | _, [] => some []
  | cc, job :: rest =>
      (tsPacketizerWithPcr job.bytes 188 cc { job.request with pid := pid }).bind fun out ↦
        (packetizeAll pid out.2 rest).map fun more ↦ out.1 :: more

/-- PES with time stamps only that fit into the buffer are packetized, some of
their packets are lost, and the others arrive in a multiplex that is clean
otherwise, cut into calls. -/
structure LossyDelivery (pid cc : ℕ) (bufferMin : ℤ) (jobs : List Job)
    (groups : List (List Slot)) (calls : List (List Packet)) : Prop where
  stamps : ∀ job ∈ jobs, WithTimestamps job.bytes
  fits : ∀ job ∈ jobs, (job.bytes.length : ℤ) ≤ orDefault bufferMin (4 * 1048576)
  pcr : ∀ job ∈ jobs, job.request.pcr = -1 ∨ 0 ≤ job.request.pcr
  packets : packetizeAll pid cc jobs = some (groups.map fun slots ↦ slots.map Slot.packet)
  runs : ∀ k ∈ removedRuns groups.flatten, k % 16 ≠ 0
  own : onPid pid calls.flatten = survivors groups.flatten
  synced : ∀ pkt ∈ calls.flatten, Ts.syncPresent pkt = true
  clean : ∀ p, p ≠ pid → ((onPid p calls.flatten).foldl updatePid PidStatistics.zero).ccErrors = 0

def sentPes (jobs : List Job) (groups : List (List Slot)) : List (List UInt8 × List Slot) :=
  (jobs.map Job.bytes).zip groups

theorem isPayloadOf_of_packetized {r : Request} {first : Bool} {cc cc' : ℕ} {buf : List UInt8}
    {pkts : List Packet} (h : Packetized r first cc buf pkts cc') :
    ∀ pkt ∈ pkts, IsPayloadOf r.pid pkt := by
  intro pkt hpkt
  obtain ⟨k, hk⟩ := List.mem_iff_getElem?.mp hpkt
  obtain ⟨chunk, -, hp⟩ := h.getElem? hk
  exact ⟨hp.sync, hp.pid_eq, hp.control, (adaptionInside_iff pkt).mpr hp.fits⟩

theorem packetizeAll_spec {pid room : ℕ} (hpid : pid ≤ 0x1fff) (hroom : room < 2 ^ 31)
    {jobs : List Job} {cc : ℕ} {groups : List (List Slot)}
    (hstamps : ∀ job ∈ jobs, WithTimestamps job.bytes)
    (hfits : ∀ job ∈ jobs, job.bytes.length ≤ room)
    (hpcr : ∀ job ∈ jobs, job.request.pcr = -1 ∨ 0 ≤ job.request.pcr)
    (h : packetizeAll pid cc jobs = some (groups.map fun slots ↦ slots.map Slot.packet)) :
    (∀ x ∈ sentPes jobs groups, IsSent room x) ∧
      (sentPes jobs groups).map Prod.fst = jobs.map Job.bytes ∧
      (sentPes jobs groups).map Prod.snd = groups ∧
      (∀ slot ∈ groups.flatten, IsPayloadOf pid slot.packet) ∧
      CountsFrom cc (groups.flatten.map Slot.packet) := by
  induction jobs generalizing cc groups with
  | nil =>
      have hnil : groups = [] := by simpa [packetizeAll] using h.symm
      subst hnil
      exact ⟨by simp [sentPes], rfl, rfl, by simp, trivial⟩
  | cons job rest ih =>
      have hone := hstamps job List.mem_cons_self
      have hlen := hfits job List.mem_cons_self
      obtain ⟨pkts, cc', hpackets, -, hspec⟩ :=
        @tsPacketizerWithPcr_spec job.bytes { job.request with pid := pid } cc
          (ne_nil_of_withTimestamps hone) (by omega) hpid (hpcr job List.mem_cons_self)
      have hcontinues := @packetizerCall_continues pid cc
        (.withPcr job.bytes 188 job.request) (pkts, cc') hpackets
      rw [packetizeAll, hpackets, Option.bind_some] at h
      obtain ⟨more, hmore, heq⟩ := Option.map_eq_some_iff.mp h
      obtain ⟨slots, groups, rfl, hslots, hgroups⟩ := List.map_eq_cons_iff.mp heq.symm
      have hslots' : slots.map Slot.packet = pkts := hslots
      rw [← hgroups] at hmore
      obtain ⟨hsent, hfst, hsnd, hpayload, hcounts⟩ := ih
        (fun x hx ↦ hstamps x (List.mem_cons_of_mem job hx))
        (fun x hx ↦ hfits x (List.mem_cons_of_mem job hx))
        (fun x hx ↦ hpcr x (List.mem_cons_of_mem job hx)) hmore
      refine ⟨?_, ?_, ?_, ?_, ?_⟩
      · intro x hx
        simp only [sentPes, List.map_cons, List.zip_cons_cons, List.mem_cons] at hx
        rcases hx with rfl | hx
        · exact ⟨hone, hlen, _, cc, cc', hslots' ▸ hspec⟩
        · exact hsent x hx
      · simpa [sentPes] using hfst
      · simpa [sentPes] using hsnd
      · intro slot hslot
        rcases List.mem_append.mp (List.flatten_cons ▸ hslot) with hmem | hmem
        · exact isPayloadOf_of_packetized hspec _ (hslots' ▸ List.mem_map_of_mem hmem)
        · exact hpayload slot hmem
      · rw [List.flatten_cons, List.map_append, hslots]
        exact countsFrom_append hcontinues.1.counts (countsFrom_congr hcontinues.2 hcounts)

/-- A new extractor in unordered mode holds nothing. -/
theorem holds_configured {pid : ℕ} {bufferMin bufferMax : ℤ} {ctx : Ctx}
    (hint : -2 ^ 31 ≤ bufferMin ∧ bufferMin < 2 ^ 31)
    (hmax : -1 ≤ bufferMax ∧ bufferMax < 2 ^ 31)
    (hnew : pesExtractorAlloc pid true bufferMin bufferMax = some ctx) (pcrPid : Option ℕ) :
    Holds pid ctx.rb.size (configured ctx false false pcrPid) none ∧
      (configured ctx false false pcrPid).libstats.pids = fun _ ↦ PidStatistics.zero := by
  have hfields := alloc_fields hnew
  have hcounted := counted_alloc hint hmax hnew
  have hsize := (alloc_ring hint hmax hnew).2
  have hlt : ctx.rb.size < 2 ^ 31 := by
    unfold orDefault at hsize
    split_ifs at hsize <;> omega
  have hsettings : (configured ctx false false pcrPid).settings =
      ⟨pid, false, true, false, false⟩ := by
    rw [hfields]
    cases pcrPid <;> rfl
  have halone : (configured ctx false false pcrPid).lastCCCounter =
      (configured ctx false false pcrPid).libstats.ccErrors := by
    rw [hfields]
    cases pcrPid <;> rfl
  have happ : (configured ctx false false pcrPid).appending = false := by
    rw [hfields]
    cases pcrPid <;> rfl
  refine ⟨?_, ?_⟩
  · cases pcrPid with
    | none => exact ⟨hcounted.congr rfl rfl, le_rfl, hlt, hsettings, happ, by simp, halone⟩
    | some p => exact ⟨hcounted.congr rfl rfl, le_rfl, hlt, hsettings, happ, by simp, halone⟩
  · rw [hfields]
    cases pcrPid <;> rfl

/-- The callback gets every PES that arrives as a whole and is followed, less those whose count of
bits is lost; the extractor comes to its end. -/
theorem configured_delivery {pid cc : ℕ} {bufferMin bufferMax : ℤ} {ctx : Ctx} {jobs : List Job}
    {groups : List (List Slot)} {calls : List (List Packet)}
    (hint : -2 ^ 31 ≤ bufferMin ∧ bufferMin < 2 ^ 31)
    (hmax : -1 ≤ bufferMax ∧ bufferMax < 2 ^ 31)
    (hnew : pesExtractorAlloc pid true bufferMin bufferMax = some ctx) (hpid : pid ≤ 0x1ffe)
    (pcrPid : Option ℕ) (h : LossyDelivery pid cc bufferMin jobs groups calls) :
    (pesExtractorWrites (configured ctx false false pcrPid) calls).raw =
        (wholeAndFollowed (sentPes jobs groups)).filter (fun b ↦ !decide (CountWraps b)) ∧
      ∃ last, (pesExtractorWrites (configured ctx false false pcrPid) calls).next = .ok last := by
  obtain ⟨hholds, hstats⟩ := holds_configured hint hmax hnew pcrPid
  obtain ⟨hagree, hctx, hopen⟩ := agree_configured hnew false pcrPid
  have hsize := (alloc_ring hint hmax hnew).2
  have hlt : ctx.rb.size < 2 ^ 31 := hholds.room_le.trans_lt hholds.size_lt
  -- the multiplex has the effect of the packets of the pid
  have hcalm := undisturbed_of_clean calls.flatten hholds.alone h.synced (by
    intro p hp
    rw [hstats]
    exact h.clean p (hctx ▸ hp))
  have hown := writeLoop_alike calls.flatten hagree h.synced hcalm
  rw [hctx, h.own] at hown
  -- and these move the extractor as the reassembler
  obtain ⟨hsent, -, hsnd, hpayload, hcounts⟩ := packetizeAll_spec (by omega) hlt h.stamps
    (fun job hjob ↦ by have := h.fits job hjob; omega) h.pcr h.packets
  obtain ⟨hall, hman⟩ := receiveAll_sent (sentPes jobs groups) hsent none (by simp)
  rw [hsnd] at hall hman
  have hstep : InStep ((configured ctx false false pcrPid).libstats.pids pid) 0
      (groups.flatten.map Slot.packet) := by
    rw [hstats]
    exact ⟨cc, hcounts⟩
  obtain ⟨hfollows, last, hlast⟩ := writeLoop_follows (n := 0) (by omega) groups.flatten hholds
    hpayload hstep (fun _ ↦ rfl) (fun k hk ↦ h.runs k (List.mem_append_left _ hk)) hman
  have hnext := hown.next
  rw [hlast] at hnext
  rw [pesExtractorWrites_eq calls hopen]
  refine ⟨?_, ?_⟩
  · rw [hown.raw, hfollows]
    simp only [hall, Option.toList, ite_self, List.nil_append]
  · cases hend : (writeLoop (configured ctx false false pcrPid) calls.flatten).next with
    | ok last => exact ⟨last, rfl⟩
    | error e =>
        rw [hend] at hnext
        cases hnext

theorem raw_of_delivery {pid cc : ℕ} {bufferMin bufferMax : ℤ} {ctx : Ctx} {jobs : List Job}
    {groups : List (List Slot)} {calls : List (List Packet)}
    (hint : -2 ^ 31 ≤ bufferMin ∧ bufferMin < 2 ^ 31)
    (hmax : -1 ≤ bufferMax ∧ bufferMax < 2 ^ 31)
    (hnew : pesExtractorAlloc pid true bufferMin bufferMax = some ctx) (hpid : pid ≤ 0x1ffe)
    (h : LossyDelivery pid cc bufferMin jobs groups calls) :
    (pesExtractorWrites ctx calls).raw =
      (wholeAndFollowed (sentPes jobs groups)).filter fun b ↦ !decide (CountWraps b) := by
  have hplain : configured ctx false false none = ctx := by
    rw [alloc_fields hnew]
    rfl
  have hraw := (configured_delivery hint hmax hnew hpid none h).1
  rwa [hplain] at hraw

/-- Packetized PES arrive at the callback, in order and once each, exactly when all
their packets and the start of the next PES arrive, if and only if none of these
has a count of bits that is lost in an `int`. -/
theorem extraction_exact_iff {pid cc : ℕ} {bufferMin bufferMax : ℤ} {ctx : Ctx}
    {jobs : List Job} {groups : List (List Slot)} {calls : List (List Packet)}
    (hint : -2 ^ 31 ≤ bufferMin ∧ bufferMin < 2 ^ 31)
    (hmax : -1 ≤ bufferMax ∧ bufferMax < 2 ^ 31)
    (hnew : pesExtractorAlloc pid true bufferMin bufferMax = some ctx) (hpid : pid ≤ 0x1ffe)
    (h : LossyDelivery pid cc bufferMin jobs groups calls) :
    (pesExtractorWrites ctx calls).raw = wholeAndFollowed (sentPes jobs groups) ↔
      ∀ b ∈ wholeAndFollowed (sentPes jobs groups), ¬CountWraps b := by
  rw [raw_of_delivery hint hmax hnew hpid h, List.filter_eq_self]
  simp

/-! ## Without losses -/

theorem packetizeAll_isSome {pid room : ℕ} (hpid : pid ≤ 0x1fff) (hroom : room < 2 ^ 31)
    {jobs : List Job} (cc : ℕ) (hstamps : ∀ job ∈ jobs, WithTimestamps job.bytes)
    (hfits : ∀ job ∈ jobs, job.bytes.length ≤ room)
    (hpcr : ∀ job ∈ jobs, job.request.pcr = -1 ∨ 0 ≤ job.request.pcr) :
    ∃ packets, packetizeAll pid cc jobs = some packets := by
  induction jobs generalizing cc with
  | nil => exact ⟨[], rfl⟩
  | cons job rest ih =>
      have hlen := hfits job List.mem_cons_self
      obtain ⟨pkts, cc', hpackets, -⟩ :=
        @tsPacketizerWithPcr_spec job.bytes { job.request with pid := pid } cc
          (ne_nil_of_withTimestamps (hstamps job List.mem_cons_self)) (by omega) hpid
          (hpcr job List.mem_cons_self)
      obtain ⟨more, hmore⟩ := ih cc' (fun x hx ↦ hstamps x (List.mem_cons_of_mem job hx))
        (fun x hx ↦ hfits x (List.mem_cons_of_mem job hx))
        (fun x hx ↦ hpcr x (List.mem_cons_of_mem job hx))
      exact ⟨pkts :: more, by rw [packetizeAll, hpackets, Option.bind_some, hmore]; rfl⟩

/-- Where nothing is lost, all PES but the last are whole and followed. -/
theorem wholeAndFollowed_of_kept {sent : List (List UInt8 × List Slot)}
    (h : ∀ x ∈ sent, x.2 ≠ [] ∧ x.2.all Slot.kept = true) :
    wholeAndFollowed sent = (sent.map Prod.fst).dropLast := by
  induction sent with
  | nil => rfl
  | cons x rest ih =>
      cases rest with
      | nil => rfl
      | cons y rest =>
          have hx := (h x List.mem_cons_self).2
          obtain ⟨hne, hy⟩ := h y (by simp)
          have hhead : headKept y.2 = true := by
            obtain ⟨slot, slots, hslots⟩ := List.exists_cons_of_ne_nil hne
            rw [hslots, List.all_cons, Bool.and_eq_true] at hy
            rw [hslots]
            exact hy.1
          rw [wholeAndFollowed, hx, hhead, ih fun z hz ↦ h z (List.mem_cons_of_mem x hz)]
          rfl

/-- A multiplex of one pid has no errors of another. -/
theorem clean_of_solo {pid : ℕ} {pkts : List Packet} (h : ∀ pkt ∈ pkts, Ts.pid pkt = pid) :
    ∀ p, p ≠ pid → ((onPid p pkts).foldl updatePid PidStatistics.zero).ccErrors = 0 := by
  intro p hp
  have hnone : onPid p pkts = [] :=
    List.filter_eq_nil_iff.mpr fun pkt hpkt ↦ by simp [h pkt hpkt, hp.symm]
  rw [hnone]
  rfl

/-- The packets of all PES, in one call. -/
theorem exists_lossless {pid : ℕ} {bufferMin : ℤ} (hpid : pid ≤ 0x1ffe)
    (hint : bufferMin < 2 ^ 31) {jobs : List Job} (cc : ℕ)
    (hstamps : ∀ job ∈ jobs, WithTimestamps job.bytes)
    (hfits : ∀ job ∈ jobs, (job.bytes.length : ℤ) ≤ orDefault bufferMin (4 * 1048576))
    (hpcr : ∀ job ∈ jobs, job.request.pcr = -1 ∨ 0 ≤ job.request.pcr) :
    ∃ groups calls, LossyDelivery pid cc bufferMin jobs groups calls ∧
      wholeAndFollowed (sentPes jobs groups) = (jobs.map Job.bytes).dropLast := by
  have hroom : (orDefault bufferMin (4 * 1048576)).toNat < 2 ^ 31 := by
    unfold orDefault
    split_ifs <;> omega
  have hfits' : ∀ job ∈ jobs, job.bytes.length ≤ (orDefault bufferMin (4 * 1048576)).toNat :=
    fun job hjob ↦ by have := hfits job hjob; omega
  have hpid' : pid ≤ 0x1fff := by omega
  obtain ⟨packets, hpackets⟩ := packetizeAll_isSome hpid' hroom cc hstamps hfits' hpcr
  generalize hgroups : packets.map (fun pkts ↦ pkts.map (Slot.mk · true)) = groups
  have hunslot : groups.map (fun slots ↦ slots.map Slot.packet) = packets := by
    rw [← hgroups]
    simp [Function.comp_def]
  have hflat : groups.flatten = packets.flatten.map (Slot.mk · true) := by
    rw [← hgroups, List.map_flatten]
  rw [← hunslot] at hpackets
  obtain ⟨hsent, hfst, hsnd, hpayload, -⟩ := packetizeAll_spec hpid' hroom hstamps hfits' hpcr
    hpackets
  have hpkts : ∀ pkt ∈ packets.flatten, IsPayloadOf pid pkt := by
    intro pkt hpkt
    exact hpayload ⟨pkt, true⟩ (hflat ▸ List.mem_map_of_mem hpkt)
  have hcalls : [packets.flatten].flatten = packets.flatten := by simp
  refine ⟨groups, [packets.flatten], ⟨hstamps, hfits, hpcr, hpackets, ?_, ?_, ?_, ?_⟩, ?_⟩
  · rw [hflat, removedRuns_of_kept]
    simp
  · rw [hcalls, hflat, survivors_of_kept]
    exact List.filter_eq_self.mpr fun pkt hpkt ↦ by simp [(hpkts pkt hpkt).2.1]
  · rw [hcalls]
    exact fun pkt hpkt ↦ (hpkts pkt hpkt).1
  · rw [hcalls]
    exact clean_of_solo fun pkt hpkt ↦ (hpkts pkt hpkt).2.1
  · rw [wholeAndFollowed_of_kept, hfst]
    intro x hx
    obtain ⟨hx', -, r, c, c', hpacketized⟩ := hsent x hx
    refine ⟨?_, ?_⟩
    · intro hnil
      rw [hnil] at hpacketized
      exact ne_nil_of_withTimestamps hx' hpacketized.payload_flatten.symm
    · have hmem : x.2 ∈ groups := hsnd ▸ List.mem_map_of_mem hx
      rw [← hgroups] at hmem
      obtain ⟨pkts, -, hpkts⟩ := List.mem_map.mp hmem
      rw [← hpkts]
      simp

/-! ## Examples -/

def plainPes (n : ℕ) (v : UInt8) : List UInt8 :=
  [0, 0, 1, 0xe0, 0, 0, 0x80, 0, 0] ++ List.replicate n v

theorem length_plainPes (n : ℕ) (v : UInt8) : (plainPes n v).length = n + 9 := by
  simp only [plainPes, List.length_append, List.length_cons, List.length_nil,
    List.length_replicate]
  omega

theorem timestampBytes_plainPes (n : ℕ) (v : UInt8) : timestampBytes (plainPes n v) = 0 := by
  simp [timestampBytes, plainPes]

theorem withTimestamps_plainPes {n : ℕ} (v : UInt8) (h : 7 ≤ n) :
    WithTimestamps (plainPes n v) where
  sixteen_le := by
    rw [length_plainPes]
    omega
  start_code := rfl
  optional_header := rfl
  no_other_field := rfl
  payload := by
    rw [timestampBytes_plainPes, length_plainPes]
    omega

theorem countWraps_plainPes (n : ℕ) (v : UInt8) :
    CountWraps (plainPes n v) ↔ (n + 9) % 2 ^ 29 = 0 := by
  have hannounced : BitReader.fieldAt (plainPes n v) 32 16 = 0 := by
    simp [BitReader.fieldAt, BitReader.bitAt, plainPes]
  have hend : stampsEnd (plainPes n v) = 9 := by
    have hle := @stampsEnd_le (plainPes n v) rfl
    rw [timestampBytes_plainPes] at hle
    omega
  unfold CountWraps
  rw [timestampBytes_plainPes, hend, hannounced, length_plainPes]
  omega

/-- Four PES of 16 bytes. -/
def sampleJobs : List Job :=
  [⟨plainPes 7 1, 0, -1, false, false, by decide⟩, ⟨plainPes 7 2, 0, 301, true, false, by decide⟩,
    ⟨plainPes 7 3, 0, -1, false, true, by decide⟩, ⟨plainPes 7 4, 0, -1, false, false, by decide⟩]

/-- Their packets, of which the third is lost. -/
def sampleGroups : List (List Slot) :=
  ((packetizeAll 256 15 sampleJobs).getD []).zipWith
    (fun pkts kept ↦ pkts.map (Slot.mk · kept)) [true, true, false, true]

theorem sample_delivery :
    LossyDelivery 256 15 1000 sampleJobs sampleGroups [survivors sampleGroups.flatten] ∧
      wholeAndFollowed (sentPes sampleJobs sampleGroups) = [plainPes 7 1] := by
  have hfacts : packetizeAll 256 15 sampleJobs =
      some (sampleGroups.map fun slots ↦ slots.map Slot.packet) ∧
      (∀ k ∈ removedRuns sampleGroups.flatten, k % 16 ≠ 0) ∧
      (∀ pkt ∈ survivors sampleGroups.flatten, Ts.syncPresent pkt = true ∧ Ts.pid pkt = 256) ∧
      wholeAndFollowed (sentPes sampleJobs sampleGroups) = [plainPes 7 1] := by
    decide +kernel
  obtain ⟨hpackets, hruns, hpkts, hwhole⟩ := hfacts
  have hcalls : [survivors sampleGroups.flatten].flatten = survivors sampleGroups.flatten := by simp
  refine ⟨⟨by decide +kernel, by decide +kernel, by decide +kernel, hpackets, hruns, ?_, ?_, ?_⟩,
    hwhole⟩
  · rw [hcalls]
    exact List.filter_eq_self.mpr fun pkt hpkt ↦ by simp [(hpkts pkt hpkt).2]
  · rw [hcalls]
    exact fun pkt hpkt ↦ (hpkts pkt hpkt).1
  · rw [hcalls]
    exact clean_of_solo fun pkt hpkt ↦ (hpkts pkt hpkt).2

/-- The first PES is delivered; the second is whole, but not followed. -/
theorem extraction_exact_sample :
    (pesExtractorWrites (smallExtractor false) [survivors sampleGroups.flatten]).raw =
      [plainPes 7 1] := by
  obtain ⟨hdelivery, hwhole⟩ := sample_delivery
  have hexact := extraction_exact_iff (by decide) (by decide) smallExtractor_alloc (by decide)
    hdelivery
  rw [hwhole] at hexact
  exact hexact.mpr (by decide +kernel)

/-- A PES of `2^29` bytes and no announced length is not delivered, although it
arrives as a whole and is followed. -/
theorem long_pes_not_delivered :
    ∃ ctx groups calls,
      pesExtractorAlloc 256 true (2 ^ 29) (2 ^ 29) = some ctx ∧
      LossyDelivery 256 0 (2 ^ 29)
        [⟨plainPes (2 ^ 29 - 9) 0, 0, -1, false, false, by decide⟩,
          ⟨plainPes 7 0, 0, -1, false, false, by decide⟩] groups calls ∧
      wholeAndFollowed (sentPes
        [⟨plainPes (2 ^ 29 - 9) 0, 0, -1, false, false, by decide⟩,
          ⟨plainPes 7 0, 0, -1, false, false, by decide⟩] groups) =
        [plainPes (2 ^ 29 - 9) 0] ∧
      (pesExtractorWrites ctx calls).raw = [] := by
  have hlong : (2 ^ 29 - 9 + 9) % 2 ^ 29 = 0 ∧ 7 ≤ 2 ^ 29 - 9 ∧ 2 ^ 29 - 9 + 9 = 2 ^ 29 := by
    norm_num
  generalize 2 ^ 29 - 9 = n at hlong
  obtain ⟨hwraps, hseven, hlen⟩ := hlong
  obtain ⟨ctx, hnew, -⟩ := @pesExtractorAlloc_isSome 256 true (2 ^ 29) (2 ^ 29) (by decide)
    (by decide) (by decide)
  obtain ⟨groups, calls, hdelivery, hwhole⟩ := @exists_lossless 256 (2 ^ 29) (by norm_num)
    (by norm_num) [⟨plainPes n 0, 0, -1, false, false, by decide⟩,
      ⟨plainPes 7 0, 0, -1, false, false, by decide⟩] 0
    (by
      simp only [List.mem_cons, List.not_mem_nil, or_false, forall_eq_or_imp, forall_eq]
      exact ⟨withTimestamps_plainPes 0 hseven, withTimestamps_plainPes 0 le_rfl⟩)
    (by
      simp only [List.mem_cons, List.not_mem_nil, or_false, forall_eq_or_imp, forall_eq,
        length_plainPes, orDefault]
      omega)
    (by simp)
  refine ⟨ctx, groups, calls, hnew, hdelivery, hwhole, ?_⟩
  rw [raw_of_delivery (by norm_num) (by norm_num) hnew (by norm_num) hdelivery, hwhole]
  simp [(countWraps_plainPes n 0).mpr hwraps]

end LtnTsTools.PesExtractor
