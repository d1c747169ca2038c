import LtnTsTools.SectionExtractor

/-!
# How sections travel

Sections of a table and the packets that carry them: a packet carries further bytes of a
section that began before it, and sections that begin in it.  If some begin, it is marked as
a start and a pointer field tells how far the first of them is; what the sections leave over
is padded.  Nothing here depends on the extractor; the modules behind this one feed such
packets to it.
-/

namespace LtnTsTools.SectionExtractor

/-- The total length in a section header: three bytes and the twelve bits of
`section_length`. -/
def headerLength (bytes : List UInt8) : ℕ :=
  (((bytes.getD 1 0).toNat <<< 8 ||| (bytes.getD 2 0).toNat) &&& 0xfff) + 3

structure TableSection (tableID : ℕ) where
  bytes : List UInt8
  tableID_eq : (bytes.getD 0 0).toNat = tableID
  length_eq : headerLength bytes = bytes.length
  length_le : bytes.length ≤ 4096
deriving DecidableEq

theorem three_le_headerLength (bytes : List UInt8) : 3 ≤ headerLength bytes := by
  unfold headerLength
  omega

theorem TableSection.length_pos {tableID : ℕ} (sec : TableSection tableID) :
    0 < sec.bytes.length := by
  have hthree := three_le_headerLength sec.bytes
  have hlen := sec.length_eq
  omega

theorem headerLength_congr {bytes bytes' : List UInt8} (h : bytes.take 3 = bytes'.take 3) :
    headerLength bytes = headerLength bytes' := by
  have hget : ∀ i < 3, bytes[i]? = bytes'[i]? := by
    intro i hi
    rw [← List.getElem?_take_of_lt hi, h, List.getElem?_take_of_lt hi]
  simp only [headerLength, List.getD_eq_getElem?_getD, hget 1 (by omega), hget 2 (by omega)]

variable {pid tableID : ℕ}

/-- Bytes of a section that travel in one packet. -/
structure Piece (tableID : ℕ) where
  source : TableSection tableID
  pos : ℕ
  carried : ℕ
  carried_pos : 0 < carried
  carried_le : pos + carried ≤ source.bytes.length
deriving DecidableEq

namespace Piece

def bytes (y : Piece tableID) : List UInt8 := (y.source.bytes.drop y.pos).take y.carried

/-- Section bytes not carried before this piece. -/
def remaining (y : Piece tableID) : ℕ := y.source.bytes.length - y.pos

def IsLast (y : Piece tableID) : Prop := y.carried = y.remaining

instance (y : Piece tableID) : Decidable y.IsLast :=
  inferInstanceAs (Decidable (_ = _))

/-- The order of pieces on the wire: the rest of the same section, or the start of another
one behind the last piece. -/
def Follows (x y : Piece tableID) : Prop :=
  if x.IsLast then y.pos = 0 else y.source = x.source ∧ y.pos = x.pos + x.carried

instance (x y : Piece tableID) : Decidable (x.Follows y) :=
  inferInstanceAs (Decidable (ite _ _ _))

theorem length_bytes (y : Piece tableID) : y.bytes.length = y.carried := by
  have hle := y.carried_le
  rw [bytes, List.length_take, List.length_drop]
  omega

theorem pos_add_remaining (y : Piece tableID) :
    y.pos + y.remaining = y.source.bytes.length := by
  have hle := y.carried_le
  unfold remaining
  omega

theorem carried_le_remaining (y : Piece tableID) : y.carried ≤ y.remaining := by
  have hle := y.carried_le
  unfold remaining
  omega

def whole (sec : TableSection tableID) : Piece tableID where
  source := sec
  pos := 0
  carried := sec.bytes.length
  carried_pos := sec.length_pos
  carried_le := (Nat.zero_add _).le

end Piece

/-- What a packet carries: further bytes of a section that began before, if there are any,
and then sections that begin here. -/
structure Load (tableID : ℕ) where
  further : Option (Piece tableID)
  starts : List (Piece tableID)
  further_pos : ∀ y ∈ further, y.pos ≠ 0
  starts_pos : ∀ y ∈ starts, y.pos = 0
deriving DecidableEq

namespace Load

/-- The load of a packet in which no section goes on. -/
def starting (starts : List (Piece tableID)) (hpos : ∀ y ∈ starts, y.pos = 0) : Load tableID :=
  ⟨none, starts, by simp, hpos⟩

def pieces (l : Load tableID) : List (Piece tableID) := l.further.toList ++ l.starts

def bytes (l : Load tableID) : List UInt8 := l.pieces.flatMap Piece.bytes

/-- The bytes in front of the first section that begins. -/
def furtherLength (l : Load tableID) : ℕ := (l.further.map Piece.carried).getD 0

/-- The piece that a pointer field shows, or else the one that the payload begins with. -/
def front (l : Load tableID) : Option (Piece tableID) := l.starts.head?.or l.further

/-- The bytes behind those in front of the first piece shown begin with this piece. -/
theorem drop_bytes (l : Load tableID) {y : Piece tableID} (hy : y ∈ l.front) :
    (l.starts = [] ∧ ∃ rest, l.bytes = y.bytes ++ rest) ∨
      l.starts ≠ [] ∧ ∃ before rest, l.bytes = before ++ (y.bytes ++ rest) ∧
        before.length = l.furtherLength := by
  unfold front at hy
  cases hstarts : l.starts with
  | nil =>
      rw [hstarts] at hy
      have hfurther : l.further = some y := hy
      exact .inl ⟨rfl, [], by simp [bytes, pieces, hfurther, hstarts]⟩
  | cons z rest =>
      rw [hstarts] at hy
      obtain rfl : z = y := Option.some.inj hy
      refine .inr ⟨List.cons_ne_nil _ _, l.further.toList.flatMap Piece.bytes,
        rest.flatMap Piece.bytes, by simp [bytes, pieces, hstarts], ?_⟩
      cases hfurther : l.further with
      | none => simp [furtherLength, hfurther]
      | some x => simp [furtherLength, hfurther, x.length_bytes]

/-- A further piece in front shows that no section begins. -/
theorem starts_eq_nil {l : Load tableID} {y : Piece tableID} (hy : y ∈ l.front)
    (hpos : y.pos ≠ 0) : l.starts = [] ∧ l.further = some y := by
  unfold front at hy
  cases hstarts : l.starts with
  | nil =>
      rw [hstarts] at hy
      exact ⟨rfl, hy⟩
  | cons z rest =>
      rw [hstarts] at hy
      obtain rfl : z = y := Option.some.inj hy
      exact absurd (l.starts_pos z (by simp [hstarts])) hpos

theorem starts_eq_cons {l : Load tableID} {y : Piece tableID} (hy : y ∈ l.front)
    (hpos : y.pos = 0) : ∃ rest, l.starts = y :: rest := by
  unfold front at hy
  cases hstarts : l.starts with
  | nil =>
      rw [hstarts] at hy
      exact absurd hpos (l.further_pos y hy)
  | cons z rest =>
      rw [hstarts] at hy
      obtain rfl : z = y := Option.some.inj hy
      exact ⟨rest, rfl⟩

end Load

/-- Where the bytes of sections begin: behind the adaption field, and on a start behind the
pointer field. -/
def payloadStart (pkt : Packet) : ℕ :=
  if Ts.payloadUnitStartIndicator pkt then Ts.payloadOffset pkt + 1 else Ts.payloadOffset pkt

/-- A packet of the pid, with what it carries. -/
structure Part (pid tableID : ℕ) where
  packet : Packet
  load : Load tableID
  sync : Ts.syncPresent packet = true
  pid_eq : Ts.pid packet = pid
  start_iff : Ts.payloadUnitStartIndicator packet = !load.starts.isEmpty
  pointer_eq : load.starts ≠ [] → packet.byte (Ts.payloadOffset packet) = load.furtherLength
  fits : payloadStart packet + load.bytes.length ≤ 188
  payload_eq : packet.bytes.drop (payloadStart packet) =
    (load.bytes ++ List.replicate 188 0xff).take (188 - payloadStart packet)
  /-- A section is only left before its end when the packet is full. -/
  full : ∀ y ∈ load.pieces.getLast?, ¬y.IsLast → payloadStart packet + load.bytes.length = 188
deriving DecidableEq

namespace Part

/-- Behind the start position lie the bytes of the piece in front. -/
theorem drop_startOf (x : Part pid tableID) {y : Piece tableID} (hy : y ∈ x.load.front) :
    ∃ rest, x.packet.bytes.drop (startOf x.packet) = y.bytes ++ rest := by
  obtain ⟨padding, hpayload⟩ : ∃ padding,
      x.packet.bytes.drop (payloadStart x.packet) = x.load.bytes ++ padding := by
    have hfits := x.fits
    rw [x.payload_eq, List.take_append, List.take_of_length_le (by omega)]
    exact ⟨_, rfl⟩
  rcases x.load.drop_bytes hy with ⟨hnone, rest, hbytes⟩ | ⟨hsome, before, rest, hbytes, hlen⟩
  · have hstart : startOf x.packet = payloadStart x.packet := by
      simp [startOf, payloadStart, x.start_iff, hnone]
    rw [hstart, hpayload, hbytes]
    exact ⟨rest ++ padding, List.append_assoc _ _ _⟩
  · have hstart : startOf x.packet = payloadStart x.packet + before.length := by
      have hyes : Ts.payloadUnitStartIndicator x.packet = true := by simp [x.start_iff, hsome]
      rw [startOf, payloadStart, if_pos hyes, if_pos hyes, x.pointer_eq hsome, hlen]
      omega
    rw [hstart, ← List.drop_drop, hpayload, hbytes, List.append_assoc, List.drop_left,
      List.append_assoc]
    exact ⟨rest ++ padding, rfl⟩

theorem carried_le (x : Part pid tableID) {y : Piece tableID} (hy : y ∈ x.load.front) :
    startOf x.packet + y.carried ≤ 188 := by
  obtain ⟨rest, hdrop⟩ := x.drop_startOf hy
  have hlen := congrArg List.length hdrop
  rw [List.length_drop, x.packet.length_bytes, List.length_append, y.length_bytes] at hlen
  have hpos := y.carried_pos
  omega

theorem slice_eq (x : Part pid tableID) {y : Piece tableID} (hy : y ∈ x.load.front) :
    (x.packet.bytes.drop (startOf x.packet)).take y.carried =
      (y.source.bytes.drop y.pos).take y.carried := by
  obtain ⟨rest, hdrop⟩ := x.drop_startOf hy
  rw [hdrop, List.take_left' y.length_bytes]
  rfl

theorem byte_eq (x : Part pid tableID) {y : Piece tableID} (hy : y ∈ x.load.front) {i : ℕ}
    (h : i < y.carried) :
    x.packet.byte (startOf x.packet + i) = (y.source.bytes.getD (y.pos + i) 0).toNat := by
  have hslice := congrArg (fun l ↦ l[i]?) (x.slice_eq hy)
  simp only [List.getElem?_take, List.getElem?_drop, if_pos h] at hslice
  simp only [Packet.byte, List.getD_eq_getElem?_getD, hslice]

/-- A start has room for its pointer field. -/
theorem payloadOffset_lt (x : Part pid tableID)
    (hstart : Ts.payloadUnitStartIndicator x.packet = true) :
    Ts.payloadOffset x.packet < 188 := by
  have hfits := x.fits
  rw [payloadStart, if_pos hstart] at hfits
  omega

end Part

def piecesOf (parts : List (Part pid tableID)) : List (Piece tableID) :=
  parts.flatMap fun x ↦ x.load.pieces

@[simp] theorem piecesOf_append {as bs : List (Part pid tableID)} :
    piecesOf (as ++ bs) = piecesOf as ++ piecesOf bs := List.flatMap_append

@[simp] theorem piecesOf_singleton {x : Part pid tableID} : piecesOf [x] = x.load.pieces := by
  simp [piecesOf]

/-- Packets as they may be seen on the wire from the start of a section on. -/
def Conforming (parts : List (Part pid tableID)) : Prop :=
  (∀ y ∈ (piecesOf parts).head?, y.pos = 0) ∧ (piecesOf parts).IsChain Piece.Follows

instance (parts : List (Part pid tableID)) : Decidable (Conforming parts) :=
  inferInstanceAs (Decidable (_ ∧ _))

theorem Conforming.of_append {a b : List (Part pid tableID)} (h : Conforming (a ++ b)) :
    Conforming a := by
  obtain ⟨hhead, hchain⟩ := h
  rw [piecesOf_append] at hhead hchain
  refine ⟨fun y hy ↦ hhead y ?_, hchain.left_of_append⟩
  rw [Option.mem_def] at hy ⊢
  rw [List.head?_append, hy, Option.some_or]

/-- The last piece seen decides the next one. -/
theorem Conforming.follows {parts : List (Part pid tableID)} {x : Part pid tableID}
    {z y : Piece tableID} {rest : List (Piece tableID)} (h : Conforming (parts ++ [x]))
    (hz : (piecesOf parts).getLast? = some z) (hy : x.load.pieces = y :: rest) : z.Follows y := by
  obtain ⟨init, hinit⟩ := List.getLast?_eq_some_iff.mp hz
  have hchain := h.2
  rw [piecesOf_append, piecesOf_singleton, hinit, hy, List.append_assoc] at hchain
  have htail := hchain.right_of_append
  simp only [List.cons_append, List.nil_append, List.isChain_cons_cons] at htail
  exact htail.1

/-- Behind a section that goes on in the next packet nothing begins. -/
theorem Conforming.eq_last {parts : List (Part pid tableID)} {x : Part pid tableID}
    {y : Piece tableID} {rest : List (Piece tableID)} (h : Conforming (parts ++ [x]))
    (hy : x.load.starts = y :: rest) (hmore : ¬y.IsLast) :
    x.load.pieces.getLast? = some y := by
  have hrest : rest = [] := by
    cases rest with
    | nil => rfl
    | cons z later =>
        have hchain := h.2
        rw [piecesOf_append, piecesOf_singleton, Load.pieces, hy] at hchain
        have hfollows := hchain.right_of_append.right_of_append
        rw [List.isChain_cons_cons, Piece.Follows, if_neg hmore] at hfollows
        have hpos := x.load.starts_pos z (by simp [hy])
        have hcarried := y.carried_pos
        omega
  rw [Load.pieces, hy, hrest]
  exact List.getLast?_append_of_ne_nil _ (List.cons_ne_nil _ _)

/-- A packet of the multiplex: one of another pid, or a part of a section. -/
inductive Item (pid tableID : ℕ)
  | other (packet : Packet) (h : Ts.pid packet ≠ pid)
  | part (x : Part pid tableID)
deriving DecidableEq

namespace Item

def packet : Item pid tableID → Packet
  | other packet _ => packet
  | part x => x.packet

def part? : Item pid tableID → Option (Part pid tableID)
  | other _ _ => none
  | part x => some x

end Item

def partsOf (items : List (Item pid tableID)) : List (Part pid tableID) :=
  items.filterMap Item.part?

@[simp] theorem partsOf_nil : partsOf ([] : List (Item pid tableID)) = [] := rfl

@[simp] theorem partsOf_other {packet : Packet} {h : Ts.pid packet ≠ pid}
    {items : List (Item pid tableID)} : partsOf (.other packet h :: items) = partsOf items := rfl

@[simp] theorem partsOf_part {x : Part pid tableID} {items : List (Item pid tableID)} :
    partsOf (.part x :: items) = x :: partsOf items := rfl

@[simp] theorem partsOf_append {as bs : List (Item pid tableID)} :
    partsOf (as ++ bs) = partsOf as ++ partsOf bs := List.filterMap_append

/-- A section of twelve bytes with a checksum that holds. -/
def sampleSection : TableSection 0xfc where
  bytes := [0xfc, 0x00, 0x09, 1, 2, 3, 4, 5, 0x85, 0x71, 0x9a, 0xc4]
  tableID_eq := by decide
  length_eq := by decide
  length_le := by decide

def samplePart : Part 0x100 0xfc where
  packet := samplePacket 0x40 0x10 (0 :: sampleSection.bytes ++ List.replicate 171 0xff)
  load := .starting [.whole sampleSection] (by decide)
  sync := by decide +kernel
  pid_eq := by decide +kernel
  start_iff := by decide +kernel
  pointer_eq := by decide +kernel
  fits := by decide +kernel
  payload_eq := by decide +kernel
  full := by decide +kernel

end LtnTsTools.SectionExtractor
