import LtnTsTools.SectionCarriage

/-!
# Reassembling one section

A section is fed to a new extractor, packet by packet, and then queried with a
buffer of its own length.  The header bytes in the buffer always announce the
length the extractor works with, and a query answers with three bytes more than
that; so the answer is never the section.
-/

namespace LtnTsTools.SectionExtractor

open Region

variable {pid tableID : ℕ}

/-- Writes the packets one by one and collects the two flags of each call. -/
def feed : Ctx → List Packet → Option (Ctx × List (Bool × Bool))
  | ctx, [] => some (ctx, [])
  | ctx, pkt :: rest => (sectionextractorWrite ctx [pkt] false).bind fun s ↦
      (feed s.ctx rest).map fun out ↦ (out.1, (s.complete, s.crcValid) :: out.2)

/-- The packets of one section and no more: they conform, each carries one piece of it, and
only the one at the end is its last. -/
def Carriage (sec : TableSection tableID) (parts : List (Part pid tableID)) : Prop :=
  Conforming parts ∧ (∀ x ∈ parts, ∃ y, x.load.pieces = [y] ∧ y.source = sec) ∧
    ∃ init z, piecesOf parts = init ++ [z] ∧ z.IsLast ∧ ∀ y ∈ init, ¬y.IsLast

/-- The section comes out: the end of it, and nothing before, is reported, the
flag of the check tells whether it leaves no remainder, and a query into a
buffer of its length returns that length and its bytes. -/
def Reassembled (ctx : Ctx) (items : List (Item pid tableID)) (sec : TableSection tableID) :
    Prop :=
  ∃ ctx' flags last, feed ctx (items.map Item.packet) = some (ctx', flags ++ [last]) ∧
    (∀ f ∈ flags, f.1 = false) ∧ last.1 = true ∧
    (last.2 = true ↔ Crc32.remainder sec.bytes = 0) ∧
    ∃ q, sectionextractorQuery ctx' sec.bytes.length = some q ∧
      q.ret = sec.bytes.length ∧ q.dst = sec.bytes

/-! ## The header in the buffer -/

/-- Either nothing has been started yet, or the buffer holds the header of the
section the lengths are about. -/
def HoldsHeader (ctx : Ctx) : Prop :=
  headerLength ctx.sectionBuf = ctx.sectionLength ∧ 3 ≤ ctx.sectionLengthCurrent

def HeaderInv (s : WriteState) : Prop :=
  (s.ctx.complete = false ∧ s.ctx.appending = false ∧ s.complete = false) ∨ HoldsHeader s.ctx

theorem holdsHeader_afterCopy {s : WriteState} {ctx : Ctx} {buf : List UInt8} {n : ℕ}
    (hhead : headerLength buf = ctx.sectionLength) (hlen : 3 ≤ ctx.sectionLengthCurrent + n) :
    HoldsHeader (afterCopy s ctx buf n).ctx := by
  unfold afterCopy
  simp only
  split_ifs <;> exact ⟨hhead, hlen⟩

/-- The first three bytes of a section, once stored, announce its length. -/
theorem headerLength_of_begin {pkt : Packet} {buf buf' : List UInt8}
    (hread : startOf pkt + min (announcedLength pkt) 183 ≤ 188)
    (hstore : store buf 0 ((pkt.bytes.drop (startOf pkt)).take (min (announcedLength pkt) 183)) =
      some buf') :
    headerLength buf' = announcedLength pkt := by
  have hlen := length_slice pkt hread
  have hthree := three_le_announcedLength pkt
  have hget : ∀ i < 3, (buf'.getD i 0).toNat = pkt.byte (startOf pkt + i) := by
    intro i hi
    have hat : buf'[i]? = pkt.bytes[startOf pkt + i]? := by
      rw [getElem?_of_store hstore, if_pos (by omega), Nat.sub_zero,
        List.getElem?_take_of_lt (by omega), List.getElem?_drop]
    rw [List.getD_eq_getElem?_getD, hat, Packet.byte, List.getD_eq_getElem?_getD]
  unfold headerLength announcedLength
  rw [hget 1 (by omega), hget 2 (by omega)]

theorem headerLength_of_store {buf buf' src : List UInt8} {off : ℕ} (hoff : 3 ≤ off)
    (hstore : store buf off src = some buf') : headerLength buf' = headerLength buf := by
  have hget : ∀ i < 3, buf'.getD i 0 = buf.getD i 0 := by
    intro i hi
    rw [List.getD_eq_getElem?_getD, getElem?_of_store hstore, if_neg (by omega),
      List.getD_eq_getElem?_getD]
  simp only [headerLength, hget 1 (by omega), hget 2 (by omega)]

theorem headerInv_writePacket {s r : WriteState} {pkt : Packet} (h : HeaderInv s)
    (hr : writePacket pkt.bytes s pkt = some r) : HeaderInv r := by
  rcases writePacket_cases hr with rfl | rfl | ⟨-, -, hr⟩ | ⟨happ, -, hr⟩
  · exact h
  · rcases h with ⟨-, -, hnone⟩ | hheld
    · exact .inl ⟨rfl, rfl, hnone⟩
    · exact .inr hheld
  · obtain ⟨hread, hroom⟩ := appendSection_isSome_iff.mp ⟨r, hr⟩
    obtain ⟨buf, hbuf, heq⟩ := @appendSection_eq s _ pkt _ _ hread hroom
    rw [hr, Option.some.injEq] at heq
    have hthree := three_le_announcedLength pkt
    rw [heq]
    refine .inr (holdsHeader_afterCopy (headerLength_of_begin hread hbuf) ?_)
    simp only [begun]
    omega
  · obtain ⟨hread, hroom⟩ := appendSection_isSome_iff.mp ⟨r, hr⟩
    obtain ⟨buf, hbuf, heq⟩ := @appendSection_eq s _ pkt _ _ hread hroom
    rw [hr, Option.some.injEq] at heq
    rw [heq]
    rcases h with ⟨-, hidle, -⟩ | ⟨hhead, hlen⟩
    · simp [hidle] at happ
    · exact .inr (holdsHeader_afterCopy ((headerLength_of_store hlen hbuf).trans hhead)
        (by omega))

theorem headerInv_write {ctx : Ctx} {pkt : Packet} {s : WriteState}
    (h : HeaderInv (callEntry ctx false))
    (hs : sectionextractorWrite ctx [pkt] false = some s) :
    HeaderInv (callEntry s.ctx false) := by
  obtain ⟨s', hloop, rfl⟩ := Option.map_eq_some_iff.mp hs
  have hinv : HeaderInv s' := by
    obtain ⟨⟨t, u⟩, hturn, ht⟩ := Option.bind_eq_some_iff.mp hloop
    rw [writeLoop, Option.some.injEq] at ht
    subst ht
    unfold writeTurn at hturn
    split_ifs at hturn with hpid
    · rw [Option.some.injEq, Prod.mk.injEq] at hturn
      exact hturn.1 ▸ h
    · obtain ⟨t', ht', heq⟩ := Option.map_eq_some_iff.mp hturn
      rw [Prod.mk.injEq] at heq
      exact heq.1 ▸ headerInv_writePacket h ht'
  unfold latchComplete
  rcases hinv with ⟨hc, ha, hnone⟩ | hheld
  · rw [if_neg (by simp [hnone])]
    exact .inl ⟨hc, ha, rfl⟩
  · split_ifs <;> exact .inr hheld

theorem headerInv_feed {pkts : List Packet} {ctx : Ctx} {out : Ctx × List (Bool × Bool)}
    (h : HeaderInv (callEntry ctx false)) (hfeed : feed ctx pkts = some out) :
    HeaderInv (callEntry out.1 false) := by
  induction pkts generalizing ctx out with
  | nil =>
      rw [feed, Option.some.injEq] at hfeed
      exact hfeed ▸ h
  | cons pkt rest ih =>
      obtain ⟨s, hs, hfeed⟩ := Option.bind_eq_some_iff.mp hfeed
      obtain ⟨out', hout', rfl⟩ := Option.map_eq_some_iff.mp hfeed
      exact @ih _ out' (headerInv_write h hs) hout'

/-- An answered query returns three bytes more than the header at its front
announces. -/
theorem query_header {ctx : Ctx} {n : ℤ} {q : QueryResult} (h : HeaderInv (callEntry ctx false))
    (hq : sectionextractorQuery ctx n = some q) (hok : q.ret ≠ -1) :
    q.ret = headerLength q.dst + 3 := by
  unfold sectionextractorQuery at hq
  split_ifs at hq with hrefused
  · rw [Option.some.injEq] at hq
    exact absurd (by rw [← hq]) hok
  · obtain ⟨bytes, hload, rfl⟩ := Option.map_eq_some_iff.mp hq
    have hcomplete : ctx.complete = true := by
      simpa using (not_or.mp hrefused).1
    rcases h with ⟨hno, -, -⟩ | ⟨hhead, -⟩
    · exact absurd (hcomplete.symm.trans hno) (by simp)
    · replace hhead : headerLength ctx.sectionBuf = ctx.sectionLength := hhead
      have hin : 0 + (ctx.sectionLength + 3) ≤ ctx.sectionBuf.length :=
        load_isSome_iff.mp (by rw [hload]; rfl)
      rw [load_eq_some hin, Option.some.injEq] at hload
      have hsame : headerLength bytes = headerLength ctx.sectionBuf := by
        apply headerLength_congr
        rw [← hload, List.drop_zero, List.take_take, min_eq_left (by omega)]
      simp only [hsame, hhead]

/-- No section comes out of a new extractor, whatever parts of it and packets of
other pids are written: an answer of its length has the header of a section
that is three bytes shorter. -/
theorem section_never_reassembled (memory : List UInt8) (sec : TableSection tableID)
    (items : List (Item pid tableID)) :
    ¬Reassembled (sectionextractorAlloc pid tableID memory) items sec := by
  rintro ⟨ctx', flags, last, hfeed, -, -, -, q, hq, hret, hdst⟩
  have hinv := headerInv_feed (.inl ⟨rfl, rfl, rfl⟩) hfeed
  have hheader := query_header hinv hq (by omega)
  rw [hdst, sec.length_eq, hret] at hheader
  omega

/-- The section is found and its checksum accepted, but the query for twelve
bytes is refused. -/
theorem sample_section_not_reassembled :
    12 ≤ sampleSection.bytes.length ∧ Carriage sampleSection (partsOf [.part samplePart]) ∧
    ¬Reassembled (sectionextractorAlloc 0x100 0xfc blankMemory)
      [.part samplePart] sampleSection := by
  have hpieces : samplePart.load.pieces = [.whole sampleSection] := rfl
  refine ⟨by decide, ⟨by decide +kernel, ?_, [], .whole sampleSection, rfl, by decide +kernel,
    by simp⟩, ?_⟩
  · simp only [partsOf_part, partsOf_nil, List.mem_singleton, forall_eq]
    exact ⟨_, hpieces, rfl⟩
  rintro ⟨ctx', flags, last, hfeed, -, -, -, q, hq, hret, -⟩
  have hrefused : ∀ out ∈ feed (sectionextractorAlloc 0x100 0xfc blankMemory)
      [samplePart.packet], ∀ q ∈ sectionextractorQuery out.1 12, q.ret = -1 := by
    decide +kernel
  have hminus := hrefused _ hfeed q hq
  rw [hret] at hminus
  exact absurd hminus (by decide)

end LtnTsTools.SectionExtractor
