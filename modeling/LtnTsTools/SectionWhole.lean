import LtnTsTools.SectionCarriage

/-!
# A complete section is whole

Conforming packets, grouped into calls in any way, against what a call reports
as complete.  The extractor copies at most 183 bytes from a packet, and from a
start only what lies behind the pointer field; it takes any packet with the
right byte in front for the start of a section, and latches the end of a section
over the rest of the call.  The conditions below say when none of this shows;
under them the section behind every report is one that has been received to its
end.
-/

namespace LtnTsTools.SectionExtractor

open Region PartialMachine

variable {pid tableID : ℕ}

/-- The number of bytes the code takes from a piece, were it to take it. -/
def Piece.taken (y : Piece tableID) : ℕ := min y.remaining 183

/-- The extractor gets this packet right.  While it is appending, no section
begins in the packet, and it carries just the bytes of the section that are
taken.  While it is idle and the packet is not passed over, there is a byte at
the position it looks at, and only the first piece of a section looks like one,
carries the bytes that are taken, and announces no more than a query can
return. -/
def TakenWhole (s : WriteState) (x : Part pid tableID) : Prop :=
  (s.ctx.appending = true → ∃ y ∈ x.load.front, y.pos ≠ 0 ∧ y.carried = y.taken) ∧
    (s.ctx.appending = false → s.ctx.complete = false →
      ¬(Ts.payloadUnitStartIndicator x.packet = true ∧ 180 ≤ startOf x.packet) →
      startOf x.packet < 188 ∧
        (x.packet.byte (startOf x.packet) = tableID →
          ∃ y ∈ x.load.front, y.pos = 0 ∧ y.carried = y.taken ∧
            y.source.bytes.length + 3 ≤ bufferSize))

instance (s : WriteState) (x : Part pid tableID) : Decidable (TakenWhole s x) :=
  inferInstanceAs (Decidable (_ ∧ _))

def ItemTakenWhole (s : WriteState) : Item pid tableID → Prop
  | .other _ _ => True
  | .part x => TakenWhole s x

instance (s : WriteState) : (item : Item pid tableID) → Decidable (ItemTakenWhole s item)
  | .other _ _ => inferInstanceAs (Decidable True)
  | .part x => inferInstanceAs (Decidable (TakenWhole s x))

def itemTurn (s : WriteState) (item : Item pid tableID) : Option (WriteState × Unit) :=
  writeTurn s item.packet

/-! ## One packet -/

def HoldsSection (ctx : Ctx) (received : List (Part pid tableID)) : Prop :=
  ∃ y ∈ piecesOf received, y.IsLast ∧ ctx.sectionLength = y.source.bytes.length ∧
    ctx.sectionLength + 3 ≤ bufferSize ∧
    ctx.sectionBuf.take ctx.sectionLength = y.source.bytes

/-- The buffer holds the section the last piece belongs to, up to this piece. -/
def HoldsPrefix (ctx : Ctx) (received : List (Part pid tableID)) : Prop :=
  ∃ y, (piecesOf received).getLast? = some y ∧ ¬y.IsLast ∧
    ctx.sectionLength = y.source.bytes.length ∧ ctx.sectionLength + 3 ≤ bufferSize ∧
    ctx.sectionLengthCurrent = y.pos + y.carried ∧
    ctx.sectionBuf.take ctx.sectionLengthCurrent = y.source.bytes.take ctx.sectionLengthCurrent

/-- The state between two packets, over those received so far. -/
structure Assembling (s : WriteState) (received : List (Part pid tableID)) : Prop where
  pid_eq : s.ctx.pid = pid
  table_eq : s.ctx.tableID = tableID
  length_buf : s.ctx.sectionBuf.length = bufferSize
  appending : s.ctx.appending = true → s.ctx.complete = false ∧ HoldsPrefix s.ctx received
  settled : s.ctx.appending = false → s.ctx.complete = true ∨ s.complete = true →
    HoldsSection s.ctx received

theorem HoldsSection.append {ctx : Ctx} {received more : List (Part pid tableID)}
    (h : HoldsSection ctx received) : HoldsSection ctx (received ++ more) := by
  obtain ⟨y, hy, hlast, hlen, hroom, hbytes⟩ := h
  refine ⟨y, ?_, hlast, hlen, hroom, hbytes⟩
  rw [piecesOf_append]
  exact List.mem_append_left _ hy

theorem mem_pieces_of_front {l : Load tableID} {y : Piece tableID} (hy : y ∈ l.front) :
    y ∈ l.pieces := by
  by_cases hpos : y.pos = 0
  · obtain ⟨rest, hstarts⟩ := Load.starts_eq_cons hy hpos
    simp [Load.pieces, hstarts]
  · simp [Load.pieces, (Load.starts_eq_nil hy hpos).2]

/-- Copying the bytes a piece carries, behind those of its section that are
already there.  A piece that does not end its section is the last of its packet. -/
theorem assembling_append {s : WriteState} {ctx : Ctx} {received : List (Part pid tableID)}
    {x : Part pid tableID} {y : Piece tableID} (hy : y ∈ x.load.front)
    (hmore : ¬y.IsLast → x.load.pieces.getLast? = some y) (hpid : ctx.pid = pid)
    (htable : ctx.tableID = tableID) (hbuf : ctx.sectionBuf.length = bufferSize)
    (happ : ctx.appending = true) (hcomplete : ctx.complete = false)
    (hlen : ctx.sectionLength = y.source.bytes.length) (hroom : ctx.sectionLength + 3 ≤ bufferSize)
    (hcur : ctx.sectionLengthCurrent = y.pos)
    (hfront : ctx.sectionBuf.take y.pos = y.source.bytes.take y.pos) :
    ∃ r, appendSection s ctx x.packet.bytes (startOf x.packet) y.carried = some r ∧
      Assembling r (received ++ [x]) := by
  have hpos := y.pos_add_remaining
  have hrem := y.carried_le_remaining
  have hcarried := x.carried_le hy
  obtain ⟨buf, hstore, happend⟩ := @appendSection_eq s ctx x.packet
    (startOf x.packet) y.carried hcarried (by omega)
  have hslice := length_slice x.packet hcarried
  have hnew : buf.take (y.pos + y.carried) = y.source.bytes.take (y.pos + y.carried) := by
    have htake := take_of_store hstore
    rw [hslice, hcur, hfront, x.slice_eq hy] at htake
    rw [htake, List.take_add]
  have hlength : buf.length = bufferSize := (length_of_store hstore).trans hbuf
  refine ⟨_, happend, ?_⟩
  unfold afterCopy
  simp only
  split_ifs with hend
  · have hlast : y.IsLast := by
      unfold Piece.IsLast
      omega
    refine ⟨hpid, htable, hlength, by simp, fun _ _ ↦ ?_⟩
    refine ⟨y, ?_, hlast, hlen, hroom, ?_⟩
    · rw [piecesOf_append, piecesOf_singleton]
      exact List.mem_append_right _ (mem_pieces_of_front hy)
    · simp only
      rw [hend, hcur, hnew, List.take_of_length_le (by omega)]
  · have hlast : ¬y.IsLast := by
      unfold Piece.IsLast
      omega
    refine ⟨hpid, htable, hlength, fun _ ↦ ⟨hcomplete, ?_⟩, by simp [happ]⟩
    refine ⟨y, ?_, hlast, hlen, hroom, by simp [hcur], ?_⟩
    · rw [piecesOf_append, piecesOf_singleton, List.getLast?_append, hmore hlast]
      rfl
    · simp only
      rw [hcur, hnew]

/-- A packet that is passed over leaves a settled state settled. -/
theorem assembling_ignore {s r : WriteState} {received : List (Part pid tableID)}
    {x : Part pid tableID} (h : Assembling s received) (hidle : s.ctx.appending = false)
    (hr : r = { s with crcValid := false } ∨ r = resetSection s) :
    Assembling r (received ++ [x]) := by
  rcases hr with rfl | rfl
  · refine ⟨h.pid_eq, h.table_eq, h.length_buf, by simp [hidle], fun _ hdone ↦ ?_⟩
    exact (h.settled hidle hdone).append
  · refine ⟨h.pid_eq, h.table_eq, h.length_buf, by simp [resetSection], fun _ hdone ↦ ?_⟩
    have hdone' : s.complete = true := by simpa [resetSection] using hdone
    exact (h.settled hidle (.inr hdone')).append

/-- The header of a section is read from its first piece. -/
theorem announcedLength_of_first {x : Part pid tableID} {y : Piece tableID}
    (hy : y ∈ x.load.front) (hpos : y.pos = 0) (hlen : 3 ≤ y.carried) :
    announcedLength x.packet = y.source.bytes.length := by
  have h1 := x.byte_eq hy (i := 1) (by omega)
  have h2 := x.byte_eq hy (i := 2) (by omega)
  rw [hpos, Nat.zero_add] at h1 h2
  rw [← y.source.length_eq, announcedLength, headerLength, h1, h2]

/-- A further piece of the section that is there: no section begins in its packet, so the
offset is not checked, and what it carries is what the extractor expects of it. -/
theorem assembling_further {s : WriteState} {received : List (Part pid tableID)}
    {x : Part pid tableID} (h : Assembling s received) (hconf : Conforming (received ++ [x]))
    (htaken : TakenWhole s x) (happ : s.ctx.appending = true) :
    Ts.payloadUnitStartIndicator x.packet = false ∧ s.ctx.complete = false ∧
      ∃ r, appendSection s s.ctx x.packet.bytes (startOf x.packet) (continuationLength s.ctx) =
          some r ∧
        Assembling r (received ++ [x]) := by
  obtain ⟨hcomplete, z, hz, hmore, hlen, hroom, hcur, hfront⟩ := h.appending happ
  obtain ⟨y, hy, hpos, hcarried⟩ := htaken.1 happ
  obtain ⟨hstarts, hfurther⟩ := Load.starts_eq_nil hy hpos
  have hpieces : x.load.pieces = [y] := by simp [Load.pieces, hstarts, hfurther]
  have hfollows := hconf.follows hz hpieces
  rw [Piece.Follows, if_neg hmore] at hfollows
  obtain ⟨hsource, hnext⟩ := hfollows
  refine ⟨by simp [x.start_iff, hstarts], hcomplete, ?_⟩
  rw [← hnext] at hcur
  have hcount : continuationLength s.ctx = y.carried := by
    rw [continuationLength_eq, hcarried, Piece.taken, Piece.remaining, hsource, hlen, hcur]
  rw [hcount]
  refine assembling_append hy (fun _ ↦ by rw [hpieces]; rfl) h.pid_eq h.table_eq h.length_buf happ
    hcomplete ?_ hroom hcur ?_
  · rw [hlen, hsource]
  · rw [← hcur, hfront, hsource]

/-- The first piece of a section: the header that it carries announces the length,
and the copy starts in front. -/
theorem assembling_first {s : WriteState} {received : List (Part pid tableID)}
    {x : Part pid tableID} {y : Piece tableID} (h : Assembling s received)
    (hconf : Conforming (received ++ [x])) (hy : y ∈ x.load.front) (hpos : y.pos = 0)
    (hcarried : y.carried = y.taken) (hroom : y.source.bytes.length + 3 ≤ bufferSize) :
    ∃ r, ((beginSection s.ctx x.packet.bytes (startOf x.packet)).bind fun begun ↦
        appendSection s begun.1 x.packet.bytes (startOf x.packet) begun.2) = some r ∧
      Assembling r (received ++ [x]) := by
  have hrem : y.remaining = y.source.bytes.length := by
    rw [Piece.remaining, hpos, Nat.sub_zero]
  have hthree := three_le_headerLength y.source.bytes
  rw [y.source.length_eq] at hthree
  have hcount : min y.source.bytes.length 183 = y.carried := by
    rw [hcarried, Piece.taken, hrem]
  have hfits := x.carried_le hy
  have hlen := announcedLength_of_first hy hpos (by omega)
  obtain ⟨rest, hstarts⟩ := Load.starts_eq_cons hy hpos
  rw [beginSection_eq (by omega), Option.bind_some, hlen, hcount]
  exact assembling_append hy (hconf.eq_last hstarts) h.pid_eq h.table_eq h.length_buf rfl rfl rfl
    hroom hpos.symm (by rw [hpos]; rfl)

theorem assembling_part {s : WriteState} {received : List (Part pid tableID)}
    {x : Part pid tableID} (h : Assembling s received) (hconf : Conforming (received ++ [x]))
    (htaken : TakenWhole s x) :
    ∃ r, writePacket x.packet.bytes s x.packet = some r ∧ Assembling r (received ++ [x]) := by
  unfold writePacket
  rw [if_neg (by simp [x.sync]), sectionOffset_eq x.payloadOffset_lt, Option.bind_some]
  cases happ : s.ctx.appending with
  | true =>
      obtain ⟨hnostart, hcomplete, hfurther⟩ := assembling_further h hconf htaken happ
      rw [if_neg (by simp [hnostart]), if_neg (by simp), if_pos ⟨rfl, hcomplete⟩]
      exact hfurther
  | false =>
      by_cases hfar : Ts.payloadUnitStartIndicator x.packet = true ∧ 180 ≤ startOf x.packet
      · rw [if_pos hfar]
        exact ⟨_, rfl, assembling_ignore h happ (.inl rfl)⟩
      · rw [if_neg hfar]
        cases hcomplete : s.ctx.complete with
        | true =>
            rw [if_neg (by simp), if_neg (by simp)]
            exact ⟨_, rfl, assembling_ignore h happ (.inr rfl)⟩
        | false =>
            obtain ⟨hstart, hfirst⟩ := htaken.2 happ hcomplete hfar
            rw [if_pos ⟨rfl, rfl⟩, readByte_of_lt hstart, Option.bind_some]
            by_cases htable : x.packet.byte (startOf x.packet) = s.ctx.tableID
            · rw [if_pos htable]
              obtain ⟨y, hy, hpos, hcarried, hroom⟩ := hfirst (htable.trans h.table_eq)
              exact assembling_first h hconf hy hpos hcarried hroom
            · rw [if_neg htable]
              exact ⟨_, rfl, assembling_ignore h happ (.inr rfl)⟩

/-! ## One call -/

theorem assembling_turn {s : WriteState} {received : List (Part pid tableID)}
    {item : Item pid tableID} (h : Assembling s received)
    (hconf : Conforming (received ++ partsOf [item])) (htaken : ItemTakenWhole s item) :
    ∃ r, itemTurn s item = some (r, ()) ∧ Assembling r (received ++ partsOf [item]) := by
  cases item with
  | other packet hother =>
      refine ⟨s, ?_, by simpa using h⟩
      rw [itemTurn, writeTurn, if_pos (by rw [h.pid_eq]; exact hother)]
  | part x =>
      obtain ⟨r, hr, hnext⟩ := assembling_part h hconf htaken
      refine ⟨r, ?_, hnext⟩
      have hpid : Ts.pid x.packet = s.ctx.pid := by rw [x.pid_eq, h.pid_eq]
      simp [itemTurn, writeTurn, Item.packet, hpid, hr]

theorem assembling_loop {items : List (Item pid tableID)} {s : WriteState}
    {received : List (Part pid tableID)} (h : Assembling s received)
    (hconf : Conforming (received ++ partsOf items))
    (htaken : Meets itemTurn ItemTakenWhole s items) :
    ∃ r, writeLoop s (items.map Item.packet) = some r ∧
      Assembling r (received ++ partsOf items) := by
  induction items generalizing s received with
  | nil => exact ⟨s, rfl, by simpa using h⟩
  | cons item rest ih =>
      have hsplit : received ++ partsOf (item :: rest) =
          (received ++ partsOf [item]) ++ partsOf rest := by
        rw [List.append_assoc, ← partsOf_append, List.singleton_append]
      rw [hsplit] at hconf ⊢
      obtain ⟨s', hturn, hnext⟩ := assembling_turn h hconf.of_append htaken.1
      obtain ⟨r, hr, hend⟩ := ih hnext hconf (htaken.tail hturn)
      refine ⟨r, ?_, hend⟩
      rw [itemTurn] at hturn
      rw [List.map_cons, writeLoop, hturn, Option.bind_some, hr]

/-! ## Runs -/

/-- A write of packets of the multiplex, or a query. -/
inductive Event (pid tableID : ℕ)
  | write (items : List (Item pid tableID)) (crcValid : Bool)
  | query (lengthBytes : ℤ)

def Event.items : Event pid tableID → List (Item pid tableID)
  | write items _ => items
  | query _ => []

def eventStep (st : Ctx × List (Part pid tableID)) :
    Event pid tableID → Option ((Ctx × List (Part pid tableID)) × Report)
  | .write items crcValid =>
      (callStep st.1 (.write (items.map Item.packet) crcValid)).map fun r ↦
        ((r.1, st.2 ++ partsOf items), r.2)
  | .query lengthBytes => (callStep st.1 (.query lengthBytes)).map fun r ↦ ((r.1, st.2), r.2)

/-- Every packet is taken whole, and a call that has completed a section does not
end in the middle of another one. -/
def EventTakenWhole (st : Ctx × List (Part pid tableID)) : Event pid tableID → Prop
  | .write items crcValid =>
      Meets itemTurn ItemTakenWhole (callEntry st.1 crcValid) items ∧
        ∀ s ∈ writeLoop (callEntry st.1 crcValid) (items.map Item.packet),
          s.complete = true → s.ctx.appending = false
  | .query _ => True

instance (st : Ctx × List (Part pid tableID)) :
    (event : Event pid tableID) → Decidable (EventTakenWhole st event)
  | .write items crcValid => inferInstanceAs (Decidable
      (Meets itemTurn ItemTakenWhole (callEntry st.1 crcValid) items ∧
        ∀ s ∈ writeLoop (callEntry st.1 crcValid) (items.map Item.packet),
          s.complete = true → s.ctx.appending = false))
  | .query _ => inferInstanceAs (Decidable True)

/-- A query into a large enough buffer is answered, and the bytes of the section
it copies are those of one that has been received to its end. -/
def AnswersWhole (st : Ctx × List (Part pid tableID)) : Prop :=
  ∀ n : ℤ, st.1.sectionLength + 3 ≤ n → n < 2 ^ 31 →
    ∃ q, sectionextractorQuery st.1 n = some q ∧ q.ret = st.1.sectionLength + 3 ∧
      ∃ y ∈ piecesOf st.2, y.IsLast ∧ q.dst.take st.1.sectionLength = y.source.bytes

/-- Whenever a write reports a complete section, a query would give it. -/
def ReportsWhole (_ : Ctx × List (Part pid tableID)) (_ : Event pid tableID)
    (r : (Ctx × List (Part pid tableID)) × Report) : Prop :=
  r.2.complete = true → AnswersWhole r.1

theorem answersWhole_of_holds {ctx : Ctx} {received : List (Part pid tableID)}
    (hbuf : ctx.sectionBuf.length = bufferSize) (hcomplete : ctx.complete = true)
    (h : HoldsSection ctx received) : AnswersWhole (ctx, received) := by
  obtain ⟨x, hx, hlast, hlen, hroom, hbytes⟩ := h
  intro n hn hmax
  have hmod : n % 2 ^ 32 = n := Int.emod_eq_of_lt (by omega) (by omega)
  have hquery := sectionextractorQuery_eq hcomplete (by rw [hmod]; exact hn)
    (by rw [hbuf]; exact hroom)
  refine ⟨_, hquery, rfl, x, hx, hlast, ?_⟩
  simp only
  rw [List.take_take, min_eq_left (by omega), hbytes]

theorem Assembling.entry {s : WriteState} {received : List (Part pid tableID)} (crcValid : Bool)
    (h : Assembling s received) : Assembling (callEntry s.ctx crcValid) received :=
  ⟨h.pid_eq, h.table_eq, h.length_buf, h.appending, fun hidle hdone ↦
    h.settled hidle (.inl (by simpa [callEntry] using hdone))⟩

/-- Conformity of what is still to come is conformity in order. -/
theorem meets_inOrder (events : List (Event pid tableID)) (st : Ctx × List (Part pid tableID))
    (h : Conforming (st.2 ++ partsOf (events.flatMap Event.items))) :
    Meets eventStep (fun st event ↦ Conforming (st.2 ++ partsOf event.items)) st events := by
  induction events generalizing st with
  | nil => trivial
  | cons event rest ih =>
      rw [List.flatMap_cons, partsOf_append, ← List.append_assoc] at h
      refine ⟨h.of_append, ?_⟩
      cases hstep : eventStep st event with
      | none => trivial
      | some r =>
          have hreceived : r.1.2 = st.2 ++ partsOf event.items := by
            cases event with
            | write items crcValid =>
                obtain ⟨c, -, rfl⟩ := Option.map_eq_some_iff.mp hstep
                rfl
            | query lengthBytes =>
                obtain ⟨c, -, rfl⟩ := Option.map_eq_some_iff.mp hstep
                simp [Event.items]
          exact ih r.1 (by rw [hreceived]; exact h)

theorem event_reports_whole (st : Ctx × List (Part pid tableID)) (event : Event pid tableID)
    (h : Assembling (callEntry st.1 false) st.2)
    (horder : Conforming (st.2 ++ partsOf event.items)) (htaken : EventTakenWhole st event) :
    ∃ r, eventStep st event = some r ∧ ReportsWhole st event r ∧
      Assembling (callEntry r.1.1 false) r.1.2 := by
  cases event with
  | write items crcValid =>
      obtain ⟨hparts, hend⟩ := htaken
      obtain ⟨s, hloop, hs⟩ := assembling_loop (h.entry crcValid) horder hparts
      replace hloop : writeLoop (callEntry st.1 crcValid) (items.map Item.packet) = some s := hloop
      have hstep : eventStep st (.write items crcValid) =
          some (((latchComplete s).ctx, st.2 ++ partsOf items),
            .written (latchComplete s).complete (latchComplete s).crcValid
              (latchComplete s).ret) := by
        simp only [eventStep, callStep, sectionextractorWrite, hloop, Option.map_some]
      refine ⟨_, hstep, ?_⟩
      unfold latchComplete ReportsWhole
      split_ifs with hcomplete
      · have hidle := hend s hloop hcomplete
        have hholds := hs.settled hidle (.inr hcomplete)
        refine ⟨fun _ ↦ answersWhole_of_holds hs.length_buf rfl hholds, hs.pid_eq, hs.table_eq,
          hs.length_buf, by simp [callEntry, hidle], fun _ _ ↦ hholds⟩
      · exact ⟨fun hno ↦ absurd hno hcomplete, hs.entry false⟩
  | query lengthBytes =>
      by_cases hrefused : st.1.complete = false ∨ lengthBytes % 2 ^ 32 < st.1.sectionLength + 3
      · refine ⟨(st, .queried (-1) []), ?_, by simp [ReportsWhole, Report.complete], h⟩
        rw [eventStep, callStep, sectionextractorQuery, if_pos hrefused]
        rfl
      · obtain ⟨hcomplete, hn⟩ : st.1.complete = true ∧
            st.1.sectionLength + 3 ≤ lengthBytes % 2 ^ 32 := by
          simpa [not_or] using hrefused
        have hidle : st.1.appending = false := by
          by_contra happ
          have hno := (h.appending (Bool.of_not_eq_false happ)).1
          exact absurd (hcomplete.symm.trans hno) (by simp)
        obtain ⟨x, -, -, -, hroom, -⟩ := h.settled hidle (.inl hcomplete)
        have hbuf : st.1.sectionBuf.length = bufferSize := h.length_buf
        replace hroom : st.1.sectionLength + 3 ≤ bufferSize := hroom
        have hquery := sectionextractorQuery_eq hcomplete hn (by rw [hbuf]; exact hroom)
        refine ⟨(({ st.1 with complete := false, appending := false }, st.2),
          .queried (st.1.sectionLength + 3) (st.1.sectionBuf.take (st.1.sectionLength + 3))),
          by simp only [eventStep, callStep, hquery, Option.map_some],
          by simp [ReportsWhole, Report.complete], ?_⟩
        exact ⟨h.pid_eq, h.table_eq, h.length_buf, by simp [callEntry], by simp [callEntry]⟩

/-- From a new extractor, on conforming packets grouped in any way and with
queries in between: if every packet is taken whole, every report of a complete
section is one of a whole section. -/
theorem complete_section_is_whole (memory : List UInt8) (events : List (Event pid tableID))
    (hmem : memory.length = bufferSize)
    (hconf : Conforming (partsOf (events.flatMap Event.items)))
    (htaken : Meets eventStep EventTakenWhole (sectionextractorAlloc pid tableID memory, [])
      events) :
    Safe eventStep ReportsWhole (sectionextractorAlloc pid tableID memory, []) events := by
  have hinit : Assembling (callEntry (sectionextractorAlloc pid tableID memory) false)
      ([] : List (Part pid tableID)) :=
    ⟨rfl, rfl, hmem, by simp [callEntry, sectionextractorAlloc],
      by simp [callEntry, sectionextractorAlloc]⟩
  have horder := meets_inOrder events (sectionextractorAlloc pid tableID memory, [])
    (by simpa using hconf)
  exact safe_of_step (fun st ↦ Assembling (callEntry st.1 false) st.2)
    (fun st event hst hguard ↦ event_reports_whole st event hst hguard.1 hguard.2)
    events _ hinit (horder.and htaken)

/-- A section of 400 bytes. -/
def longSection : TableSection 0xfc where
  bytes := [0xfc, 0x01, 0x8d] ++ List.replicate 396 0x07 ++ [0x08]
  tableID_eq := by decide +kernel
  length_eq := by decide +kernel
  length_le := by decide +kernel

/-- What stays for a section behind the header of its packet and a pointer field. -/
theorem first_room : 0 < 183 := by decide

def longFirst : Part 0x100 0xfc where
  packet := samplePacket 0x40 0x10 (0 :: longSection.bytes.take 183)
  load := .starting [⟨longSection, 0, 183, first_room, by decide +kernel⟩] (by decide)
  sync := by decide +kernel
  pid_eq := by decide +kernel
  start_iff := by decide +kernel
  pointer_eq := by decide +kernel
  fits := by decide +kernel
  payload_eq := by decide +kernel
  full := by decide +kernel

/-- The second packet of the long section, filled without an adaption field. -/
def longSecond : Part 0x100 0xfc where
  packet := samplePacket 0 0x10 ((longSection.bytes.drop 183).take 184)
  load := ⟨some ⟨longSection, 183, 184, by decide, by decide +kernel⟩, [], by decide, by decide⟩
  sync := by decide +kernel
  pid_eq := by decide +kernel
  start_iff := by decide +kernel
  pointer_eq := by decide +kernel
  fits := by decide +kernel
  payload_eq := by decide +kernel
  full := by decide +kernel

def longThird : Part 0x100 0xfc where
  packet := samplePacket 0 0x10 (longSection.bytes.drop 367 ++ List.replicate 151 0xff)
  load := ⟨some ⟨longSection, 367, 33, by decide, by decide +kernel⟩, [], by decide, by decide⟩
  sync := by decide +kernel
  pid_eq := by decide +kernel
  start_iff := by decide +kernel
  pointer_eq := by decide +kernel
  fits := by decide +kernel
  payload_eq := by decide +kernel
  full := by decide +kernel

/-- A section of 200 bytes. -/
def spanningSection : TableSection 0xfc where
  bytes := [0xfc, 0x00, 0xc5] ++ List.replicate 197 0x09
  tableID_eq := by decide +kernel
  length_eq := by decide +kernel
  length_le := by decide +kernel

def spanningFirst : Part 0x100 0xfc where
  packet := samplePacket 0x40 0x10 (0 :: spanningSection.bytes.take 183)
  load := .starting [⟨spanningSection, 0, 183, first_room, by decide +kernel⟩] (by decide)
  sync := by decide +kernel
  pid_eq := by decide +kernel
  start_iff := by decide +kernel
  pointer_eq := by decide +kernel
  fits := by decide +kernel
  payload_eq := by decide +kernel
  full := by decide +kernel

/-- The last seventeen bytes of the section, in a packet of their own. -/
def spanningLast : Part 0x100 0xfc where
  packet := samplePacket 0 0x10 (spanningSection.bytes.drop 183 ++ List.replicate 167 0xff)
  load := ⟨some ⟨spanningSection, 183, 17, by decide, by decide +kernel⟩, [], by decide, by decide⟩
  sync := by decide +kernel
  pid_eq := by decide +kernel
  start_iff := by decide +kernel
  pointer_eq := by decide +kernel
  fits := by decide +kernel
  payload_eq := by decide +kernel
  full := by decide +kernel

/-- Those seventeen bytes behind a pointer field, and two short sections behind them. -/
def spanningShared : Part 0x100 0xfc where
  packet := samplePacket 0x40 0x10 (17 :: spanningSection.bytes.drop 183 ++ sampleSection.bytes ++
    sampleSection.bytes ++ List.replicate 142 0xff)
  load := ⟨some ⟨spanningSection, 183, 17, by decide, by decide +kernel⟩,
    [.whole sampleSection, .whole sampleSection], by decide, by decide⟩
  sync := by decide +kernel
  pid_eq := by decide +kernel
  start_iff := by decide +kernel
  pointer_eq := by decide +kernel
  fits := by decide +kernel
  payload_eq := by decide +kernel
  full := by decide +kernel

/-- A section of two packets in a call, and a query; a short section, the beginning of the
long one, which the extractor misses, and a packet with its end in front of two others. -/
def sampleEvents : List (Event 0x100 0xfc) :=
  [.write [.part spanningFirst, .part spanningLast] false, .query 256,
    .write [.part samplePart] false, .write [.part spanningFirst] false,
    .write [.part spanningShared, .part samplePart] false, .query 64]

-- elaborating the application evaluates the run
set_option maxRecDepth 20000 in
theorem complete_section_is_whole_sample :
    (trace eventStep (sectionextractorAlloc 0x100 0xfc blankMemory, []) sampleEvents).map
        (fun r ↦ r.2.map Report.complete) = some [true, false, true, false, true, false] ∧
      Safe eventStep ReportsWhole
        (sectionextractorAlloc 0x100 0xfc blankMemory, []) sampleEvents :=
  ⟨by decide +kernel, complete_section_is_whole blankMemory sampleEvents
    length_blankMemory (by decide +kernel) (by decide +kernel)⟩

/-- A reported section is not whole if a query shows bytes of none that has been
received to its end. -/
theorem not_safe_of_answer {st : Ctx × List (Part pid tableID)} {event : Event pid tableID}
    (h : ∀ r ∈ eventStep st event, r.2.complete = true ∧ r.1.1.sectionLength + 3 ≤ 4096 ∧
      ∀ q ∈ sectionextractorQuery r.1.1 4096, ∀ y ∈ piecesOf r.1.2, y.IsLast →
        q.dst.take r.1.1.sectionLength ≠ y.source.bytes) :
    ¬Safe eventStep ReportsWhole st [event] := by
  rw [safe_singleton]
  rintro ⟨r, hr, hgood⟩
  obtain ⟨hcomplete, hroom, hnone⟩ := h r hr
  obtain ⟨q, hq, -, y, hy, hlast, hbytes⟩ := hgood hcomplete 4096 (by omega) (by norm_num)
  exact hnone q hq y hy hlast hbytes

/-- Three reports of sections that have not been received.  A call of two short
sections and the first packet of a long one reports the end of the first and
leaves the beginning of the third in the buffer; the long section on its own is
reported with a byte of its second packet missing and a byte of padding at its
end; and a section whose end lies in front of another one is completed with bytes
of that one. -/
theorem torn_section_reported :
    (Conforming (partsOf [.part samplePart, .part samplePart, .part longFirst]) ∧
      ¬Safe eventStep ReportsWhole
        (sectionextractorAlloc 0x100 0xfc blankMemory, [])
        [.write [.part samplePart, .part samplePart, .part longFirst] false]) ∧
    (Conforming (partsOf [.part longFirst, .part longSecond, .part longThird]) ∧
      ¬Safe eventStep ReportsWhole
        (sectionextractorAlloc 0x100 0xfc blankMemory, [])
        [.write [.part longFirst, .part longSecond, .part longThird] false]) ∧
    Conforming (partsOf [.part spanningFirst, .part spanningShared]) ∧
      ¬Safe eventStep ReportsWhole
        (sectionextractorAlloc 0x100 0xfc blankMemory, [])
        [.write [.part spanningFirst, .part spanningShared] false] :=
  ⟨⟨by decide +kernel, not_safe_of_answer (by decide +kernel)⟩,
    ⟨by decide +kernel, not_safe_of_answer (by decide +kernel)⟩,
    by decide +kernel, not_safe_of_answer (by decide +kernel)⟩

end LtnTsTools.SectionExtractor
