import LtnTsTools.MachineBank
import LtnTsTools.SectionExtractor

/-!
# The section checks

The model of `streammodel-extractors.c`: an array of section extractors, nine for the tables
on fixed pids and one for each pid of a program map table.  The packets are handed out by a
`switch` over the pid whose numbers are places in the array, and every complete section is
reported to the callback with the verdict about its checksum.  In the array a callback is
tagged with the place of its item; the code of the callback does not see it.

The extractors are given a pointer into the caller's buffer, so what they read behind a packet
is the next packets, and at last the memory behind the buffer.
-/

namespace LtnTsTools.SectionChecks

open SectionExtractor PartialMachine MachineBank

/-- `STREAMMODEL_CB_CONTEXT_PAT` and the contexts behind it. -/
inductive CbContext
  | pat
  | pmt
  | cat
  | sdt
  | bat
  | nit
  | tot
  | eit
deriving DecidableEq

/-- `struct streammodel_callback_args_s`, without the pointer, which is null. -/
structure CallbackArgs where
  status : ℕ
  context : CbContext
  arg : Bool
deriving DecidableEq

/-- `STREAMMODEL_CB_CRC_STATUS`. -/
def cbCrcStatus : ℕ := 1

/-- `struct se_array_item_s`; its packet count is never used. -/
structure SeArrayItem where
  pid : ℕ
  tableId : ℕ
  name : String
  hdl : Ctx
  complete : Bool
  crcValid : Bool
  context : CbContext

/-- What a successful allocation finds in its memory: the section of the extractor and the two
flags of the item. -/
structure Memory where
  buffer : List UInt8
  length_buffer : buffer.length = bufferSize
  complete : Bool
  crcValid : Bool

/-- What `extractors_add` is asked for. -/
structure TableRequest where
  pid : ℕ
  tableId : ℕ
  name : String
  context : CbContext
deriving DecidableEq

def newItem (r : TableRequest) (m : Memory) : SeArrayItem where
  pid := r.pid
  tableId := r.tableId
  name := r.name
  hdl := sectionextractorAlloc r.pid r.tableId m.buffer
  complete := m.complete
  crcValid := m.crcValid
  context := r.context

/-- `extractors_add`.  Without memory for the extractor the array loses its last item, and an
array without items its memory: `none`. -/
def extractorsAdd (items : List SeArrayItem) (r : TableRequest) (granted : Option Memory) :
    Option (List SeArrayItem) :=
  if r.tableId = 0x02 ∧ ((items.drop 9).any fun item ↦ item.pid == r.pid) = true then some items
  else
    match granted with
    | some m => some (items ++ [newItem r m])
    | none => if items = [] then none else some items.dropLast

/-- The tables of `extractors_alloc`, in the order that the `switch` of `extractors_write`
relies on. -/
def fixedTables : List TableRequest :=
  [⟨0x00, 0x00, "PAT", .pat⟩, ⟨0x10, 0x40, "NIT", .nit⟩, ⟨0x11, 0x4A, "BAT", .bat⟩,
    ⟨0x11, 0x42, "SDT", .sdt⟩, ⟨0x12, 0x4E, "EIT", .eit⟩, ⟨0x12, 0x4F, "EIT", .eit⟩,
    ⟨0x12, 0x5F, "EIT", .eit⟩, ⟨0x12, 0x6F, "EIT", .eit⟩, ⟨0x14, 0x73, "TOT", .tot⟩]

/-- Several calls of `extractors_add`, with the memory for each of them. -/
def extractorsAddAll (items : List SeArrayItem) (requests : List (TableRequest × Option Memory)) :
    Option (List SeArrayItem) :=
  requests.foldlM (fun items r ↦ extractorsAdd items r.1 r.2) items

/-- `extractors_alloc`. -/
def extractorsAlloc (memory : Fin 9 → Option Memory) : Option (List SeArrayItem) :=
  extractorsAddAll [] (fixedTables.zip (List.ofFn memory))

/-- A packet in a buffer, with the bytes behind it that an extractor can get to. -/
structure Window where
  packet : Packet
  behind : List UInt8
deriving DecidableEq

def Window.mem (w : Window) : List UInt8 := w.packet.bytes ++ w.behind

/-- How far behind its packet an extractor reads at most. -/
def windowSize : ℕ := 255

def windowsOf (behind : ℕ → UInt8) : List Packet → List Window
  | [] => []
  | p :: rest =>
      ⟨p, (List.range windowSize).map fun i ↦
        UInt8.ofNat (Ts.bufferByte behind (p :: rest) (188 + i))⟩ :: windowsOf behind rest

/-- `ltntstools_sectionextractor_write` of one packet of a buffer. -/
def sectionextractorWriteOne (ctx : Ctx) (w : Window) (crcValid : Bool) : Option WriteState :=
  if Ts.pid w.packet ≠ ctx.pid then some (callEntry ctx crcValid)
  else (writePacket w.mem (callEntry ctx crcValid) w.packet).map latchComplete

/-- `_write_pkt`. -/
def writePkt (item : SeArrayItem) (w : Window) : Option (SeArrayItem × List CallbackArgs) :=
  (sectionextractorWriteOne item.hdl w item.crcValid).map fun s ↦
    ({ item with hdl := s.ctx, complete := s.complete, crcValid := s.crcValid },
      if s.complete then [⟨cbCrcStatus, item.context, s.crcValid⟩] else [])

/-- The `switch` of `extractors_write`. -/
def route (seCount : ℕ) (pkt : Packet) : List ℕ :=
  if Ts.pid pkt = 0x00 then [0]
  else if Ts.pid pkt = 0x10 then [1]
  else if Ts.pid pkt = 0x11 then [2, 3]
  else if Ts.pid pkt = 0x12 then [4, 5, 6, 7]
  else if Ts.pid pkt = 0x14 then [8]
  else List.range' 9 (seCount - 9)

/-- The `switch` on the packet of a window. -/
def routeWindow (seCount : ℕ) (w : Window) : List ℕ := route seCount w.packet

/-- `extractors_write`. -/
def extractorsWrite (items : List SeArrayItem) (windows : List Window) :
    Option (List SeArrayItem × List (ℕ × CallbackArgs)) :=
  (trace (give writePkt routeWindow) items windows).map fun r ↦ (r.1, r.2.flatten)

/-- The request of `cb_pat` for a program. -/
def pmtRequest (pid : ℕ) : TableRequest := ⟨pid, 0x02, "PMT", .pmt⟩

/-- A call of `ltntstools_streammodel_write` as the section checks see it: its packets and the
memory behind them, the pids that `cb_pat` adds, and the memory for new items. -/
structure CheckCall where
  pkts : List Packet
  behind : ℕ → UInt8
  added : List (ℕ × Option Memory)
  memory : Fin 9 → Option Memory

def CheckCall.windows (c : CheckCall) : List Window := windowsOf c.behind c.pkts

/-- The section checks of `ltntstools_streammodel_write`. -/
def checkSections (items : List SeArrayItem) (c : CheckCall) :
    Option (List SeArrayItem × List (ℕ × CallbackArgs)) :=
  (if items = [] then extractorsAlloc c.memory else some items).bind fun items ↦
    (extractorsWrite items c.windows).bind fun r ↦
      (extractorsAddAll r.1 (c.added.map fun a ↦ (pmtRequest a.1, a.2))).map fun items ↦
        (items, r.2)

def CheckCall.Granted (c : CheckCall) : Prop :=
  (∀ i, (c.memory i).isSome) ∧ ∀ a ∈ c.added, a.2.isSome

/-! ## The array -/

def SeArrayItem.request (item : SeArrayItem) : TableRequest :=
  ⟨item.pid, item.tableId, item.name, item.context⟩

@[simp] theorem request_newItem (r : TableRequest) (m : Memory) : (newItem r m).request = r := rfl

/-- The nine tables on their fixed places, and behind them one item for each pid of a program
map table. -/
structure Layout (items : List SeArrayItem) : Prop where
  fixed : (items.take 9).map SeArrayItem.request = fixedTables
  pmt : ∀ item ∈ items.drop 9, item.request = pmtRequest item.pid
  nodup : ((items.drop 9).map SeArrayItem.pid).Nodup

theorem Layout.nine_le {items : List SeArrayItem} (h : Layout items) : 9 ≤ items.length := by
  have hlength := congrArg List.length h.fixed
  have hnine : fixedTables.length = 9 := rfl
  rw [List.length_map, List.length_take, hnine] at hlength
  omega

theorem Layout.ne_nil {items : List SeArrayItem} (h : Layout items) : items ≠ [] := by
  have hnine := h.nine_le
  rintro rfl
  simp at hnine

theorem map_pid_eq (l : List SeArrayItem) :
    l.map SeArrayItem.pid = (l.map SeArrayItem.request).map TableRequest.pid := by
  simp [SeArrayItem.request]

/-- The array may be exchanged for one with the same requests. -/
theorem Layout.congr {items items' : List SeArrayItem} (h : Layout items)
    (hsame : items'.map SeArrayItem.request = items.map SeArrayItem.request) : Layout items' := by
  have hdrop : (items'.drop 9).map SeArrayItem.request =
      (items.drop 9).map SeArrayItem.request := by
    rw [List.map_drop, hsame, List.map_drop]
  refine ⟨?_, fun item hitem ↦ ?_, ?_⟩
  · rw [List.map_take, hsame, ← List.map_take]
    exact h.fixed
  · obtain ⟨item', hitem', heq⟩ := List.mem_map.mp (hdrop ▸ List.mem_map_of_mem hitem)
    have hpid : item.pid = item'.pid := congrArg TableRequest.pid heq.symm
    rw [← heq, h.pmt item' hitem', hpid]
  · rw [map_pid_eq, hdrop, ← map_pid_eq]
    exact h.nodup

theorem layout_alloc {memory : Fin 9 → Option Memory} (hgranted : ∀ i, (memory i).isSome) :
    ∃ items, extractorsAlloc memory = some items ∧ Layout items ∧ items.drop 9 = [] ∧
      ∀ (k : ℕ) (item : SeArrayItem), items[k]? = some item →
        ∃ m, item = newItem item.request m := by
  choose m hm using fun i ↦ Option.isSome_iff_exists.mp (hgranted i)
  have hlist : List.ofFn memory = (List.ofFn m).map some := by
    rw [List.map_ofFn]
    congr
    funext i
    exact hm i
  have hdrop : (List.zipWith newItem fixedTables (List.ofFn m)).drop 9 = [] :=
    List.drop_eq_nil_of_le (by simp [fixedTables])
  refine ⟨List.zipWith newItem fixedTables (List.ofFn m), ?_, ⟨rfl, ?_, ?_⟩, hdrop, ?_⟩
  · rw [extractorsAlloc, hlist]
    rfl
  · rw [hdrop]
    simp
  · rw [hdrop]
    exact List.nodup_nil
  · intro k item hk
    obtain ⟨r, x, -, -, rfl⟩ := List.getElem?_zipWith_eq_some.mp hk
    exact ⟨x, rfl⟩

/-- What a granted request does to the array: nothing for a program map table that is there
already, else a new item behind the others. -/
theorem extractorsAdd_granted {items : List SeArrayItem} (h : Layout items) (pid : ℕ) (m : Memory) :
    ∃ items', extractorsAdd items (pmtRequest pid) (some m) = some items' ∧ Layout items' ∧
      (pid ∈ (items.drop 9).map SeArrayItem.pid ∧ items' = items ∨
        pid ∉ (items.drop 9).map SeArrayItem.pid ∧
          items' = items ++ [newItem (pmtRequest pid) m]) := by
  have hnine := h.nine_le
  have hknown : ((items.drop 9).any fun item ↦ item.pid == (pmtRequest pid).pid) = true ↔
      pid ∈ (items.drop 9).map SeArrayItem.pid := by
    simp only [List.any_eq_true, List.mem_map, beq_iff_eq, pmtRequest]
  by_cases hmem : pid ∈ (items.drop 9).map SeArrayItem.pid
  · exact ⟨items, by rw [extractorsAdd, if_pos ⟨rfl, hknown.mpr hmem⟩], h, .inl ⟨hmem, rfl⟩⟩
  · refine ⟨items ++ [newItem (pmtRequest pid) m], ?_, ⟨?_, ?_, ?_⟩, .inr ⟨hmem, rfl⟩⟩
    · rw [extractorsAdd, if_neg fun hcond ↦ hmem (hknown.mp hcond.2)]
    · rw [List.take_append_of_le_length hnine]
      exact h.fixed
    · rw [List.drop_append_of_le_length hnine]
      intro item hitem
      rcases List.mem_append.mp hitem with hold | hnew
      · exact h.pmt item hold
      · rw [List.mem_singleton.mp hnew]
        rfl
    · rw [List.drop_append_of_le_length hnine, List.map_append]
      refine List.nodup_append.mpr ⟨h.nodup, by simp, fun a ha b hb ↦ ?_⟩
      have hb' : b = pid := by simpa [newItem, pmtRequest] using hb
      exact fun heq ↦ hmem (hb' ▸ heq ▸ ha)

/-! ## One extractor alone -/

def verdicts (context : CbContext) (reports : List (Bool × Bool)) : List CallbackArgs :=
  reports.filterMap fun r ↦ if r.1 then some ⟨cbCrcStatus, context, r.2⟩ else none

@[simp] theorem verdicts_append (context : CbContext) (reports reports' : List (Bool × Bool)) :
    verdicts context (reports ++ reports') =
      verdicts context reports ++ verdicts context reports' :=
  List.filterMap_append

theorem sectionextractorWriteOne_crcValid {ctx : Ctx} {w : Window}
    (hpid : Ts.pid w.packet = ctx.pid) (crcValid : Bool) :
    sectionextractorWriteOne ctx w crcValid = sectionextractorWriteOne ctx w false := by
  rw [sectionextractorWriteOne, sectionextractorWriteOne, if_neg (not_not.mpr hpid),
    if_neg (not_not.mpr hpid)]
  rfl

theorem sectionextractorWriteOne_other {ctx : Ctx} {w : Window} (hpid : Ts.pid w.packet ≠ ctx.pid)
    (crcValid : Bool) : sectionextractorWriteOne ctx w crcValid = some (callEntry ctx crcValid) :=
  if_pos hpid

/-- An extractor that takes a packet from the bytes of the packet alone does the same in a
buffer. -/
theorem sectionextractorWriteOne_of_write {ctx : Ctx} {w : Window} {crcValid : Bool}
    {s : WriteState} (hs : sectionextractorWrite ctx [w.packet] crcValid = some s) :
    sectionextractorWriteOne ctx w crcValid = some s := by
  obtain ⟨s', hloop, rfl⟩ := Option.map_eq_some_iff.mp hs
  obtain ⟨⟨mid, u⟩, hturn, hrest⟩ := Option.bind_eq_some_iff.mp hloop
  obtain rfl : mid = s' := Option.some.inj hrest
  have hctx : (callEntry ctx crcValid).ctx = ctx := rfl
  rw [writeTurn, hctx] at hturn
  unfold sectionextractorWriteOne
  by_cases hpid : Ts.pid w.packet ≠ ctx.pid
  · rw [if_pos hpid] at hturn ⊢
    rw [← (Prod.mk.inj (Option.some.inj hturn)).1]
    rfl
  · rw [if_neg hpid] at hturn ⊢
    obtain ⟨r, hr, heq⟩ := Option.map_eq_some_iff.mp hturn
    obtain rfl : r = mid := (Prod.mk.inj heq).1
    have hmem : w.packet.bytes <+: w.mem := List.prefix_append _ _
    rw [writePacket_mono hmem hr, Option.map_some]

def wanted (ctx : Ctx) : ℕ × ℕ := (ctx.pid, ctx.tableID)

theorem wanted_appendSection {s r : WriteState} {ctx : Ctx} {mem : List UInt8} {off n : ℕ}
    (hr : appendSection s ctx mem off n = some r) : wanted r.ctx = wanted ctx := by
  obtain ⟨bytes, -, hr⟩ := Option.bind_eq_some_iff.mp hr
  obtain ⟨buf, -, rfl⟩ := Option.map_eq_some_iff.mp hr
  unfold afterCopy
  simp only
  split_ifs <;> rfl

theorem wanted_writePacket {s r : WriteState} {mem : List UInt8} {pkt : Packet}
    (hr : writePacket mem s pkt = some r) : wanted r.ctx = wanted s.ctx := by
  rcases writePacket_outcomes hr with rfl | rfl | ⟨ctx, off, n, rfl | ⟨len, rfl⟩, hr⟩
  · rfl
  · rfl
  · exact wanted_appendSection hr
  · exact (wanted_appendSection hr).trans rfl

theorem wanted_sectionextractorWriteOne {ctx : Ctx} {w : Window} {crcValid : Bool} {s : WriteState}
    (hs : sectionextractorWriteOne ctx w crcValid = some s) : wanted s.ctx = wanted ctx := by
  unfold sectionextractorWriteOne at hs
  split_ifs at hs
  · rw [← Option.some.inj hs]
    rfl
  · obtain ⟨s', hs', rfl⟩ := Option.map_eq_some_iff.mp hs
    have hwanted : wanted s'.ctx = wanted ctx := wanted_writePacket hs'
    unfold latchComplete
    split_ifs <;> exact hwanted

/-- Writes the packets one by one and collects the two flags of each call. -/
def feedWindows : Ctx → List Window → Option (Ctx × List (Bool × Bool))
  | ctx, [] => some (ctx, [])
  | ctx, w :: rest => (sectionextractorWriteOne ctx w false).bind fun s ↦
      (feedWindows s.ctx rest).map fun out ↦ (out.1, (s.complete, s.crcValid) :: out.2)

theorem feedWindows_append (ctx : Ctx) (ws ws' : List Window) :
    feedWindows ctx (ws ++ ws') = (feedWindows ctx ws).bind fun r ↦
      (feedWindows r.1 ws').map fun r' ↦ (r'.1, r.2 ++ r'.2) := by
  induction ws generalizing ctx with
  | nil => simp [feedWindows]
  | cons w rest ih =>
      rw [List.cons_append, feedWindows, feedWindows]
      cases sectionextractorWriteOne ctx w false with
      | none => rfl
      | some s =>
          rw [Option.bind_some, Option.bind_some, ih]
          cases feedWindows s.ctx rest with
          | none => rfl
          | some r =>
              cases hlater : feedWindows r.1 ws' <;> simp [hlater]

/-- What does not change when an item takes a packet. -/
theorem request_writePkt {item item' : SeArrayItem} {w : Window} {os : List CallbackArgs}
    (h : writePkt item w = some (item', os)) : item'.request = item.request := by
  obtain ⟨s, -, heq⟩ := Option.map_eq_some_iff.mp h
  rw [← (Prod.mk.inj heq).1]
  rfl

/-- An item takes every packet of a buffer, unless the section in progress outgrows the memory of
its extractor. -/
theorem exists_writePkt {item : SeArrayItem} (hbuf : item.hdl.sectionBuf.length = bufferSize)
    (hroom : item.hdl.appending = true → item.hdl.complete = false →
      item.hdl.sectionLengthCurrent + continuationLength item.hdl ≤ bufferSize)
    {behind : ℕ → UInt8} {pkts : List Packet} {w : Window} (hw : w ∈ windowsOf behind pkts) :
    ∃ r, writePkt item w = some r := by
  have hlong : 443 ≤ w.mem.length := by
    have hbehind : w.behind.length = windowSize := by
      induction pkts with
      | nil => simp [windowsOf] at hw
      | cons p rest ih =>
          rcases List.mem_cons.mp hw with rfl | hlater
          · simp
          · exact ih hlater
    rw [Window.mem, List.length_append, w.packet.length_bytes, hbehind, windowSize]
  unfold writePkt sectionextractorWriteOne
  split_ifs
  · exact ⟨_, rfl⟩
  · obtain ⟨r, hr⟩ := @exists_writePacket w.mem (callEntry item.hdl item.crcValid) hlong hbuf hroom
      w.packet
    exact ⟨_, by rw [hr]; rfl⟩

/-- An item whose extractor was fed packets of its pid, one at a time, from its allocation on,
and the callbacks it made. -/
structure FedAlone (item : SeArrayItem) (ws : List Window) (calls : List CallbackArgs) : Prop where
  pid_eq : item.hdl.pid = item.pid
  fed : ∃ (m : Memory) (reports : List (Bool × Bool)),
    feedWindows (sectionextractorAlloc item.pid item.tableId m.buffer) ws =
        some (item.hdl, reports) ∧
      calls = verdicts item.context reports

theorem fedAlone_newItem (r : TableRequest) (m : Memory) : FedAlone (newItem r m) [] [] :=
  ⟨rfl, m, [], rfl, rfl⟩

theorem FedAlone.write {item item' : SeArrayItem} {ws : List Window} {calls os : List CallbackArgs}
    (h : FedAlone item ws calls) {w : Window} (hs : writePkt item w = some (item', os)) :
    FedAlone item' (if Ts.pid w.packet = item.pid then ws ++ [w] else ws) (calls ++ os) := by
  obtain ⟨m, reports, hfeed, hcalls⟩ := h.fed
  obtain ⟨s, hwrite, heq⟩ := Option.map_eq_some_iff.mp hs
  obtain ⟨rfl, rfl⟩ := Prod.mk.inj heq
  have hconst : s.ctx.pid = item.hdl.pid :=
    congrArg Prod.fst (wanted_sectionextractorWriteOne hwrite)
  by_cases hpid : Ts.pid w.packet = item.pid
  · rw [if_pos hpid]
    rw [sectionextractorWriteOne_crcValid (hpid.trans h.pid_eq.symm)] at hwrite
    refine ⟨hconst.trans h.pid_eq, m, reports ++ [(s.complete, s.crcValid)], ?_, ?_⟩
    · rw [feedWindows_append, hfeed, Option.bind_some, feedWindows, hwrite]
      rfl
    · rw [verdicts_append, hcalls]
      cases s.complete <;> simp [verdicts]
  · rw [if_neg hpid]
    rw [sectionextractorWriteOne_other fun heq ↦ hpid (heq.trans h.pid_eq)] at hwrite
    obtain rfl := Option.some.inj hwrite
    exact ⟨h.pid_eq, m, reports, hfeed, by simpa [callEntry] using hcalls⟩

/-- A run of packets is written to an extractor that is fed alone. -/
theorem FedAlone.trace {item item' : SeArrayItem} {ws more : List Window}
    {calls : List CallbackArgs} {outs : List (List CallbackArgs)} (h : FedAlone item ws calls)
    (htrace : PartialMachine.trace writePkt item more = some (item', outs)) :
    item'.request = item.request ∧
      FedAlone item' (ws ++ more.filter fun w ↦ Ts.pid w.packet = item.pid)
        (calls ++ outs.flatten) := by
  induction more generalizing item ws calls outs with
  | nil =>
      obtain ⟨rfl, rfl⟩ : item = item' ∧ [] = outs := by simpa [PartialMachine.trace] using htrace
      exact ⟨rfl, by simpa using h⟩
  | cons w rest ih =>
      obtain ⟨mid, out, later, hs, hrest, rfl⟩ := exists_of_trace_cons htrace
      have hrequest := request_writePkt hs
      have hpid : mid.pid = item.pid := congrArg TableRequest.pid hrequest
      obtain ⟨hlast, hfed⟩ := ih (h.write hs) hrest
      refine ⟨hlast.trans hrequest, ?_⟩
      rw [hpid] at hfed
      rw [List.flatten_cons, ← List.append_assoc, List.filter_cons]
      by_cases hown : Ts.pid w.packet = item.pid
      · simpa [hown] using hfed
      · simpa [hown] using hfed

/-! ## Contexts -/

/-- A request adds an item of its own context at most. -/
theorem contexts_extractorsAdd {P : CbContext → Prop} {items items' : List SeArrayItem}
    (hitems : ∀ item ∈ items, P item.context) {r : TableRequest} (hr : P r.context)
    {granted : Option Memory} (h : extractorsAdd items r granted = some items') :
    ∀ item ∈ items', P item.context := by
  unfold extractorsAdd at h
  by_cases hknown : r.tableId = 0x02 ∧ ((items.drop 9).any fun item ↦ item.pid == r.pid) = true
  · rw [if_pos hknown] at h
    rw [← Option.some.inj h]
    exact hitems
  · rw [if_neg hknown] at h
    cases granted with
    | none =>
        dsimp only at h
        split_ifs at h
        rw [← Option.some.inj h]
        exact fun item hitem ↦ hitems item (List.mem_of_mem_dropLast hitem)
    | some m =>
        rw [← Option.some.inj h]
        intro item hitem
        rcases List.mem_append.mp hitem with hold | hnew
        · exact hitems item hold
        · rw [List.mem_singleton.mp hnew]
          exact hr

theorem contexts_extractorsAddAll {P : CbContext → Prop}
    {requests : List (TableRequest × Option Memory)} (hrequests : ∀ r ∈ requests, P r.1.context) :
    ∀ {items items' : List SeArrayItem}, (∀ item ∈ items, P item.context) →
      extractorsAddAll items requests = some items' → ∀ item ∈ items', P item.context := by
  induction requests with
  | nil =>
      intro items items' hitems h
      obtain rfl : items = items' := by simpa [extractorsAddAll] using h
      exact hitems
  | cons r rest ih =>
      intro items items' hitems h
      obtain ⟨hr, hrest⟩ := List.forall_mem_cons.mp hrequests
      rw [extractorsAddAll, List.foldlM_cons] at h
      obtain ⟨mid, hmid, h⟩ := Option.bind_eq_some_iff.mp h
      exact ih hrest (contexts_extractorsAdd hitems hr hmid) h

/-- Whatever allocations fail, the contexts of the items and of the callbacks are those of the
fixed tables and of the program map tables. -/
theorem contexts_checkSections {P : CbContext → Prop} (hfixed : ∀ r ∈ fixedTables, P r.context)
    (hpmt : P .pmt) {items items' : List SeArrayItem} (hitems : ∀ item ∈ items, P item.context)
    {c : CheckCall} {out : List (ℕ × CallbackArgs)}
    (h : checkSections items c = some (items', out)) :
    (∀ item ∈ items', P item.context) ∧ ∀ call ∈ out, P call.2.context := by
  obtain ⟨start, hstart, h⟩ := Option.bind_eq_some_iff.mp h
  obtain ⟨⟨mid, out'⟩, hwrite, h⟩ := Option.bind_eq_some_iff.mp h
  obtain ⟨last, hlast, heq⟩ := Option.map_eq_some_iff.mp h
  obtain ⟨rfl, rfl⟩ := Prod.mk.inj heq
  obtain ⟨⟨written, outs⟩, htrace, heq⟩ := Option.map_eq_some_iff.mp hwrite
  obtain ⟨rfl, rfl⟩ := Prod.mk.inj heq
  have hfilled : ∀ item ∈ start, P item.context := by
    split_ifs at hstart
    · refine contexts_extractorsAddAll (fun r hr ↦ ?_) (by simp) hstart
      exact hfixed r.1 (List.of_mem_zip hr).1
    · rw [← Option.some.inj hstart]
      exact hitems
  have hstep : ∀ (item : SeArrayItem) (w : Window) item' os, P item.context →
      writePkt item w = some (item', os) → P item'.context ∧ ∀ o ∈ os, P o.context := by
    intro item w item' os hitem hs
    obtain ⟨s, -, heq⟩ := Option.map_eq_some_iff.mp hs
    obtain ⟨rfl, rfl⟩ := Prod.mk.inj heq
    refine ⟨hitem, fun o ho ↦ ?_⟩
    split_ifs at ho
    · rw [List.mem_singleton.mp ho]
      exact hitem
    · simp at ho
  obtain ⟨hwritten, hout⟩ := forall_of_trace hstep hfilled htrace
  refine ⟨contexts_extractorsAddAll (fun r hr ↦ ?_) hwritten hlast, hout⟩
  obtain ⟨a, -, rfl⟩ := List.mem_map.mp hr
  exact hpmt

theorem status_checkSections {items items' : List SeArrayItem} {c : CheckCall}
    {out : List (ℕ × CallbackArgs)} (h : checkSections items c = some (items', out)) :
    ∀ call ∈ out, call.2.status = cbCrcStatus := by
  obtain ⟨start, -, h⟩ := Option.bind_eq_some_iff.mp h
  obtain ⟨⟨mid, out'⟩, hwrite, h⟩ := Option.bind_eq_some_iff.mp h
  obtain ⟨last, -, heq⟩ := Option.map_eq_some_iff.mp h
  obtain ⟨rfl, rfl⟩ := Prod.mk.inj heq
  obtain ⟨⟨written, outs⟩, htrace, heq⟩ := Option.map_eq_some_iff.mp hwrite
  obtain ⟨rfl, rfl⟩ := Prod.mk.inj heq
  have hstep : ∀ (item : SeArrayItem) (w : Window) item' os, True →
      writePkt item w = some (item', os) → True ∧ ∀ o ∈ os, o.status = cbCrcStatus := by
    intro item w item' os _ hs
    obtain ⟨s, -, heq⟩ := Option.map_eq_some_iff.mp hs
    obtain ⟨rfl, rfl⟩ := Prod.mk.inj heq
    refine ⟨trivial, fun o ho ↦ ?_⟩
    split_ifs at ho
    · rw [List.mem_singleton.mp ho]
    · simp at ho
  exact (forall_of_trace hstep (fun _ _ ↦ trivial) htrace).2

/-! ## Runs -/

/-- The pids that `extractors_write` has a case for. -/
def Reserved (pid : ℕ) : Prop := pid ∈ [0x00, 0x10, 0x11, 0x12, 0x14]

instance : DecidablePred Reserved := fun _ ↦ inferInstanceAs (Decidable (_ ∈ _))

theorem nodup_route (seCount : ℕ) (pkt : Packet) : (route seCount pkt).Nodup := by
  unfold route
  split_ifs
  · exact List.nodup_singleton 0
  · exact List.nodup_singleton 1
  · decide
  · decide
  · exact List.nodup_singleton 8
  · exact List.nodup_range'

theorem nodup_routeWindow (seCount : ℕ) (w : Window) : (routeWindow seCount w).Nodup :=
  nodup_route seCount w.packet

theorem route_of_reserved {pkt : Packet} (h : Reserved (Ts.pid pkt)) (seCount : ℕ) :
    ∀ k ∈ route seCount pkt, k < 9 := by
  have hcases : Ts.pid pkt = 0x00 ∨ Ts.pid pkt = 0x10 ∨ Ts.pid pkt = 0x11 ∨ Ts.pid pkt = 0x12 ∨
      Ts.pid pkt = 0x14 := by
    simpa [Reserved] using h
  unfold route
  rcases hcases with hpid | hpid | hpid | hpid | hpid <;> simp [hpid]

theorem route_of_not_reserved {pkt : Packet} (h : ¬Reserved (Ts.pid pkt)) (seCount : ℕ) :
    route seCount pkt = List.range' 9 (seCount - 9) := by
  have hcases : Ts.pid pkt ≠ 0x00 ∧ Ts.pid pkt ≠ 0x10 ∧ Ts.pid pkt ≠ 0x11 ∧ Ts.pid pkt ≠ 0x12 ∧
      Ts.pid pkt ≠ 0x14 := by
    simpa [Reserved] using h
  obtain ⟨h0, h1, h2, h3, h4⟩ := hcases
  simp [route, h0, h1, h2, h3, h4]

/-- The items on fixed places stand where the `switch` looks for their pid. -/
theorem Layout.mem_route_iff {items : List SeArrayItem} (h : Layout items) {k : ℕ}
    {item : SeArrayItem} (hk : items[k]? = some item) {pkt : Packet}
    (hpid : Ts.pid pkt = item.pid) :
    k ∈ route items.length pkt ↔ k < 9 ∨ ¬Reserved item.pid := by
  have hlength := (List.getElem?_eq_some_iff.mp hk).1
  rcases lt_or_ge k 9 with hlt | hge
  · refine iff_of_true ?_ (.inl hlt)
    have hrequest : fixedTables[k]? = some item.request := by
      rw [← h.fixed, List.getElem?_map, List.getElem?_take_of_lt hlt, hk]
      rfl
    have hown : ∀ j < 9, ∀ r, fixedTables[j]? = some r → r.pid = item.pid →
        j ∈ route items.length pkt := by
      intro j hj r hr hrpid
      rw [← hrpid] at hpid
      unfold route
      interval_cases j <;> obtain rfl := Option.some.inj hr <;> simp [hpid]
    exact hown k hlt _ hrequest rfl
  · rw [or_iff_right (by omega)]
    by_cases hreserved : Reserved item.pid
    · refine iff_of_false (fun hmem ↦ ?_) (not_not.mpr hreserved)
      have hlt := route_of_reserved (hpid ▸ hreserved) _ k hmem
      omega
    · refine iff_of_true ?_ hreserved
      rw [route_of_not_reserved (hpid ▸ hreserved), List.mem_range'_1]
      omega

/-- What happens to the array: packets, or a program map table that `cb_pat` asks for. -/
inductive Event
  | write (windows : List Window)
  | add (pid : ℕ)
deriving DecidableEq

def Event.windows : Event → List Window
  | write windows => windows
  | add _ => []

def CheckCall.events (c : CheckCall) : List Event :=
  .write c.windows :: c.added.map fun a ↦ .add a.1

/-- What an item on a place listens to: the packets of its pid, and nothing if it was added for
a pid that has a case of its own. -/
def listened (k pid : ℕ) (events : List Event) : List Window :=
  if k < 9 ∨ ¬Reserved pid then
    (events.flatMap Event.windows).filter fun w ↦ Ts.pid w.packet = pid
  else []

/-- The events up to the one that put an item on its place: the items on fixed places are there
from the start. -/
def InstalledBy (k pid : ℕ) (before : List Event) : Prop :=
  if k < 9 then before = [] else ∃ init, before = init ++ [.add pid] ∧ .add pid ∉ init

structure Checked (events : List Event) (items : List SeArrayItem)
    (calls : List (ℕ × CallbackArgs)) : Prop where
  layout : Layout items
  pmts : ∀ pid, pid ∈ (items.drop 9).map SeArrayItem.pid ↔ .add pid ∈ events
  alone : ∀ (k : ℕ) (item : SeArrayItem), items[k]? = some item → ∃ before after,
    events = before ++ after ∧ InstalledBy k item.pid before ∧
      FedAlone item (listened k item.pid after) (outputsAt k calls)
  silent : ∀ k, items.length ≤ k → outputsAt k calls = []

theorem checked_alloc {memory : Fin 9 → Option Memory} (hgranted : ∀ i, (memory i).isSome) :
    ∃ items, extractorsAlloc memory = some items ∧ Checked [] items [] := by
  obtain ⟨items, halloc, hlayout, hdrop, hnew⟩ := layout_alloc hgranted
  refine ⟨items, halloc, hlayout, by simp [hdrop], fun k item hk ↦ ?_, fun _ _ ↦ rfl⟩
  have hnine : items.length ≤ 9 := List.drop_eq_nil_iff.mp hdrop
  have hlt : k < 9 := (List.getElem?_eq_some_iff.mp hk).1.trans_le hnine
  obtain ⟨m, hm⟩ := hnew k item hk
  refine ⟨[], [], rfl, by rw [InstalledBy, if_pos hlt], ?_⟩
  rw [hm]
  simpa [listened, hlt] using fedAlone_newItem item.request m

theorem listened_append (k pid : ℕ) (events events' : List Event) :
    listened k pid (events ++ events') = listened k pid events ++ listened k pid events' := by
  unfold listened
  split_ifs
  · rw [List.flatMap_append, List.filter_append]
  · rfl

theorem listened_add (k pid : ℕ) (pid' : ℕ) : listened k pid [.add pid'] = [] := by
  simp [listened, Event.windows]

/-- Of the packets routed to an item, its extractor looks at those it listens to. -/
theorem Layout.filter_heard {items : List SeArrayItem} (h : Layout items) {k : ℕ}
    {item : SeArrayItem} (hk : items[k]? = some item) (ws : List Window) :
    ((heard routeWindow items.length k ws).filter fun w ↦ Ts.pid w.packet = item.pid) =
      listened k item.pid [.write ws] := by
  have hiff : ∀ w : Window,
      (decide (Ts.pid w.packet = item.pid) && decide (k ∈ routeWindow items.length w)) =
        (decide (Ts.pid w.packet = item.pid) && decide (k < 9 ∨ ¬Reserved item.pid)) := by
    intro w
    by_cases hpid : Ts.pid w.packet = item.pid
    · simp only [routeWindow, h.mem_route_iff hk hpid]
    · simp [hpid]
  rw [heard, List.filter_filter, listened]
  simp only [hiff]
  split_ifs with hlistens
  · simp [hlistens, Event.windows]
  · simp [hlistens]

/-- The packets of a call go to the items that listen to them. -/
theorem Checked.write {events : List Event} {items items' : List SeArrayItem}
    {calls out : List (ℕ × CallbackArgs)} (h : Checked events items calls) {ws : List Window}
    (hwrite : extractorsWrite items ws = some (items', out)) :
    Checked (events ++ [.write ws]) items' (calls ++ out) := by
  obtain ⟨⟨last, outs⟩, htrace, heq⟩ := Option.map_eq_some_iff.mp hwrite
  obtain ⟨rfl, rfl⟩ := Prod.mk.inj heq
  have halone := alone_of_trace nodup_routeWindow htrace
  have hlength : last.length = items.length := halone.length_eq
  -- every item takes the packets it listens to
  have hitem : ∀ (k : ℕ) (item : SeArrayItem), items[k]? = some item → ∃ item',
      last[k]? = some item' ∧ item'.request = item.request ∧ ∃ before after,
        events = before ++ after ∧ InstalledBy k item.pid before ∧
          FedAlone item' (listened k item.pid (after ++ [.write ws]))
            (outputsAt k (calls ++ outs.flatten)) := by
    intro k item hk
    obtain ⟨item', os, hk', hown, hos⟩ := halone.alone k item hk
    obtain ⟨before, after, hevents, hinstalled, hfed⟩ := h.alone k item hk
    obtain ⟨hrequest, hfed'⟩ := hfed.trace hown
    refine ⟨item', hk', hrequest, before, after, hevents, hinstalled, ?_⟩
    rwa [listened_append, outputsAt_append, ← h.layout.filter_heard hk, ← hos]
  have hrequests : last.map SeArrayItem.request = items.map SeArrayItem.request := by
    refine List.ext_getElem? fun k ↦ ?_
    rw [List.getElem?_map, List.getElem?_map]
    cases hk : items[k]? with
    | none =>
        have hout : last[k]? = none := by
          rw [List.getElem?_eq_none_iff] at hk ⊢
          omega
        rw [hout]
    | some item =>
        obtain ⟨item', hk', hrequest, -⟩ := hitem k item hk
        rw [hk', Option.map_some, hrequest, Option.map_some]
  have hpids : (last.drop 9).map SeArrayItem.pid = (items.drop 9).map SeArrayItem.pid := by
    rw [map_pid_eq, List.map_drop, hrequests, ← List.map_drop, ← map_pid_eq]
  refine ⟨h.layout.congr hrequests, fun pid ↦ ?_, fun k item' hk' ↦ ?_, fun k hk ↦ ?_⟩
  · rw [hpids, h.pmts]
    simp
  · have hlt := (List.getElem?_eq_some_iff.mp hk').1
    obtain ⟨item, hk⟩ : ∃ item, items[k]? = some item :=
      ⟨_, List.getElem?_eq_getElem (hlength ▸ hlt)⟩
    obtain ⟨same, hsame, hrequest, before, after, hevents, hinstalled, hfed⟩ := hitem k item hk
    obtain rfl : same = item' := Option.some.inj (hsame.symm.trans hk')
    have hpid : same.pid = item.pid := congrArg TableRequest.pid hrequest
    rw [hpid]
    exact ⟨before, after ++ [.write ws], by rw [hevents, List.append_assoc], hinstalled, hfed⟩
  · rw [outputsAt_append, h.silent k (hlength ▸ hk), halone.silent k (hlength ▸ hk)]
    rfl

/-- A program map table that `cb_pat` asks for: new at the end, or there already. -/
theorem Checked.add {events : List Event} {items : List SeArrayItem}
    {calls : List (ℕ × CallbackArgs)} (h : Checked events items calls) (pid : ℕ) (m : Memory) :
    ∃ items', extractorsAdd items (pmtRequest pid) (some m) = some items' ∧
      Checked (events ++ [.add pid]) items' calls := by
  obtain ⟨items', hadd, hlayout, hcases⟩ := extractorsAdd_granted h.layout pid m
  have hnine := h.layout.nine_le
  refine ⟨items', hadd, hlayout, fun p ↦ ?_, fun k item hk ↦ ?_, fun k hk ↦ ?_⟩
  · rcases hcases with ⟨hmem, rfl⟩ | ⟨-, rfl⟩
    · rw [List.mem_append, ← h.pmts p]
      refine ⟨.inl, ?_⟩
      rintro (hp | hp)
      · exact hp
      · obtain rfl : p = pid := by simpa using hp
        exact hmem
    · rw [List.drop_append_of_le_length hnine, List.map_append, List.mem_append, List.mem_append,
        h.pmts p]
      simp [newItem, pmtRequest]
  · have hold : items[k]? = some item → ∃ before after,
        events ++ [.add pid] = before ++ after ∧ InstalledBy k item.pid before ∧
          FedAlone item (listened k item.pid after) (outputsAt k calls) := by
      intro hk
      obtain ⟨before, after, hevents, hinstalled, hfed⟩ := h.alone k item hk
      refine ⟨before, after ++ [.add pid], by rw [hevents, List.append_assoc], hinstalled, ?_⟩
      rwa [listened_append, listened_add, List.append_nil]
    rcases hcases with ⟨-, rfl⟩ | ⟨hnew, rfl⟩
    · exact hold hk
    · rcases lt_or_ge k items.length with hlt | hge
      · exact hold (by rwa [List.getElem?_append_left hlt] at hk)
      · obtain rfl : newItem (pmtRequest pid) m = item := by
          rw [List.getElem?_append_right hge] at hk
          exact (List.mem_singleton.mp (List.mem_of_getElem? hk)).symm
        have hfirst : Event.add pid ∉ events := (h.pmts pid).not.mp hnew
        refine ⟨events ++ [.add pid], [], (List.append_nil _).symm, ?_, ?_⟩
        · rw [InstalledBy, if_neg (by omega)]
          exact ⟨events, rfl, hfirst⟩
        · rw [h.silent k hge]
          simpa [listened] using fedAlone_newItem (pmtRequest pid) m
  · rcases hcases with ⟨-, rfl⟩ | ⟨-, rfl⟩
    · exact h.silent k hk
    · exact h.silent k (by rw [List.length_append] at hk; omega)

theorem Checked.addAll {calls : List (ℕ × CallbackArgs)} {added : List (ℕ × Option Memory)}
    (hgranted : ∀ a ∈ added, a.2.isSome) :
    ∀ {events items}, Checked events items calls → ∃ items',
      extractorsAddAll items (added.map fun a ↦ (pmtRequest a.1, a.2)) = some items' ∧
        Checked (events ++ added.map fun a ↦ .add a.1) items' calls := by
  induction added with
  | nil => exact fun h ↦ ⟨_, rfl, by simpa using h⟩
  | cons a rest ih =>
      intro events items h
      obtain ⟨ha, hrest⟩ := List.forall_mem_cons.mp hgranted
      obtain ⟨m, hm⟩ := Option.isSome_iff_exists.mp ha
      obtain ⟨mid, hmid, hchecked⟩ := h.add a.1 m
      obtain ⟨items', hitems', hlast⟩ := ih hrest hchecked
      refine ⟨items', ?_, by simpa using hlast⟩
      rw [extractorsAddAll, List.map_cons, List.foldlM_cons, hm, hmid]
      exact hitems'

theorem Checked.call {events : List Event} {items items' : List SeArrayItem}
    {calls out : List (ℕ × CallbackArgs)} (h : Checked events items calls) {c : CheckCall}
    (hgranted : c.Granted) (hc : checkSections items c = some (items', out)) :
    Checked (events ++ c.events) items' (calls ++ out) := by
  rw [checkSections, if_neg h.layout.ne_nil, Option.bind_some] at hc
  obtain ⟨⟨mid, out'⟩, hwrite, hc⟩ := Option.bind_eq_some_iff.mp hc
  obtain ⟨last, hlast, heq⟩ := Option.map_eq_some_iff.mp hc
  obtain ⟨rfl, rfl⟩ := Prod.mk.inj heq
  obtain ⟨items₂, hitems₂, hchecked⟩ := (h.write hwrite).addAll hgranted.2
  obtain rfl : last = items₂ := Option.some.inj (hlast.symm.trans hitems₂)
  simpa [CheckCall.events] using hchecked

/-- The first call, which fills the array. -/
theorem checked_first {items : List SeArrayItem} {out : List (ℕ × CallbackArgs)} {c : CheckCall}
    (hgranted : c.Granted) (hc : checkSections [] c = some (items, out)) :
    Checked c.events items out := by
  obtain ⟨start, halloc, hstart⟩ := checked_alloc hgranted.1
  have hsame : checkSections start c = checkSections [] c := by
    rw [checkSections, if_neg hstart.layout.ne_nil, checkSections, if_pos rfl, halloc]
  simpa using hstart.call hgranted (hsame.trans hc)

theorem checked_of_trace {c : CheckCall} {calls : List CheckCall}
    (hgranted : ∀ c' ∈ c :: calls, c'.Granted) {items : List SeArrayItem}
    {outs : List (List (ℕ × CallbackArgs))}
    (htrace : trace checkSections [] (c :: calls) = some (items, outs)) :
    Checked ((c :: calls).flatMap CheckCall.events) items outs.flatten := by
  obtain ⟨hc, hcalls⟩ := List.forall_mem_cons.mp hgranted
  obtain ⟨mid, out, later, hs, hrest, rfl⟩ := exists_of_trace_cons htrace
  have hmeets : Meets checkSections (fun _ c' ↦ c'.Granted) mid calls :=
    meets_of_forall (fun c' hc' _ ↦ hcalls c' hc') mid
  have hfirst : Checked ([c].flatMap CheckCall.events) mid [out].flatten := by
    simpa using checked_first hc hs
  have hstep : ∀ (s : List SeArrayItem) (cs : List CheckCall) outs c' s' out,
      Checked (cs.flatMap CheckCall.events) s outs.flatten → c'.Granted →
        checkSections s c' = some (s', out) →
          Checked ((cs ++ [c']).flatMap CheckCall.events) s' (outs ++ [out]).flatten := by
    intro s cs outs c' s' out h hc' hs'
    simpa using h.call hc' hs'
  exact trace_invariant_of_meets hstep hfirst hmeets hrest

/-- The places of the `switch` are inside the array. -/
theorem Layout.route_lt {items : List SeArrayItem} (h : Layout items) (pkt : Packet) :
    ∀ k ∈ route items.length pkt, k < items.length := by
  intro k hk
  have hnine := h.nine_le
  by_cases hreserved : Reserved (Ts.pid pkt)
  · exact (route_of_reserved hreserved _ k hk).trans_le hnine
  · rw [route_of_not_reserved hreserved, List.mem_range'_1] at hk
    omega

/-- In every run the array keeps its layout, the `switch` stays inside it, and each of its
extractors does what it would do alone with the packets it listens to, one call for each. -/
theorem section_checks_alone (c : CheckCall) (calls : List CheckCall)
    (hgranted : ∀ c' ∈ c :: calls, c'.Granted) {items : List SeArrayItem}
    {outs : List (List (ℕ × CallbackArgs))}
    (htrace : trace checkSections [] (c :: calls) = some (items, outs)) :
    Checked ((c :: calls).flatMap CheckCall.events) items outs.flatten ∧
      ∀ pkt, ∀ k ∈ route items.length pkt, k < items.length := by
  have hchecked := checked_of_trace hgranted htrace
  exact ⟨hchecked, hchecked.layout.route_lt⟩

def blank : Memory := ⟨blankMemory, length_blankMemory, false, false⟩

/-- A pid is added by the first call and has a packet in the second one. -/
def sampleCalls : List CheckCall :=
  [⟨[Packet.filled 0x00], fun _ ↦ 0, [(0x747, some blank), (0x747, some blank)],
      fun _ ↦ some blank⟩,
    ⟨[Packet.filled 0x47, Packet.filled 0x00], fun _ ↦ 0, [], fun _ ↦ some blank⟩]

theorem section_checks_alone_sample : ∃ items outs,
    trace checkSections [] sampleCalls = some (items, outs) ∧ items.length = 10 ∧
      Checked (sampleCalls.flatMap CheckCall.events) items outs.flatten := by
  obtain ⟨⟨items, outs⟩, htrace⟩ := Option.isSome_iff_exists.mp
    (by decide +kernel : (trace checkSections [] sampleCalls).isSome)
  have hlength : (trace checkSections [] sampleCalls).map (fun r ↦ r.1.length) = some 10 := by
    decide +kernel
  rw [htrace] at hlength
  refine ⟨items, outs, htrace, Option.some.inj hlength, ?_⟩
  refine (section_checks_alone _ _ ?_ htrace).1
  intro c hc
  rcases List.mem_pair.mp hc with rfl | rfl
  · exact ⟨fun _ ↦ rfl, by simp⟩
  · exact ⟨fun _ ↦ rfl, by simp⟩

end LtnTsTools.SectionChecks
