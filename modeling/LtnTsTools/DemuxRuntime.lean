import LtnTsTools.CTypes
import LtnTsTools.Demux
import LtnTsTools.MachineBank
import LtnTsTools.PesReassembly
import LtnTsTools.RecentWindow

/-!
# Running a demultiplexer

`ltntstools_demux_write` and the callback of the extractors in `demux-pid.c`.  Every extractor
of the index is given all packets of a call, one extractor after the other.  What it delivers
goes to a list of its pid, from whose front the old items are dropped, and to the callback of
the caller.
-/

namespace LtnTsTools.Demux

open PartialMachine MachineBank RecentWindow PesExtractor Pes

/-! ## The model -/

/-- `ITEM_EXPIRE_MS`. -/
def itemExpireMs : ℕ := 2000

/-- `struct demux_pid_pes_item_s`. -/
structure PesItem where
  pes : PesPacket
  ts : Timeval

/-- `_itemAgeMs`, an unsigned number of 32 bits. -/
def itemAgeMs (item : PesItem) (now : Timeval) : ℕ :=
  uint32 (timevalSubtractMs now item.ts)

/-- `struct demux_pid_s` with its list of packets. -/
structure PidContext where
  pid : DemuxPid
  pesList : List PesItem
  pesListCount : ℕ

/-- What a call of `demux_pid_pe_callback` finds: memory for an item, and the clock. -/
structure Arrival where
  granted : Bool
  now : Timeval

/-- The loop of `demux_pid_pe_callback` over the list and its count: items are freed up to the
first one that is young enough. -/
def expireItems (now : Timeval) : List PesItem → ℕ → List PesItem × ℕ
  | [], count => ([], count)
  | e :: rest, count =>
      if itemAgeMs e now < itemExpireMs then (e :: rest, count)
      else expireItems now rest (count - 1)

/-- `demux_pid_pe_callback`; `cb` tells whether the caller has a callback. -/
def demuxPidPeCallback (cb : Bool) (p : PidContext) (pes : PesPacket) (a : Arrival) :
    PidContext × List (ℕ × PesPacket) :=
  if a.granted = false then (p, [])
  else
    let r := expireItems a.now (p.pesList ++ [⟨pes, a.now⟩]) (p.pesListCount + 1)
    ({ p with pesList := r.1, pesListCount := r.2 }, if cb then [(p.pid.pidNr, pes)] else [])

/-- A call of `ltntstools_demux_write`: its packets, and what the callback of a pid finds each
time it is called. -/
structure Call where
  pkts : List Packet
  arrivals : ℕ → ℕ → Arrival

/-- What the extractor of a pid delivers in a call, with what the callback finds. -/
def arrivedIn (w : Call) (pidNr : ℕ) (pess : List PesPacket) : List (PesPacket × Arrival) :=
  pess.zipIdx.map fun x ↦ (x.1, w.arrivals pidNr x.2)

def deliverAll (cb : Bool) (p : PidContext) (arrived : List (PesPacket × Arrival)) :
    PidContext × List (ℕ × PesPacket) :=
  arrived.foldl (fun r x ↦
    let d := demuxPidPeCallback cb r.1 x.1 x.2
    (d.1, r.2 ++ d.2)) (p, [])

/-- A pid of the index in `ltntstools_demux_write`; `none` is the end of the process. -/
def writePid (cb : Bool) (w : Call) (p : PidContext) : Option (PidContext × List (ℕ × PesPacket)) :=
  match p.pid.pe with
  | none => some (p, [])
  | some pe =>
      let o := pesExtractorWrite pe.ctx w.pkts
      match o.next with
      | .error _ => none
      | .ok ctx =>
          some (deliverAll cb { p with pid := { p.pid with pe := some { pe with ctx := ctx } } }
            (arrivedIn w p.pid.pidNr o.callbacks))

/-- `struct demux_ctx_s` at work. -/
structure Running where
  pids : ℕ → PidContext
  pidIndex : List ℕ
  cb : Bool

def writeTurn (w : Call) (r : Running × List (ℕ × PesPacket)) (i : ℕ) :
    Option (Running × List (ℕ × PesPacket)) :=
  (writePid r.1.cb w (r.1.pids (i &&& 0x1fff))).map fun d ↦
    ({ r.1 with pids := Function.update r.1.pids (i &&& 0x1fff) d.1 }, r.2 ++ d.2)

/-- `ltntstools_demux_write`. -/
def demuxWrite (s : Running) (w : Call) : Option (Running × List (ℕ × PesPacket)) :=
  if w.pkts = [] then some (s, []) else s.pidIndex.foldlM (writeTurn w) (s, [])

/-- A demultiplexer as `ltntstools_demux_alloc_from_pat` leaves it. -/
def started (ctx : DemuxCtx) (cb : Bool) : Running where
  pids := fun i ↦ ⟨ctx.pids i, [], 0⟩
  pidIndex := ctx.pidIndex
  cb := cb

/-! ## The list of a pid -/

def expired (newest e : PesItem) : Bool := decide (itemExpireMs ≤ itemAgeMs e newest.ts)

def itemsOf (arrived : List (PesPacket × Arrival)) : List PesItem :=
  arrived.filterMap fun x ↦ if x.2.granted = false then none else some ⟨x.1, x.2.now⟩

def toldOf (cb : Bool) (items : List PesItem) : List PesPacket :=
  if cb then items.map PesItem.pes else []

theorem toldOf_append (cb : Bool) (items items' : List PesItem) :
    toldOf cb (items ++ items') = toldOf cb items ++ toldOf cb items' := by
  cases cb <;> simp [toldOf]

theorem expired_self (e : PesItem) : expired e e = false := by
  simp [expired, itemAgeMs, uint32, timevalSubtractMs, itemExpireMs]

theorem expireItems_eq (newest : PesItem) (items : List PesItem) :
    expireItems newest.ts items items.length =
      (items.dropWhile (expired newest), (items.dropWhile (expired newest)).length) := by
  induction items with
  | nil => rfl
  | cons e rest ih =>
      rw [expireItems, List.dropWhile_cons]
      by_cases hage : itemAgeMs e newest.ts < itemExpireMs
      · have hyoung : expired newest e = false := by simpa [expired] using hage
        rw [if_pos hage, if_neg (by simp [hyoung])]
      · have hold : expired newest e = true := by simpa [expired] using hage
        rw [if_neg hage, if_pos hold, List.length_cons, Nat.add_sub_cancel, ih]

def PidContext.withItems (p : PidContext) (items : List PesItem) : PidContext :=
  { p with
    pesList := rememberAll expired p.pesList items
    pesListCount := (rememberAll expired p.pesList items).length }

theorem demuxPidPeCallback_eq (cb : Bool) {p : PidContext}
    (hcount : p.pesListCount = p.pesList.length)
    (pes : PesPacket) (a : Arrival) :
    demuxPidPeCallback cb p pes a = (p.withItems (itemsOf [(pes, a)]),
      (toldOf cb (itemsOf [(pes, a)])).map (Prod.mk p.pid.pidNr)) := by
  cases hgranted : a.granted with
  | false =>
      have hnone : itemsOf [(pes, a)] = [] := by simp [itemsOf, hgranted]
      rw [demuxPidPeCallback, if_pos hgranted, hnone]
      simp [PidContext.withItems, rememberAll, toldOf, ← hcount]
  | true =>
      have hone : itemsOf [(pes, a)] = [⟨pes, a.now⟩] := by simp [itemsOf, hgranted]
      have hexpire := expireItems_eq ⟨pes, a.now⟩ (p.pesList ++ [⟨pes, a.now⟩])
      rw [List.length_append, List.length_singleton, ← hcount] at hexpire
      rw [demuxPidPeCallback, if_neg (by simp [hgranted]), hexpire, hone]
      cases cb <;> rfl

theorem deliverAll_eq (cb : Bool) {p : PidContext} (hcount : p.pesListCount = p.pesList.length)
    (arrived : List (PesPacket × Arrival)) :
    deliverAll cb p arrived = (p.withItems (itemsOf arrived),
      (toldOf cb (itemsOf arrived)).map (Prod.mk p.pid.pidNr)) := by
  unfold deliverAll
  induction arrived using List.reverseRecOn with
  | nil => simp [itemsOf, PidContext.withItems, rememberAll, toldOf, ← hcount]
  | append_singleton arrived x ih =>
      have hmid : (p.withItems (itemsOf arrived)).pesListCount =
          (p.withItems (itemsOf arrived)).pesList.length := rfl
      have hitems : itemsOf (arrived ++ [x]) = itemsOf arrived ++ itemsOf [x] :=
        List.filterMap_append
      have hboth : (p.withItems (itemsOf arrived)).withItems (itemsOf [x]) =
          p.withItems (itemsOf (arrived ++ [x])) := by
        rw [hitems, PidContext.withItems, PidContext.withItems, PidContext.withItems,
          rememberAll_append]
      rw [List.foldl_append, ih, List.foldl_cons, List.foldl_nil, demuxPidPeCallback_eq cb hmid,
        hboth, hitems, toldOf_append, List.map_append]
      rfl

/-! ## One pid -/

/-- All that the extractor of a pid delivers in some calls, with what the callback finds. -/
def arrivedAt (pidNr : ℕ) (ctx : Ctx) : List Call → List (PesPacket × Arrival)
  | [] => []
  | w :: rest =>
      let o := pesExtractorWrite ctx w.pkts
      arrivedIn w pidNr o.callbacks ++
        match o.next with
        | .error _ => []
        | .ok ctx => arrivedAt pidNr ctx rest

@[simp] theorem map_fst_arrivedIn (w : Call) (pidNr : ℕ) (pess : List PesPacket) :
    (arrivedIn w pidNr pess).map Prod.fst = pess := by
  rw [arrivedIn, List.map_map]
  exact List.zipIdx_map_fst 0 pess

/-- A pid behind some calls: its extractor did what it would do alone with the packets of the
calls, and its list took what the extractor delivered. -/
structure FedAlone (cb : Bool) (pe : Extractor) (p : PidContext) (calls : List Call)
    (p' : PidContext) (told : List PesPacket) : Prop where
  extractor : ∃ ctx, (pesExtractorWrites pe.ctx (calls.map Call.pkts)).next = .ok ctx ∧
    p'.pid = { p.pid with pe := some { pe with ctx := ctx } }
  delivered : (pesExtractorWrites pe.ctx (calls.map Call.pkts)).callbacks =
    (arrivedAt p.pid.pidNr pe.ctx calls).map Prod.fst
  list : p'.pesList =
    rememberAll expired p.pesList (itemsOf (arrivedAt p.pid.pidNr pe.ctx calls))
  count : p'.pesListCount = p'.pesList.length
  told : told = toldOf cb (itemsOf (arrivedAt p.pid.pidNr pe.ctx calls))

theorem pesExtractorWrite_nil (ctx : Ctx) : pesExtractorWrite ctx [] = .idle ctx := by
  unfold pesExtractorWrite
  split_ifs <;> rfl

theorem fedAlone_nil (cb : Bool) {pe : Extractor} {p : PidContext} (hpe : p.pid.pe = some pe)
    (hcount : p.pesListCount = p.pesList.length) : FedAlone cb pe p [] p [] := by
  refine ⟨⟨pe.ctx, rfl, ?_⟩, rfl, rfl, hcount, ?_⟩
  · rw [← hpe]
  · simp [arrivedAt, itemsOf, toldOf]

/-- The extractor of a pid takes the packets of a call. -/
theorem exists_of_writePid {cb : Bool} {w : Call} {p p' : PidContext} {pe : Extractor}
    {out : List (ℕ × PesPacket)} (hpe : p.pid.pe = some pe)
    (hcount : p.pesListCount = p.pesList.length) (h : writePid cb w p = some (p', out)) :
    ∃ ctx, (pesExtractorWrite pe.ctx w.pkts).next = .ok ctx ∧
      p'.pid = { p.pid with pe := some { pe with ctx := ctx } } ∧
      p'.pesList = rememberAll expired p.pesList
        (itemsOf (arrivedIn w p.pid.pidNr (pesExtractorWrite pe.ctx w.pkts).callbacks)) ∧
      p'.pesListCount = p'.pesList.length ∧
      out = (toldOf cb (itemsOf (arrivedIn w p.pid.pidNr
        (pesExtractorWrite pe.ctx w.pkts).callbacks))).map (Prod.mk p.pid.pidNr) := by
  unfold writePid at h
  rw [hpe] at h
  dsimp only at h
  cases hnext : (pesExtractorWrite pe.ctx w.pkts).next with
  | error e => simp [hnext] at h
  | ok ctx =>
      have hstart : ({ p with pid := { p.pid with pe := some { pe with ctx := ctx } } } :
          PidContext).pesListCount = p.pesList.length := hcount
      simp only [hnext, deliverAll_eq cb hstart, Option.some.injEq, Prod.mk.injEq] at h
      obtain ⟨rfl, rfl⟩ := h
      exact ⟨ctx, rfl, rfl, rfl, rfl, rfl⟩

theorem FedAlone.cons {cb : Bool} {pe : Extractor} {p mid p' : PidContext} {w : Call}
    {calls : List Call} {told : List PesPacket} {ctx : Ctx}
    (hnext : (pesExtractorWrite pe.ctx w.pkts).next = .ok ctx)
    (hpid : mid.pid = { p.pid with pe := some { pe with ctx := ctx } })
    (hlist : mid.pesList = rememberAll expired p.pesList
      (itemsOf (arrivedIn w p.pid.pidNr (pesExtractorWrite pe.ctx w.pkts).callbacks)))
    (h : FedAlone cb { pe with ctx := ctx } mid calls p' told) :
    FedAlone cb pe p (w :: calls) p' (toldOf cb (itemsOf (arrivedIn w p.pid.pidNr
      (pesExtractorWrite pe.ctx w.pkts).callbacks)) ++ told) := by
  have hnr : mid.pid.pidNr = p.pid.pidNr := by rw [hpid]
  have harrived : arrivedAt p.pid.pidNr pe.ctx (w :: calls) =
      arrivedIn w p.pid.pidNr (pesExtractorWrite pe.ctx w.pkts).callbacks ++
        arrivedAt p.pid.pidNr ctx calls := by
    rw [arrivedAt, hnext]
  have hitems : itemsOf (arrivedAt p.pid.pidNr pe.ctx (w :: calls)) =
      itemsOf (arrivedIn w p.pid.pidNr (pesExtractorWrite pe.ctx w.pkts).callbacks) ++
        itemsOf (arrivedAt p.pid.pidNr ctx calls) := by
    rw [harrived]
    exact List.filterMap_append
  have hwrites : pesExtractorWrites pe.ctx ((w :: calls).map Call.pkts) =
      (pesExtractorWrite pe.ctx w.pkts).andThen fun ctx ↦
        pesExtractorWrites ctx (calls.map Call.pkts) := rfl
  obtain ⟨last, hlast, hpid'⟩ := h.extractor
  refine ⟨⟨last, ?_, ?_⟩, ?_, ?_, h.count, ?_⟩
  · rw [hwrites]
    simpa [Outcome.andThen, hnext] using hlast
  · rw [hpid', hpid]
  · rw [hwrites, harrived, List.map_append, map_fst_arrivedIn, ← hnr, ← h.delivered]
    simp [Outcome.andThen, hnext]
  · rw [h.list, hlist, hnr, hitems, rememberAll_append]
  · rw [h.told, hnr, hitems, toldOf_append]

/-! ## All pids -/

/-- The turns of some pids: each of them has its own one, and nothing else changes. -/
structure Turned (w : Call) (is : List ℕ) (r r' : Running × List (ℕ × PesPacket)) : Prop where
  pidIndex : r'.1.pidIndex = r.1.pidIndex
  cb : r'.1.cb = r.1.cb
  other : ∀ p ∉ is, r'.1.pids p = r.1.pids p ∧ outputsAt p r'.2 = outputsAt p r.2
  own : ∀ p ∈ is, ∃ told : List PesPacket, writePid r.1.cb w (r.1.pids p) =
    some (r'.1.pids p, told.map (Prod.mk p)) ∧ outputsAt p r'.2 = outputsAt p r.2 ++ told

theorem masked_eq {i : ℕ} (h : i < 0x2000) : i &&& 0x1fff = i := by
  rw [Nat.and_two_pow_sub_one_eq_mod i 13]
  exact Nat.mod_eq_of_lt h

theorem turned_foldlM {w : Call} {is : List ℕ} :
    ∀ {r r' : Running × List (ℕ × PesPacket)}, is.Nodup → (∀ i ∈ is, i < 0x2000) →
      (∀ i ∈ is, ∀ p' out, writePid r.1.cb w (r.1.pids i) = some (p', out) →
        ∃ told : List PesPacket, out = told.map (Prod.mk i)) →
      is.foldlM (writeTurn w) r = some r' → Turned w is r r' := by
  induction is with
  | nil =>
      intro r r' _ _ _ h
      obtain rfl : r = r' := by simpa using h
      exact ⟨rfl, rfl, fun _ _ ↦ ⟨rfl, rfl⟩, by simp⟩
  | cons i rest ih =>
      intro r r' hnodup hlt htag h
      obtain ⟨hi, hrest⟩ := List.nodup_cons.mp hnodup
      rw [List.foldlM_cons] at h
      obtain ⟨mid, hturn, h⟩ := Option.bind_eq_some_iff.mp h
      obtain ⟨⟨p', out⟩, hwrite, rfl⟩ := Option.map_eq_some_iff.mp hturn
      rw [masked_eq (hlt i (by simp))] at hwrite h
      obtain ⟨told, rfl⟩ := htag i (by simp) _ _ hwrite
      have hsame : ∀ p, p ≠ i → Function.update r.1.pids i p' p = r.1.pids p :=
        fun p hp ↦ Function.update_of_ne hp _ _
      have hlater := ih hrest (fun j hj ↦ hlt j (List.mem_cons_of_mem i hj))
        (fun j hj p'' out hout ↦ htag j (List.mem_cons_of_mem i hj) p'' out (by
          rw [← hout]
          exact congrArg _ (hsame j fun heq ↦ hi (heq ▸ hj)).symm)) h
      have houts : ∀ p, p ≠ i → outputsAt p (r.2 ++ told.map (Prod.mk i)) = outputsAt p r.2 := by
        intro p hp
        rw [outputsAt_append, outputsAt_tagged_ne (Ne.symm hp), List.append_nil]
      refine ⟨hlater.pidIndex, hlater.cb, fun p hp ↦ ?_, fun p hp ↦ ?_⟩
      · rw [List.mem_cons, not_or] at hp
        obtain ⟨hpids, hout⟩ := hlater.other p hp.2
        exact ⟨hpids.trans (hsame p hp.1), hout.trans (houts p hp.1)⟩
      · rcases List.mem_cons.mp hp with rfl | hmem
        · obtain ⟨hpids, hout⟩ := hlater.other p hi
          refine ⟨told, ?_, ?_⟩
          · rw [hwrite, hpids]
            dsimp only
            rw [Function.update_self]
          · rw [hout, outputsAt_append, outputsAt_tagged_self]
        · have hne : p ≠ i := fun heq ↦ hi (heq ▸ hmem)
          obtain ⟨told', hown, hout⟩ := hlater.own p hmem
          refine ⟨told', ?_, ?_⟩
          · rw [← hown]
            exact congrArg _ (hsame p hne).symm
          · rw [hout, houts p hne]

/-- A demultiplexer whose index is good: extractors on all of its pids, numbers in their places,
and counts that go along with the lists. -/
structure Ready (s : Running) : Prop where
  nodup : s.pidIndex.Nodup
  lt : ∀ p ∈ s.pidIndex, p < 0x2000
  pidNr : ∀ p, (s.pids p).pid.pidNr = p
  pe : ∀ p ∈ s.pidIndex, (s.pids p).pid.pe.isSome
  count : ∀ p, (s.pids p).pesListCount = (s.pids p).pesList.length

theorem ready_started {pat : Psi.Pat} {ctx : DemuxCtx} (h : demuxAllocFromPat pat = some ctx)
    (cb : Bool) : Ready (started ctx cb) := by
  obtain ⟨hlisted, -⟩ := (foldlM_addStream pat (elementaryStreams pat) listed_start).2 ctx h
  refine ⟨hlisted.nodup, fun p hp ↦ ?_, hlisted.pidNr_eq, fun p hp ↦ (hlisted.mem_iff p).mp hp,
    fun _ ↦ rfl⟩
  obtain ⟨e, he⟩ := Option.isSome_iff_exists.mp ((hlisted.mem_iff p).mp hp)
  rw [← hlisted.extractor_pid p e he, Nat.and_two_pow_sub_one_eq_mod _ 13]
  exact Nat.mod_lt _ (by decide)

/-- A call with packets is a turn of every pid of the index. -/
theorem Ready.turned {s s' : Running} (h : Ready s) {w : Call} (hpkts : w.pkts ≠ [])
    {out : List (ℕ × PesPacket)} (hs : demuxWrite s w = some (s', out)) :
    Turned w s.pidIndex (s, []) (s', out) := by
  rw [demuxWrite, if_neg hpkts] at hs
  refine turned_foldlM h.nodup h.lt (fun i hi p' out hout ↦ ?_) hs
  obtain ⟨pe, hpe⟩ := Option.isSome_iff_exists.mp (h.pe i hi)
  obtain ⟨ctx, -, -, -, -, rfl⟩ := exists_of_writePid hpe (h.count i) hout
  exact ⟨_, by rw [h.pidNr]⟩

theorem Ready.demuxWrite {s s' : Running} (h : Ready s) {w : Call}
    {out : List (ℕ × PesPacket)} (hs : demuxWrite s w = some (s', out)) : Ready s' := by
  by_cases hpkts : w.pkts = []
  · rw [Demux.demuxWrite, if_pos hpkts] at hs
    rw [← (Prod.mk.inj (Option.some.inj hs)).1]
    exact h
  · have hturned := h.turned hpkts hs
    have hown : ∀ p ∈ s.pidIndex, (s'.pids p).pid.pidNr = p ∧ (s'.pids p).pid.pe.isSome ∧
        (s'.pids p).pesListCount = (s'.pids p).pesList.length := by
      intro p hp
      obtain ⟨pe, hpe⟩ := Option.isSome_iff_exists.mp (h.pe p hp)
      obtain ⟨told, hwrite, -⟩ := hturned.own p hp
      obtain ⟨ctx, -, hpid, -, hcount, -⟩ := exists_of_writePid hpe (h.count p) hwrite
      rw [hpid]
      exact ⟨h.pidNr p, rfl, hcount⟩
    have hindex : s'.pidIndex = s.pidIndex := hturned.pidIndex
    refine ⟨hindex ▸ h.nodup, hindex ▸ h.lt, fun p ↦ ?_, fun p hp ↦ ?_, fun p ↦ ?_⟩
    · by_cases hp : p ∈ s.pidIndex
      · exact (hown p hp).1
      · exact (congrArg (fun x ↦ x.pid.pidNr) (hturned.other p hp).1).trans (h.pidNr p)
    · exact (hown p (hindex ▸ hp)).2.1
    · by_cases hp : p ∈ s.pidIndex
      · exact (hown p hp).2.2
      · rw [show s'.pids p = s.pids p from (hturned.other p hp).1]
        exact h.count p

/-! ## Runs -/

theorem FedAlone.cons_nil {cb : Bool} {pe : Extractor} {p p' : PidContext}
    (hpe : p.pid.pe = some pe)
    {w : Call} (hpkts : w.pkts = []) {calls : List Call} {told : List PesPacket}
    (h : FedAlone cb pe p calls p' told) : FedAlone cb pe p (w :: calls) p' told := by
  have hidle : pesExtractorWrite pe.ctx w.pkts = .idle pe.ctx := by
    rw [hpkts, pesExtractorWrite_nil]
  have hnone :
      itemsOf (arrivedIn w p.pid.pidNr (pesExtractorWrite pe.ctx w.pkts).callbacks) = [] := by
    rw [hidle]
    rfl
  have hcons := @FedAlone.cons cb pe p p p' w calls told pe.ctx (by rw [hidle]; rfl) (by rw [← hpe])
    (by rw [hnone]; rfl) h
  rw [hnone] at hcons
  cases cb <;> exact hcons

/-- In a run every pid of the index is fed alone, and the others are left alone. -/
theorem fedAlone_of_trace {calls : List Call} :
    ∀ {s s' : Running} {outs : List (List (ℕ × PesPacket))}, Ready s →
      trace demuxWrite s calls = some (s', outs) →
        s'.pidIndex = s.pidIndex ∧
        (∀ p ∉ s.pidIndex, s'.pids p = s.pids p ∧ outputsAt p outs.flatten = []) ∧
        ∀ p ∈ s.pidIndex, ∀ pe, (s.pids p).pid.pe = some pe →
          FedAlone s.cb pe (s.pids p) calls (s'.pids p) (outputsAt p outs.flatten) := by
  induction calls with
  | nil =>
      intro s s' outs h htrace
      obtain ⟨rfl, rfl⟩ : s = s' ∧ [] = outs := by simpa [trace] using htrace
      exact ⟨rfl, fun _ _ ↦ ⟨rfl, rfl⟩, fun p _ pe hpe ↦ fedAlone_nil _ hpe (h.count p)⟩
  | cons w rest ih =>
      intro s s' outs h htrace
      obtain ⟨mid, out, later, hs, hrest, rfl⟩ := exists_of_trace_cons htrace
      obtain ⟨hindex, hother, hown⟩ := ih (h.demuxWrite hs) hrest
      by_cases hpkts : w.pkts = []
      · rw [demuxWrite, if_pos hpkts] at hs
        obtain ⟨rfl, rfl⟩ := Prod.mk.inj (Option.some.inj hs)
        exact ⟨hindex, hother, fun p hp pe hpe ↦ (hown p hp pe hpe).cons_nil hpe hpkts⟩
      · have hturned := h.turned hpkts hs
        have hsame : mid.pidIndex = s.pidIndex := hturned.pidIndex
        have hcb : mid.cb = s.cb := hturned.cb
        rw [hsame] at hindex hother hown
        refine ⟨hindex, fun p hp ↦ ?_, fun p hp pe hpe ↦ ?_⟩
        · obtain ⟨hpids, hout⟩ := hturned.other p hp
          obtain ⟨hpids', hout'⟩ := hother p hp
          refine ⟨hpids'.trans hpids, ?_⟩
          rw [List.flatten_cons, outputsAt_append, hout']
          simpa using hout
        · obtain ⟨told, hwrite, hout⟩ := hturned.own p hp
          obtain ⟨ctx, hnext, hpid, hlist, -, htold⟩ := exists_of_writePid hpe (h.count p) hwrite
          have hfed := hown p hp { pe with ctx := ctx } (by rw [hpid])
          rw [hcb] at hfed
          have hmine : told = toldOf s.cb (itemsOf (arrivedIn w (s.pids p).pid.pidNr
              (pesExtractorWrite pe.ctx w.pkts).callbacks)) := by
            rw [h.pidNr p] at htold ⊢
            exact List.map_injective_iff.mpr (fun _ _ heq ↦ (Prod.mk.inj heq).2) htold
          have hout' : outputsAt p out = told := hout
          rw [List.flatten_cons, outputsAt_append, hout', hmine]
          exact FedAlone.cons hnext hpid hlist hfed

/-- What is left of some items: an end of them with the newest one; on a clock that does not go
back, nor stands still for seven weeks, the items of the last two seconds. -/
structure Recent (held items : List PesItem) : Prop where
  suffix : held <:+ items
  newest : held.getLast? = items.getLast?
  window : ∀ init x, items = init ++ [x] →
    Steady (fun e : PesItem ↦ timevalToMs e.ts) (2 ^ 32 - itemExpireMs) items →
      held = items.filter fun e ↦ decide (timevalToMs x.ts < timevalToMs e.ts + itemExpireMs)

theorem recent_rememberAll (items : List PesItem) :
    Recent (rememberAll expired [] items) items := by
  refine ⟨rememberAll_suffix expired items [], ?_, ?_⟩
  · rcases eq_or_ne items [] with rfl | hne
    · rfl
    · exact getLast?_rememberAll expired_self hne
  · rintro init x rfl hsteady
    refine rememberAll_eq_filter (fun x y hle hlt ↦ ?_) hsteady (by decide) (by decide)
    simp only [itemExpireMs] at hle hlt ⊢
    rw [expired, decide_eq_true_iff, itemAgeMs, uint32, timevalSubtractMs, itemExpireMs]
    omega

/-- Demultiplexers work apart: in every run each extractor does what it would do alone, the
callback is told of exactly what it delivers, and the list of its pid holds the recent ones. -/
theorem demux_runs_apart {pat : Psi.Pat} {ctx : DemuxCtx} (hctx : demuxAllocFromPat pat = some ctx)
    (cb : Bool) {calls : List Call} {s : Running} {outs : List (List (ℕ × PesPacket))}
    (htrace : trace demuxWrite (started ctx cb) calls = some (s, outs)) :
    s.pidIndex = ctx.pidIndex ∧
      (∀ p ∉ ctx.pidIndex, s.pids p = (started ctx cb).pids p ∧ outputsAt p outs.flatten = []) ∧
      ∀ p ∈ ctx.pidIndex, ∃ pe, (ctx.pids p).pe = some pe ∧
        FedAlone cb pe ((started ctx cb).pids p) calls (s.pids p) (outputsAt p outs.flatten) ∧
        Recent (s.pids p).pesList (itemsOf (arrivedAt p pe.ctx calls)) := by
  have hready := ready_started hctx cb
  obtain ⟨hindex, hother, hown⟩ := fedAlone_of_trace hready htrace
  refine ⟨hindex, hother, fun p hp ↦ ?_⟩
  obtain ⟨pe, hpe⟩ := Option.isSome_iff_exists.mp (hready.pe p hp)
  have hfed := hown p hp pe hpe
  refine ⟨pe, hpe, hfed, ?_⟩
  have hlist := hfed.list
  rw [hready.pidNr p] at hlist
  rw [hlist]
  exact recent_rememberAll _

/-! ## Runs that come to their end -/

theorem exists_writePid (cb : Bool) {w : Call} {p : PidContext} {pe : Extractor}
    (hpe : p.pid.pe = some pe) {last : Ctx}
    (hnext : (pesExtractorWrite pe.ctx w.pkts).next = .ok last) :
    ∃ d, writePid cb w p = some d := by
  unfold writePid
  rw [hpe]
  simp only [hnext]
  exact ⟨_, rfl⟩

theorem exists_foldlM_writeTurn {w : Call} {is : List ℕ} :
    ∀ {r : Running × List (ℕ × PesPacket)}, is.Nodup → (∀ i ∈ is, i < 0x2000) →
      (∀ i ∈ is, ∃ d, writePid r.1.cb w (r.1.pids i) = some d) →
        ∃ r', is.foldlM (writeTurn w) r = some r' := by
  induction is with
  | nil => exact fun _ _ _ ↦ ⟨_, rfl⟩
  | cons i rest ih =>
      intro r hnodup hlt hturns
      obtain ⟨hi, hrest⟩ := List.nodup_cons.mp hnodup
      obtain ⟨d, hd⟩ := hturns i (by simp)
      rw [List.foldlM_cons, writeTurn, masked_eq (hlt i (by simp)), hd]
      refine ih hrest (fun j hj ↦ hlt j (List.mem_cons_of_mem i hj)) fun j hj ↦ ?_
      dsimp only
      have hne : j ≠ i := fun heq ↦ hi (heq ▸ hj)
      rw [Function.update_of_ne hne]
      exact hturns j (List.mem_cons_of_mem i hj)

/-- A call in which the extractor of every pid of the index comes to its end. -/
theorem Ready.exists_demuxWrite {s : Running} (h : Ready s) {w : Call}
    (hends : ∀ p ∈ s.pidIndex, ∀ pe, (s.pids p).pid.pe = some pe →
      ∃ last, (pesExtractorWrite pe.ctx w.pkts).next = .ok last) :
    ∃ r, Demux.demuxWrite s w = some r := by
  unfold Demux.demuxWrite
  split_ifs
  · exact ⟨_, rfl⟩
  · refine exists_foldlM_writeTurn h.nodup h.lt fun p hp ↦ ?_
    obtain ⟨pe, hpe⟩ := Option.isSome_iff_exists.mp (h.pe p hp)
    obtain ⟨last, hlast⟩ := hends p hp pe hpe
    exact exists_writePid _ hpe hlast

/-- Callbacks that find memory are all remembered. -/
theorem map_pes_itemsOf {arrived : List (PesPacket × Arrival)}
    (h : ∀ x ∈ arrived, x.2.granted = true) :
    (itemsOf arrived).map PesItem.pes = arrived.map Prod.fst := by
  induction arrived with
  | nil => rfl
  | cons x rest ih =>
      have hx := h x List.mem_cons_self
      have hone : itemsOf (x :: rest) = ⟨x.1, x.2.now⟩ :: itemsOf rest := by
        unfold itemsOf
        rw [List.filterMap_cons, if_neg (by simp [hx])]
      rw [hone, List.map_cons, List.map_cons, ih fun y hy ↦ h y (List.mem_cons_of_mem x hy)]

theorem granted_arrivedAt (pidNr : ℕ) {calls : List Call}
    (h : ∀ w ∈ calls, ∀ i, (w.arrivals pidNr i).granted = true) :
    ∀ {ctx : Ctx}, ∀ x ∈ arrivedAt pidNr ctx calls, x.2.granted = true := by
  induction calls with
  | nil => exact fun x hx ↦ absurd hx List.not_mem_nil
  | cons w rest ih =>
      intro ctx x hx
      rw [arrivedAt] at hx
      rcases List.mem_append.mp hx with hhere | hlater
      · obtain ⟨y, -, rfl⟩ := List.mem_map.mp hhere
        exact h w List.mem_cons_self y.2
      · cases hnext : (pesExtractorWrite ctx w.pkts).next with
        | error halt => simp [hnext] at hlater
        | ok mid =>
            rw [hnext] at hlater
            exact ih (fun v hv ↦ h v (List.mem_cons_of_mem w hv)) x hlater

/-- Where all callbacks find memory the items are what the extractor delivers. -/
theorem FedAlone.raw_items {cb : Bool} {pe : Extractor} {p p' : PidContext} {calls : List Call}
    {told : List PesPacket} (h : FedAlone cb pe p calls p' told)
    (hgranted : ∀ w ∈ calls, ∀ i, (w.arrivals p.pid.pidNr i).granted = true) :
    (itemsOf (arrivedAt p.pid.pidNr pe.ctx calls)).map (fun e ↦ e.pes.rawBuffer) =
      (pesExtractorWrites pe.ctx (calls.map Call.pkts)).raw := by
  set arrived := arrivedAt p.pid.pidNr pe.ctx calls
  calc (itemsOf arrived).map (fun e ↦ e.pes.rawBuffer)
      _ = ((itemsOf arrived).map PesItem.pes).map PesPacket.rawBuffer := by
        rw [List.map_map]
        rfl
      _ = (arrived.map Prod.fst).map PesPacket.rawBuffer := by
        rw [map_pes_itemsOf (granted_arrivedAt _ hgranted)]
      _ = (pesExtractorWrites pe.ctx (calls.map Call.pkts)).raw := by
        rw [← h.delivered, Outcome.raw]

theorem Recent.eq_nil {held : List PesItem} (h : Recent held []) : held = [] :=
  List.suffix_nil.mp h.suffix

theorem Recent.eq_singleton {held : List PesItem} {item : PesItem} (h : Recent held [item]) :
    held = [item] := by
  rcases List.suffix_cons_iff.mp h.suffix with hall | hnone
  · exact hall
  · have hnewest := h.newest
    rw [List.suffix_nil.mp hnone] at hnewest
    exact absurd hnewest (by simp)

def avPat : Psi.Pat :=
  patOfTwo ⟨0x1b, 0x100, .empty⟩ ⟨0x0f, 0x101, .empty⟩

/-- Packets of the stream of video, at one time and with memory for every item. -/
def avCall : Call := ⟨Stats.survivors sampleGroups.flatten, fun _ _ ↦ ⟨true, ⟨0, 0⟩⟩⟩

theorem avCall_pkts : avCall.pkts = Stats.survivors sampleGroups.flatten := by rw [avCall]

/-- What the extractors of `avPat` do with `avCall`. -/
theorem avCall_extractors {ctx : DemuxCtx} (hctx : demuxAllocFromPat avPat = some ctx) {p : ℕ}
    {pe : Extractor} (hpe : (ctx.pids p).pe = some pe) :
    (pesExtractorWrites pe.ctx [avCall.pkts]).raw = (if p = 0x100 then [plainPes 7 1] else []) ∧
      ∃ last, (pesExtractorWrites pe.ctx [avCall.pkts]).next = .ok last := by
  obtain ⟨hdelivery, hwhole⟩ := sample_delivery
  obtain ⟨stream, hstream, rfl, new, pcrPid, hnew, hconfigured⟩ := exists_new_extractor hctx hpe
  have hstreams : elementaryStreams avPat = [⟨0x1b, 0x100, .empty⟩, ⟨0x0f, 0x101, .empty⟩] := rfl
  rw [hstreams, List.mem_cons, List.mem_singleton] at hstream
  rw [hconfigured]
  rcases hstream with rfl | rfl
  · have hlarge : LossyDelivery 0x100 15 (-1) sampleJobs sampleGroups
        [Stats.survivors sampleGroups.flatten] :=
      ⟨hdelivery.stamps, fun job hjob ↦ (hdelivery.fits job hjob).trans (by decide), hdelivery.pcr,
        hdelivery.packets, hdelivery.runs, hdelivery.own, hdelivery.synced, hdelivery.clean⟩
    obtain ⟨hraw, hend⟩ :=
      configured_delivery (by decide) (by decide) hnew (by decide) pcrPid hlarge
    have hkept : [plainPes 7 1].filter (fun b ↦ !decide (CountWraps b)) = [plainPes 7 1] := by
      decide +kernel
    rw [hwhole, hkept] at hraw
    have hown : pidOf ⟨0x1b, 0x100, .empty⟩ = 0x100 := by decide
    rw [if_pos hown, avCall_pkts]
    exact ⟨hraw, hend⟩
  · obtain ⟨-, hpid, hopen⟩ := agree_configured hnew false pcrPid
    have hforeign : ∀ pkt ∈ [avCall.pkts].flatten, Ts.pid pkt ≠ 0x101 := by decide +kernel
    obtain ⟨last, hlast⟩ := writeLoop_foreign [avCall.pkts].flatten fun pkt hpkt ↦ by
      rw [hpid]
      exact hforeign pkt hpkt
    rw [pesExtractorWrites_eq _ hopen, hlast]
    exact ⟨rfl, last, rfl⟩

/-- The packet of the stream of video is delivered and listed, and nothing on the other pid. -/
theorem demux_runs_apart_sample : ∃ ctx s outs, demuxAllocFromPat avPat = some ctx ∧
    trace demuxWrite (started ctx true) [avCall] = some (s, outs) ∧
    (outputsAt 0x100 outs.flatten).map PesPacket.rawBuffer = [plainPes 7 1] ∧
    (s.pids 0x100).pesList.map (fun e ↦ e.pes.rawBuffer) = [plainPes 7 1] ∧
    outputsAt 0x101 outs.flatten = [] ∧ (s.pids 0x101).pesList = [] := by
  obtain ⟨hiff, hspec⟩ := foldlM_addStream avPat (elementaryStreams avPat) listed_start
  obtain ⟨ctx, hctx⟩ := hiff.mpr (by decide)
  have hindex : ctx.pidIndex = [0x100, 0x101] := by
    rw [(hspec ctx hctx).2]
    decide
  obtain ⟨r, hr⟩ := (ready_started hctx true).exists_demuxWrite fun p _ pe hpe ↦ by
    obtain ⟨last, hlast⟩ := (avCall_extractors hctx hpe).2
    obtain ⟨mid, hmid, -⟩ := Outcome.andThen_next hlast
    exact ⟨mid, hmid⟩
  have htrace : trace demuxWrite (started ctx true) [avCall] = some (r.1, [r.2]) := by
    rw [trace, hr]
    rfl
  obtain ⟨-, -, hown⟩ := demux_runs_apart hctx true htrace
  have htold : ∀ p ∈ ctx.pidIndex, ∃ items : List PesItem,
      items.map (fun e ↦ e.pes.rawBuffer) = (if p = 0x100 then [plainPes 7 1] else []) ∧
      outputsAt p [r.2].flatten = items.map PesItem.pes ∧ Recent (r.1.pids p).pesList items := by
    intro p hp
    obtain ⟨pe, hpe, hfed, hrecent⟩ := hown p hp
    have hnr : ((started ctx true).pids p).pid.pidNr = p := (ready_started hctx true).pidNr p
    have hraw := hfed.raw_items fun w hw _ ↦ by
      rw [List.mem_singleton.mp hw, avCall]
    have hout := hfed.told
    rw [hnr] at hraw hout
    exact ⟨_, hraw.trans (avCall_extractors hctx hpe).1, hout, hrecent⟩
  obtain ⟨video, hvideo, houtVideo, hlistVideo⟩ := htold 0x100 (by rw [hindex]; decide)
  obtain ⟨audio, haudio, houtAudio, hlistAudio⟩ := htold 0x101 (by rw [hindex]; decide)
  rw [if_pos rfl] at hvideo
  rw [if_neg (by decide)] at haudio
  obtain rfl := List.map_eq_nil_iff.mp haudio
  obtain ⟨item, rest, rfl, hitem, hrest⟩ := List.map_eq_cons_iff.mp hvideo
  obtain rfl := List.map_eq_nil_iff.mp hrest
  refine ⟨ctx, r.1, [r.2], hctx, htrace, ?_, ?_, houtAudio, hlistAudio.eq_nil⟩
  · rw [houtVideo]
    exact hvideo
  · rw [hlistVideo.eq_singleton]
    exact hvideo

end LtnTsTools.Demux
