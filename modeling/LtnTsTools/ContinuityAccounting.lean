import LtnTsTools.StreamStatistics
import Mathlib.Algebra.BigOperators.Group.Finset.Basic

/-!
# Accounting of continuity errors

A pid's counters are a fold over its own packets, whatever else the multiplex
carries and however it is cut into calls.  On a pid whose packets count up and
lose runs on the way, the fold counts the runs: a run of `k` packets leaves the
next counter `k` ahead of the expected one, which is another counter unless 16
divides `k`.
-/

namespace LtnTsTools.Stats

def statsAfter (calls : List (List Packet)) : StreamStatistics :=
  calls.foldl pidStatsUpdate pidStatsAlloc

def onPid (p : ℕ) (pkts : List Packet) : List Packet := pkts.filter fun pkt ↦ Ts.pid pkt = p

/-! ## One pid at a time -/

theorem onPid_append (p : ℕ) (xs ys : List Packet) :
    onPid p (xs ++ ys) = onPid p xs ++ onPid p ys := List.filter_append xs ys

theorem pids_foldl_notePacket (p : ℕ) (pkts : List Packet) (stream : StreamStatistics) :
    (pkts.foldl notePacket stream).pids p = (onPid p pkts).foldl updatePid (stream.pids p) := by
  induction pkts generalizing stream with
  | nil => rfl
  | cons pkt rest ih =>
      rw [List.foldl_cons, ih]
      by_cases h : Ts.pid pkt = p
      · subst h
        simp [onPid]
      · simp [onPid, h, pids_notePacket_of_ne h]

theorem pids_pidStatsUpdate (p : ℕ) (pkts : List Packet) (stream : StreamStatistics) :
    (pidStatsUpdate stream pkts).pids p = (onPid p pkts).foldl updatePid (stream.pids p) := by
  simp [pidStatsUpdate, pids_foldl_notePacket]

/-- The counters of a pid after any calls are a fold over its own packets. -/
theorem pids_foldl_pidStatsUpdate (p : ℕ) (calls : List (List Packet))
    (stream : StreamStatistics) :
    (calls.foldl pidStatsUpdate stream).pids p =
      (onPid p calls.flatten).foldl updatePid (stream.pids p) := by
  induction calls generalizing stream with
  | nil => rfl
  | cons pkts rest ih =>
      rw [List.foldl_cons, ih, pids_pidStatsUpdate, List.flatten_cons, onPid_append,
        List.foldl_append]

theorem pids_statsAfter (p : ℕ) (calls : List (List Packet)) :
    (statsAfter calls).pids p = (onPid p calls.flatten).foldl updatePid PidStatistics.zero :=
  pids_foldl_pidStatsUpdate p calls pidStatsAlloc

/-! ## The total of the stream -/

def pidErrors (stream : StreamStatistics) : ℕ :=
  ∑ p ∈ Finset.range 0x2000, (stream.pids p).ccErrors

theorem pidErrors_notePacket (stream : StreamStatistics) (pkt : Packet) :
    pidErrors (notePacket stream pkt) =
      pidErrors stream + (breaksContinuity (stream.pids (Ts.pid pkt)) pkt).toNat := by
  have hmem : Ts.pid pkt ∈ Finset.range 0x2000 := Finset.mem_range.mpr (Ts.pid_lt pkt)
  have hothers : ∀ p ∈ (Finset.range 0x2000).erase (Ts.pid pkt),
      ((notePacket stream pkt).pids p).ccErrors = (stream.pids p).ccErrors := by
    intro p hp
    rw [pids_notePacket_of_ne (Finset.ne_of_mem_erase hp).symm]
  unfold pidErrors
  rw [← Finset.add_sum_erase _ _ hmem, ← Finset.add_sum_erase _ _ hmem,
    Finset.sum_congr rfl hothers, pids_notePacket_self]
  simp only [updatePid]
  omega

/-- With the sync byte in every packet, the errors of the stream are those of its
pids. -/
theorem ccErrors_foldl_notePacket (pkts : List Packet) (stream : StreamStatistics)
    (h : stream.ccErrors = pidErrors stream) :
    (pkts.foldl notePacket stream).ccErrors = pidErrors (pkts.foldl notePacket stream) := by
  induction pkts generalizing stream with
  | nil => exact h
  | cons pkt rest ih =>
      apply ih
      rw [pidErrors_notePacket, ← h]
      rfl

theorem ccErrors_foldl_countPacket (pkts : List Packet) (stream : StreamStatistics)
    (hsync : ∀ pkt ∈ pkts, Ts.syncPresent pkt = true) :
    (pkts.foldl countPacket stream).ccErrors = stream.ccErrors := by
  induction pkts generalizing stream with
  | nil => rfl
  | cons pkt rest ih =>
      rw [List.foldl_cons, ih _ fun x hx ↦ hsync x (List.mem_cons_of_mem _ hx),
        ccErrors_countPacket, hsync pkt List.mem_cons_self]
      rfl

theorem ccErrors_pidStatsUpdate (pkts : List Packet) (stream : StreamStatistics)
    (hsync : ∀ pkt ∈ pkts, Ts.syncPresent pkt = true) (h : stream.ccErrors = pidErrors stream) :
    (pidStatsUpdate stream pkts).ccErrors = pidErrors (pidStatsUpdate stream pkts) := by
  apply ccErrors_foldl_notePacket
  rw [ccErrors_foldl_countPacket _ _ hsync, ccErrors_noteCall, h]
  simp [pidErrors]

theorem ccErrors_statsAfter (calls : List (List Packet))
    (hsync : ∀ pkt ∈ calls.flatten, Ts.syncPresent pkt = true) :
    (statsAfter calls).ccErrors = pidErrors (statsAfter calls) := by
  have hrun : ∀ stream : StreamStatistics, stream.ccErrors = pidErrors stream →
      (calls.foldl pidStatsUpdate stream).ccErrors =
        pidErrors (calls.foldl pidStatsUpdate stream) := by
    induction calls with
    | nil => exact fun _ h ↦ h
    | cons pkts rest ih =>
        intro stream h
        simp only [List.flatten_cons, List.mem_append] at hsync
        exact ih (fun x hx ↦ hsync x (.inr hx)) _
          (ccErrors_pidStatsUpdate pkts stream (fun x hx ↦ hsync x (.inl hx)) h)
  apply hrun
  simp [pidErrors, pidStatsAlloc, PidStatistics.zero]

/-! ## Runs of removed packets -/

structure Slot where
  packet : Packet
  kept : Bool

def survivors (slots : List Slot) : List Packet :=
  (slots.filter fun slot ↦ slot.kept).map Slot.packet

/-- The continuity counters go up by one, from `c`. -/
def CountsFrom : ℕ → List Packet → Prop
  | _, [] => True
  | c, pkt :: rest => Ts.continuityCounter pkt = c % 16 ∧ CountsFrom (c + 1) rest

instance decidableCountsFrom : ∀ (c : ℕ) (pkts : List Packet), Decidable (CountsFrom c pkts)
  | _, [] => .isTrue trivial
  | c, pkt :: rest =>
      have := decidableCountsFrom (c + 1) rest
      inferInstanceAs (Decidable (Ts.continuityCounter pkt = c % 16 ∧ CountsFrom (c + 1) rest))

/-- Lengths of the runs of removed packets in front of a survivor, when `n`
packets have been removed just before. -/
def closedRuns : ℕ → List Slot → List ℕ
  | _, [] => []
  | n, slot :: rest =>
      if slot.kept then (if n = 0 then [] else [n]) ++ closedRuns 0 rest
      else closedRuns (n + 1) rest

/-- Packets removed at the very end. -/
def openRun (slots : List Slot) : ℕ := (slots.reverse.takeWhile fun slot ↦ !slot.kept).length

def removedRuns (slots : List Slot) : List ℕ :=
  closedRuns 0 slots ++ if openRun slots = 0 then [] else [openRun slots]

@[simp] theorem survivors_cons (slot : Slot) (rest : List Slot) :
    survivors (slot :: rest) =
      if slot.kept then slot.packet :: survivors rest else survivors rest := by
  unfold survivors
  split_ifs with h <;> simp [h]

theorem mem_of_mem_survivors {slots : List Slot} {pkt : Packet} (h : pkt ∈ survivors slots) :
    ∃ slot ∈ slots, slot.packet = pkt := by
  obtain ⟨slot, hslot, rfl⟩ := List.mem_map.mp h
  exact ⟨slot, (List.mem_filter.mp hslot).1, rfl⟩

/-- Without losses everything arrives, in no run. -/
theorem survivors_of_kept (pkts : List Packet) : survivors (pkts.map (Slot.mk · true)) = pkts := by
  induction pkts with
  | nil => rfl
  | cons p rest ih => simp [ih]

theorem closedRuns_of_kept (pkts : List Packet) :
    closedRuns 0 (pkts.map (Slot.mk · true)) = [] := by
  induction pkts with
  | nil => rfl
  | cons p rest ih => simp [closedRuns, ih]

theorem removedRuns_of_kept (pkts : List Packet) :
    removedRuns (pkts.map (Slot.mk · true)) = [] := by
  have hopen : openRun (pkts.map (Slot.mk · true)) = 0 := by
    rw [openRun, ← List.map_reverse]
    cases pkts.reverse <;> simp
  simp [removedRuns, closedRuns_of_kept, hopen]

/-- What a packet with payload adds to the errors of a pid that has been seen. -/
theorem breaksContinuity_of_payload {pid : PidStatistics} {pkt : Packet}
    (hseen : 0 < pid.packetCount) (hnull : Ts.pid pkt ≠ 0x1fff)
    (hpay : Ts.adaptionFieldControl pkt = 1 ∨ Ts.adaptionFieldControl pkt = 3) :
    breaksContinuity pid pkt = true ↔ Ts.continuityCounter pkt ≠ (pid.lastCC + 1) % 16 := by
  rw [← isCCInError_of_payload hpay]
  simp [breaksContinuity, hnull, hseen]

theorem breaksContinuity_of_first {pid : PidStatistics} {pkt : Packet}
    (hnew : pid.packetCount = 0) : breaksContinuity pid pkt = false := by
  simp [breaksContinuity, hnew]

/-- Every closed run is one error. -/
theorem ccErrors_of_slots {slots : List Slot} {n c : ℕ} {pid : PidStatistics}
    (hseen : 0 < pid.packetCount) (hlast : pid.lastCC = c % 16)
    (hnull : ∀ slot ∈ slots, Ts.pid slot.packet ≠ 0x1fff)
    (hpay : ∀ slot ∈ slots, Ts.adaptionFieldControl slot.packet = 1 ∨
      Ts.adaptionFieldControl slot.packet = 3)
    (hcounts : CountsFrom (c + 1 + n) (slots.map Slot.packet))
    (hruns : ∀ k ∈ closedRuns n slots, k % 16 ≠ 0) :
    ((survivors slots).foldl updatePid pid).ccErrors =
      pid.ccErrors + (closedRuns n slots).length := by
  induction slots generalizing n c pid with
  | nil => rfl
  | cons slot rest ih =>
      obtain ⟨hcc, hrest⟩ := hcounts
      have hnull' := fun x hx ↦ hnull x (List.mem_cons_of_mem slot hx)
      have hpay' := fun x hx ↦ hpay x (List.mem_cons_of_mem slot hx)
      cases hkept : slot.kept with
      | false =>
          simp only [closedRuns, hkept, Bool.false_eq_true, if_false, survivors_cons] at hruns ⊢
          exact ih hseen hlast hnull' hpay' hrest hruns
      | true =>
          simp only [closedRuns, hkept, if_true, survivors_cons, List.foldl_cons,
            List.length_append, List.mem_append] at hruns ⊢
          have hbreak := breaksContinuity_of_payload hseen (hnull slot List.mem_cons_self)
            (hpay slot List.mem_cons_self)
          -- the counter is as far ahead of the expected one as packets are missing
          have hadded : (breaksContinuity pid slot.packet).toNat =
              (if n = 0 then [] else [n]).length := by
            by_cases hn : n = 0
            · have hno : ¬breaksContinuity pid slot.packet = true := by
                rw [hbreak, not_not, hcc, hlast]
                omega
              simp [hn, Bool.not_eq_true _ ▸ hno]
            · have hmod := hruns n (.inl (by simp [hn]))
              have hyes : breaksContinuity pid slot.packet = true := by
                rw [hbreak, hcc, hlast]
                omega
              simp [hn, hyes]
          rw [ih (Nat.succ_pos _) hcc hnull' hpay' hrest fun k hk ↦ hruns k (.inr hk)]
          simp only [updatePid]
          omega

/-- The first packet of a pid is no error, and behind it every closed run is one. -/
theorem ccErrors_of_new {slots : List Slot} {c : ℕ}
    (hnull : ∀ slot ∈ slots, Ts.pid slot.packet ≠ 0x1fff)
    (hpay : ∀ slot ∈ slots, Ts.adaptionFieldControl slot.packet = 1 ∨
      Ts.adaptionFieldControl slot.packet = 3)
    (hcounts : CountsFrom c (slots.map Slot.packet))
    (hruns : ∀ k ∈ closedRuns 0 slots, k % 16 ≠ 0)
    (hstart : ∀ slot ∈ slots.head?, slot.kept = true) :
    ((survivors slots).foldl updatePid PidStatistics.zero).ccErrors =
      (closedRuns 0 slots).length := by
  cases slots with
  | nil => rfl
  | cons slot rest =>
      have hkept := hstart slot (by simp)
      obtain ⟨hcc, hrest⟩ := hcounts
      have hzero : (updatePid PidStatistics.zero slot.packet).ccErrors = 0 := by
        simp [updatePid, breaksContinuity_of_first, PidStatistics.zero]
      have hclosed : closedRuns 0 (slot :: rest) = closedRuns 0 rest := by
        simp [closedRuns, hkept]
      rw [hclosed] at hruns ⊢
      have herrors := @ccErrors_of_slots rest 0 c (updatePid PidStatistics.zero slot.packet)
        (Nat.succ_pos _) hcc (fun x hx ↦ hnull x (List.mem_cons_of_mem slot hx))
        (fun x hx ↦ hpay x (List.mem_cons_of_mem slot hx)) hrest hruns
      simp only [survivors_cons, hkept, if_true, List.foldl_cons]
      rw [herrors, hzero, Nat.zero_add]

theorem ccErrors_of_null {pkts : List Packet} (hnull : ∀ pkt ∈ pkts, Ts.pid pkt = 0x1fff)
    (pid : PidStatistics) : (pkts.foldl updatePid pid).ccErrors = pid.ccErrors := by
  induction pkts generalizing pid with
  | nil => rfl
  | cons pkt rest ih =>
      rw [List.foldl_cons, ih fun x hx ↦ hnull x (List.mem_cons_of_mem _ hx)]
      simp [updatePid, breaksContinuity, hnull pkt List.mem_cons_self]

/-! ## Whole multiplexes -/

/-- A multiplex of pids that count up and lose runs of packets, none of them at
their start. -/
structure LossyMultiplex (family : ℕ → List Slot) (stream : List Packet) : Prop where
  on_pid : ∀ p, ∀ slot ∈ family p, Ts.pid slot.packet = p
  synced : ∀ p, ∀ slot ∈ family p, Ts.syncPresent slot.packet = true
  payload : ∀ p, ∀ slot ∈ family p, Ts.adaptionFieldControl slot.packet = 1 ∨
    Ts.adaptionFieldControl slot.packet = 3
  counts : ∀ p, ∃ c, CountsFrom c ((family p).map Slot.packet)
  runs : ∀ p, ∀ k ∈ removedRuns (family p), k % 16 ≠ 0
  starts : ∀ p, ∀ slot ∈ (family p).head?, slot.kept = true
  interleaved : ∀ p, onPid p stream = survivors (family p)

namespace LossyMultiplex

variable {family : ℕ → List Slot} {stream : List Packet}

theorem syncPresent (h : LossyMultiplex family stream) :
    ∀ pkt ∈ stream, Ts.syncPresent pkt = true := by
  intro pkt hpkt
  have hmem : pkt ∈ onPid (Ts.pid pkt) stream := List.mem_filter.mpr ⟨hpkt, by simp⟩
  rw [h.interleaved] at hmem
  obtain ⟨slot, hslot, rfl⟩ := mem_of_mem_survivors hmem
  exact h.synced _ slot hslot

theorem ccErrors (h : LossyMultiplex family stream) {p : ℕ} (hp : p ≠ 0x1fff) :
    ((survivors (family p)).foldl updatePid PidStatistics.zero).ccErrors =
      (closedRuns 0 (family p)).length := by
  obtain ⟨c, hc⟩ := h.counts p
  refine ccErrors_of_new (fun slot hslot ↦ ?_) (h.payload p) hc
    (fun k hk ↦ h.runs p k (List.mem_append_left _ hk)) (h.starts p)
  rw [h.on_pid p slot hslot]
  exact hp

theorem ccErrors_null (h : LossyMultiplex family stream) :
    ((survivors (family 0x1fff)).foldl updatePid PidStatistics.zero).ccErrors = 0 := by
  apply ccErrors_of_null
  intro pkt hpkt
  obtain ⟨slot, hslot, rfl⟩ := mem_of_mem_survivors hpkt
  exact h.on_pid _ slot hslot

end LossyMultiplex

/-- Continuity errors are counted exactly, on each pid by its own packets: one for
every removed run that a later packet of the pid follows, and none on the null
pid. -/
theorem cc_accounting_exact {family : ℕ → List Slot} {stream : List Packet}
    {calls : List (List Packet)} (h : LossyMultiplex family stream)
    (hcalls : calls.flatten = stream) :
    (∀ p, p ≠ 0x1fff →
        ((statsAfter calls).pids p).ccErrors = (closedRuns 0 (family p)).length) ∧
      ((statsAfter calls).pids 0x1fff).ccErrors = 0 ∧
      (statsAfter calls).ccErrors =
        ∑ p ∈ Finset.range 0x1fff, (closedRuns 0 (family p)).length ∧
      ∀ (calls₁ calls₂ : List (List Packet)) (p : ℕ),
        onPid p calls₁.flatten = onPid p calls₂.flatten →
          (statsAfter calls₁).pids p = (statsAfter calls₂).pids p := by
  have hpids : ∀ p, (statsAfter calls).pids p =
      (survivors (family p)).foldl updatePid PidStatistics.zero := by
    intro p
    rw [pids_statsAfter, hcalls, h.interleaved]
  have hothers : ∀ p, p ≠ 0x1fff →
      ((statsAfter calls).pids p).ccErrors = (closedRuns 0 (family p)).length := by
    intro p hp
    rw [hpids, h.ccErrors hp]
  have hnull : ((statsAfter calls).pids 0x1fff).ccErrors = 0 := by
    rw [hpids, h.ccErrors_null]
  refine ⟨hothers, hnull, ?_, ?_⟩
  · rw [ccErrors_statsAfter calls (hcalls ▸ h.syncPresent), pidErrors,
      show (0x2000 : ℕ) = 0x1fff + 1 by norm_num, Finset.sum_range_succ, hnull, Nat.add_zero]
    apply Finset.sum_congr rfl
    intro p hp
    exact hothers p (Nat.ne_of_lt (Finset.mem_range.mp hp))
  · intro calls₁ calls₂ p hsame
    rw [pids_statsAfter, pids_statsAfter, hsame]

def payloadPacket (pid cc : ℕ) : Packet where
  bytes := [0x47, UInt8.ofNat (pid / 256), UInt8.ofNat pid, UInt8.ofNat (0x10 + cc)] ++
    List.replicate 184 0
  length_bytes := by
    simp only [List.length_append, List.length_cons, List.length_nil, List.length_replicate]

def soloFamily (slots : List Slot) (p : ℕ) : List Slot := if p = 256 then slots else []

theorem lossyMultiplex_solo {slots : List Slot} {c : ℕ}
    (hslots : ∀ slot ∈ slots, Ts.pid slot.packet = 256 ∧ Ts.syncPresent slot.packet = true ∧
      Ts.adaptionFieldControl slot.packet = 1)
    (hcounts : CountsFrom c (slots.map Slot.packet)) (hruns : ∀ k ∈ removedRuns slots, k % 16 ≠ 0)
    (hstart : ∀ slot ∈ slots.head?, slot.kept = true) :
    LossyMultiplex (soloFamily slots) (survivors slots) := by
  have hof : ∀ p, ∀ slot ∈ soloFamily slots p, p = 256 ∧ slot ∈ slots := by
    intro p slot hslot
    unfold soloFamily at hslot
    split_ifs at hslot with hp
    · exact ⟨hp, hslot⟩
    · cases hslot
  refine ⟨?_, ?_, ?_, ?_, ?_, ?_, ?_⟩
  · intro p slot hslot
    obtain ⟨rfl, hmem⟩ := hof p slot hslot
    exact (hslots slot hmem).1
  · intro p slot hslot
    exact (hslots slot (hof p slot hslot).2).2.1
  · intro p slot hslot
    exact .inl (hslots slot (hof p slot hslot).2).2.2
  · intro p
    unfold soloFamily
    split_ifs
    · exact ⟨c, hcounts⟩
    · exact ⟨0, trivial⟩
  · intro p
    unfold soloFamily
    split_ifs
    · exact hruns
    · exact fun k hk ↦ absurd hk (by simp [removedRuns, closedRuns, openRun])
  · intro p
    unfold soloFamily
    split_ifs
    · exact hstart
    · exact fun slot hslot ↦ absurd hslot (by simp)
  · intro p
    have hpid : ∀ pkt ∈ survivors slots, Ts.pid pkt = 256 := by
      intro pkt hpkt
      obtain ⟨slot, hslot, rfl⟩ := mem_of_mem_survivors hpkt
      exact (hslots slot hslot).1
    unfold soloFamily onPid
    split_ifs with hp
    · exact List.filter_eq_self.mpr fun pkt hpkt ↦ by simp [hpid pkt hpkt, hp]
    · exact List.filter_eq_nil_iff.mpr fun pkt hpkt ↦ by simp [hpid pkt hpkt, Ne.symm hp]

/-- Three packets of pid 256 of which the middle one is lost, in two calls. -/
theorem cc_accounting_exact_solo :
    ((statsAfter [[payloadPacket 256 15], [payloadPacket 256 1]]).pids 256).ccErrors = 1 :=
  (cc_accounting_exact
    (@lossyMultiplex_solo [⟨payloadPacket 256 15, true⟩, ⟨payloadPacket 256 0, false⟩,
      ⟨payloadPacket 256 1, true⟩] 15 (by decide +kernel) (by decide +kernel) (by decide +kernel)
      (by decide +kernel)) rfl).1 256 (by decide)

/-- A run that is lost at the end of a pid leaves no trace. -/
theorem lost_tail_not_counted :
    ∃ (family : ℕ → List Slot) (stream : List Packet) (calls : List (List Packet)) (p : ℕ),
      LossyMultiplex family stream ∧ calls.flatten = stream ∧ p ≠ 0x1fff ∧
        ((statsAfter calls).pids p).ccErrors ≠ (removedRuns (family p)).length :=
  ⟨_, _, [[payloadPacket 256 15]], 256,
    @lossyMultiplex_solo [⟨payloadPacket 256 15, true⟩, ⟨payloadPacket 256 0, false⟩] 15
      (by decide +kernel) (by decide +kernel) (by decide +kernel) (by decide +kernel), rfl,
    by decide, by decide +kernel⟩

end LtnTsTools.Stats
