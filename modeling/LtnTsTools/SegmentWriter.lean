import LtnTsTools.PointerQueue

/-!
# The segment writer

The model of `segmentwriter.c` with its queue (`USE_QUEUE_NOT_RING`).  The caller
queues buffers; a thread polls the queue and writes bursts of them to segment
files, closing and opening files between bursts.  A step is one call of the caller
or one stretch of the thread between two accesses to what they share, and every
reading of the wall clock is a parameter of its step.  File operations succeed and
every file name is new.
-/

namespace LtnTsTools.SegmentWriter

open PartialMachine PointerQueue

/-- `SEGMENTEDWRITER_SINGLE_FILE` and `SEGMENTEDWRITER_SEGMENTED`. -/
inductive WriteMode
  | singleFile
  | segmented
deriving DecidableEq

/-- `struct q_item_s`. -/
structure QItem where
  bytes : List UInt8
  datetime : ℤ
deriving DecidableEq

/-- `q_item_malloc`: the length becomes an `int`, of which only the low 32 bits are
left, and no negative one can be allocated. -/
def qItemMalloc (buf : List UInt8) (datetime : ℤ) : Option QItem :=
  let lengthBytes := buf.length % 2 ^ 32
  if lengthBytes ≥ 2 ^ 31 then none else some ⟨buf.take lengthBytes, datetime⟩

structure Segment where
  header : List UInt8
  body : List UInt8
deriving DecidableEq

/-- Where the writer thread stands: before its first statement, at the test of its
loop, behind the sleep, at the start of `_write`, in the loop of a burst, at its
end. -/
inductive Phase
  | created
  | looping
  | polling
  | writing
  | bursting (maxwrites : ℤ)
  | exited
deriving DecidableEq

/-- Where the caller stands with `ltntstools_segmentwriter_free`. -/
inductive Caller
  | active
  | freeing
  | freed
deriving DecidableEq

/-- `struct ltntstools_segmentwriter_s`, the closed segment files, and where the
two threads stand. -/
structure Writer where
  lastOpen : ℤ
  q : Klqueue QItem
  writeMode : WriteMode
  threadTerminate : Bool
  threadTerminated : Bool
  threadRunning : Bool
  recordingStartTime : ℤ
  totalBytesWritten : ℕ
  totalSegmentsCreated : ℕ
  fh : Option Segment
  fileHeader : List UInt8
  closed : List Segment
  phase : Phase
  caller : Caller

/-- `ltntstools_segmentwriter_alloc`, with the header of
`ltntstools_segmentwriter_set_header`. -/
def segmentwriterAlloc (writeMode : WriteMode) (fileHeader : List UInt8) : Writer where
  lastOpen := 0
  q := klqueueInitialize
  writeMode := writeMode
  threadTerminate := false
  threadTerminated := false
  threadRunning := false
  recordingStartTime := 0
  totalBytesWritten := 0
  totalSegmentsCreated := 0
  fh := none
  fileHeader := fileHeader
  closed := []
  phase := .created
  caller := .active

/-- `_write`, the first part: a segment of a minute or more is closed. -/
def closeSegment (s : Writer) (now : ℤ) : Writer :=
  if s.writeMode = .segmented ∧ now ≥ s.lastOpen + 60 then
    { s with closed := s.closed ++ s.fh.toList, fh := none }
  else s

/-- `_write`, the second part: a new segment, if none is open. -/
def openSegment (s : Writer) (openedAt : ℤ) : Writer :=
  match s.fh with
  | some _ => s
  | none =>
      { s with
        fh := some ⟨s.fileHeader, []⟩
        lastOpen := openedAt
        recordingStartTime := if s.recordingStartTime = 0 then openedAt else s.recordingStartTime
        totalSegmentsCreated := s.totalSegmentsCreated + 1
        totalBytesWritten := s.totalBytesWritten + s.fileHeader.length }

/-- `fwrite` of an item to the open segment. -/
def writeItem (s : Writer) (qi : QItem) : Writer :=
  { s with
    fh := s.fh.map fun seg ↦ { seg with body := seg.body ++ qi.bytes }
    totalBytesWritten := s.totalBytesWritten + qi.bytes.length }

/-- `_write`, a round of its loop.  The thread is the only one that pops, so a queue
that is not empty has an item for it. -/
def burst (s : Writer) (maxwrites : ℤ) : Writer :=
  if klqueueEmpty s.q then { s with phase := .looping }
  else
    match (takeFirst s.q).2.item with
    | none => { s with phase := .looping }
    | some qi =>
        let maxwrites :=
          if s.writeMode = .segmented ∧ qi.datetime ≥ s.lastOpen + 60 then 0 else maxwrites
        { writeItem { s with q := (takeFirst s.q).1 } qi with
          phase := if maxwrites ≤ 0 then .looping else .bursting (maxwrites - 1) }

/-- `ltntstools_segmentwriter_threadFunc`, one stretch of it. -/
def threadFunc (s : Writer) (now openedAt : ℤ) : Option Writer :=
  match s.phase with
  | .created => some { s with threadRunning := true, phase := .looping }
  | .looping =>
      if s.threadTerminate then
        some { s with threadRunning := false, threadTerminated := true, phase := .exited }
      else some { s with phase := .polling }
  | .polling => some { s with phase := if klqueueEmpty s.q then .looping else .writing }
  | .writing => some { openSegment (closeSegment s now) openedAt with phase := .bursting 1000 }
  | .bursting maxwrites => some (burst s maxwrites)
  | .exited => none

/-- `ltntstools_segmentwriter_write`. -/
def segmentwriterWrite (s : Writer) (buf : List UInt8) (datetime : ℤ) : Writer :=
  match qItemMalloc buf datetime with
  | none => s
  | some qi => { s with q := klqueuePush s.q qi }

/-- The end of `ltntstools_segmentwriter_free`: the open segment is closed, and what
is left in the queue is popped and dropped. -/
def releaseAll (s : Writer) : Writer :=
  { s with
    closed := s.closed ++ s.fh.toList
    fh := none
    fileHeader := []
    q := (fun q ↦ (takeFirst q).1)^[klqueueCount s.q] s.q
    caller := .freed }

/-- A call of the caller, or a stretch of the thread. -/
inductive Action
  | write (buf : List UInt8) (datetime : ℤ)
  | free
  | release
  | thread (now openedAt : ℤ)
deriving DecidableEq

/-- One step.  `free` stops the thread and waits for its end, unless the thread has
not started; nothing happens behind the end of `free`. -/
def step (s : Writer) : Action → Option (Writer × Unit)
  | .write buf datetime =>
      if s.caller = .active then some (segmentwriterWrite s buf datetime, ()) else none
  | .free =>
      if s.caller = .active then
        some (if s.threadRunning then { s with threadTerminate := true, caller := .freeing }
          else releaseAll s, ())
      else none
  | .release =>
      if s.caller = .freeing ∧ s.threadTerminated then some (releaseAll s, ()) else none
  | .thread now openedAt =>
      if s.caller = .freed then none
      else (threadFunc s now openedAt).map fun s' ↦ (s', ())

/-- The segment files in the order of their creation. -/
def segments (s : Writer) : List Segment := s.closed ++ s.fh.toList

def recording (s : Writer) : List UInt8 := (segments s).flatMap Segment.body

def pending (q : Klqueue QItem) : List UInt8 := q.list.flatMap QItem.bytes

def writtenBytes (actions : List Action) : List UInt8 :=
  actions.flatMap fun a ↦
    match a with
    | .write buf _ => buf
    | _ => []

/-! ## Nothing is lost between the caller and the files -/

@[simp] theorem pending_push (q : Klqueue QItem) (qi : QItem) :
    pending (klqueuePush q qi) = pending q ++ qi.bytes := by
  simp [pending, klqueuePush]

/-- A buffer of less than `2^31` bytes is queued whole. -/
theorem qItemMalloc_eq {buf : List UInt8} (h : buf.length < 2 ^ 31) (datetime : ℤ) :
    qItemMalloc buf datetime = some ⟨buf, datetime⟩ := by
  have hlen : buf.length % 2 ^ 32 = buf.length := Nat.mod_eq_of_lt (by omega)
  simp only [qItemMalloc, hlen, List.take_length]
  exact if_neg (Nat.not_le.mpr h)

theorem recording_closeSegment (s : Writer) (now : ℤ) :
    recording (closeSegment s now) = recording s := by
  unfold closeSegment
  split_ifs <;> simp [recording, segments]

theorem recording_openSegment (s : Writer) (openedAt : ℤ) :
    recording (openSegment s openedAt) = recording s := by
  unfold openSegment
  cases hfh : s.fh <;> simp [recording, segments, hfh]

theorem recording_writeItem {s : Writer} (h : s.fh.isSome = true) (qi : QItem) :
    recording (writeItem s qi) = recording s ++ qi.bytes := by
  obtain ⟨seg, hseg⟩ := Option.isSome_iff_exists.mp h
  simp [recording, segments, writeItem, hseg]

theorem recording_releaseAll (s : Writer) : recording (releaseAll s) = recording s := by
  simp [recording, segments, releaseAll]

/-- Every byte written is in a file or in the queue, in order; the counter of the
queue counts it, and a burst has an open file. -/
structure Conserves (s : Writer) (written : List UInt8) : Prop where
  bytes : recording s ++ pending s.q = written
  count : s.q.itemCount = s.q.list.length
  opened : ∀ maxwrites, s.phase = .bursting maxwrites → s.fh.isSome = true

theorem Conserves.write {s : Writer} {written : List UInt8} (h : Conserves s written)
    {buf : List UInt8} {datetime : ℤ} (hitem : qItemMalloc buf datetime = some ⟨buf, datetime⟩) :
    Conserves (segmentwriterWrite s buf datetime) (written ++ buf) := by
  unfold segmentwriterWrite
  rw [hitem]
  refine ⟨?_, ?_, h.opened⟩
  · change recording s ++ pending (klqueuePush s.q ⟨buf, datetime⟩) = _
    rw [pending_push, ← List.append_assoc, h.bytes]
  · simp [klqueuePush, h.count]

theorem Conserves.burst {s : Writer} {written : List UInt8} (h : Conserves s written)
    {maxwrites : ℤ} (hphase : s.phase = .bursting maxwrites) :
    Conserves (burst s maxwrites) written := by
  have hopen := h.opened maxwrites hphase
  unfold SegmentWriter.burst
  split_ifs with hempty
  · exact ⟨h.bytes, h.count, by simp⟩
  · cases hlist : s.q.list with
    | nil => simp [klqueueEmpty, klqueueCount, h.count, hlist] at hempty
    | cons qi rest =>
        simp only [takeFirst, hlist]
        refine ⟨?_, ?_, fun _ _ ↦ ?_⟩
        · change recording (writeItem { s with q := ⟨rest, s.q.itemCount - 1⟩ } qi) ++
            rest.flatMap QItem.bytes = written
          have hwrite := @recording_writeItem { s with q := ⟨rest, s.q.itemCount - 1⟩ } hopen qi
          rw [hwrite, ← h.bytes, List.append_assoc]
          simp [recording, segments, pending, hlist]
        · change s.q.itemCount - 1 = rest.length
          rw [h.count, hlist]
          rfl
        · change (s.fh.map _).isSome = true
          simpa using hopen

/-- What a stretch of the thread does: it writes, or it leaves the files and the queue
alone and does not start to. -/
theorem threadFunc_cases {s s' : Writer} {now openedAt : ℤ}
    (hs : threadFunc s now openedAt = some s') :
    s' = { openSegment (closeSegment s now) openedAt with phase := .bursting 1000 } ∨
      (∃ maxwrites, s.phase = .bursting maxwrites ∧ s' = burst s maxwrites) ∨
      ∃ running terminated phase, (∀ maxwrites, phase ≠ .bursting maxwrites) ∧
        s' = { s with
          threadRunning := running
          threadTerminated := terminated
          phase := phase } := by
  unfold threadFunc at hs
  cases hphase : s.phase with
  | created =>
      simp only [hphase, Option.some.injEq] at hs
      exact .inr (.inr ⟨true, s.threadTerminated, .looping, nofun, hs.symm⟩)
  | looping =>
      simp only [hphase] at hs
      split_ifs at hs
      · rw [Option.some.injEq] at hs
        exact .inr (.inr ⟨false, true, .exited, nofun, hs.symm⟩)
      · rw [Option.some.injEq] at hs
        exact .inr (.inr ⟨s.threadRunning, s.threadTerminated, .polling, nofun, hs.symm⟩)
  | polling =>
      simp only [hphase, Option.some.injEq] at hs
      refine .inr (.inr ⟨s.threadRunning, s.threadTerminated, _, ?_, hs.symm⟩)
      intro maxwrites
      split_ifs <;> exact nofun
  | writing =>
      simp only [hphase, Option.some.injEq] at hs
      exact .inl hs.symm
  | bursting maxwrites =>
      simp only [hphase, Option.some.injEq] at hs
      exact .inr (.inl ⟨maxwrites, rfl, hs.symm⟩)
  | exited => simp [hphase] at hs

theorem closeSegment_frame (s : Writer) (now : ℤ) :
    (closeSegment s now).q = s.q ∧ (closeSegment s now).caller = s.caller := by
  unfold closeSegment
  split_ifs <;> exact ⟨rfl, rfl⟩

theorem openSegment_frame (s : Writer) (openedAt : ℤ) :
    (openSegment s openedAt).q = s.q ∧ (openSegment s openedAt).caller = s.caller := by
  unfold openSegment
  cases s.fh <;> exact ⟨rfl, rfl⟩

theorem isSome_openSegment (s : Writer) (openedAt : ℤ) :
    (openSegment s openedAt).fh.isSome = true := by
  unfold openSegment
  cases hfh : s.fh with
  | none => rfl
  | some seg => simp [hfh]

theorem Conserves.thread {s s' : Writer} {written : List UInt8} (h : Conserves s written)
    {now openedAt : ℤ} (hs : threadFunc s now openedAt = some s') : Conserves s' written := by
  rcases threadFunc_cases hs with rfl | ⟨maxwrites, hphase, rfl⟩ |
    ⟨running, terminated, phase, hidle, rfl⟩
  · have hq : (openSegment (closeSegment s now) openedAt).q = s.q :=
      (openSegment_frame _ _).1.trans (closeSegment_frame s now).1
    refine ⟨?_, ?_, fun _ _ ↦ isSome_openSegment (closeSegment s now) openedAt⟩
    · change recording (openSegment (closeSegment s now) openedAt) ++ pending _ = written
      rw [recording_openSegment, recording_closeSegment]
      exact hq ▸ h.bytes
    · exact hq ▸ h.count
  · exact h.burst hphase
  · exact ⟨h.bytes, h.count, fun maxwrites hphase ↦ absurd hphase (hidle maxwrites)⟩

/-! ## Runs -/

theorem step_cases {s s' : Writer} {action : Action} {out : Unit}
    (hs : step s action = some (s', out)) :
    (∃ buf datetime, action = .write buf datetime ∧ s.caller = .active ∧
      s' = segmentwriterWrite s buf datetime) ∨
    (action = .free ∧ s.caller = .active ∧
      s' = { s with threadTerminate := true, caller := .freeing }) ∨
    ((action = .free ∧ s.caller = .active ∨ action = .release ∧ s.caller = .freeing) ∧
      s' = releaseAll s) ∨
    ∃ now openedAt, action = .thread now openedAt ∧ s.caller ≠ .freed ∧
      threadFunc s now openedAt = some s' := by
  cases action with
  | write buf datetime =>
      simp only [step] at hs
      split_ifs at hs with hactive
      exact .inl ⟨buf, datetime, rfl, hactive, by simpa [eq_comm] using hs⟩
  | free =>
      simp only [step] at hs
      split_ifs at hs with hactive hrunning
      · exact .inr (.inl ⟨rfl, hactive, by simpa [eq_comm] using hs⟩)
      · exact .inr (.inr (.inl ⟨.inl ⟨rfl, hactive⟩, by simpa [eq_comm] using hs⟩))
  | release =>
      simp only [step] at hs
      split_ifs at hs with hfreeing
      exact .inr (.inr (.inl ⟨.inr ⟨rfl, hfreeing.1⟩, by simpa [eq_comm] using hs⟩))
  | thread now openedAt =>
      simp only [step] at hs
      split_ifs at hs with hfreed
      obtain ⟨s'', hthread, hend⟩ := Option.map_eq_some_iff.mp hs
      obtain rfl : s'' = s' := (Prod.mk.inj hend).1
      exact .inr (.inr (.inr ⟨now, openedAt, rfl, hfreed, hthread⟩))

/-- Nothing happens behind the end of `free`. -/
theorem caller_ne_freed_of_step {s s' : Writer} {action : Action} {out : Unit}
    (hs : step s action = some (s', out)) : s.caller ≠ .freed := by
  intro hfreed
  rcases step_cases hs with ⟨_, _, _, hactive, _⟩ | ⟨_, hactive, _⟩ |
    ⟨⟨_, hactive⟩ | ⟨_, hfreeing⟩, _⟩ | ⟨_, _, _, hopen, _⟩
  · exact absurd (hfreed.symm.trans hactive) nofun
  · exact absurd (hfreed.symm.trans hactive) nofun
  · exact absurd (hfreed.symm.trans hactive) nofun
  · exact absurd (hfreed.symm.trans hfreeing) nofun
  · exact hopen hfreed

/-- The thread does not touch the caller's state, and takes nothing from an empty
queue. -/
theorem threadFunc_frame {s s' : Writer} {now openedAt : ℤ}
    (hs : threadFunc s now openedAt = some s') :
    s'.caller = s.caller ∧ (s.q.list = [] → s'.q.list = []) := by
  rcases threadFunc_cases hs with rfl | ⟨maxwrites, -, rfl⟩ | ⟨running, terminated, phase, -, rfl⟩
  · obtain ⟨hq, hcaller⟩ := openSegment_frame (closeSegment s now) openedAt
    obtain ⟨hq', hcaller'⟩ := closeSegment_frame s now
    refine ⟨hcaller.trans hcaller', fun hempty ↦ ?_⟩
    change (openSegment (closeSegment s now) openedAt).q.list = []
    rw [hq, hq', hempty]
  · unfold burst
    split_ifs
    · exact ⟨rfl, id⟩
    · cases hlist : s.q.list <;> simp [takeFirst, hlist, writeItem]
  · exact ⟨rfl, id⟩

theorem writtenBytes_append (actions more : List Action) :
    writtenBytes (actions ++ more) = writtenBytes actions ++ writtenBytes more :=
  List.flatMap_append

@[simp] theorem writtenBytes_write (actions : List Action) (buf : List UInt8) (datetime : ℤ) :
    writtenBytes (actions ++ [.write buf datetime]) = writtenBytes actions ++ buf := by
  simp [writtenBytes]

@[simp] theorem writtenBytes_free (actions : List Action) :
    writtenBytes (actions ++ [.free]) = writtenBytes actions := by
  simp [writtenBytes]

@[simp] theorem writtenBytes_release (actions : List Action) :
    writtenBytes (actions ++ [.release]) = writtenBytes actions := by
  simp [writtenBytes]

@[simp] theorem writtenBytes_thread (actions : List Action) (now openedAt : ℤ) :
    writtenBytes (actions ++ [.thread now openedAt]) = writtenBytes actions := by
  simp [writtenBytes]

/-- No buffer is too long for the `int` length of an item. -/
def LengthsFit (actions : List Action) : Prop :=
  ∀ buf datetime, .write buf datetime ∈ actions → buf.length < 2 ^ 31

theorem conserves_step (s : Writer) (actions : List Action) (action : Action) (s' : Writer)
    (out : Unit)
    (h : LengthsFit actions → s.caller ≠ .freed → Conserves s (writtenBytes actions))
    (hs : step s action = some (s', out)) (hfit : LengthsFit (actions ++ [action]))
    (hopen : s'.caller ≠ .freed) : Conserves s' (writtenBytes (actions ++ [action])) := by
  have hcons := h (fun buf datetime hmem ↦
    hfit buf datetime (List.mem_append_left _ hmem)) (caller_ne_freed_of_step hs)
  rcases step_cases hs with ⟨buf, datetime, rfl, -, rfl⟩ | ⟨rfl, -, rfl⟩ | ⟨-, rfl⟩ |
    ⟨now, openedAt, rfl, -, hthread⟩
  · rw [writtenBytes_write]
    exact hcons.write (qItemMalloc_eq (hfit buf datetime (by simp)) datetime)
  · rw [writtenBytes_free]
    exact ⟨hcons.bytes, hcons.count, hcons.opened⟩
  · exact absurd rfl hopen
  · rw [writtenBytes_thread]
    exact hcons.thread hthread

/-- Until the writer is freed, the files and the queue hold what was written. -/
theorem conserves_run {writeMode : WriteMode} {fileHeader : List UInt8} {actions : List Action}
    {s : Writer} (hrun : run step (segmentwriterAlloc writeMode fileHeader) actions = some s)
    (hfit : LengthsFit actions) (hopen : s.caller ≠ .freed) :
    Conserves s (writtenBytes actions) := by
  have hinit : LengthsFit [] → (segmentwriterAlloc writeMode fileHeader).caller ≠ .freed →
      Conserves (segmentwriterAlloc writeMode fileHeader) (writtenBytes []) := fun _ _ ↦
    ⟨rfl, rfl, by simp [segmentwriterAlloc]⟩
  exact run_history conserves_step hinit hrun hfit hopen

def Emptied (written : List UInt8) (s : Writer) : Prop :=
  (s.caller = .freeing ∧ Conserves s written ∧ s.q.list = []) ∨
    (s.caller = .freed ∧ recording s = written)

theorem Conserves.recording_eq {s : Writer} {written : List UInt8} (h : Conserves s written)
    (hempty : s.q.list = []) : recording s = written := by
  have hbytes := h.bytes
  simpa [pending, hempty] using hbytes

theorem emptied_step {written : List UInt8} (s s' : Writer) (action : Action) (out : Unit)
    (h : Emptied written s) (hs : step s action = some (s', out)) : Emptied written s' := by
  rcases h with ⟨hfreeing, hcons, hempty⟩ | ⟨hfreed, -⟩
  · have hbusy : s.caller ≠ .active := by simp [hfreeing]
    rcases step_cases hs with ⟨_, _, _, hactive, _⟩ | ⟨_, hactive, _⟩ | ⟨-, rfl⟩ |
      ⟨now, openedAt, -, -, hthread⟩
    · exact absurd hactive hbusy
    · exact absurd hactive hbusy
    · exact .inr ⟨rfl, (recording_releaseAll s).trans (hcons.recording_eq hempty)⟩
    · obtain ⟨hcaller, hnil⟩ := threadFunc_frame hthread
      exact .inl ⟨hcaller.trans hfreeing, hcons.thread hthread, hnil hempty⟩
  · exact absurd hfreed (caller_ne_freed_of_step hs)

theorem eq_releaseAll_of_step {s s' : Writer} {action : Action} {out : Unit}
    (hs : step s action = some (s', out)) (hfreed : s'.caller = .freed) :
    s' = releaseAll s ∧ (action = .free ∨ action = .release) := by
  have hbefore := caller_ne_freed_of_step hs
  rcases step_cases hs with ⟨buf, datetime, -, -, rfl⟩ | ⟨-, -, rfl⟩ | ⟨haction, hrel⟩ |
    ⟨now, openedAt, -, -, hthread⟩
  · refine absurd hfreed ?_
    unfold segmentwriterWrite
    cases qItemMalloc buf datetime <;> exact hbefore
  · cases hfreed
  · exact ⟨hrel, haction.imp And.left And.left⟩
  · exact absurd ((threadFunc_frame hthread).1.symm.trans hfreed) hbefore

/-- The call of `free`. -/
theorem freed_of_step {s s' : Writer} {out : Unit} (hs : step s .free = some (s', out)) :
    s' = { s with threadTerminate := true, caller := .freeing } ∨ s' = releaseAll s := by
  rcases step_cases hs with ⟨_, _, h, -⟩ | ⟨-, -, hstop⟩ | ⟨-, hrel⟩ | ⟨_, _, h, -⟩
  · cases h
  · exact .inl hstop
  · exact .inr hrel
  · cases h

section Freed

variable {writeMode : WriteMode} {fileHeader : List UInt8} {actions : List Action} {s : Writer}

/-- Freeing a writer drops what its queue still holds, and nothing else. -/
theorem recording_freed
    (hrun : run step (segmentwriterAlloc writeMode fileHeader) actions = some s)
    (hfreed : s.caller = .freed) (hfit : LengthsFit actions) :
    ∃ done last s₀, actions = done ++ [last] ∧
      run step (segmentwriterAlloc writeMode fileHeader) done = some s₀ ∧
      s₀.caller ≠ .freed ∧ recording s ++ pending s₀.q = writtenBytes actions := by
  rcases List.eq_nil_or_concat actions with rfl | ⟨done, last, rfl⟩
  · obtain rfl : segmentwriterAlloc writeMode fileHeader = s := by simpa [run] using hrun
    cases hfreed
  · rw [List.concat_eq_append] at *
    rw [run_append] at hrun
    obtain ⟨s₀, hdone, hlast⟩ := Option.bind_eq_some_iff.mp hrun
    obtain ⟨_, out, hs, hend⟩ := exists_of_run_cons hlast
    obtain rfl : _ = s := by simpa [run] using hend
    obtain ⟨hrel, haction⟩ := eq_releaseAll_of_step hs hfreed
    have hopen := caller_ne_freed_of_step hs
    have hcons := conserves_run hdone
      (fun buf datetime hmem ↦ hfit buf datetime (List.mem_append_left _ hmem)) hopen
    have hwritten : writtenBytes (done ++ [last]) = writtenBytes done := by
      rcases haction with rfl | rfl <;> simp
    refine ⟨done, last, s₀, rfl, hdone, hopen, ?_⟩
    rw [hwritten, hrel, recording_releaseAll]
    exact hcons.bytes

/-- A writer with an empty queue is freed without loss. -/
theorem recording_freed_of_empty {pre mid : List Action} {s₁ : Writer}
    (hpre : run step (segmentwriterAlloc writeMode fileHeader) pre = some s₁)
    (hmid : run step s₁ (.free :: mid) = some s) (hfreed : s.caller = .freed)
    (hfit : LengthsFit pre) (hempty : klqueueCount s₁.q = 0) : recording s = writtenBytes pre := by
  obtain ⟨s₂, out, hs, hrest⟩ := exists_of_run_cons hmid
  have hcons := conserves_run hpre hfit (caller_ne_freed_of_step hs)
  have hlist : s₁.q.list = [] := List.length_eq_zero_iff.mp (hcons.count.symm.trans hempty)
  have hstart : Emptied (writtenBytes pre) s₂ := by
    rcases freed_of_step hs with rfl | rfl
    · exact .inl ⟨rfl, ⟨hcons.bytes, hcons.count, hcons.opened⟩, hlist⟩
    · exact .inr ⟨rfl, (recording_releaseAll s₁).trans (hcons.recording_eq hlist)⟩
  have hend := run_invariant (fun s s' a out h _ hs ↦ emptied_step s s' a out h hs) hstart
    (meets_of_forall (fun _ _ _ ↦ trivial) _) hrest
  rcases hend with ⟨hfreeing, -⟩ | ⟨-, hrec⟩
  · rw [hfreed] at hfreeing
    cases hfreeing
  · exact hrec

/-- Nothing is written once the writer is being freed. -/
theorem writtenBytes_of_not_active (more : List Action) :
    ∀ {s₁ s₂ : Writer}, s₁.caller ≠ .active → run step s₁ more = some s₂ →
      writtenBytes more = [] := by
  induction more with
  | nil => exact fun _ _ ↦ rfl
  | cons action rest ih =>
      intro s₁ s₂ hcaller hrun
      obtain ⟨mid, out, hs, hrest⟩ := exists_of_run_cons hrun
      rcases step_cases hs with ⟨_, _, _, hactive, _⟩ | ⟨_, hactive, _⟩ |
        ⟨⟨_, hactive⟩ | ⟨rfl, -⟩, rfl⟩ | ⟨now, openedAt, rfl, -, hthread⟩
      · exact absurd hactive hcaller
      · exact absurd hactive hcaller
      · exact absurd hactive hcaller
      · exact ih (by simp [releaseAll]) hrest
      · exact ih (by rw [(threadFunc_frame hthread).1]; exact hcaller) hrest

/-- After `ltntstools_segmentwriter_free` the files hold what was written up to what
the queue held when it was released; they hold all of it if the queue was empty when
the writer was freed. -/
theorem segments_after_free
    (hrun : run step (segmentwriterAlloc writeMode fileHeader) actions = some s)
    (hfreed : s.caller = .freed) (hfit : LengthsFit actions) :
    (∃ done last s₀, actions = done ++ [last] ∧
      run step (segmentwriterAlloc writeMode fileHeader) done = some s₀ ∧
      s₀.caller ≠ .freed ∧ recording s ++ pending s₀.q = writtenBytes actions) ∧
    ∀ pre mid s₁, actions = pre ++ .free :: mid →
      run step (segmentwriterAlloc writeMode fileHeader) pre = some s₁ →
      klqueueCount s₁.q = 0 → recording s = writtenBytes actions := by
  refine ⟨recording_freed hrun hfreed hfit, ?_⟩
  rintro pre mid s₁ rfl hpre hempty
  rw [run_append, hpre, Option.bind_some] at hrun
  have hrec := recording_freed_of_empty hpre hrun hfreed
    (fun buf datetime hmem ↦ hfit buf datetime (List.mem_append_left _ hmem)) hempty
  obtain ⟨s₂, out, hs, hrest⟩ := exists_of_run_cons hrun
  have hcaller : s₂.caller ≠ .active := by
    rcases freed_of_step hs with rfl | rfl
    · simp
    · simp [releaseAll]
  have hmid := writtenBytes_of_not_active mid hcaller hrest
  rw [hrec, List.append_cons, writtenBytes_append, writtenBytes_free, hmid, List.append_nil]

end Freed

def twoWrites : List Action :=
  [.thread 0 0, .thread 0 0, .write [1] 100, .thread 0 0, .thread 100 100, .thread 0 0, .thread 0 0,
    .write [2, 3] 160, .thread 0 0, .thread 0 0, .thread 160 160, .thread 0 0, .thread 0 0]

theorem lengthsFit_twoWrites : LengthsFit (twoWrites ++ [.free, .thread 0 0, .release]) := by
  intro buf datetime hmem
  simp only [twoWrites, List.cons_append, List.nil_append, List.mem_cons, reduceCtorEq,
    Action.write.injEq, List.not_mem_nil, or_false, false_or] at hmem
  rcases hmem with ⟨rfl, -⟩ | ⟨rfl, -⟩ <;> norm_num

/-- The writer is freed with an empty queue. -/
theorem segments_after_free_two :
    ∃ s, run step (segmentwriterAlloc .segmented [9])
        (twoWrites ++ [.free, .thread 0 0, .release]) = some s ∧
      s.caller = .freed ∧ segments s = [⟨[9], [1]⟩, ⟨[9], [2, 3]⟩] ∧
      recording s = writtenBytes (twoWrites ++ [.free, .thread 0 0, .release]) := by
  obtain ⟨s₁, hpre⟩ : ∃ s₁, run step (segmentwriterAlloc .segmented [9]) twoWrites = some s₁ :=
    ⟨_, rfl⟩
  obtain ⟨s, hrun⟩ : ∃ s, run step (segmentwriterAlloc .segmented [9])
      (twoWrites ++ [.free, .thread 0 0, .release]) = some s := ⟨_, rfl⟩
  have hcount : (run step (segmentwriterAlloc .segmented [9]) twoWrites).map
      (fun s ↦ klqueueCount s.q) = some 0 := by decide +kernel
  have hend : (run step (segmentwriterAlloc .segmented [9])
      (twoWrites ++ [.free, .thread 0 0, .release])).map (fun s ↦ (s.caller, segments s)) =
        some (.freed, [⟨[9], [1]⟩, ⟨[9], [2, 3]⟩]) := by decide +kernel
  rw [hpre] at hcount
  rw [hrun] at hend
  obtain ⟨hfreed, hsegments⟩ := Prod.mk.inj (Option.some.inj hend)
  exact ⟨s, hrun, hfreed, hsegments, (segments_after_free hrun hfreed lengthsFit_twoWrites).2
    twoWrites _ s₁ rfl hpre (Option.some.inj hcount)⟩

/-- The thread leaves its loop before it polls the queue: the byte written is in no
file, in either mode. -/
theorem segments_lose_queue :
    ((run step (segmentwriterAlloc .singleFile [])
        [.thread 0 0, .write [1] 100, .free, .thread 0 0, .release]).map
          (fun s ↦ (s.caller, recording s)) = some (.freed, []) ∧
      (run step (segmentwriterAlloc .segmented [])
        [.thread 0 0, .write [1] 100, .free, .thread 0 0, .release]).map
          (fun s ↦ (s.caller, recording s)) = some (.freed, [])) ∧
      writtenBytes [.thread 0 0, .write [1] 100, .free, .thread 0 0, .release] = [1] := by
  decide +kernel

end LtnTsTools.SegmentWriter
