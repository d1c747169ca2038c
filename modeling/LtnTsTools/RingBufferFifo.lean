import LtnTsTools.PartialMachine
import LtnTsTools.RingBuffer

/-!
# The ring buffer as a byte queue

The operations of the ring, run one after the other, against the queue they are
meant to implement.  The ring follows the queue as long as it never grows while
its content passes the end of the allocation, and never takes a write of exactly
its own size behind a head that is not zero.
-/

namespace LtnTsTools.RingBuffer

open Region CyclicWindow PartialMachine

inductive RbOp
  | write (src : List UInt8)
  | read (n : ℕ)
  | peek (n : ℕ)
  | empty
  | discard (n : ℕ)
deriving DecidableEq

/-- One call: the ring afterwards and the bytes handed to the caller.  `none` is
a load or store outside the allocation. -/
def rbStep (buf : KLRingBuffer) : RbOp → Option (KLRingBuffer × List UInt8)
  | .write src => (rbWriteWithState buf src).buf.map fun buf' ↦ (buf', [])
  | .read n => rbRead buf n
  | .peek n => rbPeek buf n
  | .empty => some (rbEmpty buf, [])
  | .discard n => some (rbDiscard buf n, [])

def fifoStep (queue : List UInt8) : RbOp → List UInt8 × List UInt8
  | .write src => (queue ++ src, [])
  | .read n => (queue.drop n, queue.take n)
  | .peek n => (queue, queue.take n)
  | .empty => ([], [])
  | .discard n => (queue.drop n, [])

/-- A ring within its bounds that reports as many used bytes as the queue
holds, those written and not yet consumed. -/
def AgreesWithFifo (buf : KLRingBuffer) (queue : List UInt8) : Prop :=
  buf.head < buf.size ∧ buf.fill ≤ buf.size ∧ buf.size ≤ buf.sizeMax ∧
    rbUsed buf = queue.length

instance (buf : KLRingBuffer) (queue : List UInt8) : Decidable (AgreesWithFifo buf queue) :=
  inferInstanceAs (Decidable (_ ∧ _ ∧ _ ∧ _))

/-- Calls without overflow: no write reports one, and no more than the used
bytes are discarded. -/
def WithoutOverflow (buf : KLRingBuffer) : RbOp → Prop
  | .write src => src.length ≤ maxObject ∧ (rbWriteWithState buf src).didOverflow = false
  | .discard n => n ≤ rbUsed buf
  | _ => True

instance (buf : KLRingBuffer) : (op : RbOp) → Decidable (WithoutOverflow buf op)
  | .write _ => inferInstanceAs (Decidable (_ ∧ _))
  | .discard _ => inferInstanceAs (Decidable (_ ≤ _))
  | .read _ => inferInstanceAs (Decidable True)
  | .peek _ => inferInstanceAs (Decidable True)
  | .empty => inferInstanceAs (Decidable True)

/-- The writes the ring gets right.  One that fits into the current allocation
must not have exactly its length unless the head is zero; one that makes the
ring grow must find the content in one piece. -/
def CopiesInPlace (buf : KLRingBuffer) : RbOp → Prop
  | .write src =>
      (src.length ≤ buf.size - buf.fill → src.length = buf.size → buf.head = 0) ∧
        (buf.size - buf.fill < src.length → buf.head + buf.fill ≤ buf.size)
  | _ => True

instance (buf : KLRingBuffer) : (op : RbOp) → Decidable (CopiesInPlace buf op)
  | .write _ => inferInstanceAs (Decidable (_ ∧ _))
  | .discard _ => inferInstanceAs (Decidable True)
  | .read _ => inferInstanceAs (Decidable True)
  | .peek _ => inferInstanceAs (Decidable True)
  | .empty => inferInstanceAs (Decidable True)

def Represents (buf : KLRingBuffer) (queue : List UInt8) : Prop :=
  Inv buf ∧ buf.contents = queue

theorem Represents.agrees {buf : KLRingBuffer} {queue : List UInt8}
    (h : Represents buf queue) : AgreesWithFifo buf queue := by
  refine ⟨h.1.head_lt, h.1.fill_le, h.1.size_le, ?_⟩
  rw [← h.2, h.1.length_contents, rbUsed]

/-- A write that reports no overflow either fits or is granted its growth. -/
theorem growth_granted {buf : KLRingBuffer} {src : List UInt8} (h : Inv buf)
    (hobj : src.length ≤ maxObject) (hn : buf.size - buf.fill < src.length)
    (hno : (rbWriteWithState buf src).didOverflow = false) :
    buf.size + src.length * 128 ≤ buf.sizeMax := by
  by_contra hmax
  have hres := rbReserve_of_refused h hobj hn (by omega)
  simp [rbWriteWithState, hres] at hno

theorem represents_write {buf : KLRingBuffer} {queue src : List UInt8}
    (h : Represents buf queue) (hno : WithoutOverflow buf (.write src))
    (hcopy : CopiesInPlace buf (.write src)) :
    ∃ buf', rbStep buf (.write src) = some (buf', []) ∧ Represents buf' (queue ++ src) := by
  obtain ⟨hinv, rfl⟩ := h
  obtain ⟨hobj, hno⟩ := hno
  obtain ⟨hexact, hwhole⟩ := hcopy
  rcases le_or_gt src.length (buf.size - buf.fill) with hfit | hgrow
  · obtain ⟨buf', hwrite, hinv', hcont, -⟩ := rbWriteWithState_of_fits hinv hfit (hexact hfit)
    exact ⟨buf', by simp [rbStep, hwrite], hinv', hcont⟩
  · have hmax := growth_granted hinv hobj hgrow hno
    obtain ⟨buf', hwrite, hinv', hcont, -⟩ :=
      rbWriteWithState_of_grows hinv hobj hgrow hmax (hwhole hgrow)
    exact ⟨buf', by simp [rbStep, hwrite], hinv', hcont⟩

/-- One call keeps the representation and returns what the queue returns. -/
theorem represents_step {buf : KLRingBuffer} {queue : List UInt8} (op : RbOp)
    (h : Represents buf queue) (hno : WithoutOverflow buf op) (hcopy : CopiesInPlace buf op) :
    ∃ buf', rbStep buf op = some (buf', (fifoStep queue op).2) ∧
      Represents buf' (fifoStep queue op).1 := by
  cases op with
  | write src => exact represents_write h hno hcopy
  | read n =>
      obtain ⟨hinv, rfl⟩ := h
      obtain ⟨buf', hread, hinv', hcont, -⟩ := rbReader_spec hinv n true
      exact ⟨buf', hread, hinv', hcont⟩
  | peek n =>
      obtain ⟨hinv, rfl⟩ := h
      obtain ⟨buf', hread, hinv', hcont, -⟩ := rbReader_spec hinv n false
      exact ⟨buf', hread, hinv', hcont⟩
  | empty => exact ⟨rbEmpty buf, rfl, inv_rbEmpty h.1, contents_rbEmpty buf⟩
  | discard n =>
      obtain ⟨hinv, rfl⟩ := h
      exact ⟨rbDiscard buf n, rfl, inv_rbDiscard hinv hno, contents_rbDiscard hinv hno⟩

/-- From a new ring, every run of calls that reports no overflow and whose
writes are copied in place behaves as the byte queue: no load or store leaves
the allocation, every read and peek returns the oldest unread bytes, and head,
fill level and size stay within their bounds in every state. -/
theorem rb_tracks_fifo (size sizeMax : ℕ) (buf : KLRingBuffer) (ops : List RbOp)
    (hmax : sizeMax ≤ maxObject) (hnew : rbNew size sizeMax = some buf)
    (hno : Meets rbStep WithoutOverflow buf ops) (hcopy : Meets rbStep CopiesInPlace buf ops) :
    Tracks rbStep fifoStep AgreesWithFifo buf [] ops := by
  have hinit : Represents buf [] := by
    refine ⟨inv_rbNew hmax hnew, ?_⟩
    unfold rbNew at hnew
    split_ifs at hnew
    rw [Option.some.injEq] at hnew
    simp [← hnew, KLRingBuffer.contents]
  have hboth : Meets rbStep (fun b op ↦ WithoutOverflow b op ∧ CopiesInPlace b op) buf ops :=
    Meets.and hno hcopy
  exact tracks_of_step Represents (fun _ _ h ↦ h.agrees)
    (fun _ _ op hR hg ↦ represents_step op hR hg.1 hg.2) ops buf [] hinit hboth

/-- A run through a wrapped write, a growth of an unwrapped ring and the
shrinking read. -/
theorem rb_tracks_fifo_run :
    Tracks rbStep fifoStep AgreesWithFifo
      { data := [0, 0, 0, 0], sizeMax := 1024, sizeInitial := 4, head := 0, fill := 0 } []
      [.write [1, 2, 3], .read 2, .write [4, 5], .peek 3, .empty, .write [6, 7, 8, 9, 10],
        .read 9] :=
  rb_tracks_fifo 4 1024 _ _ (by decide +kernel) rfl (by decide +kernel) (by decide +kernel)

/-- Two runs without any overflow that leave the queue.  In the first the ring
grows while its content passes the end, and the byte that had wrapped to the
front is lost; in the second four bytes are written into an empty ring of four
bytes whose head is at two, past the end of the allocation. -/
theorem rb_leaves_fifo :
    (∃ buf, rbNew 4 1024 = some buf ∧
      Meets rbStep WithoutOverflow buf
        [.write [1, 2, 3], .read 2, .write [4, 5], .write [6, 7], .read 5] ∧
      ¬Tracks rbStep fifoStep AgreesWithFifo buf []
        [.write [1, 2, 3], .read 2, .write [4, 5], .write [6, 7], .read 5]) ∧
    ∃ buf, rbNew 4 4 = some buf ∧
      Meets rbStep WithoutOverflow buf [.write [1, 2], .read 2, .write [3, 4, 5, 6]] ∧
      ¬Tracks rbStep fifoStep AgreesWithFifo buf []
        [.write [1, 2], .read 2, .write [3, 4, 5, 6]] :=
  ⟨⟨_, rfl, by decide +kernel, by decide +kernel⟩, ⟨_, rfl, by decide +kernel, by decide +kernel⟩⟩

end LtnTsTools.RingBuffer
