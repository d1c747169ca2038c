import LtnTsTools.CyclicWindow

/-!
# The byte ring buffer

The model of `klringbuffer.c`.  A ring is one allocation with a read position
`head` and a fill level `fill`; a write that does not fit first asks for 128
times its own length of extra storage, and when that is refused the ring drops
as many bytes from its head as the write is long.

`size_t` values are natural numbers reduced modulo `2 ^ 64` wherever the source
adds, subtracts or multiplies them: a refused write can discard more than the
ring holds, so `fill` does pass through zero.  Freshly allocated storage is
modelled as zero bytes, and every allocation succeeds.  The mutex is left out:
these are the operations of one thread.
-/

namespace LtnTsTools.RingBuffer

open Region CyclicWindow

/-- The value of a sum or product in a `size_t`. -/
def sizeT (n : ℕ) : ℕ := n % 2 ^ 64

/-- `size_t` subtraction. -/
def sizeSub (a b : ℕ) : ℕ := (((a : ℤ) - b) % 2 ^ 64).toNat

/-- No object of a 64-bit process is larger: user addresses have at most 56
bits. -/
def maxObject : ℕ := 2 ^ 56

theorem sizeT_of_lt {n : ℕ} (h : n < 2 ^ 64) : sizeT n = n := Nat.mod_eq_of_lt h

theorem sizeSub_of_le {a b : ℕ} (h : b ≤ a) (ha : a < 2 ^ 64) : sizeSub a b = a - b := by
  unfold sizeSub
  omega

/-- Subtracting and adding back the same amount cancels, also when the
difference passes through zero. -/
theorem sizeT_sizeSub_add {a b : ℕ} (ha : a < 2 ^ 64) :
    sizeT (sizeSub a b + b) = a := by
  unfold sizeT sizeSub
  omega

attribute [irreducible] sizeT sizeSub maxObject

/-- `KLRingBuffer`; the current allocation is `data`. -/
structure KLRingBuffer where
  data : List UInt8
  sizeMax : ℕ
  sizeInitial : ℕ
  head : ℕ
  fill : ℕ
deriving DecidableEq, Repr

def KLRingBuffer.size (buf : KLRingBuffer) : ℕ := buf.data.length

/-- `realloc`: the common part is kept. -/
def realloc (data : List UInt8) (n : ℕ) : List UInt8 :=
  data.take n ++ List.replicate (n - data.length) 0

@[simp] theorem length_realloc (data : List UInt8) (n : ℕ) : (realloc data n).length = n := by
  simp only [realloc, List.length_append, List.length_take, List.length_replicate]
  omega

theorem realloc_of_le {data : List UInt8} {n : ℕ} (h : data.length ≤ n) :
    realloc data n = data ++ List.replicate (n - data.length) 0 := by
  rw [realloc, List.take_of_length_le h]

def rbNew (size sizeMax : ℕ) : Option KLRingBuffer :=
  if size = 0 ∨ size > sizeMax then none
  else some
    { data := List.replicate size 0, sizeMax := sizeMax, sizeInitial := size, head := 0, fill := 0 }

def rbUsed (buf : KLRingBuffer) : ℕ := buf.fill

def rbEmpty (buf : KLRingBuffer) : KLRingBuffer := { buf with head := 0, fill := 0 }

def rbRemainInSeg (buf : KLRingBuffer) : ℕ := sizeSub buf.size buf.fill

/-- `none` is the refusal, a size above the maximum. -/
def rbGrow (buf : KLRingBuffer) (increment : ℕ) : Option KLRingBuffer :=
  if sizeT (buf.size + increment) > buf.sizeMax then none
  else some { buf with data := realloc buf.data (sizeT (buf.size + increment)) }

def rbShrinkReset (buf : KLRingBuffer) : KLRingBuffer :=
  { buf with data := realloc buf.data buf.sizeInitial, head := 0, fill := 0 }

def rbGetWritePos (buf : KLRingBuffer) : ℕ := sizeT (buf.head + buf.fill) % buf.size

def rbGetReadPos (buf : KLRingBuffer) : ℕ := buf.head

def advanceHead (buf : KLRingBuffer) (bytes : ℕ) : KLRingBuffer :=
  { buf with head := sizeT (buf.head + bytes) % buf.size, fill := sizeSub buf.fill bytes }

def rbDiscard (buf : KLRingBuffer) (bytes : ℕ) : KLRingBuffer := advanceHead buf bytes

@[simp] theorem size_rbDiscard (buf : KLRingBuffer) (n : ℕ) :
    (rbDiscard buf n).size = buf.size := rfl

@[simp] theorem head_rbDiscard (buf : KLRingBuffer) (n : ℕ) :
    (rbDiscard buf n).head = sizeT (buf.head + n) % buf.size := rfl

@[simp] theorem fill_rbDiscard (buf : KLRingBuffer) (n : ℕ) :
    (rbDiscard buf n).fill = sizeSub buf.fill n := rfl

@[simp] theorem sizeMax_rbDiscard (buf : KLRingBuffer) (n : ℕ) :
    (rbDiscard buf n).sizeMax = buf.sizeMax := rfl

/-- The first half of `rb_write_with_state`: make room for `bytes` bytes.  The
flag is `didOverflow`. -/
def rbReserve (buf : KLRingBuffer) (bytes : ℕ) : KLRingBuffer × Bool :=
  if bytes > rbRemainInSeg buf then
    match rbGrow buf (sizeT (bytes * 128)) with
    | some grown => (grown, false)
    | none => (rbDiscard buf bytes, true)
  else (buf, false)

/-- The second half: the copies behind the tail, split when the tail lies
behind the end of the write.  `none` is a copy that leaves the allocation, or a
split whose first block is longer than the source. -/
def rbCopyIn (buf : KLRingBuffer) (src : List UInt8) : Option (List UInt8) :=
  let tail := sizeT (buf.head + buf.fill) % buf.size
  let writeEnd := sizeT (buf.head + buf.fill + src.length) % buf.size
  if tail ≤ writeEnd then store buf.data tail src
  else
    let firstWrite := buf.size - tail
    if src.length < firstWrite then none
    else (store buf.data tail (src.take firstWrite)).bind fun mid ↦
      store mid 0 (src.drop firstWrite)

/-- What `rb_write_with_state` leaves behind; `didOverflow` is set before the
copies, so it is known also when they leave the allocation. -/
structure WriteResult where
  didOverflow : Bool
  buf : Option KLRingBuffer
deriving DecidableEq

def rbWriteWithState (buf : KLRingBuffer) (src : List UInt8) : WriteResult :=
  let r := rbReserve buf src.length
  { didOverflow := r.2
    buf := (rbCopyIn r.1 src).map fun data ↦
      { r.1 with data := data, fill := sizeT (r.1.fill + src.length) } }

/-- `rb_reader`: the bytes read and the ring afterwards, or `none` when a copy
leaves the allocation. -/
def rbReader (buf : KLRingBuffer) (want : ℕ) (advanceReadHead : Bool) :
    Option (KLRingBuffer × List UInt8) :=
  let bytes := if want > rbUsed buf then rbUsed buf else want
  if bytes = 0 then some (buf, [])
  else
    let endRead := sizeT (buf.head + bytes) % buf.size
    let copied :=
      if endRead ≤ buf.head then
        let firstRead := buf.size - buf.head
        if bytes < firstRead then none
        else (load buf.data buf.head firstRead).bind fun a ↦
          (load buf.data 0 (bytes - firstRead)).map fun b ↦ a ++ b
      else load buf.data buf.head bytes
    copied.map fun out ↦
      let moved := if advanceReadHead then advanceHead buf bytes else buf
      (if rbUsed moved = 0 ∧ moved.size > moved.sizeInitial then rbShrinkReset moved
        else moved, out)

def rbRead (buf : KLRingBuffer) (bytes : ℕ) : Option (KLRingBuffer × List UInt8) :=
  rbReader buf bytes true

def rbPeek (buf : KLRingBuffer) (bytes : ℕ) : Option (KLRingBuffer × List UInt8) :=
  rbReader buf bytes false

/-! ## The invariant and the content -/

/-- The bytes held by the ring, oldest first. -/
def KLRingBuffer.contents (buf : KLRingBuffer) : List UInt8 :=
  window buf.data buf.head buf.fill

structure Inv (buf : KLRingBuffer) : Prop where
  head_lt : buf.head < buf.size
  fill_le : buf.fill ≤ buf.size
  size_le : buf.size ≤ buf.sizeMax
  initial_pos : 0 < buf.sizeInitial
  initial_le : buf.sizeInitial ≤ buf.sizeMax
  max_le : buf.sizeMax ≤ maxObject

theorem Inv.length_contents {buf : KLRingBuffer} (h : Inv buf) :
    buf.contents.length = buf.fill := length_window h.fill_le

theorem Inv.size_le_maxObject {buf : KLRingBuffer} (h : Inv buf) : buf.size ≤ maxObject :=
  h.size_le.trans h.max_le

theorem inv_rbNew {size sizeMax : ℕ} {buf : KLRingBuffer} (hmax : sizeMax ≤ maxObject)
    (h : rbNew size sizeMax = some buf) : Inv buf := by
  unfold rbNew at h
  split_ifs at h with hbad
  rw [Option.some.injEq] at h
  subst h
  constructor <;> simp [KLRingBuffer.size] <;> omega

theorem inv_rbEmpty {buf : KLRingBuffer} (h : Inv buf) : Inv (rbEmpty buf) where
  head_lt := lt_of_le_of_lt (Nat.zero_le _) h.head_lt
  fill_le := Nat.zero_le _
  size_le := h.size_le
  initial_pos := h.initial_pos
  initial_le := h.initial_le
  max_le := h.max_le

@[simp] theorem contents_rbEmpty (buf : KLRingBuffer) : (rbEmpty buf).contents = [] := by
  simp [KLRingBuffer.contents, rbEmpty]

theorem inv_rbShrinkReset {buf : KLRingBuffer} (h : Inv buf) : Inv (rbShrinkReset buf) where
  head_lt := by simpa [rbShrinkReset, KLRingBuffer.size] using h.initial_pos
  fill_le := Nat.zero_le _
  size_le := by simpa [rbShrinkReset, KLRingBuffer.size] using h.initial_le
  initial_pos := h.initial_pos
  initial_le := h.initial_le
  max_le := h.max_le

/-- Giving grown storage back when the ring is empty does not change what it
holds. -/
theorem shrink_of_empty_spec {buf : KLRingBuffer} (h : Inv buf) :
    ∃ buf', (if rbUsed buf = 0 ∧ buf.size > buf.sizeInitial then rbShrinkReset buf
        else buf) = buf' ∧ Inv buf' ∧ buf'.contents = buf.contents ∧
      buf'.sizeMax = buf.sizeMax := by
  by_cases hreset : rbUsed buf = 0 ∧ buf.size > buf.sizeInitial
  · refine ⟨rbShrinkReset buf, if_pos hreset, inv_rbShrinkReset h, ?_, rfl⟩
    have hfill : buf.fill = 0 := hreset.1
    simp [KLRingBuffer.contents, rbShrinkReset, hfill]
  · exact ⟨buf, if_neg hreset, h, rfl, rfl⟩

/-! ## Advancing the head -/

theorem inv_rbDiscard {buf : KLRingBuffer} {n : ℕ} (h : Inv buf) (hn : n ≤ buf.fill) :
    Inv (rbDiscard buf n) := by
  have hsize := h.size_le_maxObject
  have hfill := h.fill_le
  have hsub : sizeSub buf.fill n = buf.fill - n :=
    sizeSub_of_le hn (by unfold maxObject at hsize; omega)
  refine ⟨?_, ?_, h.size_le, h.initial_pos, h.initial_le, h.max_le⟩
  · exact Nat.mod_lt _ (lt_of_le_of_lt (Nat.zero_le _) h.head_lt)
  · change sizeSub buf.fill n ≤ buf.size
    omega

theorem contents_rbDiscard {buf : KLRingBuffer} {n : ℕ} (h : Inv buf) (hn : n ≤ buf.fill) :
    (rbDiscard buf n).contents = buf.contents.drop n := by
  have hsize := h.size_le_maxObject
  have hfill := h.fill_le
  have hhead := h.head_lt
  unfold maxObject at hsize
  have hsub : sizeSub buf.fill n = buf.fill - n := sizeSub_of_le hn (by omega)
  have hadd : sizeT (buf.head + n) = buf.head + n := sizeT_of_lt (by omega)
  calc (rbDiscard buf n).contents
      = window buf.data ((buf.head + n) % buf.data.length) (buf.fill - n) := by
        simp only [KLRingBuffer.contents, rbDiscard, advanceHead, hsub, hadd, KLRingBuffer.size]
    _ = buf.contents.drop n := window_advance hn hfill

/-! ## Writing -/

theorem rbRemainInSeg_eq {buf : KLRingBuffer} (h : Inv buf) :
    rbRemainInSeg buf = buf.size - buf.fill := by
  have hsize := h.size_le_maxObject
  unfold maxObject at hsize
  exact sizeSub_of_le h.fill_le (by omega)

/-- The ring fits the bytes into its current allocation. -/
theorem rbReserve_of_fits {buf : KLRingBuffer} {n : ℕ} (h : Inv buf)
    (hn : n ≤ buf.size - buf.fill) : rbReserve buf n = (buf, false) := by
  rw [rbReserve, rbRemainInSeg_eq h, if_neg (by omega)]

/-- The growth a write asks for, without the wrap-around of `size_t`. -/
theorem sizeT_growth {buf : KLRingBuffer} {n : ℕ} (h : Inv buf) (hn : n ≤ maxObject) :
    sizeT (buf.size + sizeT (n * 128)) = buf.size + n * 128 := by
  have hsize := h.size_le_maxObject
  unfold maxObject at hsize hn
  rw [sizeT_of_lt (n := n * 128) (by omega), sizeT_of_lt (by omega)]

theorem rbReserve_of_grows {buf : KLRingBuffer} {n : ℕ} (h : Inv buf) (hobj : n ≤ maxObject)
    (hn : buf.size - buf.fill < n) (hmax : buf.size + n * 128 ≤ buf.sizeMax) :
    rbReserve buf n =
      ({ buf with data := buf.data ++ List.replicate (n * 128) 0 }, false) := by
  have hgrow := sizeT_growth h hobj
  have hdata : realloc buf.data (buf.size + n * 128) =
      buf.data ++ List.replicate (n * 128) 0 := by
    rw [realloc_of_le (by unfold KLRingBuffer.size; omega)]
    congr 2
    unfold KLRingBuffer.size
    omega
  rw [rbReserve, rbRemainInSeg_eq h, if_pos hn, rbGrow, hgrow, if_neg (by omega), hdata]

theorem rbReserve_of_refused {buf : KLRingBuffer} {n : ℕ} (h : Inv buf) (hobj : n ≤ maxObject)
    (hn : buf.size - buf.fill < n) (hmax : buf.sizeMax < buf.size + n * 128) :
    rbReserve buf n = (rbDiscard buf n, true) := by
  have hgrow := sizeT_growth h hobj
  rw [rbReserve, rbRemainInSeg_eq h, if_pos hn, rbGrow, hgrow, if_pos hmax]

/-- The copies never change the length of the allocation. -/
theorem length_rbCopyIn {buf : KLRingBuffer} {src data : List UInt8}
    (h : rbCopyIn buf src = some data) : data.length = buf.size := by
  unfold rbCopyIn at h
  simp only at h
  split_ifs at h with hend hshort
  · exact length_of_store h
  · obtain ⟨mid, hmid, hdata⟩ := Option.bind_eq_some_iff.mp h
    exact (length_of_store hdata).trans (length_of_store hmid)

/-- The copies append the source whenever it fits, except for a source of
exactly the ring's size behind a head that is not zero: there the end of the
write meets the tail, and the copy is not split. -/
theorem rbCopyIn_of_fits {buf : KLRingBuffer} {src : List UInt8}
    (hhead : buf.head < buf.size) (hsize : buf.size ≤ maxObject)
    (hfit : buf.fill + src.length ≤ buf.size)
    (hexact : src.length = buf.size → buf.head = 0) :
    ∃ data, rbCopyIn buf src = some data ∧
      window data buf.head (buf.fill + src.length) = buf.contents ++ src := by
  unfold maxObject at hsize
  have hsum : sizeT (buf.head + buf.fill) = buf.head + buf.fill := sizeT_of_lt (by omega)
  have hsum' : sizeT (buf.head + buf.fill + src.length) = buf.head + buf.fill + src.length :=
    sizeT_of_lt (by omega)
  have htail := wrapped_mod (a := buf.head + buf.fill) (n := buf.size) (by omega)
  have hend := wrapped_mod (a := buf.head + buf.fill + src.length) (n := buf.size) (by omega)
  unfold rbCopyIn
  simp only [hsum, hsum']
  split_ifs with hle hshort
  · -- the write ends at or before the end of the allocation
    have hbound : (buf.head + buf.fill) % buf.size + src.length ≤ buf.size := by
      split_ifs at htail hend <;> omega
    obtain ⟨data, hdata⟩ := Option.isSome_iff_exists.mp (store_isSome_iff.mpr hbound)
    exact ⟨data, hdata, window_store_block hhead hfit hbound hdata⟩
  · split_ifs at htail hend <;> omega
  · have hfirst : buf.size - (buf.head + buf.fill) % buf.size ≤ src.length := by omega
    have hlt : (buf.head + buf.fill) % buf.size < buf.size := Nat.mod_lt _ (by omega)
    obtain ⟨mid, hmid⟩ := Option.isSome_iff_exists.mp
      (@store_isSome_iff _ buf.data ((buf.head + buf.fill) % buf.size)
        (src.take (buf.size - (buf.head + buf.fill) % buf.size)) |>.mpr (by
          rw [List.length_take]
          change _ ≤ buf.size
          omega))
    have hmidlen : mid.length = buf.size := length_of_store hmid
    obtain ⟨data, hdata⟩ := Option.isSome_iff_exists.mp
      (@store_isSome_iff _ mid 0
        (src.drop (buf.size - (buf.head + buf.fill) % buf.size)) |>.mpr (by
          rw [List.length_drop]
          omega))
    refine ⟨data, by rw [hmid]; exact hdata, ?_⟩
    exact window_store_split hhead hfit rfl hfirst hmid hdata

/-- What a write does to a ring it fits into, without growth. -/
theorem rbWriteWithState_of_fits {buf : KLRingBuffer} {src : List UInt8} (h : Inv buf)
    (hfit : src.length ≤ buf.size - buf.fill)
    (hexact : src.length = buf.size → buf.head = 0) :
    ∃ buf', rbWriteWithState buf src = ⟨false, some buf'⟩ ∧ Inv buf' ∧
      buf'.contents = buf.contents ++ src ∧ buf'.head = buf.head ∧ buf'.size = buf.size ∧
      buf'.sizeMax = buf.sizeMax := by
  have hsize := h.size_le_maxObject
  have hfill := h.fill_le
  have hhead := h.head_lt
  obtain ⟨data, hcopy, hwin⟩ := @rbCopyIn_of_fits buf src hhead hsize (by omega) hexact
  have hlen := length_rbCopyIn hcopy
  unfold maxObject at hsize
  have hsum : sizeT (buf.fill + src.length) = buf.fill + src.length := sizeT_of_lt (by omega)
  refine ⟨{ buf with data := data, fill := buf.fill + src.length }, ?_, ?_, hwin, rfl, hlen, rfl⟩
  · simp [rbWriteWithState, rbReserve_of_fits h hfit, hcopy, hsum]
  · constructor
    · exact hhead.trans_eq hlen.symm
    · exact (show buf.fill + src.length ≤ buf.size by omega).trans_eq hlen.symm
    · exact hlen.trans_le h.size_le
    · exact h.initial_pos
    · exact h.initial_le
    · exact h.max_le

/-- What a write does to a ring that has to grow for it. -/
theorem rbWriteWithState_of_grows {buf : KLRingBuffer} {src : List UInt8} (h : Inv buf)
    (hobj : src.length ≤ maxObject) (hn : buf.size - buf.fill < src.length)
    (hmax : buf.size + src.length * 128 ≤ buf.sizeMax) (hwrap : buf.head + buf.fill ≤ buf.size) :
    ∃ buf', rbWriteWithState buf src = ⟨false, some buf'⟩ ∧ Inv buf' ∧
      buf'.contents = buf.contents ++ src ∧ buf'.head = buf.head ∧
      buf'.sizeMax = buf.sizeMax := by
  have hfill := h.fill_le
  have hhead := h.head_lt
  let grown : KLRingBuffer :=
    { buf with data := buf.data ++ List.replicate (src.length * 128) 0 }
  have hgsize : grown.size = buf.size + src.length * 128 := by
    simp [grown, KLRingBuffer.size]
  have hginv : Inv grown := by
    refine ⟨?_, ?_, ?_, h.initial_pos, h.initial_le, h.max_le⟩
    · rw [hgsize]
      change buf.head < _
      omega
    · rw [hgsize]
      change buf.fill ≤ _
      omega
    · exact hgsize.trans_le hmax
  have hgcont : grown.contents = buf.contents := window_extend hhead hwrap
  have hres := rbReserve_of_grows h hobj hn hmax
  obtain ⟨buf', hwrite, hinv, hcont, hhead', hsize', hmax'⟩ :=
    @rbWriteWithState_of_fits _ src hginv
      (by rw [hgsize]; change _ ≤ _ - buf.fill; omega) (by rw [hgsize]; omega)
  refine ⟨buf', ?_, hinv, hcont.trans (by rw [hgcont]), hhead', hmax'⟩
  rw [← hwrite, rbWriteWithState, rbWriteWithState, hres,
    rbReserve_of_fits hginv (by rw [hgsize]; change _ ≤ _ - buf.fill; omega)]

/-! ## Reading -/

/-- What is wanted beyond the content is not there to be read. -/
theorem exists_clamp {buf : KLRingBuffer} (h : Inv buf) (want : ℕ) :
    ∃ bytes, (if want > rbUsed buf then rbUsed buf else want) = bytes ∧ bytes ≤ buf.fill ∧
      buf.contents.take want = buf.contents.take bytes ∧
      buf.contents.drop want = buf.contents.drop bytes := by
  have hcont := h.length_contents
  unfold rbUsed
  split_ifs with hw
  · refine ⟨buf.fill, rfl, le_rfl, ?_, ?_⟩
    · rw [List.take_of_length_le (by omega), List.take_of_length_le (by omega)]
    · rw [List.drop_of_length_le (by omega), List.drop_of_length_le (by omega)]
  · exact ⟨want, rfl, by omega, rfl, rfl⟩

/-- Both shapes of the copy return the oldest bytes. -/
theorem load_contents {buf : KLRingBuffer} (h : Inv buf) {bytes : ℕ} (hpos : 0 < bytes)
    (hle : bytes ≤ buf.fill) :
    (if (buf.head + bytes) % buf.size ≤ buf.head then
        if bytes < buf.size - buf.head then none
        else (load buf.data buf.head (buf.size - buf.head)).bind fun a ↦
          (load buf.data 0 (bytes - (buf.size - buf.head))).map fun b ↦ a ++ b
      else load buf.data buf.head bytes) = some (buf.contents.take bytes) := by
  have hfill := h.fill_le
  have hhead := h.head_lt
  have hend := wrapped_mod (a := buf.head + bytes) (n := buf.size) (by omega)
  have hfront : buf.contents.take bytes = window buf.data buf.head bytes := by
    rw [KLRingBuffer.contents, window, window, List.take_take, min_eq_left hle]
  rw [hfront]
  split_ifs with hwrap hshort
  · split_ifs at hend <;> omega
  · rw [load_eq_some (by change _ ≤ buf.size; omega),
      load_eq_some (by change _ ≤ buf.size; omega)]
    exact congrArg some (load_split hhead (hle.trans hfill)
      (by change buf.size ≤ _; split_ifs at hend <;> omega))
  · exact load_block hhead (by change _ ≤ buf.size; split_ifs at hend <;> omega)

/-- A reader returns the oldest bytes; with the flag set it also removes them,
and gives grown storage back when nothing is left. -/
theorem rbReader_spec {buf : KLRingBuffer} (h : Inv buf) (want : ℕ) (advance : Bool) :
    ∃ buf', rbReader buf want advance = some (buf', buf.contents.take want) ∧ Inv buf' ∧
      buf'.contents = (if advance then buf.contents.drop want else buf.contents) ∧
      buf'.sizeMax = buf.sizeMax := by
  have hsize := h.size_le_maxObject
  have hfill := h.fill_le
  have hhead := h.head_lt
  unfold maxObject at hsize
  obtain ⟨bytes, hbytes, hle, htake, hdrop⟩ := exists_clamp h want
  rw [htake, hdrop]
  unfold rbReader
  simp only [hbytes]
  rcases Nat.eq_zero_or_pos bytes with rfl | hpos
  · refine ⟨buf, by simp, h, by cases advance <;> simp, rfl⟩
  · have hsum : sizeT (buf.head + bytes) = buf.head + bytes := sizeT_of_lt (by omega)
    simp only [hsum, load_contents h hpos hle, Option.map_some, if_neg (show bytes ≠ 0 by omega)]
    have hmoved : Inv (if advance then rbDiscard buf bytes else buf) := by
      cases advance with
      | false => exact h
      | true => exact inv_rbDiscard h hle
    have hmovedc : (if advance then rbDiscard buf bytes else buf).contents =
        if advance then buf.contents.drop bytes else buf.contents := by
      cases advance with
      | false => simp
      | true => simp [contents_rbDiscard h hle]
    obtain ⟨buf', heq, hinv, hcont', hmax⟩ := shrink_of_empty_spec hmoved
    refine ⟨buf', ?_, hinv, hcont'.trans hmovedc, hmax.trans ?_⟩
    · rw [← heq]
      rfl
    · cases advance <;> rfl

/-- Peeking into a ring that holds something does not touch it. -/
theorem rbPeek_of_used {buf : KLRingBuffer} (h : Inv buf) (hused : rbUsed buf ≠ 0) :
    rbPeek buf (rbUsed buf) = some (buf, buf.contents) := by
  obtain ⟨buf', hread, -⟩ := rbReader_spec h (rbUsed buf) false
  have hall : buf.contents.take (rbUsed buf) = buf.contents :=
    List.take_of_length_le h.length_contents.le
  rw [hall] at hread
  have hsame : buf' = buf := by
    unfold rbReader at hread
    simp only [gt_iff_lt, lt_irrefl, if_false, if_neg hused, Bool.false_eq_true] at hread
    obtain ⟨out, -, hout⟩ := Option.map_eq_some_iff.mp hread
    rw [if_neg (fun hempty ↦ hused hempty.1), Prod.mk.injEq] at hout
    exact hout.1.symm
  rw [rbPeek, hread, hsame]

end LtnTsTools.RingBuffer
