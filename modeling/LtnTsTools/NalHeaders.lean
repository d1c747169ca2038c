import LtnTsTools.Memmem

/-!
# NAL headers

The two scanners of `nal_h264.c` for the start codes of a byte stream.
`ltn_nal_h264_find_headers` looks for one start code after the other and gives each
entry the bytes up to the next one; it reads the byte behind a start code even where
the buffer ends with it.  `ltn_nal_h264_findHeader` finds one start code at a time and
passes over those whose byte has the forbidden bit.
-/

namespace LtnTsTools.Nal

open Occurrence

/-- A C array whose entries are given by index; it ends with the largest one, and what is
not given is null. -/
def designated (entries : List (ℕ × String)) : List (Option String) :=
  (List.range ((entries.map Prod.fst).foldr max 0 + 1)).map fun i ↦ entries.lookup i

/-- `h264Nals`, the names. -/
def h264Nals : List (Option String) :=
  designated
    [(0, "UNSPECIFIED"), (1, "slice_layer_without_partitioning_rbsp non-IDR"),
      (2, "slice_data_partition_a_layer_rbsp("), (3, "slice_data_partition_b_layer_rbsp("),
      (4, "slice_data_partition_c_layer_rbsp("), (5, "slice_layer_without_partitioning_rbsp IDR"),
      (6, "SEI"), (7, "SPS"), (8, "PPS"), (9, "AUD"), (10, "EO SEQ"), (11, "EO STREAM"),
      (12, "FILLER"), (13, "SPS-EX"), (14, "PNU"), (15, "SSPS"), (16, "DPS"), (19, "ACP"),
      (20, "CSE"), (21, "CSEDV")]

/-- `h264Nals_lookupName`; what lies outside the table is no name. -/
def h264NalsLookupName (nalType : ℕ) : Option String := h264Nals[nalType]?.join

/-- `struct ltn_nal_headers_s`; `ptr` is an offset into the buffer. -/
structure NalHeader where
  ptr : ℕ
  lengthBytes : ℕ
  nalType : ℕ
  nalName : Option String
deriving DecidableEq

/-- `start_code`, and `sig` of the other scanners. -/
def startCode : List UInt8 := [0, 0, 1]

/-- The last entry of the array extends up to `stop`; an array without entries stays. -/
def setLastLength (a : List NalHeader) (stop : ℕ) : List NalHeader :=
  a.modify (a.length - 1) fun e ↦ { e with lengthBytes := stop - e.ptr }

/-- The loop of `ltn_nal_h264_find_headers`; `none` is a read behind the buffer or a write
behind the array.  The length of an entry is set with the next one. -/
def h264HeadersLoop (buf : List UInt8) : ℕ → ℕ → ℕ → List NalHeader → Option (List NalHeader)
  | 0, _, _, _ => none
  | fuel + 1, p, maxitems, a =>
      if p + 3 < buf.length then
        match ltnMemmem (buf.drop p) startCode with
        | none => none
        | some none => some a
        | some (some k) =>
            let p := p + k
            let maxitems := if a.length ≥ maxitems then maxitems * 2 else maxitems
            match buf[p + 3]? with
            | none => none
            | some b =>
                let nalType := (b &&& 0x1f).toNat
                if a.length < maxitems then
                  h264HeadersLoop buf fuel (p + 3) maxitems
                    (setLastLength a p ++ [⟨p, 0, nalType, h264NalsLookupName nalType⟩])
                else none
      else some a

/-- `ltn_nal_h264_find_headers`; its allocations succeed. -/
def ltnNalH264FindHeaders (buf : List UInt8) : Option (List NalHeader) :=
  (h264HeadersLoop buf (buf.length + 1) 0 64 []).map fun a ↦ setLastLength a buf.length

/-- The loop of `ltn_nal_h264_findHeader` and of `ltn_nal_h265_findHeader`. -/
def findHeaderLoop (buf : List UInt8) : ℕ → ℕ → Option ℕ
  | 0, _ => none
  | fuel + 1, i =>
      if i + 3 < buf.length then
        if (buf.drop i).take 3 = startCode then
          if buf.getD (i + 3) 0 &&& 0x80 ≠ 0 then findHeaderLoop buf fuel (i + 1)
          else some i
        else findHeaderLoop buf fuel (i + 1)
      else none

def findHeader (buf : List UInt8) (offset : ℤ) : Option ℕ :=
  findHeaderLoop buf buf.length (offset + 1).toNat

/-- `ltn_nal_h264_findHeader`. -/
def ltnNalH264FindHeader (buf : List UInt8) (offset : ℤ) : Option ℕ := findHeader buf offset

def scanFrom (find : ℤ → Option ℕ) : ℕ → ℤ → List ℕ
  | 0, _ => []
  | fuel + 1, offset =>
      match find offset with
      | none => []
      | some i => i :: scanFrom find fuel i

/-! ## Start codes -/

def StartCodeAt (buf : List UInt8) (i : ℕ) : Prop := OccursAt startCode buf i

instance (buf : List UInt8) : DecidablePred (StartCodeAt buf) :=
  inferInstanceAs (DecidablePred (OccursAt startCode buf))

theorem StartCodeAt.add_three_le {buf : List UInt8} {i : ℕ} (h : StartCodeAt buf i) :
    i + 3 ≤ buf.length :=
  h.le_length (List.cons_ne_nil _ _)

theorem StartCodeAt.apart {buf : List UInt8} {i j : ℕ} (hi : StartCodeAt buf i)
    (hj : StartCodeAt buf j) (hlt : i < j) : i + 3 ≤ j := by
  by_contra hnear
  have hone := hi.getElem? (show 2 < startCode.length by decide)
  have hzero := hj.getElem? (show i + 2 - j < startCode.length by
    simp only [startCode, List.length_cons, List.length_nil]
    omega)
  rw [show j + (i + 2 - j) = i + 2 by omega, hone] at hzero
  obtain hd | hd : i + 2 - j = 0 ∨ i + 2 - j = 1 := by omega
  all_goals
    rw [hd] at hzero
    exact absurd hzero (by decide)

/-- The start codes that are followed by a byte. -/
def startCodes (buf : List UInt8) : List ℕ :=
  (List.range (buf.length - 3)).filter fun i ↦ StartCodeAt buf i

/-- The buffer ends with a start code, and not with two of them. -/
def EndsOnStartCode (buf : List UInt8) : Prop :=
  3 < buf.length ∧ StartCodeAt buf (buf.length - 3) ∧
    ¬(6 ≤ buf.length ∧ StartCodeAt buf (buf.length - 6))

instance (buf : List UInt8) : Decidable (EndsOnStartCode buf) :=
  inferInstanceAs (Decidable (_ ∧ _ ∧ _))

/-! ## Entries -/

/-- Entries at increasing positions, each up to the next one and the last up to `stop`. -/
def closed (entry : ℕ → NalHeader) (stop : ℕ) : List ℕ → List NalHeader
  | [] => []
  | i :: rest => { entry i with lengthBytes := rest.headD stop - i } :: closed entry stop rest

theorem length_closed {entry : ℕ → NalHeader} {stop : ℕ} (l : List ℕ) :
    (closed entry stop l).length = l.length := by
  induction l with
  | nil => rfl
  | cons i rest ih => exact congrArg Nat.succ ih

theorem closed_snoc {entry : ℕ → NalHeader} {stop i : ℕ} (l : List ℕ) :
    closed entry stop (l ++ [i]) =
      closed entry i l ++ [{ entry i with lengthBytes := stop - i }] := by
  induction l with
  | nil => rfl
  | cons x rest ih =>
      have hhead : (rest ++ [i]).headD stop = rest.headD i := by cases rest <;> rfl
      rw [List.cons_append, closed, closed, ih, hhead]
      rfl

theorem setLastLength_snoc (a : List NalHeader) (e : NalHeader) (stop : ℕ) :
    setLastLength (a ++ [e]) stop = a ++ [{ e with lengthBytes := stop - e.ptr }] := by
  rw [setLastLength, List.length_append, List.length_singleton, Nat.add_sub_cancel,
    List.modify_eq_take_drop, List.take_left, List.drop_left]
  rfl

/-- The last length set anew. -/
theorem setLastLength_closed {entry : ℕ → NalHeader} (hptr : ∀ i, (entry i).ptr = i)
    (l : List ℕ) (stop stop' : ℕ) :
    setLastLength (closed entry stop l) stop' = closed entry stop' l := by
  induction l using List.reverseRecOn with
  | nil => rfl
  | append_singleton l i _ =>
      rw [closed_snoc, setLastLength_snoc, closed_snoc]
      simp only [hptr]

/-- The entries go without a gap up to the end. -/
def Tiles (stop : ℕ) : List NalHeader → Prop
  | [] => True
  | [e] => e.ptr + e.lengthBytes = stop
  | e :: e' :: rest => e.ptr + e.lengthBytes = e'.ptr ∧ Tiles stop (e' :: rest)

theorem tiles_closed {entry : ℕ → NalHeader} (hptr : ∀ i, (entry i).ptr = i) {stop : ℕ}
    {l : List ℕ} (hsorted : l.Pairwise (· < ·)) (hstop : ∀ i ∈ l, i ≤ stop) :
    Tiles stop (closed entry stop l) := by
  induction l with
  | nil => trivial
  | cons i rest ih =>
      obtain ⟨hlt, hrest⟩ := List.pairwise_cons.mp hsorted
      have htail := ih hrest fun x hx ↦ hstop x (List.mem_cons_of_mem i hx)
      cases rest with
      | nil =>
          change (entry i).ptr + (stop - i) = stop
          rw [hptr]
          exact Nat.add_sub_of_le (hstop i List.mem_cons_self)
      | cons j more =>
          refine ⟨?_, htail⟩
          rw [hptr, hptr]
          exact Nat.add_sub_of_le (hlt j List.mem_cons_self).le

/-- Entries at positions in front of `n`. -/
theorem tiles_filter_range {entry : ℕ → NalHeader} (hptr : ∀ i, (entry i).ptr = i) {n stop : ℕ}
    (hn : n ≤ stop) (p : ℕ → Bool) : Tiles stop (closed entry stop ((List.range n).filter p)) := by
  apply tiles_closed hptr (List.pairwise_lt_range.filter p)
  intro i hi
  exact (List.mem_range.mp (List.mem_of_mem_filter hi)).le.trans hn

theorem map_ptr_closed {entry : ℕ → NalHeader} (hptr : ∀ i, (entry i).ptr = i) {stop : ℕ}
    (l : List ℕ) : (closed entry stop l).map NalHeader.ptr = l := by
  induction l with
  | nil => rfl
  | cons i rest ih => rw [closed, List.map_cons, ih, hptr]

theorem exists_of_mem_closed {entry : ℕ → NalHeader} {stop : ℕ} {l : List ℕ} {e : NalHeader}
    (h : e ∈ closed entry stop l) :
    ∃ i ∈ l, ∃ n, e = { entry i with lengthBytes := n } := by
  induction l with
  | nil => cases h
  | cons i rest ih =>
      rcases List.mem_cons.mp h with rfl | hrest
      · exact ⟨i, List.mem_cons_self, _, rfl⟩
      · obtain ⟨j, hj, hn⟩ := ih hrest
        exact ⟨j, List.mem_cons_of_mem i hj, hn⟩

/-! ## The loop over start codes -/

def h264NalTypeAt (buf : List UInt8) (i : ℕ) : ℕ := (buf.getD (i + 3) 0 &&& 0x1f).toNat

def h264Entry (buf : List UInt8) (i : ℕ) : NalHeader :=
  ⟨i, 0, h264NalTypeAt buf i, h264NalsLookupName (h264NalTypeAt buf i)⟩

/-- From a position on, the loop comes to a start code with nothing behind it. -/
def EndsFrom (buf : List UInt8) (p : ℕ) : Prop :=
  p + 3 < buf.length ∧ StartCodeAt buf (buf.length - 3) ∧
    ¬(p + 6 ≤ buf.length ∧ StartCodeAt buf (buf.length - 6))

def FollowedAt (buf : List UInt8) (i : ℕ) : Prop := StartCodeAt buf i ∧ i + 3 < buf.length

instance (buf : List UInt8) : DecidablePred (FollowedAt buf) :=
  fun _ ↦ inferInstanceAs (Decidable (_ ∧ _))

theorem search_spec (buf : List UInt8) (p : ℕ) :
    ∃ r, ltnMemmem (buf.drop p) startCode = some r ∧
      FirstFrom (StartCodeAt buf) p (r.map (p + ·)) := by
  obtain ⟨r, hr, hfirst⟩ := @ltnMemmem_spec startCode (by decide) (buf.drop p)
  have hdrop : OccursAt startCode (buf.drop p) = fun i ↦ StartCodeAt buf (p + i) :=
    funext fun i ↦ propext occursAt_drop
  exact ⟨r, hr, FirstFrom.shift (hdrop ▸ hfirst)⟩

/-- Behind a start code that is followed by a byte, the same end is ahead. -/
theorem endsFrom_next {buf : List UInt8} {p i : ℕ} (h : FirstFrom (StartCodeAt buf) p (some i))
    (hi : i + 3 < buf.length) : EndsFrom buf (i + 3) ↔ EndsFrom buf p := by
  obtain ⟨hp, hcode, hfirst⟩ := h
  unfold EndsFrom
  constructor
  · rintro ⟨hlen, hlast, hno⟩
    refine ⟨by omega, hlast, fun ⟨hlen', hbefore⟩ ↦ hno ⟨?_, hbefore⟩⟩
    have hnear := hcode.apart hbefore (by omega)
    omega
  · rintro ⟨hlen, hlast, hno⟩
    have hnear := hcode.apart hlast (by omega)
    refine ⟨?_, hlast, fun ⟨hlen', hbefore⟩ ↦ hno ⟨by omega, hbefore⟩⟩
    by_contra hshort
    refine hno ⟨by omega, ?_⟩
    rwa [show buf.length - 6 = i by omega]

/-- A round that finds a start code followed by a byte adds its entry. -/
theorem h264HeadersLoop_found {buf : List UInt8} {fuel p maxitems stop k : ℕ} {l : List ℕ}
    (hin : p + 3 < buf.length) (hfound : ltnMemmem (buf.drop p) startCode = some (some k))
    (hi : p + k + 3 < buf.length) (hroom : l.length ≤ maxitems) (hpos : 0 < maxitems) :
    ∃ maxitems', (l ++ [p + k]).length ≤ maxitems' ∧ 0 < maxitems' ∧
      h264HeadersLoop buf (fuel + 1) p maxitems (closed (h264Entry buf) stop l) =
        h264HeadersLoop buf fuel (p + k + 3) maxitems'
          (closed (h264Entry buf) (p + k) (l ++ [p + k])) := by
  have hgrown : l.length < if l.length ≥ maxitems then maxitems * 2 else maxitems := by
    split_ifs <;> omega
  refine ⟨_, ?_, Nat.zero_lt_of_lt hgrown, ?_⟩
  · rw [List.length_append, List.length_singleton]
    exact hgrown
  · rw [h264HeadersLoop, if_pos hin, hfound]
    simp only [List.getElem?_eq_getElem hi, length_closed, if_pos hgrown]
    rw [setLastLength_closed fun _ ↦ rfl, closed_snoc, Nat.sub_self]
    simp only [h264Entry, h264NalTypeAt, List.getD_eq_getElem?_getD, List.getElem?_eq_getElem hi,
      Option.getD_some]

/-- The loop collects the start codes that are followed by a byte, unless it reads behind
the buffer. -/
theorem h264HeadersLoop_spec (buf : List UInt8) (fuel : ℕ) :
    ∀ {p maxitems stop : ℕ} {l : List ℕ}, p ≤ buf.length → buf.length < fuel + p →
      l.length ≤ maxitems → 0 < maxitems →
      (EndsFrom buf p →
        h264HeadersLoop buf fuel p maxitems (closed (h264Entry buf) stop l) = none) ∧
      (¬EndsFrom buf p → ∃ l' stop',
        h264HeadersLoop buf fuel p maxitems (closed (h264Entry buf) stop l) =
          some (closed (h264Entry buf) stop' (l ++ l')) ∧ Visits (FollowedAt buf) p l') := by
  induction fuel with
  | zero =>
      intro p maxitems stop l hp hfuel
      omega
  | succ fuel ih =>
      intro p maxitems stop l hp hfuel hroom hpos
      by_cases hin : p + 3 < buf.length
      · obtain ⟨r, hr, hfirst⟩ := search_spec buf p
        cases r with
        | none =>
            have hnone : ∀ x, p ≤ x → ¬StartCodeAt buf x := hfirst
            refine ⟨fun hends ↦ absurd hends.2.1 (hnone _ (by omega)), fun _ ↦ ⟨[], stop, ?_, ?_⟩⟩
            · rw [h264HeadersLoop, if_pos hin, hr, List.append_nil]
            · exact .done fun x hx hcode ↦ hnone x hx hcode.1
        | some k =>
            replace hfirst : FirstFrom (StartCodeAt buf) p (some (p + k)) := hfirst
            have hcode := hfirst.2.1
            have hle := hcode.add_three_le
            by_cases hi : p + k + 3 < buf.length
            · obtain ⟨maxitems', hroom', hpos', hstep⟩ :=
                @h264HeadersLoop_found buf fuel p maxitems stop k l hin hr hi hroom hpos
              obtain ⟨hnone, hsome⟩ := @ih (p + k + 3) maxitems' (p + k) (l ++ [p + k]) hi.le
                (by omega) hroom' hpos'
              rw [hstep, ← endsFrom_next hfirst hi]
              refine ⟨hnone, fun hends ↦ ?_⟩
              obtain ⟨l', stop', hloop, hvisits⟩ := hsome hends
              refine ⟨(p + k) :: l', stop', ?_, .found ?_ ?_ ?_ hvisits⟩
              · rw [hloop, ← List.append_cons]
              · exact ⟨hfirst.1, ⟨hcode, hi⟩, fun x hx hlt h ↦ hfirst.2.2 x hx hlt h.1⟩
              · omega
              · intro x hx hlt h
                have hapart := hcode.apart h.1 hx
                omega
            · have hends : EndsFrom buf p := by
                refine ⟨hin, ?_, fun ⟨hlen, hbefore⟩ ↦ ?_⟩
                · rwa [show buf.length - 3 = p + k by omega]
                · exact hfirst.2.2 _ (by omega) (by omega) hbefore
              refine ⟨fun _ ↦ ?_, fun h ↦ absurd hends h⟩
              rw [h264HeadersLoop, if_pos hin, hr]
              simp only [List.getElem?_eq_none (by omega : buf.length ≤ p + k + 3)]
      · refine ⟨fun hends ↦ absurd hends.1 hin, fun _ ↦ ⟨[], stop, ?_, ?_⟩⟩
        · rw [h264HeadersLoop, if_neg hin, List.append_nil]
        · refine .done fun x hx h ↦ ?_
          have hlt := h.2
          omega

/-- The scanner reads behind the buffer when that ends with a start code, and else
returns the start codes that are followed by a byte, each up to the next one. -/
theorem ltnNalH264FindHeaders_eq (buf : List UInt8) :
    (EndsOnStartCode buf → ltnNalH264FindHeaders buf = none) ∧
      (¬EndsOnStartCode buf → ltnNalH264FindHeaders buf =
        some (closed (h264Entry buf) buf.length (startCodes buf))) := by
  have hends : EndsFrom buf 0 ↔ EndsOnStartCode buf := by
    rw [EndsFrom, EndsOnStartCode, Nat.zero_add, Nat.zero_add]
  obtain ⟨hnone, hsome⟩ := @h264HeadersLoop_spec buf (buf.length + 1) 0 64 0 [] (Nat.zero_le _)
    (Nat.lt_succ_self _) (Nat.zero_le _) (by norm_num)
  rw [← hends, ltnNalH264FindHeaders]
  refine ⟨fun h ↦ by rw [← closed, hnone h]; rfl, fun h ↦ ?_⟩
  obtain ⟨l, stop, hloop, hvisits⟩ := hsome h
  have hl : l = startCodes buf := by
    rw [hvisits.eq_filter (n := buf.length - 3) fun x hx ↦ Nat.lt_sub_of_add_lt hx.2, startCodes]
    refine List.filter_congr fun x hx ↦ ?_
    have hlt := List.mem_range.mp hx
    rw [decide_eq_decide]
    exact and_iff_left (by omega)
  rw [← closed, hloop, Option.map_some, setLastLength_closed fun _ ↦ rfl, List.nil_append, hl]

theorem length_h264Nals : h264Nals.length = 22 := by decide

theorem mem_startCodes {buf : List UInt8} {i : ℕ} : i ∈ startCodes buf ↔ FollowedAt buf i := by
  rw [startCodes, List.mem_filter, List.mem_range, decide_eq_true_iff, FollowedAt, and_comm]
  exact and_congr_right fun _ ↦ Nat.lt_sub_iff_add_lt

/-- There is an entry for every start code that is followed by a byte, in order; the
entries go up to the end without a gap, and have the types and names of their NALs. -/
def SplitsExact (buf : List UInt8) : Prop :=
  ∃ entries, ltnNalH264FindHeaders buf = some entries ∧
    entries.map NalHeader.ptr = startCodes buf ∧ Tiles buf.length entries ∧
    ∀ e ∈ entries, e.nalType = h264NalTypeAt buf e.ptr ∧ e.nalType < h264Nals.length

theorem tiles_startCodes (buf : List UInt8) :
    Tiles buf.length (closed (h264Entry buf) buf.length (startCodes buf)) :=
  tiles_filter_range (fun _ ↦ rfl) (Nat.sub_le _ _) _

/-- A buffer is split right exactly when it does not end with a start code and all of its
NALs have types that are named. -/
theorem splitsExact_iff (buf : List UInt8) :
    SplitsExact buf ↔
      ¬EndsOnStartCode buf ∧ ∀ i ∈ startCodes buf, h264NalTypeAt buf i < 22 := by
  obtain ⟨hnone, hsome⟩ := ltnNalH264FindHeaders_eq buf
  have hptr : ∀ i, (h264Entry buf i).ptr = i := fun _ ↦ rfl
  constructor
  · rintro ⟨entries, hfound, hptrs, -, htypes⟩
    have hends : ¬EndsOnStartCode buf := fun h ↦ by simp [hnone h] at hfound
    refine ⟨hends, fun i hi ↦ ?_⟩
    rw [← hptrs] at hi
    obtain ⟨e, he, rfl⟩ := List.mem_map.mp hi
    obtain ⟨htype, hlt⟩ := htypes e he
    rwa [htype, length_h264Nals] at hlt
  · rintro ⟨hends, htypes⟩
    refine ⟨_, hsome hends, map_ptr_closed hptr _, tiles_startCodes buf, fun e he ↦ ?_⟩
    obtain ⟨i, hi, n, rfl⟩ := exists_of_mem_closed he
    exact ⟨rfl, length_h264Nals ▸ htypes i hi⟩

/-- A start code at the end is read beyond, and a NAL of type 31 has no place in the
table. -/
theorem split_fails :
    ¬SplitsExact [0x42, 0, 0, 1] ∧ ¬SplitsExact [0, 0, 1, 0x1f] := by
  have hend : ltnNalH264FindHeaders [0x42, 0, 0, 1] = none := by decide
  have htype : ltnNalH264FindHeaders [0, 0, 1, 0x1f] = some [⟨0, 4, 31, none⟩] := by decide
  constructor
  · rintro ⟨entries, hfound, -⟩
    simp [hend] at hfound
  · rintro ⟨entries, hfound, -, -, htypes⟩
    obtain rfl := Option.some.inj (htype.symm.trans hfound)
    exact absurd (htypes _ List.mem_cons_self).2 (by decide)

/-! ## One start code at a time -/

def HeaderAt (buf : List UInt8) (i : ℕ) : Prop :=
  FollowedAt buf i ∧ buf.getD (i + 3) 0 &&& 0x80 = 0

instance (buf : List UInt8) : DecidablePred (HeaderAt buf) :=
  fun _ ↦ inferInstanceAs (Decidable (_ ∧ _))

theorem startCodeAt_iff {buf : List UInt8} {i : ℕ} :
    (buf.drop i).take 3 = startCode ↔ StartCodeAt buf i := by
  rw [StartCodeAt, OccursAt, List.prefix_iff_eq_take]
  exact eq_comm

theorem findHeaderLoop_spec (buf : List UInt8) (fuel : ℕ) : ∀ i, buf.length ≤ fuel + i →
    FirstFrom (HeaderAt buf) i (findHeaderLoop buf fuel i) := by
  induction fuel with
  | zero =>
      intro i hfuel x hx h
      have hlt := h.1.2
      omega
  | succ fuel ih =>
      intro i hfuel
      have hnext : ¬HeaderAt buf i → FirstFrom (HeaderAt buf) i (findHeaderLoop buf fuel (i + 1)) :=
        fun h ↦ (ih (i + 1) (by omega)).skip (Nat.le_succ i) fun x hx hlt ↦ by
          rwa [show x = i by omega]
      rw [findHeaderLoop]
      split_ifs with hin hcode hbit
      · exact hnext fun h ↦ hbit h.2
      · refine ⟨le_rfl, ⟨⟨startCodeAt_iff.mp hcode, hin⟩, not_not.mp hbit⟩, fun x hx hlt ↦ ?_⟩
        exact absurd hlt hx.not_gt
      · exact hnext fun h ↦ hcode (startCodeAt_iff.mpr h.1.1)
      · intro x hx h
        have hlt := h.1.2
        omega

theorem findHeader_spec (buf : List UInt8) (offset : ℤ) :
    FirstFrom (HeaderAt buf) (offset + 1).toNat (findHeader buf offset) :=
  findHeaderLoop_spec buf buf.length _ (Nat.le_add_right _ _)

/-- A scanner that is called again and again visits all positions. -/
theorem scanFrom_visits {P : ℕ → Prop} {find : ℤ → Option ℕ} {n : ℕ}
    (hfind : ∀ offset, FirstFrom P (offset + 1).toNat (find offset)) (hn : ∀ x, P x → x < n)
    (fuel : ℕ) : ∀ offset, n ≤ fuel + (offset + 1).toNat →
      Visits P (offset + 1).toNat (scanFrom find fuel offset) := by
  induction fuel with
  | zero =>
      refine fun offset hfuel ↦ .done fun x hx hP ↦ ?_
      have hlt := hn x hP
      omega
  | succ fuel ih =>
      intro offset hfuel
      have hfirst := hfind offset
      rw [scanFrom]
      cases hres : find offset with
      | none => exact .done (hres ▸ hfirst)
      | some i =>
          rw [hres] at hfirst
          have hle := hfirst.1
          refine .found hfirst (Nat.lt_succ_self i) (fun x hx hlt ↦ ?_) (ih i (by omega))
          exact absurd (Nat.le_of_lt_succ hlt) hx.not_ge

def visitedOffsets (buf : List UInt8) : List ℕ :=
  scanFrom (ltnNalH264FindHeader buf) buf.length (-1)

/-- Where every start code is followed by a byte without the forbidden bit, the two
scanners visit the same offsets. -/
theorem scanners_agree (buf : List UInt8)
    (hcodes : ∀ i, StartCodeAt buf i → i + 3 < buf.length ∧ buf.getD (i + 3) 0 &&& 0x80 = 0) :
    ∃ entries, ltnNalH264FindHeaders buf = some entries ∧
      visitedOffsets buf = entries.map NalHeader.ptr := by
  have hends : ¬EndsOnStartCode buf := by
    rintro ⟨hlen, hlast, -⟩
    have hlt := (hcodes _ hlast).1
    omega
  refine ⟨_, (ltnNalH264FindHeaders_eq buf).2 hends, ?_⟩
  rw [map_ptr_closed fun _ ↦ rfl]
  have hbound : ∀ x, HeaderAt buf x → x < buf.length - 3 := fun x h ↦ Nat.lt_sub_of_add_lt h.1.2
  have hvisits := scanFrom_visits (findHeader_spec buf) hbound buf.length (-1) (by omega)
  rw [visitedOffsets]
  refine (hvisits.eq_filter hbound).trans (List.filter_congr fun x _ ↦ ?_)
  rw [decide_eq_decide]
  exact ⟨fun h ↦ h.1.1, fun h ↦ ⟨⟨h, (hcodes x h).1⟩, (hcodes x h).2⟩⟩

theorem scanners_agree_two :
    ∃ entries, ltnNalH264FindHeaders [0, 0, 1, 9, 0, 0, 1, 0x65] = some entries ∧
      visitedOffsets [0, 0, 1, 9, 0, 0, 1, 0x65] = entries.map NalHeader.ptr := by
  refine scanners_agree _ fun i h ↦ ?_
  have hle : i + 3 ≤ 8 := h.add_three_le
  have hi : i ≤ 5 := by omega
  interval_cases i
  all_goals first | decide | exact absurd h (by decide)

end LtnTsTools.Nal
