import LtnTsTools.BitParser

/-!
# AC-3 headers

The header parser of `ac3.c`.  A buffer of less than 22 bytes is refused and nothing else is
checked: behind that, the flags of the header say how many bits are read.
-/

namespace LtnTsTools.Ac3

open BitReader BitParser

/-- `struct ltn_ac3_header_syncinfo_s`. -/
structure Syncinfo where
  syncword : ℕ
  crc1 : ℕ
  fscod : ℕ
  frmsizecod : ℕ

/-- `struct ltn_ac3_header_bsi_s`. -/
structure Bsi where
  bsid : ℕ
  bsmod : ℕ
  acmod : ℕ
  acmodNfchans : ℕ
  cmixlev : ℕ
  surmixlev : ℕ
  dsurmod : ℕ
  lfeon : ℕ
  dialnorm : ℤ
  compre : ℕ
  compr : ℕ
  langcode : ℕ
  langcod : ℕ
  audprodie : ℕ
  mixlevel : ℕ
  roomtyp : ℕ
  dialnorm2 : ℤ
  compr2e : ℕ
  compr2 : ℕ
  langcod2e : ℕ
  langcod2 : ℕ
  audprodi2e : ℕ
  mixlevel2 : ℕ
  roomtyp2 : ℕ
  copyrightb : ℕ
  origbs : ℕ
  timecod1e : ℕ
  timecod1 : ℕ
  timecod2e : ℕ
  timecod2 : ℕ
  addbsie : ℕ
  addbsil : ℕ
  addbsi : Fin 64 → ℕ
  xbsi1e : ℕ
  dmixmod : ℕ
  ltrtcmixlev : ℕ
  ltrtsurmixlev : ℕ
  lorocmixlev : ℕ
  lorosurmixlev : ℕ
  xbsi2e : ℕ
  dsurexmod : ℕ
  dheadphonmod : ℕ
  adconvtyp : ℕ
  xbsi2 : ℕ
  encinfo : ℕ

/-- `struct ltn_ac3_header_audioblk_s`. -/
structure Audioblk where
  blksw : Fin 8 → ℕ
  dithflag : Fin 8 → ℕ
  dynrnge : ℕ
  dynrng : ℕ

/-- `struct ltn_ac3_header_syncframe_s`. -/
structure Syncframe where
  syncinfo : Syncinfo
  bsi : Bsi
  audioblk : Fin 6 → Audioblk

/-! ## The parser -/

/-- `syncinfo()`. -/
def parseSyncinfo : Syncinfo → Parser Syncinfo :=
  field 16 (fun s v ↦ { s with syncword := v }) >=>
  field 16 (fun s v ↦ { s with crc1 := v }) >=>
  field 2 (fun s v ↦ { s with fscod := v }) >=>
  field 6 (fun s v ↦ { s with frmsizecod := v })

/-- The table `nfchans`. -/
def nfchans (acmod : ℕ) : ℕ := [2, 1, 2, 3, 3, 4, 4, 5].getD acmod 0

/-- The fields in front of the mixing levels. -/
def parseMode : Bsi → Parser Bsi :=
  field 5 (fun b v ↦ { b with bsid := v }) >=>
  field 3 (fun b v ↦ { b with bsmod := v }) >=>
  field 3 (fun b v ↦
    { b with acmod := v, cmixlev := 0, surmixlev := 0, dsurmod := 0, acmodNfchans := nfchans v })

def hasThreeFronts (acmod : ℕ) : Prop := acmod &&& 0x1 ≠ 0 ∧ acmod ≠ 0x1

instance (acmod : ℕ) : Decidable (hasThreeFronts acmod) := inferInstanceAs (Decidable (_ ∧ _))

def parseLevels : Bsi → Parser Bsi :=
  whenever (fun b ↦ hasThreeFronts b.acmod) (field 2 fun b v ↦ { b with cmixlev := v }) >=>
  whenever (fun b ↦ b.acmod &&& 0x4 ≠ 0) (field 2 fun b v ↦ { b with surmixlev := v }) >=>
  whenever (fun b ↦ b.acmod = 0x2) (field 2 fun b v ↦ { b with dsurmod := v })

def parseService : Bsi → Parser Bsi :=
  field 1 (fun b v ↦ { b with lfeon := v }) >=>
  field 5 (fun b v ↦ { b with dialnorm := v * -1 }) >=>
  flagged (fun b v ↦ { b with compre := v, compr := 0 })
    (field 8 fun b v ↦ { b with compr := v }) >=>
  flagged (fun b v ↦ { b with langcode := v }) (field 8 fun b v ↦ { b with langcod := v }) >=>
  flagged (fun b v ↦ { b with audprodie := v })
    (field 5 (fun b v ↦ { b with mixlevel := v }) >=>
      field 2 (fun b v ↦ { b with roomtyp := v }))

/-- The fields of the second service of 1 + 1. -/
def parseService2 : Bsi → Parser Bsi :=
  field 5 (fun b v ↦ { b with dialnorm2 := v * -1 }) >=>
  flagged (fun b v ↦ { b with compr2e := v }) (field 8 fun b v ↦ { b with compr2 := v }) >=>
  flagged (fun b v ↦ { b with langcod2e := v }) (field 8 fun b v ↦ { b with langcod2 := v }) >=>
  flagged (fun b v ↦ { b with audprodi2e := v })
    (field 5 (fun b v ↦ { b with mixlevel2 := v }) >=>
      field 2 (fun b v ↦ { b with roomtyp2 := v }))

def parseTimecodes : Bsi → Parser Bsi :=
  flagged (fun b v ↦ { b with timecod1e := v }) (field 14 fun b v ↦ { b with timecod1 := v }) >=>
  flagged (fun b v ↦ { b with timecod2e := v }) (field 14 fun b v ↦ { b with timecod2 := v })

def parseXbsi : Bsi → Parser Bsi :=
  flagged (fun b v ↦ { b with xbsi1e := v })
    (field 2 (fun b v ↦ { b with dmixmod := v }) >=>
      field 3 (fun b v ↦ { b with ltrtcmixlev := v }) >=>
      field 3 (fun b v ↦ { b with ltrtsurmixlev := v }) >=>
      field 3 (fun b v ↦ { b with lorocmixlev := v }) >=>
      field 3 (fun b v ↦ { b with lorosurmixlev := v })) >=>
  flagged (fun b v ↦ { b with xbsi2e := v })
    (field 2 (fun b v ↦ { b with dsurexmod := v }) >=>
      field 2 (fun b v ↦ { b with dheadphonmod := v }) >=>
      field 1 (fun b v ↦ { b with adconvtyp := v }) >=>
      field 8 (fun b v ↦ { b with xbsi2 := v }) >=>
      field 1 (fun b v ↦ { b with encinfo := v }))

def parseAddbsiBytes (b : Bsi) : Parser Bsi :=
  (List.range (b.addbsil + 1)).foldlM (element 8 Bsi.addbsi fun b a ↦ { b with addbsi := a }) b

def parseAddbsi : Bsi → Parser Bsi :=
  flagged (fun b v ↦ { b with addbsil := 0, addbsie := v })
    (field 6 (fun b v ↦ { b with addbsil := v }) >=> parseAddbsiBytes)

/-- `bsi()`. -/
def parseBsi : Bsi → Parser Bsi :=
  parseMode >=> parseLevels >=> parseService >=>
  whenever (fun b ↦ b.acmod = 0) parseService2 >=>
  field 1 (fun b v ↦ { b with copyrightb := v }) >=>
  field 1 (fun b v ↦ { b with origbs := v }) >=>
  whenever (fun b ↦ b.bsid = 8) parseTimecodes >=>
  whenever (fun b ↦ b.bsid = 6) parseXbsi >=>
  parseAddbsi

/-- An audio block of `n` channels. -/
def parseAudioblk (n : ℕ) : Audioblk → Parser Audioblk :=
  (fun b ↦ (List.range n).foldlM (element 1 Audioblk.blksw fun b a ↦ { b with blksw := a }) b) >=>
  (fun b ↦ (List.range n).foldlM
    (element 1 Audioblk.dithflag fun b a ↦ { b with dithflag := a }) b) >=>
  flagged (fun b v ↦ { b with dynrnge := v }) (field 8 fun b v ↦ { b with dynrng := v })

def parseAudioblks (n : ℕ) (blks : Fin 6 → Audioblk) : Parser (Fin 6 → Audioblk) :=
  (List.finRange 6).foldlM
    (fun blks i ↦ do return Function.update blks i (← parseAudioblk n (blks i))) blks

def parseSyncframe (sf : Syncframe) : Parser Syncframe := do
  let syncinfo ← parseSyncinfo sf.syncinfo
  let bsi ← parseBsi sf.bsi
  let audioblk ← parseAudioblks bsi.acmodNfchans sf.audioblk
  return ⟨syncinfo, bsi, audioblk⟩

/-- `ltntstools_ac3_header_parse`: the result, what is found in `sf`, and the reader; none if
an element outside of an array is written. -/
def ltntstoolsAc3HeaderParse (sf : Syncframe) (buf : List UInt8) : Option (ℤ × Syncframe × Klbs) :=
  let bs := klbsReadSetBuffer buf
  if buf.length < 8 + 14 then some (-1, sf, bs)
  else (parseSyncframe sf bs).map fun r ↦ (0, r.1, r.2)

/-! ## Where the header ends -/

/-- The fields of the mode, which the parser has found in front of the others. -/
def Announces (buf : List UInt8) (b : Bsi) : Prop :=
  b.bsid = fieldAt buf 40 5 ∧ b.acmod = fieldAt buf 48 3 ∧
    b.acmodNfchans = nfchans (fieldAt buf 48 3)

def levelsEnd (buf : List UInt8) (p : ℕ) : ℕ :=
  let p := if hasThreeFronts (fieldAt buf 48 3) then p + 2 else p
  let p := if fieldAt buf 48 3 &&& 0x4 ≠ 0 then p + 2 else p
  if fieldAt buf 48 3 = 0x2 then p + 2 else p

/-- Behind the three flags of a service and what they announce. -/
def serviceEnd (buf : List UInt8) (p : ℕ) : ℕ :=
  behindFlag buf 7 (behindFlag buf 8 (behindFlag buf 8 p))

/-- Behind the two flags of either syntax and what they announce. -/
def syntaxEnd (buf : List UInt8) (p : ℕ) : ℕ := behindFlag buf 14 (behindFlag buf 14 p)

/-- Behind the additional information, the length of which follows its flag. -/
def addbsiEnd (buf : List UInt8) (p : ℕ) : ℕ :=
  behindFlag buf (6 + 8 * (fieldAt buf (p + 1) 6 + 1)) p

def bsiEnd (buf : List UInt8) : ℕ :=
  let p := serviceEnd buf (levelsEnd buf 51 + 6)
  let p := if fieldAt buf 48 3 = 0 then serviceEnd buf (p + 5) else p
  let p := if fieldAt buf 40 5 = 8 then syntaxEnd buf (p + 2) else p + 2
  let p := if fieldAt buf 40 5 = 6 then syntaxEnd buf p else p
  addbsiEnd buf p

def audioblkEnd (buf : List UInt8) (p : ℕ) : ℕ :=
  behindFlag buf 8 (p + 2 * nfchans (fieldAt buf 48 3))

def headerEnd (buf : List UInt8) : ℕ := (audioblkEnd buf)^[6] (bsiEnd buf)

section Ends

variable {buf : List UInt8} {p : ℕ}

theorem parseSyncinfo_keeps : Keeps buf (fun _ ↦ True) 0 40 parseSyncinfo := by
  unfold parseSyncinfo
  exact .comp (keeps_field fun _ _ h ↦ h) <| .comp (keeps_field fun _ _ h ↦ h) <|
    .comp (keeps_field fun _ _ h ↦ h) (keeps_field fun _ _ h ↦ h)

theorem parseMode_leads (b : Bsi) : Leads buf 40 51 (Announces buf) (parseMode b) := by
  refine (leads_field (Q := fun b ↦ b.bsid = fieldAt buf 40 5) rfl).bind fun b hbsid ↦ ?_
  refine (leads_field (Q := fun b ↦ b.bsid = fieldAt buf 40 5) hbsid).bind fun b hbsid ↦ ?_
  exact leads_field ⟨hbsid, rfl, rfl⟩

theorem level_keeps {c : ℕ → Prop} [DecidablePred c] {set : Bsi → ℕ → Bsi}
    (hset : ∀ b v, Announces buf b → Announces buf (set b v)) :
    Keeps buf (Announces buf) p (if c (fieldAt buf 48 3) then p + 2 else p)
      (whenever (fun b ↦ c b.acmod) (field 2 set)) :=
  keeps_whenever (fun b hb ↦ by rw [hb.2.1]) fun _ ↦ keeps_field hset

theorem parseLevels_keeps : Keeps buf (Announces buf) p (levelsEnd buf p) parseLevels := by
  unfold parseLevels levelsEnd
  exact .comp (level_keeps fun _ _ h ↦ h) <|
    .comp (level_keeps (c := fun acmod ↦ acmod &&& 0x4 ≠ 0) fun _ _ h ↦ h)
      (level_keeps (c := fun acmod ↦ acmod = 0x2) fun _ _ h ↦ h)

theorem parseService_keeps :
    Keeps buf (Announces buf) p (serviceEnd buf (p + 6)) parseService := by
  unfold parseService serviceEnd
  exact .comp (keeps_field fun _ _ h ↦ h) <| .comp (keeps_field fun _ _ h ↦ h) <|
    .comp (keeps_flagged (fun _ _ h ↦ h) (keeps_field fun _ _ h ↦ h)) <|
    .comp (keeps_flagged (fun _ _ h ↦ h) (keeps_field fun _ _ h ↦ h)) <|
    keeps_flagged (fun _ _ h ↦ h) <|
      .comp (keeps_field fun _ _ h ↦ h) (keeps_field fun _ _ h ↦ h)

theorem parseService2_keeps :
    Keeps buf (Announces buf) p (serviceEnd buf (p + 5)) parseService2 := by
  unfold parseService2 serviceEnd
  exact .comp (keeps_field fun _ _ h ↦ h) <|
    .comp (keeps_flagged (fun _ _ h ↦ h) (keeps_field fun _ _ h ↦ h)) <|
    .comp (keeps_flagged (fun _ _ h ↦ h) (keeps_field fun _ _ h ↦ h)) <|
    keeps_flagged (fun _ _ h ↦ h) <|
      .comp (keeps_field fun _ _ h ↦ h) (keeps_field fun _ _ h ↦ h)

theorem parseTimecodes_keeps :
    Keeps buf (Announces buf) p (syntaxEnd buf p) parseTimecodes := by
  unfold parseTimecodes syntaxEnd
  exact .comp (keeps_flagged (fun _ _ h ↦ h) (keeps_field fun _ _ h ↦ h)) <|
    keeps_flagged (fun _ _ h ↦ h) (keeps_field fun _ _ h ↦ h)

theorem parseXbsi_keeps : Keeps buf (Announces buf) p (syntaxEnd buf p) parseXbsi := by
  unfold parseXbsi syntaxEnd
  refine .comp (keeps_flagged (fun _ _ h ↦ h) ?_) (keeps_flagged (fun _ _ h ↦ h) ?_)
  · exact .comp (keeps_field fun _ _ h ↦ h) <| .comp (keeps_field fun _ _ h ↦ h) <|
      .comp (keeps_field fun _ _ h ↦ h) <| .comp (keeps_field fun _ _ h ↦ h) <|
      keeps_field fun _ _ h ↦ h
  · exact .comp (keeps_field fun _ _ h ↦ h) <| .comp (keeps_field fun _ _ h ↦ h) <|
      .comp (keeps_field fun _ _ h ↦ h) <| .comp (keeps_field fun _ _ h ↦ h) <|
      keeps_field fun _ _ h ↦ h

theorem parseAddbsi_keeps : Keeps buf (Announces buf) p (addbsiEnd buf p) parseAddbsi := by
  unfold parseAddbsi addbsiEnd
  refine keeps_flagged (fun _ _ h ↦ h) fun b hb ↦ ?_
  have hlength : ∀ b' : Bsi, Announces buf b' ∧ b'.addbsil = fieldAt buf (p + 1) 6 →
      Leads buf (p + 1 + 6) (p + 1 + (6 + 8 * (fieldAt buf (p + 1) 6 + 1))) (Announces buf)
        (parseAddbsiBytes b') := by
    rintro b' ⟨hb', hl⟩
    have hlt := fieldAt_lt buf (p + 1) 6
    rw [parseAddbsiBytes, hl, ← Nat.add_assoc (p + 1) 6]
    have hloop : Keeps buf (Announces buf) (p + 1 + 6)
        (p + 1 + 6 + 8 * (fieldAt buf (p + 1) 6 + 1)) fun b ↦
          (List.range (fieldAt buf (p + 1) 6 + 1)).foldlM
            (element 8 Bsi.addbsi fun b a ↦ { b with addbsi := a }) b :=
      keeps_elements (Nat.succ_le_of_lt hlt) fun _ _ h ↦ h
    exact hloop b' hb'
  exact (leads_field ⟨hb, rfl⟩).bind hlength

theorem parseBsi_leads (b : Bsi) : Leads buf 40 (bsiEnd buf) (Announces buf) (parseBsi b) := by
  unfold parseBsi bsiEnd
  refine (parseMode_leads b).bind ?_
  change Keeps buf (Announces buf) 51 _ (parseLevels >=> _)
  exact .comp parseLevels_keeps <| .comp parseService_keeps <|
    .comp (keeps_whenever (fun b hb ↦ by rw [hb.2.1]) fun _ ↦ parseService2_keeps) <|
    .comp (keeps_field fun _ _ h ↦ h) <| .comp (keeps_field fun _ _ h ↦ h) <|
    .comp (keeps_whenever (fun b hb ↦ by rw [hb.1]) fun _ ↦ parseTimecodes_keeps) <|
    .comp (keeps_whenever (fun b hb ↦ by rw [hb.1]) fun _ ↦ parseXbsi_keeps) parseAddbsi_keeps

theorem parseAudioblk_keeps (n : ℕ) (hn : n ≤ 8) :
    Keeps buf (fun _ ↦ True) p (behindFlag buf 8 (p + 2 * n)) (parseAudioblk n) := by
  rw [show p + 2 * n = p + 1 * n + 1 * n by ring]
  unfold parseAudioblk
  exact .comp (keeps_elements hn fun _ _ h ↦ h) <| .comp (keeps_elements hn fun _ _ h ↦ h) <|
    keeps_flagged (fun _ _ h ↦ h) (keeps_field fun _ _ h ↦ h)

theorem nfchans_le (acmod : ℕ) : nfchans acmod ≤ 5 := by
  by_cases hlt : acmod < 8
  · interval_cases acmod <;> decide
  · simp [nfchans, List.getD_eq_getElem?_getD, not_lt.mp hlt]

theorem parseAudioblks_leads (blks : Fin 6 → Audioblk) :
    Leads buf p ((audioblkEnd buf)^[6] p) (fun _ ↦ True)
      (parseAudioblks (nfchans (fieldAt buf 48 3)) blks) := by
  have hn := (nfchans_le (fieldAt buf 48 3)).trans (by norm_num : 5 ≤ 8)
  have hblk : ∀ i ∈ List.finRange 6, ∀ p, Keeps buf (fun _ ↦ True) p (audioblkEnd buf p)
      fun blks : Fin 6 → Audioblk ↦ do
        return Function.update blks i (← parseAudioblk (nfchans (fieldAt buf 48 3)) (blks i)) := by
    intro i _ p blks _
    exact (parseAudioblk_keeps _ hn (blks i) trivial).bind fun _ _ ↦ .pure trivial
  exact keeps_foldlM hblk p blks trivial

theorem parseSyncframe_leads (sf : Syncframe) :
    Leads buf 0 (headerEnd buf) (fun _ ↦ True) (parseSyncframe sf) := by
  refine (parseSyncinfo_keeps sf.syncinfo trivial).bind fun _ _ ↦ ?_
  refine (parseBsi_leads sf.bsi).bind fun bsi hbsi ↦ ?_
  rw [hbsi.2.2]
  exact (parseAudioblks_leads sf.audioblk).bind fun _ _ ↦ .pure trivial

/-- No array element outside is written, and the bytes that were read, which are those below
`buflen_used`, lie in the buffer. -/
def StaysInside (sf : Syncframe) (buf : List UInt8) : Prop :=
  ∃ r, ltntstoolsAc3HeaderParse sf buf = some r ∧ r.2.2.buflenUsed ≤ buf.length

/-- All array elements that are written are inside, and the bytes are read up to the end of
the header. -/
theorem parse_reads (sf : Syncframe) (hlen : 22 ≤ buf.length) :
    ∃ sf' bs, ltntstoolsAc3HeaderParse sf buf = some (0, sf', bs) ∧
      (bs.buflenUsed ≤ buf.length ↔ headerEnd buf ≤ 8 * buf.length) := by
  obtain ⟨sf', bs, hrun, hstands, -⟩ := parseSyncframe_leads sf _ (stands_start buf)
  refine ⟨sf', bs, ?_, ?_⟩
  · rw [ltntstoolsAc3HeaderParse, if_neg (not_lt.mpr hlen), hrun, Option.map_some]
  · have hused := hstands.used_eq
    have hreg := hstands.reg_lt
    omega

theorem parse_inside_iff (sf : Syncframe) (hlen : 22 ≤ buf.length) :
    StaysInside sf buf ↔ headerEnd buf ≤ 8 * buf.length := by
  obtain ⟨sf', bs, hparse, hinside⟩ := parse_reads sf hlen
  rw [← hinside]
  constructor
  · rintro ⟨r, hr, hle⟩
    cases hparse.symm.trans hr
    exact hle
  · exact fun hle ↦ ⟨_, hparse, hle⟩

end Ends

/-- For every combination of fields the parser stays inside of its arrays, and it stays in
the buffer exactly when the header, with all that its flags announce, ends there. -/
theorem header_inside_iff (sf : Syncframe) (buf : List UInt8) :
    (ltntstoolsAc3HeaderParse sf buf).isSome ∧
      (StaysInside sf buf ↔ 22 ≤ buf.length → headerEnd buf ≤ 8 * buf.length) := by
  by_cases hlen : 22 ≤ buf.length
  · obtain ⟨sf', bs, hparse, -⟩ := parse_reads sf hlen
    rw [hparse, imp_iff_right hlen]
    exact ⟨rfl, parse_inside_iff sf hlen⟩
  · have hparse : ltntstoolsAc3HeaderParse sf buf = some (-1, sf, klbsReadSetBuffer buf) := by
      rw [ltntstoolsAc3HeaderParse, if_pos (not_le.mp hlen)]
    refine ⟨by rw [hparse]; rfl, iff_of_true ⟨_, hparse, Nat.zero_le _⟩ fun hge ↦ absurd hge hlen⟩

/-- A header of 22 bytes that announces 64 additional ones. -/
def longHeader : List UInt8 :=
  [0x0b, 0x77, 0, 0, 0, 0x40, 0x20, 0, 0xfe] ++ List.replicate 13 0

/-- It is parsed from behind its buffer. -/
theorem longHeader_leaves : longHeader.length = 22 ∧ ∀ sf, ¬StaysInside sf longHeader := by
  have hlen : longHeader.length = 22 := by decide
  refine ⟨hlen, fun sf hin ↦ ?_⟩
  have hend := (parse_inside_iff sf hlen.ge).mp hin
  exact absurd hend (by decide +kernel)

end LtnTsTools.Ac3
