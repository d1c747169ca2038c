import LtnTsTools.CursorEnumeration
import LtnTsTools.PsiTables

/-!
# Enumeration of services

The functions of `pat.c` that return one service of a table after the other, for a cursor that
the caller keeps.  A service is told by its index in the table; `none` is an access behind the
programs of the table.  Memory is always to be had, and of a PID the arrays hold 16 bits.
-/

namespace LtnTsTools.Psi

open CursorEnumeration

/-! ## What streams and descriptors say -/

/-- `ltntstools_is_ESPayloadType_Video`. -/
def isESPayloadTypeVideo (esPayloadType : UInt8) : Bool :=
  esPayloadType ∈ [0x01, 0x02, 0x1B, 0x21, 0x24, 0x25, 0x27, 0x28, 0x29, 0x2A, 0x33, 0xd2, 0xdb]

/-- `ltntstools_is_ESPayloadType_Audio`. -/
def isESPayloadTypeAudio (esPayloadType : UInt8) : Bool :=
  esPayloadType ∈ [0x03, 0x04, 0x07, 0x0F, 0x81, 0xC1, 0xC2, 0xCF]

/-- `ltntstools_descriptor_list_contains_scte35_cue_registration`, for `CUEI`. -/
def containsScte35CueRegistration (list : DescriptorList) : Bool :=
  list.array.any fun d ↦ d.tag = 0x05 ∧ d.data.length = 4 ∧ d.data = [0x43, 0x55, 0x45, 0x49]

/-- `ltntstools_descriptor_list_contains_teletext`. -/
def containsTeletext (list : DescriptorList) : Bool :=
  list.array.any fun d ↦ d.tag = 0x56 ∧ d.data.length = 5

/-- `ltntstools_descriptor_list_contains_smpte2038_registration`, for `SMPTE2038`, `VANC` and
the descriptor without data. -/
def containsSmpte2038Registration (list : DescriptorList) : Bool :=
  list.array.any fun d ↦
    if d.tag = 0xc4 ∧ d.data.length = 9 then
      d.data = [0x53, 0x4D, 0x50, 0x54, 0x45, 0x32, 0x30, 0x33, 0x38]
    else if d.tag = 0x05 ∧ d.data.length = 4 then d.data = [0x56, 0x41, 0x4E, 0x43]
    else d.tag = 0xc4 ∧ d.data.length = 0

/-- `ltntstools_pmt_entry_is_audio`. -/
def pmtEntryIsAudio (se : PmtEntry) : ℕ :=
  if isESPayloadTypeAudio (UInt8.ofNat se.streamType) then 1
  else if se.streamType ≠ 0x06 then 0
  else
    match se.descrList.array.find? (·.tag ∈ [0x03, 0x1c, 0x2b, 0x6a, 0x7a, 0x7c]) with
    | some d => d.tag.toNat
    | none => 0

/-- The PID of a stream as a `uint16_t`. -/
def pid16 (se : PmtEntry) : ℕ := se.elementaryPID % 2 ^ 16

def scte35Pids (program : PatProgram) : List ℕ :=
  (program.pmt.streams.filter (·.streamType = 0x86)).map pid16

def audioStreams (program : PatProgram) : List (ℕ × ℕ) :=
  (program.pmt.streams.filter (pmtEntryIsAudio · ≠ 0)).map fun se ↦ (pid16 se, se.streamType)

/-! ## The functions -/

section

variable {β : Type*}

/-- What a round makes of `programs[j]`. -/
def programAt (pat : Pat) (outcome : PatProgram → Outcome β) (j : ℕ) : Option (Outcome β) :=
  pat.programs[j]?.map outcome

end

/-- A program without the registration moves the cursor, one without PIDs does not. -/
def scte35Outcome (program : PatProgram) : Outcome (List ℕ) :=
  if containsScte35CueRegistration program.pmt.descrList = false then .next
  else if scte35Pids program ≠ [] then .found (scte35Pids program)
  else .stay

/-- `ltntstools_pat_enum_services_scte35`. -/
def patEnumServicesScte35 (pat : Pat) (e : ℕ) : Option (Option (ℕ × List ℕ) × ℕ) :=
  callFromZero (programAt pat scte35Outcome) pat.programs.length e

def audioOutcome (program : PatProgram) : Outcome (List (ℕ × ℕ)) :=
  if audioStreams program ≠ [] then .found (audioStreams program) else .next

/-- `ltntstools_pat_enum_services_audio`. -/
def patEnumServicesAudio (pat : Pat) (e : ℕ) : Option (Option (ℕ × List (ℕ × ℕ)) × ℕ) :=
  callFromZero (programAt pat audioOutcome) pat.programs.length e

/-- The first stream that carries SMPTE 2038. -/
def smpte2038Stream (program : PatProgram) : Option PmtEntry :=
  program.pmt.streams.find? fun se ↦
    se.streamType = 0x06 ∧ containsSmpte2038Registration se.descrList

def smpte2038Outcome (program : PatProgram) : Outcome ℕ :=
  if program.pmt.programNumber = 0 then .next
  else
    match smpte2038Stream program with
    | some se => .found (pid16 se)
    | none => .next

/-- `ltntstools_pat_enum_services_smpte2038`, which looks at the program of its own counter. -/
def patEnumServicesSmpte2038 (pat : Pat) (e : ℕ) : Option (Option (ℕ × ℕ) × ℕ) :=
  if e + 1 > pat.programs.length then some (none, e)
  else loop (programAt pat smpte2038Outcome) (fun i _ ↦ i) (pat.programs.length - e) e e

def hasVideo (program : PatProgram) : Bool :=
  program.pmt.streams.any fun se ↦ isESPayloadTypeVideo (UInt8.ofNat se.streamType)

/-- `ltntstools_pat_enum_services_video`. -/
def patEnumServicesVideo (pat : Pat) (e : ℕ) : Option (Option (ℕ × Unit) × ℕ) :=
  callInStep (programAt pat fun program ↦ if hasVideo program then .found () else .next)
    pat.programs.length e

def hasTeletext (program : PatProgram) : Bool :=
  program.pmt.streams.any fun se ↦ containsTeletext se.descrList

/-- `ltntstools_pat_enum_services_teletext`. -/
def patEnumServicesTeletext (pat : Pat) (e : ℕ) : Option (Option (ℕ × Unit) × ℕ) :=
  callInStep (programAt pat fun program ↦ if hasTeletext program then .found () else .next)
    pat.programs.length e

/-- `ltntstools_pat_enum_services`. -/
def patEnumServices (pat : Pat) (pid e : ℕ) : Option (Option (ℕ × Unit) × ℕ) :=
  callInStep
    (programAt pat fun program ↦ if program.programMapPID = pid then .found () else .next)
    pat.programs.length e

/-! ## What is to be returned -/

section Listing

variable {β : Type*} {pat : Pat} {outcome : PatProgram → Outcome β}
  {value : PatProgram → Option β}

def listing (pat : Pat) (value : PatProgram → Option β) : List (ℕ × β) :=
  (List.range pat.programs.length).filterMap fun j ↦ (pat.programs[j]?.bind value).map (j, ·)

theorem programAt_eq_none_iff (pat : Pat) (outcome : PatProgram → Outcome β) (j : ℕ) :
    programAt pat outcome j = none ↔ pat.programs.length ≤ j := by
  rw [programAt, Option.map_eq_none_iff, List.getElem?_eq_none_iff]

theorem returnedFrom_zero (h : ∀ program b, outcome program = .found b ↔ value program = some b) :
    returnedFrom (programAt pat outcome) pat.programs.length 0 = listing pat value := by
  rw [returnedFrom, listing, Nat.sub_zero, List.range_eq_range']
  refine List.filterMap_congr fun j _ ↦ ?_
  rw [returned, programAt]
  cases pat.programs[j]? with
  | none => rfl
  | some program =>
      have hnone : (∀ b, outcome program ≠ .found b) → value program = none :=
        fun hno ↦ Option.eq_none_iff_forall_ne_some.mpr fun b hb ↦ hno b ((h program b).mpr hb)
      simp only [Option.map_some, Option.bind_some]
      cases houtcome : outcome program with
      | found b => rw [(h program b).mp houtcome, Option.map_some]
      | next => rw [hnone (by simp [houtcome]), Option.map_none]
      | stay => rw [hnone (by simp [houtcome]), Option.map_none]

theorem mem_listing_iff {value : PatProgram → Option β} {j : ℕ} {b : β} :
    (j, b) ∈ listing pat value ↔ ∃ program, pat.programs[j]? = some program ∧
      value program = some b := by
  have hlt : ∀ program, pat.programs[j]? = some program → j < pat.programs.length :=
    fun program h ↦ (List.getElem?_eq_some_iff.mp h).1
  simp only [listing, List.mem_filterMap, List.mem_range, Option.map_eq_some_iff,
    Option.bind_eq_some_iff, Prod.mk.injEq]
  constructor
  · rintro ⟨_, -, _, ⟨program, hprogram, hvalue⟩, rfl, rfl⟩
    exact ⟨program, hprogram, hvalue⟩
  · rintro ⟨program, hprogram, hvalue⟩
    exact ⟨j, hlt program hprogram, b, ⟨program, hprogram, hvalue⟩, rfl, rfl⟩

theorem listing_congr {value value' : PatProgram → Option β}
    (h : ∀ program ∈ pat.programs, value program = value' program) :
    listing pat value = listing pat value' := by
  refine List.filterMap_congr fun j _ ↦ ?_
  cases hj : pat.programs[j]? with
  | none => rfl
  | some program =>
      rw [Option.bind_some, Option.bind_some, h program (List.mem_of_getElem? hj)]

theorem length_listing_le (pat : Pat) (value : PatProgram → Option β) :
    (listing pat value).length ≤ pat.programs.length := by
  rw [listing]
  refine (List.length_filterMap_le _ _).trans ?_
  rw [List.length_range]

/-- Calls from the first program on return the programs with a value until one fails, which
is at most one call more than there are programs. -/
def Lists (pat : Pat) (call : ℕ → Option (Option (ℕ × β) × ℕ)) (value : PatProgram → Option β) :
    Prop :=
  Enumerates call 0 (listing pat value) ∧ (listing pat value).length + 1 ≤ pat.programs.length + 1

theorem lists_inStep (h : ∀ program b, outcome program = .found b ↔ value program = some b)
    (hstay : ∀ program, outcome program ≠ .stay) :
    Lists pat (callInStep (programAt pat outcome) pat.programs.length) value := by
  refine ⟨?_, Nat.succ_le_succ (length_listing_le pat value)⟩
  rw [← returnedFrom_zero h]
  refine enumerates_inStep (programAt_eq_none_iff pat outcome) (fun j hj ↦ ?_) 0
  obtain ⟨program, -, hprogram⟩ := Option.map_eq_some_iff.mp hj
  exact hstay program hprogram

def matching (P : PatProgram → Prop) [DecidablePred P] (program : PatProgram) : Option Unit :=
  if P program then some () else none

theorem matching_eq_some_iff {P : PatProgram → Prop} [DecidablePred P] {program : PatProgram}
    {b : Unit} : matching P program = some b ↔ P program := by
  rw [matching]
  split_ifs with h <;> simp [h]

theorem lists_matching (P : PatProgram → Prop) [DecidablePred P] :
    Lists pat (callInStep (programAt pat fun program ↦ if P program then .found () else .next)
      pat.programs.length) (matching P) := by
  refine lists_inStep (fun program b ↦ ?_) fun program ↦ ?_
  · rw [matching_eq_some_iff]
    split_ifs with h <;> simp [h]
  · split_ifs <;> simp

/-- An enumeration of the programs with one property lists those with a wider one exactly when
every program with the wider one has both. -/
theorem lists_matching_iff (P Q : PatProgram → Prop) [DecidablePred P] [DecidablePred Q]
    (hwider : ∀ program, P program → Q program) :
    Lists pat (callInStep (programAt pat fun program ↦ if P program then .found () else .next)
      pat.programs.length) (matching Q) ↔ ∀ program ∈ pat.programs, Q program → P program := by
  have hlists := @lists_matching pat P _
  constructor
  · rintro ⟨hwide, -⟩ program hmem hQ
    obtain ⟨j, hj⟩ := List.mem_iff_getElem?.mp hmem
    have hin : (j, ()) ∈ listing pat (matching Q) :=
      mem_listing_iff.mpr ⟨program, hj, matching_eq_some_iff.mpr hQ⟩
    rw [hwide.unique hlists.1] at hin
    obtain ⟨program', hj', hP⟩ := mem_listing_iff.mp hin
    obtain rfl : program = program' := Option.some.inj (hj.symm.trans hj')
    exact matching_eq_some_iff.mp hP
  · intro h
    have hsame : listing pat (matching Q) = listing pat (matching P) := by
      refine listing_congr fun program hmem ↦ Option.ext fun b ↦ ?_
      rw [matching_eq_some_iff, matching_eq_some_iff]
      exact ⟨h program hmem, hwider program⟩
    rw [Lists, hsame]
    exact hlists

end Listing

/-- A stream of MPEG-1, MPEG-2, MPEG-4, H.264, JPEG 2000, HEVC, VVC, AVS or Dirac video or
one of their layers: the stream type, of which the code looks at eight bits. -/
def IsVideo (se : PmtEntry) : Prop :=
  se.streamType % 256 ∈ [0x01, 0x02, 0x1B, 0x21, 0x24, 0x25, 0x27, 0x28, 0x29, 0x2A, 0x33, 0xd2,
    0xdb]

def HasTeletextDescriptor (se : PmtEntry) : Prop := ∃ d ∈ se.descrList.array, d.tag = 0x56

def HasTeletextPage (se : PmtEntry) : Prop :=
  ∃ d ∈ se.descrList.array, d.tag = 0x56 ∧ d.data.length = 5

/-- A private stream with a registration of SMPTE 2038: the text `SMPTE2038` in a descriptor
0xc4, the format identifier `VANC`, or a descriptor 0xc4 without data. -/
def CarriesSmpte2038 (se : PmtEntry) : Prop :=
  se.streamType = 0x06 ∧ ∃ d ∈ se.descrList.array,
    d.tag = 0xc4 ∧ d.data = [0x53, 0x4D, 0x50, 0x54, 0x45, 0x32, 0x30, 0x33, 0x38] ∨
    d.tag = 0x05 ∧ d.data = [0x56, 0x41, 0x4E, 0x43] ∨
    d.tag = 0xc4 ∧ d.data = []

instance : DecidablePred IsVideo := fun _ ↦ inferInstanceAs (Decidable (_ ∈ _))

instance : DecidablePred HasTeletextDescriptor := fun _ ↦ inferInstanceAs (Decidable (∃ _ ∈ _, _))

instance : DecidablePred HasTeletextPage := fun _ ↦ inferInstanceAs (Decidable (∃ _ ∈ _, _))

instance : DecidablePred CarriesSmpte2038 := fun _ ↦ inferInstanceAs (Decidable (_ ∧ _))

/-- The PID of the first stream that carries SMPTE 2038, in a program with a number. -/
def smpte2038Service (program : PatProgram) : Option ℕ :=
  if program.pmt.programNumber ≠ 0 then
    (program.pmt.streams.find? (CarriesSmpte2038 ·)).map fun se ↦ se.elementaryPID % 2 ^ 16
  else none

theorem isESPayloadTypeVideo_iff (se : PmtEntry) :
    isESPayloadTypeVideo (UInt8.ofNat se.streamType) = true ↔ IsVideo se := by
  have hbyte : ∀ n < 256, (isESPayloadTypeVideo (UInt8.ofNat n) = true ↔
      n ∈ [0x01, 0x02, 0x1B, 0x21, 0x24, 0x25, 0x27, 0x28, 0x29, 0x2A, 0x33, 0xd2, 0xdb]) := by
    decide +kernel
  have hmod : UInt8.ofNat se.streamType = UInt8.ofNat (se.streamType % 256) := by
    simp [← UInt8.toNat_inj]
  rw [hmod, hbyte _ (Nat.mod_lt _ (by norm_num))]
  rfl

theorem containsTeletext_iff (se : PmtEntry) :
    containsTeletext se.descrList = true ↔ HasTeletextPage se := by
  simp [containsTeletext, HasTeletextPage]

theorem containsSmpte2038Registration_iff (list : DescriptorList) :
    containsSmpte2038Registration list = true ↔ ∃ d ∈ list.array,
      d.tag = 0xc4 ∧ d.data = [0x53, 0x4D, 0x50, 0x54, 0x45, 0x32, 0x30, 0x33, 0x38] ∨
      d.tag = 0x05 ∧ d.data = [0x56, 0x41, 0x4E, 0x43] ∨ d.tag = 0xc4 ∧ d.data = [] := by
  rw [containsSmpte2038Registration, List.any_eq_true]
  refine exists_congr fun d ↦ and_congr_right fun _ ↦ ?_
  by_cases hencoder : d.tag = 0xc4 ∧ d.data.length = 9
  · have hfull : d.data ≠ [] := List.ne_nil_of_length_pos (by omega)
    simp [hencoder, hfull]
  by_cases hvanc : d.tag = 0x05 ∧ d.data.length = 4
  · simp [hvanc]
  · have hno : ∀ n, d.data.length ≠ n → ∀ l : List UInt8, l.length = n → d.data ≠ l :=
      fun n hn l hl heq ↦ hn (by rw [heq, hl])
    rw [if_neg hencoder, if_neg hvanc]
    have hfirst : ¬(d.tag = 0xc4 ∧
        d.data = [0x53, 0x4D, 0x50, 0x54, 0x45, 0x32, 0x30, 0x33, 0x38]) :=
      fun h ↦ hencoder ⟨h.1, by rw [h.2]; rfl⟩
    have hsecond : ¬(d.tag = 0x05 ∧ d.data = [0x56, 0x41, 0x4E, 0x43]) :=
      fun h ↦ hvanc ⟨h.1, by rw [h.2]; rfl⟩
    simp [hfirst, hsecond]

theorem smpte2038Stream_eq (program : PatProgram) :
    smpte2038Stream program = program.pmt.streams.find? (CarriesSmpte2038 ·) := by
  refine List.find?_congr fun se _ ↦ decide_eq_decide.mpr ?_
  rw [containsSmpte2038Registration_iff]
  rfl

theorem patEnumServicesSmpte2038_eq (pat : Pat) : patEnumServicesSmpte2038 pat =
    callInStep (programAt pat smpte2038Outcome) pat.programs.length := by
  funext e
  rw [patEnumServicesSmpte2038, callInStep, loop_counter]
  intro j hj
  obtain ⟨program, -, hprogram⟩ := Option.map_eq_some_iff.mp hj
  rw [smpte2038Outcome] at hprogram
  split_ifs at hprogram
  split at hprogram <;> cases hprogram

theorem smpte2038Outcome_eq_found_iff (program : PatProgram) (pid : ℕ) :
    smpte2038Outcome program = .found pid ↔ smpte2038Service program = some pid := by
  rw [smpte2038Outcome, smpte2038Service, smpte2038Stream_eq]
  by_cases hzero : program.pmt.programNumber = 0
  · simp [hzero]
  · cases program.pmt.streams.find? (CarriesSmpte2038 ·) <;> simp [hzero, pid16]

theorem lists_smpte2038 (pat : Pat) :
    Lists pat (patEnumServicesSmpte2038 pat) smpte2038Service := by
  rw [patEnumServicesSmpte2038_eq]
  refine lists_inStep smpte2038Outcome_eq_found_iff fun program hstay ↦ ?_
  rw [smpte2038Outcome] at hstay
  split_ifs at hstay
  split at hstay <;> cases hstay

theorem hasVideo_iff (program : PatProgram) :
    hasVideo program = true ↔ ∃ se ∈ program.pmt.streams, IsVideo se := by
  simp [hasVideo, isESPayloadTypeVideo_iff]

theorem hasTeletext_iff (program : PatProgram) :
    hasTeletext program = true ↔ ∃ se ∈ program.pmt.streams, HasTeletextPage se := by
  simp [hasTeletext, containsTeletext_iff]

/-- The enumerations of video and SMPTE 2038 services and that of a PID return exactly the
programs that match, in order, and come to an end; that of teletext services does exactly when
every program with a teletext descriptor has one of a single page. -/
theorem cursor_services_listed_iff (pat : Pat) (pid : ℕ) :
    Lists pat (patEnumServicesVideo pat)
      (matching fun program ↦ ∃ se ∈ program.pmt.streams, IsVideo se) ∧
    (Lists pat (patEnumServicesTeletext pat)
        (matching fun program ↦ ∃ se ∈ program.pmt.streams, HasTeletextDescriptor se) ↔
      ∀ program ∈ pat.programs, (∃ se ∈ program.pmt.streams, HasTeletextDescriptor se) →
        ∃ se ∈ program.pmt.streams, HasTeletextPage se) ∧
    Lists pat (patEnumServicesSmpte2038 pat) smpte2038Service ∧
    Lists pat (patEnumServices pat pid) (matching fun program ↦ program.programMapPID = pid) := by
  have hvideo := @lists_matching_iff pat (hasVideo · = true) _ _ _
    fun program ↦ (hasVideo_iff program).mp
  refine ⟨hvideo.mpr fun program _ ↦ (hasVideo_iff program).mpr, ?_, lists_smpte2038 pat,
    lists_matching _⟩
  have hteletext := @lists_matching_iff pat (hasTeletext · = true)
    (fun program ↦ ∃ se ∈ program.pmt.streams, HasTeletextDescriptor se) _ _ fun program hpage ↦ by
      obtain ⟨se, hse, d, hd, htag, -⟩ := (hasTeletext_iff program).mp hpage
      exact ⟨se, hse, d, hd, htag⟩
  exact hteletext.trans (by simp only [hasTeletext_iff])

/-- A service with a teletext descriptor of two pages, which has ten bytes. -/
def twoPagePat : Pat where
  transportStreamId := 1
  versionNumber := 0
  currentNextIndicator := 1
  programs :=
    [{ programNumber := 1
       programMapPID := 0x20
       pmt :=
        { barePmt 1 with
          streams := [⟨0x06, 0x21, ⟨[⟨0x56, [0x65, 0x6e, 0x67, 0x09, 0x00, 0x65, 0x6e, 0x67,
            0x10, 0x88], by decide⟩], by decide⟩⟩]
          length_streams := by decide } }]
  length_programs := by decide

/-- It is not listed. -/
theorem teletext_pages_missed :
    ¬Lists twoPagePat (patEnumServicesTeletext twoPagePat)
      (matching fun program ↦ ∃ se ∈ program.pmt.streams, HasTeletextDescriptor se) := by
  rintro ⟨hlists, -⟩
  have hfails : Enumerates (patEnumServicesTeletext twoPagePat) 0 [] := .stop rfl
  exact absurd (hlists.unique hfails) (by decide)

/-! ## Enumerations that always begin to count at zero -/

/-- The PIDs of a program with the registration and at least one stream of the type. -/
def scte35Service (program : PatProgram) : Option (List ℕ) :=
  if containsScte35CueRegistration program.pmt.descrList = true ∧ scte35Pids program ≠ [] then
    some (scte35Pids program)
  else none

def audioService (program : PatProgram) : Option (List (ℕ × ℕ)) :=
  if audioStreams program ≠ [] then some (audioStreams program) else none

/-- A program with the registration and without a stream of the type. -/
def BareCue (program : PatProgram) : Prop :=
  containsScte35CueRegistration program.pmt.descrList = true ∧ scte35Pids program = []

instance : DecidablePred BareCue := fun _ ↦ inferInstanceAs (Decidable (_ ∧ _))

section FromZero

variable {β : Type*} {pat : Pat} {outcome : PatProgram → Outcome β}
  {value : PatProgram → Option β} {held : PatProgram → Prop}

theorem programAt_stay_iff (hheld : ∀ program, outcome program = .stay ↔ held program) (j : ℕ) :
    programAt pat outcome j = some .stay ↔
      ∃ program, pat.programs[j]? = some program ∧ held program := by
  simp only [programAt, Option.map_eq_some_iff, hheld]

theorem programAt_ne_found_iff
    (hfound : ∀ program b, outcome program = .found b ↔ value program = some b) (j : ℕ) :
    (∀ b, programAt pat outcome j ≠ some (.found b)) ↔
      ∀ program, pat.programs[j]? = some program → value program = none := by
  rw [programAt]
  cases pat.programs[j]? with
  | none => simp
  | some program => simp [hfound, Option.eq_none_iff_forall_ne_some]

theorem held_apart_iff
    (hfound : ∀ program b, outcome program = .found b ↔ value program = some b)
    (hheld : ∀ program, outcome program = .stay ↔ held program) :
    (∀ i j, 0 ≤ i → i < j → programAt pat outcome i = some .stay →
      ∀ b, programAt pat outcome j ≠ some (.found b)) ↔
      pat.programs.Pairwise (fun p q ↦ held p → value q = none) := by
  rw [List.pairwise_iff_getElem]
  constructor
  · intro h i j hi hj hij hp
    have hlater := h i j (Nat.zero_le i) hij
      ((programAt_stay_iff hheld i).mpr ⟨_, List.getElem?_eq_getElem hi, hp⟩)
    exact (programAt_ne_found_iff hfound j).mp hlater _ (List.getElem?_eq_getElem hj)
  · intro h i j _ hij hs
    obtain ⟨p, hp, hpheld⟩ := (programAt_stay_iff hheld i).mp hs
    refine (programAt_ne_found_iff hfound j).mpr fun q hq ↦ ?_
    obtain ⟨hi, rfl⟩ := List.getElem?_eq_some_iff.mp hp
    obtain ⟨hj, rfl⟩ := List.getElem?_eq_some_iff.mp hq
    exact h i j hi hj hij hpheld

theorem reaches_programs_iff
    (hfound : ∀ program b, outcome program = .found b ↔ value program = some b)
    (hheld : ∀ program, outcome program = .stay ↔ held program) :
    Reaches (programAt pat outcome) pat.programs.length 0 ↔
      pat.programs.Pairwise (fun p q ↦ held p → value q = none) ∧
        ((∃ program ∈ pat.programs, held program) ∨
          (∃ program ∈ pat.programs.getLast?, value program ≠ none) ∨
          ∀ program ∈ pat.programs, value program = none) := by
  have hstay := @programAt_stay_iff β pat outcome held hheld
  have hno := @programAt_ne_found_iff β pat outcome value hfound
  have hexists : (∃ i, 0 ≤ i ∧ programAt pat outcome i = some .stay) ↔
      ∃ program ∈ pat.programs, held program := by
    simp only [Nat.zero_le, true_and, hstay, List.mem_iff_getElem?]
    exact ⟨fun ⟨i, p, hp, hh⟩ ↦ ⟨p, ⟨i, hp⟩, hh⟩, fun ⟨p, ⟨i, hp⟩, hh⟩ ↦ ⟨i, p, hp, hh⟩⟩
  have hlast : (∃ b, programAt pat outcome (pat.programs.length - 1) = some (.found b)) ↔
      ∃ program ∈ pat.programs.getLast?, value program ≠ none := by
    rw [List.getLast?_eq_getElem?, ← not_iff_not]
    push Not
    exact hno _
  have hnone : (∀ j b, programAt pat outcome j ≠ some (.found b)) ↔
      ∀ program ∈ pat.programs, value program = none := by
    simp only [hno, List.mem_iff_getElem?]
    exact ⟨fun h p ⟨i, hp⟩ ↦ h i p hp, fun h i p hp ↦ h p ⟨i, hp⟩⟩
  rw [Reaches, held_apart_iff hfound hheld, hexists, hlast, hnone]
  refine and_congr_right fun _ ↦ or_congr_right (or_congr_right ?_)
  constructor
  · rintro (hempty | ⟨-, h⟩)
    · rw [List.eq_nil_of_length_eq_zero (Nat.le_zero.mp hempty)]
      exact fun program hin ↦ absurd hin List.not_mem_nil
    · exact h
  · exact fun h ↦ .inr ⟨rfl, h⟩

theorem lists_fromZero_iff
    (hfound : ∀ program b, outcome program = .found b ↔ value program = some b)
    (hheld : ∀ program, outcome program = .stay ↔ held program) :
    Lists pat (callFromZero (programAt pat outcome) pat.programs.length) value ↔
      pat.programs.Pairwise (fun p q ↦ held p → value q = none) ∧
        ((∃ program ∈ pat.programs, held program) ∨
          (∃ program ∈ pat.programs.getLast?, value program ≠ none) ∨
          ∀ program ∈ pat.programs, value program = none) := by
  have hcalls := enumerates_fromZero_iff (programAt_eq_none_iff pat outcome) 0
  rw [returnedFrom_zero hfound] at hcalls
  rw [← reaches_programs_iff hfound hheld, ← hcalls]
  exact and_iff_left (Nat.succ_le_succ (length_listing_le pat value))

end FromZero

theorem scte35Outcome_eq_found_iff (program : PatProgram) (pids : List ℕ) :
    scte35Outcome program = .found pids ↔ scte35Service program = some pids := by
  rw [scte35Outcome, scte35Service]
  cases containsScte35CueRegistration program.pmt.descrList
  · simp
  · by_cases hpids : scte35Pids program = [] <;> simp [hpids]

theorem scte35Outcome_eq_stay_iff (program : PatProgram) :
    scte35Outcome program = .stay ↔ BareCue program := by
  rw [scte35Outcome, BareCue]
  cases containsScte35CueRegistration program.pmt.descrList
  · simp
  · by_cases hpids : scte35Pids program = [] <;> simp [hpids]

theorem audioOutcome_eq_found_iff (program : PatProgram) (streams : List (ℕ × ℕ)) :
    audioOutcome program = .found streams ↔ audioService program = some streams := by
  rw [audioOutcome, audioService]
  split_ifs <;> simp

theorem audioOutcome_ne_stay (program : PatProgram) : audioOutcome program ≠ .stay := by
  rw [audioOutcome]
  split_ifs <;> simp

/-- The SCTE-35 services are listed exactly when none lies behind a program with the
registration alone, and there is such a program, or the last program is a service, or there is
no service; the audio services exactly when the last program is one, or none is. -/
theorem services_listed_iff (pat : Pat) :
    (Lists pat (patEnumServicesScte35 pat) scte35Service ↔
      pat.programs.Pairwise (fun p q ↦ BareCue p → scte35Service q = none) ∧
        ((∃ program ∈ pat.programs, BareCue program) ∨
          (∃ program ∈ pat.programs.getLast?, scte35Service program ≠ none) ∨
          ∀ program ∈ pat.programs, scte35Service program = none)) ∧
    (Lists pat (patEnumServicesAudio pat) audioService ↔
      (∃ program ∈ pat.programs.getLast?, audioService program ≠ none) ∨
        ∀ program ∈ pat.programs, audioService program = none) := by
  refine ⟨lists_fromZero_iff scte35Outcome_eq_found_iff scte35Outcome_eq_stay_iff, ?_⟩
  have hheld : ∀ program, audioOutcome program = .stay ↔ False :=
    fun program ↦ iff_of_false (audioOutcome_ne_stay program) id
  refine (lists_fromZero_iff audioOutcome_eq_found_iff hheld).trans ⟨?_, ?_⟩
  · rintro ⟨-, ⟨-, -, hno⟩ | h⟩
    · exact hno.elim
    · exact h
  · exact fun h ↦ ⟨List.pairwise_of_forall fun _ _ hno ↦ hno.elim, .inr h⟩

/-- A program with the registration or without, and one stream or none. -/
def smallProgram (cue : Bool) (streamType : Option ℕ) : PatProgram where
  programNumber := 1
  programMapPID := 0x20
  pmt :=
    { barePmt 1 with
      streams := (streamType.map fun t ↦ ⟨t, 0x21, .empty⟩).toList
      descrList :=
        if cue then ⟨[⟨0x05, [0x43, 0x55, 0x45, 0x49], by decide⟩], by decide⟩ else .empty
      length_streams := by cases streamType <;> simp }

def smallPat (p q : PatProgram) : Pat where
  transportStreamId := 1
  versionNumber := 0
  currentNextIndicator := 1
  programs := [p, q]
  length_programs := (by decide : 2 ≤ 64)

/-- A service in front of a program that is none, and one behind a program with the
registration alone. -/
theorem services_missed :
    ¬Lists (smallPat (smallProgram true (some 0x86)) (smallProgram false none))
        (patEnumServicesScte35
          (smallPat (smallProgram true (some 0x86)) (smallProgram false none))) scte35Service ∧
      ¬Lists (smallPat (smallProgram true none) (smallProgram true (some 0x86)))
        (patEnumServicesScte35
          (smallPat (smallProgram true none) (smallProgram true (some 0x86)))) scte35Service ∧
      ¬Lists (smallPat (smallProgram false (some 0x81)) (smallProgram false none))
        (patEnumServicesAudio
          (smallPat (smallProgram false (some 0x81)) (smallProgram false none))) audioService := by
  have hscte35 := fun pat ↦
    @lists_fromZero_iff _ pat _ _ _ scte35Outcome_eq_found_iff scte35Outcome_eq_stay_iff
  have haudio := fun pat ↦ @lists_fromZero_iff _ pat _ _ (fun _ ↦ False) audioOutcome_eq_found_iff
    fun program ↦ iff_of_false (audioOutcome_ne_stay program) id
  refine ⟨fun h ↦ ?_, fun h ↦ ?_, fun h ↦ ?_⟩
  · exact absurd ((hscte35 _).mp h) (by decide)
  · exact absurd ((hscte35 _).mp h) (by decide)
  · exact absurd ((haudio _).mp h) (by decide)

end LtnTsTools.Psi
