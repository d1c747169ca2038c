import LtnTsTools.PesExtractor
import LtnTsTools.PsiTables

/-!
# Building a demultiplexer

The model of `ltntstools_demux_alloc_from_pat`: a walk over the elementary streams
of a PAT that gives every stream it recognises a PES extractor.  A stream on a pid
that already has an extractor ends the process.
-/

namespace LtnTsTools.Demux

open Psi

/-! ## Kinds of streams -/

/-- `ltntstools_is_ESPayloadType_Video`, whose argument is a byte. -/
def isESPayloadTypeVideo (esPayloadType : ℕ) : Bool :=
  decide (esPayloadType % 256 ∈ [0x01, 0x02, 0x1B, 0x21, 0x24, 0x25, 0x27, 0x28, 0x29, 0x2A, 0x33,
    0xd2, 0xdb])

/-- `ltntstools_is_ESPayloadType_Audio`, whose argument is a byte. -/
def isESPayloadTypeAudio (esPayloadType : ℕ) : Bool :=
  decide (esPayloadType % 256 ∈ [0x03, 0x04, 0x07, 0x0F, 0x81, 0xC1, 0xC2, 0xCF])

def audioDescriptorTags : List UInt8 := [0x03, 0x1c, 0x2b, 0x6a, 0x7a, 0x7c]

/-- `ltntstools_pmt_entry_is_audio`: one for a type, or the tag of a descriptor. -/
def pmtEntryIsAudio (pmt : PmtEntry) : ℕ :=
  if isESPayloadTypeAudio pmt.streamType then 1
  else if pmt.streamType ≠ 0x06 then 0
  else ((pmt.descrList.array.map Descriptor.tag).find? (· ∈ audioDescriptorTags)).elim 0
    UInt8.toNat

/-- `ltntstools_descriptor_list_contains_smpte2064_registration`: the four letters
`LIPS`. -/
def containsSmpte2064Registration (list : DescriptorList) : Bool :=
  list.array.any fun d ↦
    d.tag == 0x05 && d.data.length == 0x04 && d.data == [0x4c, 0x49, 0x50, 0x53]

/-! ## The demultiplexer -/

/-- `enum payload_e`. -/
inductive Payload where
  | undefined
  | audio
  | video
  | smpte2064
deriving DecidableEq

structure Extractor where
  streamId : ℕ
  ctx : PesExtractor.Ctx

/-- `struct demux_pid_s`, without its list of packets. -/
structure DemuxPid where
  pidNr : ℕ
  payload : Payload
  pe : Option Extractor

/-- `struct demux_ctx_s`; the pids of the index are numbers instead of pointers. -/
structure DemuxCtx where
  pids : ℕ → DemuxPid
  pidIndex : List ℕ

/-- `ltntstools_streammodel_query_first_program_pcr_pid`; the result is a
`uint16_t`. -/
def queryFirstProgramPcrPid (pat : Pat) : Option ℕ :=
  (pat.programs.find? fun x ↦ x.programNumber != 0 && x.pmt.streams.length != 0 &&
    x.pmt.pcrPID != 0).map fun x ↦ x.pmt.pcrPID % 2 ^ 16

/-- The pid of a stream as `_getPIDContext` takes it. -/
def pidOf (stream : PmtEntry) : ℕ := stream.elementaryPID &&& 0x1fff

/-- An extractor for a stream, filed under its pid and listed in the index.  Where
there is none to be had the stream is skipped. -/
def attach (ctx : DemuxCtx) (stream : PmtEntry) (streamId : ℕ) (payload : Payload)
    (pcrPid : Option ℕ) : DemuxCtx :=
  match PesExtractor.pesExtractorAlloc (stream.elementaryPID % 2 ^ 16) true (-1) (-1) with
  | none => ctx
  | some pe =>
      let p := pidOf stream
      { pids := Function.update ctx.pids p
          { (ctx.pids p) with
            payload := payload
            pe := some ⟨streamId, pcrPid.elim pe (PesExtractor.pesExtractorSetPcrPid pe)⟩ }
        pidIndex := ctx.pidIndex ++ [(ctx.pids p).pidNr] }

/-- An elementary stream; `none` is the end of the process. -/
def addStream (pat : Pat) (ctx : DemuxCtx) (stream : PmtEntry) : Option DemuxCtx :=
  if (ctx.pids (pidOf stream)).pe.isSome then none
  else if stream.streamType = 0x06 then
    if containsSmpte2064Registration stream.descrList then
      some (attach ctx stream 0xbf .smpte2064 none)
    else some ctx
  else if pmtEntryIsAudio stream ≠ 0 then
    some (attach ctx stream 0xc0 .audio (queryFirstProgramPcrPid pat))
  else if isESPayloadTypeVideo stream.streamType then
    some (attach ctx stream 0xe0 .video (queryFirstProgramPcrPid pat))
  else some ctx

def elementaryStreams (pat : Pat) : List PmtEntry :=
  (pat.programs.filter fun x ↦ x.programNumber != 0).flatMap fun x ↦ x.pmt.streams

/-- `ltntstools_demux_alloc_from_pat`. -/
def demuxAllocFromPat (pat : Pat) : Option DemuxCtx :=
  (elementaryStreams pat).foldlM (addStream pat) ⟨fun i ↦ ⟨i, .undefined, none⟩, []⟩

/-! ## Which streams get an extractor -/

def selected (stream : PmtEntry) : Bool :=
  if stream.streamType = 0x06 then containsSmpte2064Registration stream.descrList
  else pmtEntryIsAudio stream != 0 || isESPayloadTypeVideo stream.streamType

def isMedia (stream : PmtEntry) : Bool :=
  isESPayloadTypeVideo stream.streamType ||
    stream.streamType == 0x06 && containsSmpte2064Registration stream.descrList ||
      pmtEntryIsAudio stream != 0

/-- The index lists the pids with an extractor, each once, and every extractor is
for its own pid. -/
structure Listed (ctx : DemuxCtx) : Prop where
  nodup : ctx.pidIndex.Nodup
  mem_iff : ∀ p, p ∈ ctx.pidIndex ↔ (ctx.pids p).pe.isSome
  pidNr_eq : ∀ p, (ctx.pids p).pidNr = p
  extractor_pid : ∀ p, ∀ e ∈ (ctx.pids p).pe, e.ctx.pid &&& 0x1fff = p

theorem listed_start : Listed ⟨fun i ↦ ⟨i, .undefined, none⟩, []⟩ :=
  ⟨List.nodup_nil, by simp, fun _ ↦ rfl, by simp⟩

theorem pesExtractor_pid_configured (pe : PesExtractor.Ctx) (pcrPid : Option ℕ) :
    (pcrPid.elim pe (PesExtractor.pesExtractorSetPcrPid pe)).pid = pe.pid := by
  cases pcrPid <;> rfl

theorem pidOf_truncated (stream : PmtEntry) :
    stream.elementaryPID % 2 ^ 16 &&& 0x1fff = pidOf stream := by
  unfold pidOf
  rw [and_1fff, and_1fff]
  omega

/-- A stream whose pid is free gets an extractor of its own. -/
theorem Listed.attach {ctx : DemuxCtx} (h : Listed ctx) {stream : PmtEntry}
    (hfree : (ctx.pids (pidOf stream)).pe = none) (streamId : ℕ) (payload : Payload)
    (pcrPid : Option ℕ) :
    Listed (attach ctx stream streamId payload pcrPid) ∧
      (attach ctx stream streamId payload pcrPid).pidIndex = ctx.pidIndex ++ [pidOf stream] := by
  obtain ⟨pe, halloc, hpid⟩ := @PesExtractor.pesExtractorAlloc_isSome
    (stream.elementaryPID % 2 ^ 16) true (-1) (-1) (by decide) (by decide) (by decide)
  have hnot : pidOf stream ∉ ctx.pidIndex := by
    rw [h.mem_iff, hfree]
    simp
  unfold Demux.attach
  rw [halloc]
  refine ⟨⟨?_, fun p ↦ ?_, fun p ↦ ?_, fun p e he ↦ ?_⟩, ?_⟩
  · dsimp only
    rw [h.pidNr_eq]
    exact List.nodup_append.mpr ⟨h.nodup, List.nodup_singleton _, by
      rintro a ha b hb rfl
      exact hnot (List.mem_singleton.mp hb ▸ ha)⟩
  · dsimp only
    rw [h.pidNr_eq, List.mem_append, List.mem_singleton, h.mem_iff]
    rcases eq_or_ne p (pidOf stream) with rfl | hne
    · simp
    · rw [Function.update_of_ne hne]
      simp [hne]
  · dsimp only
    rcases eq_or_ne p (pidOf stream) with rfl | hne
    · rw [Function.update_self]
      exact h.pidNr_eq _
    · rw [Function.update_of_ne hne]
      exact h.pidNr_eq p
  · dsimp only at he
    rcases eq_or_ne p (pidOf stream) with rfl | hne
    · rw [Function.update_self] at he
      rw [← Option.some.inj he]
      dsimp only
      rw [pesExtractor_pid_configured, hpid]
      exact pidOf_truncated stream
    · rw [Function.update_of_ne hne] at he
      exact h.extractor_pid p e he
  · dsimp only
    rw [h.pidNr_eq]

/-- What an elementary stream does: on a pid that is taken it ends the process,
else it is listed when it is selected. -/
theorem Listed.addStream {ctx : DemuxCtx} (h : Listed ctx) (pat : Pat) (stream : PmtEntry) :
    (pidOf stream ∈ ctx.pidIndex ∧ addStream pat ctx stream = none) ∨
      (pidOf stream ∉ ctx.pidIndex ∧ ∃ next, addStream pat ctx stream = some next ∧ Listed next ∧
        next.pidIndex = ctx.pidIndex ++ if selected stream then [pidOf stream] else []) := by
  by_cases htaken : (ctx.pids (pidOf stream)).pe.isSome
  · exact .inl ⟨(h.mem_iff _).mpr htaken, if_pos htaken⟩
  · have hfree : (ctx.pids (pidOf stream)).pe = none := by simpa using htaken
    have hattach := h.attach hfree
    refine .inr ⟨fun hmem ↦ htaken ((h.mem_iff _).mp hmem), ?_⟩
    unfold Demux.addStream selected
    rw [if_neg htaken]
    by_cases hprivate : stream.streamType = 0x06
    · rw [if_pos hprivate, if_pos hprivate]
      cases hsmpte : containsSmpte2064Registration stream.descrList with
      | true => exact ⟨_, rfl, hattach _ _ _⟩
      | false => exact ⟨_, rfl, h, by simp⟩
    · rw [if_neg hprivate, if_neg hprivate]
      by_cases haudio : pmtEntryIsAudio stream ≠ 0
      · rw [if_pos haudio, bne_iff_ne.mpr haudio]
        exact ⟨_, rfl, hattach _ _ _⟩
      · rw [if_neg haudio, not_not.mp haudio]
        cases hvideo : isESPayloadTypeVideo stream.streamType with
        | true => exact ⟨_, rfl, hattach _ _ _⟩
        | false => exact ⟨_, rfl, h, by simp⟩

/-- The walk over all streams: it comes to its end exactly when no stream is on the
pid of a selected one before it, and then the index lists the selected ones. -/
theorem foldlM_addStream (pat : Pat) (streams : List PmtEntry) {ctx : DemuxCtx} (h : Listed ctx) :
    ((∃ next, streams.foldlM (addStream pat) ctx = some next) ↔
        (∀ s ∈ streams, pidOf s ∉ ctx.pidIndex) ∧
          streams.Pairwise fun s t ↦ selected s = true → pidOf s ≠ pidOf t) ∧
      ∀ next, streams.foldlM (addStream pat) ctx = some next →
        Listed next ∧ next.pidIndex = ctx.pidIndex ++ (streams.filter selected).map pidOf := by
  induction streams generalizing ctx with
  | nil =>
      refine ⟨by simp, fun next hnext ↦ ?_⟩
      obtain rfl : ctx = next := by simpa using hnext
      exact ⟨h, by simp⟩
  | cons s rest ih =>
      rw [List.foldlM_cons]
      rcases h.addStream pat s with ⟨htaken, hnone⟩ | ⟨hfree, mid, hmid, hlisted, hindex⟩
      · rw [hnone]
        simp [htaken]
      · obtain ⟨hiff, hspec⟩ := ih hlisted
        rw [hmid, Option.bind_eq_bind, Option.bind_some, hiff]
        refine ⟨?_, fun next hnext ↦ ?_⟩
        · rw [hindex, List.pairwise_cons, List.forall_mem_cons]
          cases hs : selected s with
          | true =>
              simp only [if_true, List.mem_append, List.mem_singleton, not_or, forall_const]
              constructor
              · rintro ⟨hall, hpair⟩
                exact ⟨⟨hfree, fun t ht ↦ (hall t ht).1⟩, fun t ht heq ↦ (hall t ht).2 heq.symm,
                  hpair⟩
              · rintro ⟨⟨-, hall⟩, hne, hpair⟩
                exact ⟨fun t ht ↦ ⟨hall t ht, fun heq ↦ hne t ht heq.symm⟩, hpair⟩
          | false => simp [hfree]
        · obtain ⟨hl, hi⟩ := hspec next hnext
          refine ⟨hl, ?_⟩
          rw [hi, hindex, List.append_assoc]
          cases hs : selected s <;> simp [hs]

/-- A demultiplexer that covers the PAT: one extractor for every pid with video,
audio or SMPTE 2064 data, and an index of exactly these pids. -/
def Covers (pat : Pat) : Prop :=
  ∃ ctx, demuxAllocFromPat pat = some ctx ∧ ctx.pidIndex.Nodup ∧
    (∀ p, p ∈ ctx.pidIndex ↔ ∃ s ∈ elementaryStreams pat, isMedia s = true ∧ pidOf s = p) ∧
    (∀ p, (ctx.pids p).pe.isSome ↔
      ∃ s ∈ elementaryStreams pat, isMedia s = true ∧ pidOf s = p) ∧
    ∀ p, ∀ e ∈ (ctx.pids p).pe, e.ctx.pid &&& 0x1fff = p

theorem isMedia_of_selected {s : PmtEntry} (h : selected s = true) : isMedia s = true := by
  unfold selected at h
  unfold isMedia
  split_ifs at h with hprivate
  · simp [hprivate, h]
  · rcases Bool.or_eq_true _ _ ▸ h with haudio | hvideo
    · simp [haudio]
    · simp [hvideo]

/-- The PAT is covered exactly when no stream is on the pid of a selected one
before it, and every stream with media is on the pid of a selected one; private
streams with an audio descriptor are media that is not selected. -/
theorem demux_covers_iff (pat : Pat) :
    Covers pat ↔
      ((elementaryStreams pat).Pairwise fun s t ↦ selected s = true → pidOf s ≠ pidOf t) ∧
        ∀ s ∈ elementaryStreams pat, isMedia s = true →
          ∃ t ∈ elementaryStreams pat, selected t = true ∧ pidOf t = pidOf s := by
  obtain ⟨hiff, hspec⟩ := foldlM_addStream pat (elementaryStreams pat) listed_start
  simp only [List.not_mem_nil, not_false_eq_true, implies_true, true_and] at hiff
  have hmem : ∀ p, p ∈ ((elementaryStreams pat).filter selected).map pidOf ↔
      ∃ t ∈ elementaryStreams pat, selected t = true ∧ pidOf t = p := by
    intro p
    simp [and_assoc]
  constructor
  · rintro ⟨ctx, hctx, -, hindex, -⟩
    obtain ⟨-, hlist⟩ := hspec ctx hctx
    refine ⟨hiff.mp ⟨ctx, hctx⟩, fun s hs hmedia ↦ ?_⟩
    rw [← hmem, ← List.nil_append (List.map _ _), ← hlist, hindex]
    exact ⟨s, hs, hmedia, rfl⟩
  · rintro ⟨hpair, hall⟩
    obtain ⟨ctx, hctx⟩ := hiff.mpr hpair
    obtain ⟨hlisted, hlist⟩ := hspec ctx hctx
    have hindex : ∀ p, p ∈ ctx.pidIndex ↔
        ∃ s ∈ elementaryStreams pat, isMedia s = true ∧ pidOf s = p := by
      intro p
      rw [hlist, List.nil_append, hmem]
      constructor
      · rintro ⟨t, ht, hsel, rfl⟩
        exact ⟨t, ht, isMedia_of_selected hsel, rfl⟩
      · rintro ⟨s, hs, hmedia, rfl⟩
        exact hall s hs hmedia
    exact ⟨ctx, hctx, hlisted.nodup, hindex, fun p ↦ (hlisted.mem_iff p).symm.trans (hindex p),
      hlisted.extractor_pid⟩

/-! ## The extractors -/

/-- Every extractor is a new one for a stream on its pid. -/
def NewFor (streams : List PmtEntry) (ctx : DemuxCtx) : Prop :=
  ∀ p, ∀ e ∈ (ctx.pids p).pe, ∃ stream ∈ streams, pidOf stream = p ∧ ∃ pe pcrPid,
    PesExtractor.pesExtractorAlloc (stream.elementaryPID % 2 ^ 16) true (-1) (-1) = some pe ∧
      e.ctx = PesExtractor.configured pe false false pcrPid

theorem NewFor.attach {streams : List PmtEntry} {ctx : DemuxCtx} (h : NewFor streams ctx)
    {stream : PmtEntry} (hmem : stream ∈ streams) (streamId : ℕ) (payload : Payload)
    (pcrPid : Option ℕ) : NewFor streams (attach ctx stream streamId payload pcrPid) := by
  intro p e he
  unfold Demux.attach at he
  cases halloc : PesExtractor.pesExtractorAlloc (stream.elementaryPID % 2 ^ 16) true (-1) (-1) with
  | none =>
      rw [halloc] at he
      exact h p e he
  | some pe =>
      rw [halloc] at he
      dsimp only at he
      rcases eq_or_ne p (pidOf stream) with rfl | hne
      · rw [Function.update_self] at he
        obtain rfl := Option.some.inj he
        refine ⟨stream, hmem, rfl, pe, pcrPid, halloc, ?_⟩
        rw [PesExtractor.alloc_fields halloc]
        cases pcrPid <;> rfl
      · rw [Function.update_of_ne hne] at he
        exact h p e he

theorem NewFor.addStream {streams : List PmtEntry} {pat : Pat} {ctx next : DemuxCtx}
    (h : NewFor streams ctx) {stream : PmtEntry} (hmem : stream ∈ streams)
    (hnext : addStream pat ctx stream = some next) : NewFor streams next := by
  have hattach := h.attach hmem
  unfold Demux.addStream at hnext
  split_ifs at hnext
  all_goals
    rw [← Option.some.inj hnext]
    first | exact hattach _ _ _ | exact h

theorem NewFor.foldlM {streams : List PmtEntry} {pat : Pat} {more : List PmtEntry}
    (hsub : more ⊆ streams) : ∀ {ctx next : DemuxCtx}, NewFor streams ctx →
      more.foldlM (Demux.addStream pat) ctx = some next → NewFor streams next := by
  induction more with
  | nil =>
      intro ctx next h hnext
      obtain rfl : ctx = next := by simpa using hnext
      exact h
  | cons stream rest ih =>
      intro ctx next h hnext
      obtain ⟨hmem, hrest⟩ := List.cons_subset.mp hsub
      rw [List.foldlM_cons] at hnext
      obtain ⟨mid, hmid, hnext⟩ := Option.bind_eq_some_iff.mp hnext
      exact ih hrest (h.addStream hmem hmid) hnext

/-- The extractor of a pid, as a new demultiplexer has it. -/
theorem exists_new_extractor {pat : Pat} {ctx : DemuxCtx} (hctx : demuxAllocFromPat pat = some ctx)
    {p : ℕ} {e : Extractor} (he : (ctx.pids p).pe = some e) :
    ∃ stream ∈ elementaryStreams pat, pidOf stream = p ∧ ∃ pe pcrPid,
      PesExtractor.pesExtractorAlloc (stream.elementaryPID % 2 ^ 16) true (-1) (-1) = some pe ∧
        e.ctx = PesExtractor.configured pe false false pcrPid :=
  NewFor.foldlM (List.Subset.refl _) (fun _ _ hnone ↦ by simp at hnone) hctx p e he

def programOf (programNumber : ℕ) (stream : PmtEntry) : PatProgram where
  programNumber := programNumber
  programMapPID := 0x20 + programNumber
  pmt :=
    { versionNumber := 0
      programNumber := programNumber
      currentNextIndicator := 1
      pcrPID := 0x100
      streams := [stream]
      descrList := .empty
      length_streams := by simp }

def patOfTwo (first second : PmtEntry) : Pat where
  transportStreamId := 1
  versionNumber := 0
  currentNextIndicator := 1
  programs := [programOf 1 first, programOf 2 second]
  length_programs := by simp

/-- Two programs that share an audio stream end the process, and a private stream
with an AC-3 descriptor is left without an extractor. -/
theorem shared_or_private_audio_not_covered :
    demuxAllocFromPat (patOfTwo ⟨0x0f, 0x101, ⟨[], Nat.zero_le _⟩⟩
        ⟨0x0f, 0x101, ⟨[], Nat.zero_le _⟩⟩) = none ∧
      ¬Covers (patOfTwo ⟨0x0f, 0x101, ⟨[], Nat.zero_le _⟩⟩ ⟨0x0f, 0x101, ⟨[], Nat.zero_le _⟩⟩) ∧
      ¬Covers (patOfTwo ⟨0x1b, 0x100, ⟨[], Nat.zero_le _⟩⟩
        ⟨0x06, 0x101, ⟨[⟨0x6a, [0], by decide⟩], by decide⟩⟩) := by
  refine ⟨?_, fun h ↦ ?_, fun h ↦ ?_⟩
  · by_contra hsome
    obtain ⟨ctx, hctx⟩ := Option.ne_none_iff_exists'.mp hsome
    have hpair := ((foldlM_addStream _ _ listed_start).1.mp ⟨ctx, hctx⟩).2
    exact absurd hpair (by decide)
  · exact absurd ((demux_covers_iff _).mp h).1 (by decide)
  · exact absurd ((demux_covers_iff _).mp h).2 (by decide)

end LtnTsTools.Demux
