import LtnTsTools.NalHeaders

/-!
# Collecting NAL and SEI headers

`ltn_nal_h265_find_headers` and the two functions that pick the SEI headers out of an
array of NALs.  All three write into an array of 64 entries that never grows.  The H.265
scanner also sets the length of its last entry when it has found none, from a pointer
that was never set.
-/

namespace LtnTsTools.Nal

open Occurrence

/-- `hevcNals`, the names. -/
def hevcNals : List (Option String) :=
  designated
    [(0, "TRAIL_N"), (1, "TRAIL_R"), (2, "TSA_N"), (3, "TSA_R"), (4, "STSA_N"), (5, "STSA_R"),
      (6, "RADL_N"), (7, "RADL_R"), (8, "RASL_N"), (9, "RASL_R"), (10, "RSV_VCL_N10"),
      (11, "RSV_VCL_R11"), (12, "RSV_VCL_N12"), (13, "RSV_VCL_R13"), (14, "RSV_VCL_N14"),
      (15, "RSV_VCL_R15"), (16, "BLA_W_LP"), (17, "BLA_W_RADL"), (18, "BLA_N_LP"),
      (19, "IDR_W_RADL"), (20, "IDR_N_LP"), (21, "CRA"), (22, "RSV_IRAP_VCL22"),
      (23, "RSV_IRAP_VCL23"), (32, "VPS"), (33, "SPS"), (34, "PPS"), (35, "AUD"), (36, "EOS"),
      (37, "EOB"), (38, "FD filler_data_rbsp()"), (39, "PREFIX_SEI"), (40, "SUFFIX_SEI")]

/-- `h265Nals_lookupName`; what lies outside the table is no name. -/
def h265NalsLookupName (nalType : ℕ) : Option String := hevcNals[nalType]?.join

/-- `ltn_nal_h265_findHeader`. -/
def ltnNalH265FindHeader (buf : List UInt8) (offset : ℤ) : Option ℕ := findHeader buf offset

/-- `maxitems` of the arrays that do not grow. -/
def maxItems : ℕ := 64

def h265NalTypeAt (buf : List UInt8) (i : ℕ) : ℕ :=
  (buf.getD (i + 3) 0 >>> 1 &&& 0x3f).toNat

/-- An entry of `ltn_nal_h265_find_headers` without its length. -/
def h265Entry (buf : List UInt8) (i : ℕ) : NalHeader :=
  ⟨i, 0, h265NalTypeAt buf i, h265NalsLookupName (h265NalTypeAt buf i)⟩

/-- The loop of `ltn_nal_h265_find_headers`; `none` is a write behind the array. -/
def h265HeadersLoop (buf : List UInt8) : ℕ → ℤ → List NalHeader → Option (List NalHeader)
  | 0, _, _ => none
  | fuel + 1, offset, a =>
      match ltnNalH265FindHeader buf offset with
      | none => some a
      | some i =>
          if a.length < maxItems then
            h265HeadersLoop buf fuel i (setLastLength a i ++ [h265Entry buf i])
          else none

/-- `ltn_nal_h265_find_headers`: the array, and whether the length that is set behind the loop
is that of an entry which was never set, the first one of an empty array. -/
def ltnNalH265FindHeaders (buf : List UInt8) : Option (List NalHeader × Bool) :=
  (h265HeadersLoop buf (buf.length + 1) (-1) []).map fun a ↦
    (setLastLength a buf.length, a.isEmpty)

/-! ## SEI -/

/-- `struct ltn_sei_headers_s`. -/
structure SeiHeader where
  ptr : ℕ
  lengthBytes : ℕ
  seiType : ℕ
  seiName : Option String
deriving DecidableEq

/-- `h264SEIs`, the names. -/
def h264SEIs : List (Option String) :=
  designated
    [(0, "buffer_period"), (1, "pic_timing"), (2, "pan_scan_rect"), (3, "filler_payload"),
      (4, "user_data_registered_itu_t_t35"), (5, "user_data_unregistered"), (6, "recovery_point"),
      (7, "dec_ref_pic_marking_repetition"), (8, "spare_pic"), (9, "scene_info"),
      (10, "sub_seq_info"), (11, "sub_seq_layer_characteristics"), (12, "sub_seq_characteristics"),
      (13, "full_frame_freeze"), (14, "full_frame_freeze_release"), (15, "full_frame_snapshot"),
      (16, "progressive_refinement_segment_start"), (17, "progressive_refinement_segment_end"),
      (18, "motion_constrained_slice_group_set"), (64, "undefined in spec 2004")]

/-- `MAX_H264_SEI`. -/
def maxH264Sei : ℕ := 18

/-- Where `ltn_sei_h264_lookupName` looks. -/
def h264SeiIndex (seiType : ℕ) : ℕ := if seiType ≤ maxH264Sei then seiType else 64

/-- `ltn_sei_h264_lookupName`. -/
def ltnSeiH264LookupName (seiType : ℕ) : Option String := h264SEIs[h264SeiIndex seiType]?.join

/-- `h265SEIs`, the names. -/
def h265SEIs : List (Option String) :=
  designated
    [(0, "buffer_period"), (1, "pic_timing"), (2, "pan_scan_rect"), (3, "filler_payload"),
      (4, "user_data_registered_itu_t_t35"), (5, "user_data_unregistered"), (6, "recovery_point"),
      (9, "scene_info"), (15, "picture_snapshot"), (16, "progressive_refinement_segment_start"),
      (17, "progressive_refinement_segment_end"), (19, "film_grain_characteristics"),
      (22, "post_filter_hint"), (23, "tone_mapping_info"), (45, "frame_packing_arrangement"),
      (47, "display_orientation"), (56, "green_metadata"), (128, "structure_of_pictures_info"),
      (129, "active_parameter_sets"), (130, "decoding_unit_info"),
      (131, "temporal_sub_layer_zero_idx"), (133, "scalable_nesting"), (134, "region_refresh_info"),
      (135, "no_display"), (136, "time_code"), (137, "mastering_display_colour_volume"),
      (138, "segmented_rect_frame_packing_arrangement"),
      (139, "temporal_motion_constrained_tile_sets"), (140, "chroma_resampling_filter_hint"),
      (141, "knee_function_info"), (142, "colour_remapping_info"),
      (143, "deinterlaced_field_identification"), (144, "content_light_level_info"),
      (145, "dependent_rap_indication"), (146, "coded_region_completion"),
      (147, "alternative_transfer_characteristics"), (148, "ambient_viewing_environment"),
      (149, "content_colour_volume"), (150, "equirectangular_projection"),
      (151, "cubemap_projection"), (154, "sphere_rotation"), (155, "regionwise_packing"),
      (156, "omni_viewport"), (157, "regional_nesting"), (158, "mcts_extraction_info_sets"),
      (159, "mcts_extraction_info_nesting"), (160, "layers_not_present"),
      (161, "inter_layer_constrained_tile_sets"), (162, "bsp_nesting"),
      (163, "bsp_initial_arrival_time"), (164, "sub_bitstream_property"),
      (165, "alpha_channel_info"), (166, "overlay_info"),
      (167, "temporal_mv_prediction_constraints"), (168, "frame_field_info"),
      (176, "three_dimensional_reference_displays_info"), (177, "depth_representation_info"),
      (178, "multiview_scene_info"), (179, "multiview_acquisition_info"),
      (180, "multiview_view_position"), (181, "alternative_depth_info"),
      (255, "undefined in spec ITU-T H.265 v5 (02/2018)")]

/-- `ltn_sei_h265_lookupName`: a type without a name has the last one. -/
def ltnSeiH265LookupName (seiType : ℕ) : Option String :=
  match h265SEIs[seiType]?.join with
  | some name => some name
  | none => h265SEIs[255]?.join

/-- The loop of the two collectors; `none` is a write behind the array.  The type of an SEI
is the byte behind the NAL header of H.264. -/
def seiLoop (mem : List UInt8) (isSei : ℕ → Bool) (name : ℕ → Option String) :
    List NalHeader → List SeiHeader → Option (List SeiHeader)
  | [], a => some a
  | nal :: rest, a =>
      if isSei nal.nalType then
        let seiType := (mem.getD (nal.ptr + 4) 0).toNat
        if a.length < maxItems then
          seiLoop mem isSei name rest (a ++ [⟨nal.ptr, nal.lengthBytes, seiType, name seiType⟩])
        else none
      else seiLoop mem isSei name rest a

/-- `H264_NAL_TYPE_SEI`. -/
def h264NalTypeSei : ℕ := 6

/-- `ltn_sei_h264_find_headers`. -/
def ltnSeiH264FindHeaders (mem : List UInt8) (nals : List NalHeader) : Option (List SeiHeader) :=
  seiLoop mem (fun nalType ↦ nalType == h264NalTypeSei) ltnSeiH264LookupName nals []

/-- `ltn_sei_h265_find_headers`. -/
def ltnSeiH265FindHeaders (mem : List UInt8) (nals : List NalHeader) : Option (List SeiHeader) :=
  seiLoop mem (fun nalType ↦ nalType == 39 || nalType == 40) ltnSeiH265LookupName nals []

theorem length_hevcNals : hevcNals.length = 41 := by decide

theorem length_h264SEIs : h264SEIs.length = 65 := by decide

theorem length_h265SEIs : h265SEIs.length = 256 := by
  rw [h265SEIs, designated, List.length_map, List.length_range]
  decide +kernel

/-! ## The H.265 scanner -/

def headers (buf : List UInt8) : List ℕ :=
  (List.range (buf.length - 3)).filter fun i ↦ HeaderAt buf i

theorem mem_headers {buf : List UInt8} {i : ℕ} : i ∈ headers buf ↔ HeaderAt buf i := by
  rw [headers, List.mem_filter, List.mem_range, decide_eq_true_iff, and_iff_right_iff_imp]
  exact fun h ↦ Nat.lt_sub_of_add_lt h.1.2

/-- The loop puts what its scanner visits behind what it has, as long as there is room. -/
theorem h265HeadersLoop_spec (buf : List UInt8) (fuel : ℕ) :
    ∀ {offset : ℤ} {stop : ℕ} {l : List ℕ}, (offset + 1).toNat ≤ buf.length →
      buf.length < fuel + (offset + 1).toNat → l.length ≤ maxItems →
      (l.length + (scanFrom (ltnNalH265FindHeader buf) fuel offset).length ≤ maxItems →
        ∃ stop', h265HeadersLoop buf fuel offset (closed (h265Entry buf) stop l) =
          some (closed (h265Entry buf) stop'
            (l ++ scanFrom (ltnNalH265FindHeader buf) fuel offset))) ∧
      (maxItems < l.length + (scanFrom (ltnNalH265FindHeader buf) fuel offset).length →
        h265HeadersLoop buf fuel offset (closed (h265Entry buf) stop l) = none) := by
  induction fuel with
  | zero =>
      intro offset stop l hoffset hfuel
      omega
  | succ fuel ih =>
      intro offset stop l hoffset hfuel hroom
      have hfirst := findHeader_spec buf offset
      rw [scanFrom, h265HeadersLoop]
      cases hres : ltnNalH265FindHeader buf offset with
      | none =>
          refine ⟨fun _ ↦ ⟨stop, by simp only [List.append_nil]⟩, fun hlong ↦ ?_⟩
          simp only [List.length_nil] at hlong
          omega
      | some i =>
          rw [ltnNalH265FindHeader] at hres
          rw [hres] at hfirst
          have hi := hfirst.2.1.1.2
          have hle := hfirst.1
          simp only [List.length_cons, length_closed]
          by_cases hfull : l.length < maxItems
          · rw [if_pos hfull, setLastLength_closed fun _ ↦ rfl]
            have hclosed : closed (h265Entry buf) i l ++ [h265Entry buf i] =
                closed (h265Entry buf) i (l ++ [i]) := by
              rw [closed_snoc, Nat.sub_self]
              rfl
            have hnext := @ih i i (l ++ [i]) (by omega) (by omega) (by simpa using hfull)
            rw [List.length_append, List.length_singleton, ← List.append_cons,
              Nat.add_right_comm] at hnext
            rwa [hclosed, Nat.add_comm _ 1, ← Nat.add_assoc, Nat.add_right_comm]
          · rw [if_neg hfull]
            refine ⟨fun hshort ↦ ?_, fun _ ↦ rfl⟩
            omega

theorem scanFrom_headers (buf : List UInt8) :
    scanFrom (ltnNalH265FindHeader buf) (buf.length + 1) (-1) = headers buf := by
  have hbound : ∀ x, HeaderAt buf x → x < buf.length - 3 := fun x h ↦ Nat.lt_sub_of_add_lt h.1.2
  exact (scanFrom_visits (findHeader_spec buf) hbound (buf.length + 1) (-1) (by omega)).eq_filter
    hbound

/-- The scanner returns every NAL up to the next one, if there is room for all, and touches an
unset entry if there is none. -/
theorem ltnNalH265FindHeaders_eq (buf : List UInt8) :
    ltnNalH265FindHeaders buf =
      if (headers buf).length ≤ maxItems then
        some (closed (h265Entry buf) buf.length (headers buf), (headers buf).isEmpty)
      else none := by
  obtain ⟨hsome, hnone⟩ := @h265HeadersLoop_spec buf (buf.length + 1) (-1) 0 [] (by simp)
    (by simp) (Nat.zero_le _)
  rw [scanFrom_headers, List.length_nil, Nat.zero_add] at hsome hnone
  rw [List.nil_append] at hsome
  rw [ltnNalH265FindHeaders]
  by_cases hfit : (headers buf).length ≤ maxItems
  · obtain ⟨stop, hloop⟩ := hsome hfit
    have hempty : (closed (h265Entry buf) stop (headers buf)).isEmpty = (headers buf).isEmpty := by
      cases headers buf <;> rfl
    rw [← closed, hloop, Option.map_some, setLastLength_closed fun _ ↦ rfl, hempty, if_pos hfit]
  · rw [← closed, hnone (Nat.lt_of_not_le hfit), if_neg hfit, Option.map_none]

theorem tiles_headers (buf : List UInt8) :
    Tiles buf.length (closed (h265Entry buf) buf.length (headers buf)) :=
  tiles_filter_range (fun _ ↦ rfl) (Nat.sub_le _ _) _

/-- The H.265 scanner returns the NALs of a buffer, in order and without a gap up to its
end, touches no entry that was never set, and looks for no name outside the table. -/
def H265Inside (buf : List UInt8) : Prop :=
  ∃ entries, ltnNalH265FindHeaders buf = some (entries, false) ∧
    entries.map NalHeader.ptr = headers buf ∧ Tiles buf.length entries ∧
    ∀ e ∈ entries, e.nalType = h265NalTypeAt buf e.ptr ∧ e.nalType < hevcNals.length

theorem h265Inside_iff (buf : List UInt8) :
    H265Inside buf ↔ headers buf ≠ [] ∧ (headers buf).length ≤ maxItems ∧
      ∀ i ∈ headers buf, h265NalTypeAt buf i ≤ 40 := by
  have hptr : ∀ i, (h265Entry buf i).ptr = i := fun _ ↦ rfl
  have heq := ltnNalH265FindHeaders_eq buf
  constructor
  · rintro ⟨entries, hfound, hptrs, -, htypes⟩
    rw [hfound] at heq
    split_ifs at heq with hfit
    have hempty := congrArg Prod.snd (Option.some.inj heq)
    refine ⟨List.isEmpty_eq_false_iff.mp hempty.symm, hfit, fun i hi ↦ ?_⟩
    rw [← hptrs] at hi
    obtain ⟨e, he, rfl⟩ := List.mem_map.mp hi
    obtain ⟨htype, hlt⟩ := htypes e he
    rw [htype, length_hevcNals] at hlt
    exact Nat.le_of_lt_succ hlt
  · rintro ⟨hne, hfit, htypes⟩
    rw [if_pos hfit, List.isEmpty_eq_false_iff.mpr hne] at heq
    refine ⟨_, heq, map_ptr_closed hptr _, tiles_headers buf, fun e he ↦ ?_⟩
    obtain ⟨i, hi, n, rfl⟩ := exists_of_mem_closed he
    exact ⟨rfl, length_hevcNals ▸ Nat.lt_succ_of_le (htypes i hi)⟩

/-! ## The SEI collectors -/

section Sei

variable {mem : List UInt8} {isSei : ℕ → Bool} {name : ℕ → Option String}

def seiHeader (mem : List UInt8) (name : ℕ → Option String) (nal : NalHeader) : SeiHeader :=
  ⟨nal.ptr, nal.lengthBytes, (mem.getD (nal.ptr + 4) 0).toNat,
    name (mem.getD (nal.ptr + 4) 0).toNat⟩

/-- The loop puts the SEI headers behind what it has, as long as there is room. -/
theorem seiLoop_eq (nals : List NalHeader) :
    ∀ {a : List SeiHeader}, a.length ≤ maxItems →
      seiLoop mem isSei name nals a =
        if a.length + (nals.filter fun nal ↦ isSei nal.nalType).length ≤ maxItems then
          some (a ++ (nals.filter fun nal ↦ isSei nal.nalType).map (seiHeader mem name))
        else none := by
  induction nals with
  | nil =>
      intro a hroom
      simp [seiLoop, hroom]
  | cons nal rest ih =>
      intro a hroom
      rw [seiLoop, List.filter_cons]
      cases hsei : isSei nal.nalType with
      | false => exact ih hroom
      | true =>
          simp only [if_true]
          by_cases hfull : a.length < maxItems
          · rw [if_pos hfull, ih (by simpa using hfull), List.length_append, List.length_singleton,
              List.length_cons, List.map_cons, ← List.append_cons, Nat.add_assoc, Nat.add_comm 1]
            rfl
          · rw [if_neg hfull, if_neg]
            rw [List.length_cons]
            omega

/-- A collector stays inside its array, and looks for no name outside its table. -/
def SeiInside (result : Option (List SeiHeader)) (index : ℕ → ℕ) (table : List (Option String)) :
    Prop :=
  ∃ entries, result = some entries ∧ ∀ e ∈ entries, index e.seiType < table.length

theorem seiInside_iff {nals : List NalHeader} {index : ℕ → ℕ} {table : List (Option String)}
    (hindex : ∀ b : UInt8, index b.toNat < table.length) :
    SeiInside (seiLoop mem isSei name nals []) index table ↔
      (nals.filter fun nal ↦ isSei nal.nalType).length ≤ maxItems := by
  have heq := @seiLoop_eq mem isSei name nals [] (Nat.zero_le _)
  rw [List.length_nil, Nat.zero_add, List.nil_append] at heq
  rw [SeiInside, heq]
  constructor
  · rintro ⟨entries, hfound, -⟩
    split_ifs at hfound with hfit
    exact hfit
  · intro hfit
    refine ⟨_, if_pos hfit, fun e he ↦ ?_⟩
    obtain ⟨nal, -, rfl⟩ := List.mem_map.mp he
    exact hindex _

end Sei

theorem h264SeiIndex_lt (seiType : ℕ) : h264SeiIndex seiType < h264SEIs.length := by
  rw [length_h264SEIs, h264SeiIndex, maxH264Sei]
  split_ifs <;> omega

/-- Exactly when the three collectors stay inside their arrays and tables. -/
theorem collectors_inside_iff (buf mem : List UInt8) (nals : List NalHeader) :
    (H265Inside buf ↔ headers buf ≠ [] ∧ (headers buf).length ≤ 64 ∧
      ∀ i ∈ headers buf, h265NalTypeAt buf i ≤ 40) ∧
    (SeiInside (ltnSeiH264FindHeaders mem nals) h264SeiIndex h264SEIs ↔
      (nals.filter fun nal ↦ nal.nalType == h264NalTypeSei).length ≤ 64) ∧
    (SeiInside (ltnSeiH265FindHeaders mem nals) id h265SEIs ↔
      (nals.filter fun nal ↦ nal.nalType == 39 || nal.nalType == 40).length ≤ 64) := by
  refine ⟨h265Inside_iff buf, ?_, ?_⟩
  · exact seiInside_iff fun b ↦ h264SeiIndex_lt b.toNat
  · exact seiInside_iff fun b ↦ length_h265SEIs ▸ b.toNat_lt

/-- Memory with 65 SEI NALs, each with a byte behind its type. -/
def seiMemory (header : UInt8) : List UInt8 :=
  (List.replicate 65 [0, 0, 1, header, 5, 0]).flatten

def seiNals (nalType : ℕ) : List NalHeader :=
  (List.range 65).map fun k ↦ ⟨6 * k, 6, nalType, none⟩

/-- A buffer without a start code, a NAL of type 63, and an array of 65 SEI NALs. -/
theorem collectors_leave :
    ¬H265Inside [] ∧ ¬H265Inside [0, 0, 1, 0x7e] ∧
      ¬SeiInside (ltnSeiH264FindHeaders (seiMemory 0x06) (seiNals 6)) h264SeiIndex h264SEIs ∧
      ¬SeiInside (ltnSeiH265FindHeaders (seiMemory 0x4e) (seiNals 39)) id h265SEIs := by
  refine ⟨?_, ?_, ?_, ?_⟩
  · rw [h265Inside_iff]
    exact fun h ↦ h.1 rfl
  · rw [h265Inside_iff]
    decide
  · rintro ⟨entries, hfound, -⟩
    rw [show ltnSeiH264FindHeaders (seiMemory 0x06) (seiNals 6) = none by decide +kernel] at hfound
    cases hfound
  · rintro ⟨entries, hfound, -⟩
    rw [show ltnSeiH265FindHeaders (seiMemory 0x4e) (seiNals 39) = none by decide +kernel]
      at hfound
    cases hfound

end LtnTsTools.Nal
