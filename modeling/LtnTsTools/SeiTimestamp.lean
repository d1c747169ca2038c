import LtnTsTools.CTypes
import LtnTsTools.Memmem
import LtnTsTools.PartialMachine
import LtnTsTools.Region

/-!
# Timestamps in SEI payloads

The records of `sei-timestamp.c`: a UUID and nine numbers, each cut in two by delimiters, and
the query of `probes.c` that looks for such a record in a buffer.  `none` is an access outside
of the buffer.
-/

namespace LtnTsTools.SeiTimestamp

open Nal Occurrence PartialMachine Region

def ltnUuidSeiTimestamp : List UInt8 :=
  [0x59, 0x96, 0xFF, 0x28, 0x17, 0xCA, 0x41, 0x96, 0x8D, 0xE3, 0xE5, 0x3F, 0xE2, 0xF9, 0x92, 0xAE]

/-- `SEI_BIT_DELIMITER`. -/
def seiBitDelimiter : UInt8 := 0x81

/-- `SEI_TIMESTAMP_FIELD_COUNT`. -/
def fieldCount : ℕ := 9

/-- `SEI_TIMESTAMP_PAYLOAD_LENGTH`. -/
def payloadLength : ℕ := ltnUuidSeiTimestamp.length + fieldCount * 6

/-- `sei_timestamp_init`: the result, and the buffer. -/
def seiTimestampInit (buf : List UInt8) : ℤ × List UInt8 :=
  if buf.length < payloadLength then (-1, buf)
  else
    let cleared := List.replicate buf.length 0
    (0, ltnUuidSeiTimestamp ++ cleared.drop ltnUuidSeiTimestamp.length)

def fieldAt (nr : ℕ) : ℕ := ltnUuidSeiTimestamp.length + (nr - 1) * 6

def fieldBytes (value : UInt32) : List UInt8 :=
  [(value >>> 24 &&& 0xff).toUInt8, (value >>> 16 &&& 0xff).toUInt8, seiBitDelimiter,
    (value >>> 8 &&& 0xff).toUInt8, (value >>> 0 &&& 0xff).toUInt8, seiBitDelimiter]

/-- `sei_timestamp_field_set`: the result, and the buffer. -/
def seiTimestampFieldSet (buffer : List UInt8) (lengthBytes : ℤ) (nr : ℕ) (value : UInt32) :
    Option (ℤ × List UInt8) :=
  if nr < 1 ∨ nr > fieldCount then some (-1, buffer)
  else if lengthBytes - fieldAt nr < 6 then some (-1, buffer)
  else (store buffer (fieldAt nr) (fieldBytes value)).map ((0, ·))

/-- `sei_timestamp_field_get`, which does not look at the length: the result, and what is
found in `value`. -/
def seiTimestampFieldGet (buffer : List UInt8) (nr : ℕ) (value : UInt32) : Option (ℤ × UInt32) :=
  if nr < 1 ∨ nr > fieldCount then some (-1, value)
  else
    let p := fieldAt nr
    match buffer[p]?, buffer[p + 1]?, buffer[p + 3]?, buffer[p + 4]? with
    | some b0, some b1, some b3, some b4 =>
        some (0, b0.toUInt32 <<< 24 ||| b1.toUInt32 <<< 16 ||| b3.toUInt32 <<< 8 |||
          b4.toUInt32 <<< 0)
    | _, _, _, _ => none

/-! ## Fields as registers -/

/-- A call of `sei_timestamp_field_set`; the length is what its caller says. -/
structure FieldSet where
  lengthBytes : ℤ
  nr : ℕ
  value : UInt32
deriving DecidableEq

/-- The call is for one of the nine fields, and the length leaves room for it. -/
def FieldSet.Fits (call : FieldSet) : Prop :=
  1 ≤ call.nr ∧ call.nr ≤ 9 ∧ 16 + call.nr * 6 ≤ call.lengthBytes

instance : DecidablePred FieldSet.Fits := fun _ ↦ inferInstanceAs (Decidable (_ ∧ _ ∧ _))

def setStep (buf : List UInt8) (call : FieldSet) : Option (List UInt8 × ℤ) :=
  (seiTimestampFieldSet buf call.lengthBytes call.nr call.value).map Prod.swap

/-- The value of the last call that fits and is for the given field. -/
def lastSet (calls : List FieldSet) (nr : ℕ) : Option UInt32 :=
  (calls.filter fun call ↦ call.Fits ∧ call.nr = nr).getLast?.map FieldSet.value

theorem lastSet_concat_of_fits {call : FieldSet} (h : call.Fits) (calls : List FieldSet) :
    lastSet (calls ++ [call]) = Function.update (lastSet calls) call.nr (some call.value) := by
  funext nr
  by_cases hnr : nr = call.nr
  · simp [lastSet, hnr, h]
  · simp [lastSet, hnr, Ne.symm hnr]

theorem lastSet_concat_of_not_fits {call : FieldSet} (h : ¬call.Fits) (calls : List FieldSet) :
    lastSet (calls ++ [call]) = lastSet calls := by
  funext nr
  simp [lastSet, h]

/-- The bytes of a field that may not have been set yet. -/
def shownAs : Option UInt32 → List UInt8
  | none => List.replicate 6 0
  | some value => fieldBytes value

/-- A buffer that shows a UUID and nine registers. -/
structure Shows (buf : List UInt8) (last : ℕ → Option UInt32) : Prop where
  room : payloadLength ≤ buf.length
  uuid : buf.take 16 = ltnUuidSeiTimestamp
  field : ∀ nr, 1 ≤ nr → nr ≤ 9 → ∀ k < 6, buf[fieldAt nr + k]? = (shownAs (last nr))[k]?

theorem length_fieldBytes (value : UInt32) : (fieldBytes value).length = 6 := rfl

theorem fieldAt_eq (nr : ℕ) : fieldAt nr = 16 + (nr - 1) * 6 := rfl

theorem payloadLength_eq : payloadLength = 70 := rfl

theorem shows_init {buf : List UInt8} (h : payloadLength ≤ buf.length) :
    Shows (seiTimestampInit buf).2 fun _ ↦ none := by
  rw [seiTimestampInit, if_neg (not_lt.mpr h)]
  have hlen : ltnUuidSeiTimestamp.length = 16 := rfl
  refine ⟨?_, ?_, fun nr hnr hnr' k hk ↦ ?_⟩
  · simp only [List.length_append, List.length_drop, List.length_replicate]
    omega
  · exact List.take_left' hlen
  · rw [payloadLength_eq] at h
    rw [fieldAt_eq, List.getElem?_append_right (by omega), hlen, List.drop_replicate, shownAs,
      List.getElem?_replicate_of_lt (by omega), List.getElem?_replicate_of_lt hk]

theorem setStep_of_not_fits {call : FieldSet} (h : ¬call.Fits) (buf : List UInt8) :
    setStep buf call = some (buf, -1) := by
  have hat := fieldAt_eq call.nr
  rw [setStep, seiTimestampFieldSet]
  by_cases hnr : call.nr < 1 ∨ call.nr > fieldCount
  · rw [if_pos hnr]
    rfl
  · have hroom : call.lengthBytes - fieldAt call.nr < 6 := by
      rw [FieldSet.Fits] at h
      rw [fieldCount] at hnr
      omega
    rw [if_neg hnr, if_pos hroom]
    rfl

theorem setStep_of_fits {buf : List UInt8} {last : ℕ → Option UInt32} (h : Shows buf last)
    {call : FieldSet} (hfits : call.Fits) :
    ∃ buf', setStep buf call = some (buf', 0) ∧
      store buf (fieldAt call.nr) (fieldBytes call.value) = some buf' := by
  obtain ⟨hlow, hhigh, hlength⟩ := hfits
  have hat := fieldAt_eq call.nr
  have hroom := h.room
  rw [payloadLength_eq] at hroom
  have hnumber : ¬(call.nr < 1 ∨ call.nr > fieldCount) := by
    rw [fieldCount]
    omega
  have hinside : fieldAt call.nr + (fieldBytes call.value).length ≤ buf.length := by
    rw [length_fieldBytes]
    omega
  obtain ⟨buf', hstore⟩ := Option.isSome_iff_exists.mp (store_isSome_iff.mpr hinside)
  refine ⟨buf', ?_, hstore⟩
  rw [setStep, seiTimestampFieldSet, if_neg hnumber, if_neg (by omega), hstore]
  rfl

theorem Shows.store {buf buf' : List UInt8} {last : ℕ → Option UInt32} (h : Shows buf last)
    {nr : ℕ} (hnr : 1 ≤ nr) {value : UInt32}
    (hstore : Region.store buf (fieldAt nr) (fieldBytes value) = some buf') :
    Shows buf' (Function.update last nr (some value)) := by
  have hat := fieldAt_eq nr
  have hlen := length_fieldBytes value
  refine ⟨(length_of_store hstore).symm ▸ h.room, ?_, fun nr' hlow hhigh k hk ↦ ?_⟩
  · rw [← h.uuid]
    refine List.ext_getElem? fun i ↦ ?_
    rw [List.getElem?_take, List.getElem?_take]
    split_ifs with hi
    · rw [getElem?_of_store hstore, if_neg (by omega)]
    · rfl
  · have hat' := fieldAt_eq nr'
    by_cases hsame : nr' = nr
    · rw [hsame, Function.update_self, getElem?_of_store hstore, if_pos (by omega),
        Nat.add_sub_cancel_left]
      rfl
    · rw [Function.update_of_ne hsame, getElem?_of_store hstore, if_neg (by omega)]
      exact h.field nr' hlow hhigh k hk

theorem toUInt8_and_mask (v : UInt32) : (v &&& 0xff).toUInt8 = v.toUInt8 := by
  apply UInt8.toNat_inj.mp
  have hmask : (0xff : UInt32).toNat = 2 ^ 8 - 1 := rfl
  rw [UInt32.toNat_toUInt8, UInt32.toNat_toUInt8, UInt32.toNat_and, hmask,
    Nat.and_two_pow_sub_one_eq_mod, Nat.mod_mod]

theorem toNat_or_bytes (b0 b1 b3 b4 : UInt8) :
    (b0.toUInt32 <<< 24 ||| b1.toUInt32 <<< 16 ||| b3.toUInt32 <<< 8 ||| b4.toUInt32 <<< 0).toNat =
      b0.toNat * 2 ^ 24 + b1.toNat * 2 ^ 16 + b3.toNat * 2 ^ 8 + b4.toNat := by
  have h0 := b0.toNat_lt
  have h1 := b1.toNat_lt
  have h3 := b3.toNat_lt
  have h4 := b4.toNat_lt
  have e0 : b0.toNat * 2 ^ 24 % 2 ^ 32 = b0.toNat * 2 ^ 24 := Nat.mod_eq_of_lt (by omega)
  have e1 : b1.toNat * 2 ^ 16 % 2 ^ 32 = b1.toNat * 2 ^ 16 := Nat.mod_eq_of_lt (by omega)
  have e3 : b3.toNat * 2 ^ 8 % 2 ^ 32 = b3.toNat * 2 ^ 8 := Nat.mod_eq_of_lt (by omega)
  have e4 : b4.toNat * 2 ^ 0 % 2 ^ 32 = b4.toNat := by omega
  -- each byte lies below the ones in front of it, so that nothing overlaps
  have j1 := Nat.two_pow_add_eq_or_of_lt (i := 24) (b := b1.toNat * 2 ^ 16) (by omega) b0.toNat
  have j3 := Nat.two_pow_add_eq_or_of_lt (i := 16) (b := b3.toNat * 2 ^ 8) (by omega)
    (b0.toNat * 2 ^ 8 + b1.toNat)
  have j4 := Nat.two_pow_add_eq_or_of_lt (i := 8) (b := b4.toNat) (by omega)
    (b0.toNat * 2 ^ 16 + b1.toNat * 2 ^ 8 + b3.toNat)
  calc
    _ = b0.toNat * 2 ^ 24 ||| b1.toNat * 2 ^ 16 ||| b3.toNat * 2 ^ 8 ||| b4.toNat := by
      simp only [UInt32.toNat_or, UInt32.toNat_shiftLeft, UInt8.toNat_toUInt32,
        UInt32.reduceToNat, Nat.reduceMod, Nat.shiftLeft_eq]
      rw [e0, e1, e3, e4]
    _ = 2 ^ 16 * (b0.toNat * 2 ^ 8 + b1.toNat) ||| b3.toNat * 2 ^ 8 ||| b4.toNat := by
      rw [Nat.mul_comm b0.toNat, ← j1]
      congr 2
      ring
    _ = 2 ^ 8 * (b0.toNat * 2 ^ 16 + b1.toNat * 2 ^ 8 + b3.toNat) ||| b4.toNat := by
      rw [← j3]
      congr 1
      ring
    _ = b0.toNat * 2 ^ 24 + b1.toNat * 2 ^ 16 + b3.toNat * 2 ^ 8 + b4.toNat := by
      rw [← j4]
      ring

theorem value_of_fieldBytes (value : UInt32) :
    (value >>> 24 &&& 0xff).toUInt8.toUInt32 <<< 24 |||
      (value >>> 16 &&& 0xff).toUInt8.toUInt32 <<< 16 |||
      (value >>> 8 &&& 0xff).toUInt8.toUInt32 <<< 8 |||
      (value >>> 0 &&& 0xff).toUInt8.toUInt32 <<< 0 = value := by
  have hv := value.toNat_lt
  apply UInt32.toNat_inj.mp
  rw [toNat_or_bytes]
  simp only [toUInt8_and_mask, UInt32.toNat_toUInt8, UInt32.toNat_shiftRight, UInt32.reduceToNat,
    Nat.reduceMod, Nat.shiftRight_eq_div_pow]
  omega

theorem Shows.get {buf : List UInt8} {last : ℕ → Option UInt32} (h : Shows buf last) {nr : ℕ}
    (hnr : 1 ≤ nr ∧ nr ≤ 9) (value : UInt32) :
    seiTimestampFieldGet buf nr value = some (0, (last nr).getD 0) := by
  have hnumber : ¬(nr < 1 ∨ nr > fieldCount) := by
    rw [fieldCount]
    omega
  have hbyte := h.field nr hnr.1 hnr.2
  have h0 := hbyte 0 (by norm_num)
  rw [Nat.add_zero] at h0
  rw [seiTimestampFieldGet, if_neg hnumber]
  simp only [h0, hbyte 1 (by norm_num), hbyte 3 (by norm_num), hbyte 4 (by norm_num)]
  cases last nr with
  | none => rfl
  | some v => exact congrArg (fun v ↦ some (0, v)) (value_of_fieldBytes v)

/-- What must not stand in a NAL: 00 00 and a byte up to 3. -/
def EmulatesCode (bytes : List UInt8) (i : ℕ) : Prop :=
  bytes[i]? = some 0 ∧ bytes[i + 1]? = some 0 ∧ ∃ b ≤ 3, bytes[i + 2]? = some b

/-- When all fields are set, every third byte behind the UUID is a delimiter. -/
theorem Shows.delimiter {buf : List UInt8} {last : ℕ → Option UInt32} (h : Shows buf last)
    (hall : ∀ nr, 1 ≤ nr → nr ≤ 9 → (last nr).isSome) {i : ℕ} (hlow : 16 ≤ i) (hhigh : i < 70)
    (hthird : (i - 16) % 3 = 2) : buf[i]? = some seiBitDelimiter := by
  have hat := fieldAt_eq ((i - 16) / 6 + 1)
  obtain ⟨v, hv⟩ := Option.isSome_iff_exists.mp
    (hall ((i - 16) / 6 + 1) (by omega) (by omega))
  have hbyte := h.field ((i - 16) / 6 + 1) (by omega) (by omega) ((i - 16) % 6) (by omega)
  rw [hv, show fieldAt ((i - 16) / 6 + 1) + (i - 16) % 6 = i by omega] at hbyte
  rw [hbyte]
  rcases (by omega : (i - 16) % 6 = 2 ∨ (i - 16) % 6 = 5) with hk | hk
  · rw [hk]
    rfl
  · rw [hk]
    rfl

theorem Shows.not_emulatesCode {buf : List UInt8} {last : ℕ → Option UInt32} (h : Shows buf last)
    (hall : ∀ nr, 1 ≤ nr → nr ≤ 9 → (last nr).isSome) (i : ℕ) :
    ¬EmulatesCode (buf.take payloadLength) i := by
  rintro ⟨h0, h1, b, hb, h2⟩
  simp only [payloadLength_eq, List.getElem?_take] at h0 h1 h2
  split_ifs at h0 h1 h2
  rcases Nat.lt_or_ge i 16 with huuid | hfields
  · -- no byte of the UUID is zero
    have hnonzero : ∀ i < 16, ltnUuidSeiTimestamp[i]? ≠ some 0 := by decide
    apply hnonzero i huuid
    rw [← h.uuid, List.getElem?_take_of_lt huuid, h0]
  · -- one of the three is a delimiter
    rcases (by omega : (i - 16) % 3 = 2 ∨ (i + 1 - 16) % 3 = 2 ∨ (i + 2 - 16) % 3 = 2)
      with hthird | hthird | hthird
    · rw [h.delimiter hall hfields (by omega) hthird] at h0
      exact absurd h0 (by decide)
    · rw [h.delimiter hall (by omega) (by omega) hthird] at h1
      exact absurd h1 (by decide)
    · rw [h.delimiter hall (by omega) (by omega) hthird] at h2
      obtain rfl := Option.some.inj h2
      exact absurd hb (by decide)

/-- What calls make of a buffer that was initialised: each that fits succeeds, the others
fail, and the fields show what was set last. -/
theorem exists_trace_setStep {buf : List UInt8} (h : payloadLength ≤ buf.length)
    (calls : List FieldSet) :
    ∃ buf', trace setStep (seiTimestampInit buf).2 calls =
        some (buf', calls.map fun call ↦ if call.Fits then 0 else -1) ∧
      Shows buf' (lastSet calls) := by
  induction calls using List.reverseRecOn with
  | nil => exact ⟨_, rfl, shows_init h⟩
  | append_singleton calls call ih =>
      obtain ⟨buf', htrace, hshows⟩ := ih
      rw [List.map_append]
      by_cases hfits : call.Fits
      · obtain ⟨buf'', hstep, hstore⟩ := setStep_of_fits hshows hfits
        refine ⟨buf'', ?_, ?_⟩
        · rw [List.map_singleton, if_pos hfits]
          exact trace_concat htrace hstep
        · rw [lastSet_concat_of_fits hfits]
          exact hshows.store hfits.1 hstore
      · refine ⟨buf', ?_, ?_⟩
        · rw [List.map_singleton, if_neg hfits]
          exact trace_concat htrace (setStep_of_not_fits hfits buf')
        · rw [lastSet_concat_of_not_fits hfits]
          exact hshows

/-- After any calls on a buffer that was initialised: the calls that fit, and no others, have
succeeded; every field gives back the value it was last set to with success, or zero; the UUID
is where it was; a call that fails changes nothing; and when all fields have been set nothing
in the payload needs emulation prevention. -/
theorem fields_are_registers (buf : List UInt8) (hinit : (seiTimestampInit buf).1 = 0)
    (calls : List FieldSet) :
    ∃ buf', trace setStep (seiTimestampInit buf).2 calls =
        some (buf', calls.map fun call ↦ if call.Fits then 0 else -1) ∧
      (∀ nr, 1 ≤ nr ∧ nr ≤ 9 → ∀ value,
        seiTimestampFieldGet buf' nr value = some (0, (lastSet calls nr).getD 0)) ∧
      buf'.take 16 = ltnUuidSeiTimestamp ∧
      (∀ lengthBytes nr value r, seiTimestampFieldSet buf' lengthBytes nr value = some r →
        r.1 < 0 → r.2 = buf') ∧
      ((∀ nr, 1 ≤ nr → nr ≤ 9 → (lastSet calls nr).isSome) →
        ∀ i, ¬EmulatesCode (buf'.take payloadLength) i) := by
  have hlen : payloadLength ≤ buf.length := by
    by_contra hshort
    rw [seiTimestampInit, if_pos (not_le.mp hshort)] at hinit
    exact absurd hinit (show (-1 : ℤ) ≠ 0 by decide)
  obtain ⟨buf', htrace, hshows⟩ := exists_trace_setStep hlen calls
  refine ⟨buf', htrace, fun nr hnr value ↦ hshows.get hnr value, hshows.uuid, ?_,
    hshows.not_emulatesCode⟩
  intro lengthBytes nr value r hset hfails
  have hstep : setStep buf' ⟨lengthBytes, nr, value⟩ = some (r.2, r.1) := by
    rw [setStep, hset]
    rfl
  by_cases hfits : (⟨lengthBytes, nr, value⟩ : FieldSet).Fits
  · obtain ⟨buf'', hyes, -⟩ := setStep_of_fits hshows hfits
    obtain ⟨-, hzero⟩ := Prod.mk.inj (Option.some.inj (hyes.symm.trans hstep))
    omega
  · have hno := Option.some.inj ((setStep_of_not_fits hfits buf').symm.trans hstep)
    exact (Prod.mk.inj hno).1.symm

/-- Field 2 is set twice, field 9 once, and once more with a byte too few; field 10 is none. -/
def sampleSets : List FieldSet :=
  [⟨70, 2, 0x01020304⟩, ⟨70, 9, 7⟩, ⟨70, 10, 5⟩, ⟨28, 2, 6⟩, ⟨69, 9, 8⟩]

def zeroSets : List FieldSet := (List.range 9).map fun i ↦ ⟨70, i + 1, 0⟩

theorem fields_are_registers_sample :
    (∃ buf', trace setStep (seiTimestampInit (List.replicate 70 1)).2 sampleSets =
        some (buf', [0, 0, -1, 0, -1]) ∧
      seiTimestampFieldGet buf' 1 3 = some (0, 0) ∧ seiTimestampFieldGet buf' 2 3 = some (0, 6) ∧
      seiTimestampFieldGet buf' 9 3 = some (0, 7) ∧ buf'.take 16 = ltnUuidSeiTimestamp) ∧
    ∃ buf', trace setStep (seiTimestampInit (List.replicate 80 1)).2 zeroSets =
        some (buf', List.replicate 9 0) ∧
      ∀ i, ¬EmulatesCode (buf'.take payloadLength) i := by
  obtain ⟨buf₁, htrace₁, hget, huuid, -, -⟩ :=
    fields_are_registers (List.replicate 70 1) (by decide) sampleSets
  obtain ⟨buf₂, htrace₂, -, -, -, hcode⟩ :=
    fields_are_registers (List.replicate 80 1) (by decide) zeroSets
  exact ⟨⟨buf₁, htrace₁, hget 1 (by decide) 3, hget 2 (by decide) 3, hget 9 (by decide) 3, huuid⟩,
    buf₂, htrace₂, hcode (by decide)⟩

/-! ## The query -/

/-- `ltn_uuid_find`. -/
def ltnUuidFind (buf : List UInt8) : Option ℤ :=
  if buf.length < payloadLength then some (-1)
  else (ltnMemmem buf ltnUuidSeiTimestamp).map fun result ↦
    match result with
    | some i => i
    | none => -1

/-- `sei_timestamp_value_timeval_query`; `secs` and `usecs` are what its variables hold before
they are set. -/
def seiTimestampValueTimevalQuery (buffer : List UInt8) (nr : ℕ) (secs usecs : UInt32) :
    Option Timeval :=
  (seiTimestampFieldGet buffer nr secs).bind fun first ↦
    (seiTimestampFieldGet buffer (nr + 1) usecs).map fun second ↦
      ⟨first.2.toNat, second.2.toNat⟩

/-- `struct ltnencoder_sei_ctx_s`. -/
structure LtnencoderSeiCtx where
  latencyMs : ℤ

/-- `ltntstools_probe_ltnencoder_sei_timestamp_query`, at the time `walltimeLocal`. -/
def probeLtnencoderSeiTimestampQuery (ctx : LtnencoderSeiCtx) (buf : List UInt8)
    (walltimeLocal : Timeval) (secs usecs : UInt32) : Option (ℤ × LtnencoderSeiCtx) :=
  (ltnUuidFind buf).bind fun offset ↦
    if offset ≥ 0 then
      (seiTimestampValueTimevalQuery (buf.drop offset.toNat) 2 secs usecs).map fun entry ↦
        (0, ⟨timevalSubtractMs walltimeLocal entry⟩)
    else some (-1, ctx)

section Query

variable {ctx : LtnencoderSeiCtx} {buf : List UInt8} {now : Timeval} {secs usecs : UInt32}

/-- A buffer that is not refused has room for `n` bytes from the first UUID on. -/
def RoomFor (n : ℕ) (buf : List UInt8) : Prop :=
  payloadLength ≤ buf.length →
    ∀ o, FirstFrom (OccursAt ltnUuidSeiTimestamp buf) 0 (some o) → o + n ≤ buf.length

/-- The query reads no byte behind the buffer, and fails where the second and the third field
of the first UUID do not both lie in it. -/
def AnswersInside (ctx : LtnencoderSeiCtx) (buf : List UInt8) (now : Timeval)
    (secs usecs : UInt32) : Prop :=
  ∃ r, probeLtnencoderSeiTimestampQuery ctx buf now secs usecs = some r ∧
    ∀ o, FirstFrom (OccursAt ltnUuidSeiTimestamp buf) 0 (some o) →
      buf.length < o + (fieldAt 3 + 6) → r.1 < 0

theorem fieldGet_isSome_iff {nr : ℕ} (hnr : 1 ≤ nr ∧ nr ≤ 9) (value : UInt32) :
    (seiTimestampFieldGet buf nr value).isSome ↔ fieldAt nr + 5 ≤ buf.length := by
  have hnumber : ¬(nr < 1 ∨ nr > fieldCount) := by
    rw [fieldCount]
    omega
  rw [seiTimestampFieldGet, if_neg hnumber]
  by_cases hin : fieldAt nr + 5 ≤ buf.length
  · simp only [List.getElem?_eq_getElem (show fieldAt nr < buf.length by omega),
      List.getElem?_eq_getElem (show fieldAt nr + 1 < buf.length by omega),
      List.getElem?_eq_getElem (show fieldAt nr + 3 < buf.length by omega),
      List.getElem?_eq_getElem (show fieldAt nr + 4 < buf.length by omega)]
    exact iff_of_true rfl hin
  · have hlast : buf[fieldAt nr + 4]? = none := List.getElem?_eq_none (by omega)
    refine iff_of_false ?_ hin
    simp only [hlast]
    cases buf[fieldAt nr]? <;> cases buf[fieldAt nr + 1]? <;> cases buf[fieldAt nr + 3]? <;> simp

theorem timevalQuery_isSome_iff :
    (seiTimestampValueTimevalQuery buf 2 secs usecs).isSome ↔ 33 ≤ buf.length := by
  have hthird := @fieldGet_isSome_iff buf 3 (by norm_num) usecs
  have hat2 : fieldAt 2 = 22 := rfl
  have hat3 : fieldAt 3 = 28 := rfl
  rw [seiTimestampValueTimevalQuery]
  cases hsecond : seiTimestampFieldGet buf 2 secs with
  | none =>
      have hno := (not_congr (@fieldGet_isSome_iff buf 2 (by norm_num) secs)).mp (by simp [hsecond])
      refine iff_of_false Bool.false_ne_true ?_
      omega
  | some first =>
      rw [Option.bind_some, Option.isSome_map, hthird, hat3]

/-- A buffer is refused, has no UUID, or is read behind its first one. -/
theorem query_cases (ctx : LtnencoderSeiCtx) (buf : List UInt8) (now : Timeval)
    (secs usecs : UInt32) :
    (¬(payloadLength ≤ buf.length ∧
        ∃ o, FirstFrom (OccursAt ltnUuidSeiTimestamp buf) 0 (some o)) ∧
      probeLtnencoderSeiTimestampQuery ctx buf now secs usecs = some (-1, ctx)) ∨
    payloadLength ≤ buf.length ∧ ∃ o,
      FirstFrom (OccursAt ltnUuidSeiTimestamp buf) 0 (some o) ∧
      probeLtnencoderSeiTimestampQuery ctx buf now secs usecs =
        (seiTimestampValueTimevalQuery (buf.drop o) 2 secs usecs).map fun entry ↦
          (0, ⟨timevalSubtractMs now entry⟩) := by
  rw [probeLtnencoderSeiTimestampQuery, ltnUuidFind]
  by_cases hlen : payloadLength ≤ buf.length
  · obtain ⟨r, hfound, hfirst⟩ := ltnMemmem_spec
      (show 2 ≤ ltnUuidSeiTimestamp.length by decide) buf
    rw [if_neg (not_lt.mpr hlen), hfound, Option.map_some, Option.bind_some]
    cases r with
    | none => exact .inl ⟨fun ⟨_, o, ho⟩ ↦ hfirst o (Nat.zero_le o) ho.2.1, rfl⟩
    | some o => exact .inr ⟨hlen, o, hfirst, if_pos (Int.natCast_nonneg o)⟩
  · rw [if_pos (not_le.mp hlen)]
    exact .inl ⟨fun h ↦ hlen h.1, rfl⟩

theorem query_isSome_iff :
    (probeLtnencoderSeiTimestampQuery ctx buf now secs usecs).isSome ↔ RoomFor 33 buf := by
  rcases query_cases ctx buf now secs usecs with ⟨hno, hquery⟩ | ⟨hlen, o, hfirst, hquery⟩
  · rw [hquery]
    exact iff_of_true rfl fun hlen o ho ↦ absurd ⟨hlen, o, ho⟩ hno
  · have hstart := hfirst.2.1.le_length (by decide)
    rw [hquery, Option.isSome_map, timevalQuery_isSome_iff, List.length_drop]
    constructor
    · rintro hle _ o' ho'
      rw [← hfirst.unique ho']
      omega
    · intro hroom
      have hle := hroom hlen o hfirst
      omega

end Query

/-- The query stays in its buffer exactly when the first UUID has the bytes of the third field
behind it, and fails in time exactly when it has the whole field. -/
theorem query_inside_iff (ctx : LtnencoderSeiCtx) (buf : List UInt8) (now : Timeval)
    (secs usecs : UInt32) :
    ((probeLtnencoderSeiTimestampQuery ctx buf now secs usecs).isSome ↔ RoomFor 33 buf) ∧
      (AnswersInside ctx buf now secs usecs ↔ RoomFor 34 buf) := by
  refine ⟨query_isSome_iff, ?_⟩
  have hend : fieldAt 3 + 6 = 34 := rfl
  rcases query_cases ctx buf now secs usecs with ⟨hno, hquery⟩ | ⟨hlen, o, hfirst, hquery⟩
  · exact iff_of_true ⟨_, hquery, fun _ _ _ ↦ show (-1 : ℤ) < 0 by decide⟩
      fun hlen o ho ↦ absurd ⟨hlen, o, ho⟩ hno
  · constructor
    · rintro ⟨r, hr, hfails⟩ _ o' ho'
      by_contra hshort
      have hneg := hfails o' ho' (by omega)
      rw [hquery] at hr
      obtain ⟨entry, -, rfl⟩ := Option.map_eq_some_iff.mp hr
      exact absurd hneg (lt_irrefl (0 : ℤ))
    · intro hroom
      have hle := hroom hlen o hfirst
      have hin : RoomFor 33 buf := fun hlen o ho ↦ (Nat.le_succ _).trans (hroom hlen o ho)
      obtain ⟨r, hr⟩ := Option.isSome_iff_exists.mp (query_isSome_iff.mpr hin)
      refine ⟨r, hr, fun o' ho' hshort ↦ ?_⟩
      rw [← hfirst.unique ho'] at hshort
      omega

/-- A buffer of 70 bytes that ends with the UUID is read from behind. -/
theorem query_leaves :
    (List.replicate 54 0 ++ ltnUuidSeiTimestamp).length = 70 ∧ ∀ ctx now secs usecs,
      probeLtnencoderSeiTimestampQuery ctx (List.replicate 54 0 ++ ltnUuidSeiTimestamp) now secs
        usecs = none := by
  have hfind : ltnUuidFind (List.replicate 54 0 ++ ltnUuidSeiTimestamp) = some 54 := by
    decide +kernel
  refine ⟨rfl, fun ctx now secs usecs ↦ ?_⟩
  rw [probeLtnencoderSeiTimestampQuery, hfind]
  rfl

end LtnTsTools.SeiTimestamp
