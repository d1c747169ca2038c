import LtnTsTools.BoundedTable
import LtnTsTools.PartialMachine
import LtnTsTools.Region

/-!
# Cached service descriptions

The callback of `streammodel.c` for service description tables.  Every service descriptor is
read into a record, which is cached if there is room and it is new; the service type goes
into the slot behind the cache instead, which the record is then copied over.  `none` is a
write outside of a field or of the cache, or a read outside of a descriptor.
-/

namespace LtnTsTools.ServiceDescriptions

open BoundedTable PartialMachine Region

/-- A field of 128 characters. -/
abbrev Text := Fin 128 → UInt8

/-- `struct streammodel_sdt_s`. -/
structure StreammodelSdt where
  serviceId : UInt16
  serviceType : UInt8
  serviceName : Text
  serviceProvider : Text
deriving DecidableEq

/-- `sdt` and `sdtCount` of `struct streammodel_rom_s`. -/
abbrev Rom := Table 128 StreammodelSdt

/-- The service type, the provider and the name in the data of a service descriptor. -/
def readData (data : List UInt8) : Option (UInt8 × List UInt8 × List UInt8) := do
  let serviceType ← data[0]?
  let pl ← data[1]?
  let psrc ← load data 2 pl.toNat
  let nl ← data[2 + pl.toNat]?
  let nsrc ← load data (2 + pl.toNat + 1) nl.toNat
  return (serviceType, psrc, nsrc)

/-- A descriptor as the library delivers it; a service descriptor has all that its lengths
announce. -/
structure Descriptor where
  tag : UInt8
  data : List UInt8
  wellFormed : tag = 0x48 → (readData data).isSome

structure Service where
  serviceId : UInt16
  descriptors : List Descriptor

/-! ## The callback -/

/-- What `strncpy` leaves in a field: behind a zero there are zeros, and behind as many
characters as are copied what was there before. -/
def copied (dst : Text) (src : List UInt8) : Text := fun i ↦
  if i < src.length then if ∃ j ≤ i.val, src.getD j 0 = 0 then 0 else src.getD i 0 else dst i

/-- `strncpy` for as many characters as the source has. -/
def strncpy (dst : Text) (src : List UInt8) : Option Text :=
  if src.length ≤ 128 then some (copied dst src) else none

/-- `sdt_add`. -/
def sdtAdd (rom : Rom) (sdt : StreammodelSdt) : Rom := rom.add sdt

/-- The record of a service before its descriptors. -/
def emptySdt (serviceId : UInt16) : StreammodelSdt := ⟨serviceId, 0, fun _ ↦ 0, fun _ ↦ 0⟩

def cbDescriptor (s : Rom × StreammodelSdt) (d : Descriptor) : Option (Rom × StreammodelSdt) :=
  if d.tag = 0x48 then
    (readData d.data).bind fun read ↦
      if h : s.1.count < 128 then
        let rom := s.1.poke h fun e ↦ { e with serviceType := read.1 }
        (strncpy s.2.serviceProvider read.2.1).bind fun provider ↦
          (strncpy s.2.serviceName read.2.2).map fun name ↦
            let sdt := { s.2 with serviceName := name, serviceProvider := provider }
            (sdtAdd rom sdt, sdt)
      else none
  else some s

/-- `cb_sdt`. -/
def cbSdt (rom : Rom) : List Service → Option Rom
  | [] => some rom
  | service :: rest =>
      if rom.count ≥ 128 then some rom
      else
        (service.descriptors.foldlM cbDescriptor (rom, emptySdt service.serviceId)).bind
          fun s ↦ cbSdt s.1 rest

/-! ## One thing after the other -/

inductive Item
  | service (serviceId : UInt16)
  | descriptor (d : Descriptor)

/-- The cache, and the record of the service at hand, unless that is passed over. -/
structure Visit where
  rom : Rom
  sdt : Option StreammodelSdt

def itemStep (s : Visit) : Item → Option Visit
  | .service serviceId =>
      some { s with sdt := if s.rom.count ≥ 128 then none else some (emptySdt serviceId) }
  | .descriptor d =>
      match s.sdt with
      | none => some s
      | some sdt => (cbDescriptor (s.rom, sdt) d).map fun r ↦ ⟨r.1, some r.2⟩

def items (services : List Service) : List Item :=
  services.flatMap fun service ↦
    .service service.serviceId :: service.descriptors.map .descriptor

theorem itemStep_descriptor (rom : Rom) (sdt : StreammodelSdt) (d : Descriptor) :
    itemStep ⟨rom, some sdt⟩ (.descriptor d) =
      (cbDescriptor (rom, sdt) d).map fun r ↦ ⟨r.1, some r.2⟩ := rfl

theorem foldlM_descriptors (ds : List Descriptor) : ∀ rom sdt,
    (ds.map Item.descriptor).foldlM itemStep ⟨rom, some sdt⟩ =
      (ds.foldlM cbDescriptor (rom, sdt)).map fun r ↦ ⟨r.1, some r.2⟩ := by
  induction ds with
  | nil => exact fun _ _ ↦ rfl
  | cons d rest ih =>
      intro rom sdt
      rw [List.map_cons, List.foldlM_cons, List.foldlM_cons, itemStep_descriptor]
      cases cbDescriptor (rom, sdt) d with
      | none => rfl
      | some r => exact ih r.1 r.2

theorem foldlM_full {rom : Rom} (hfull : rom.count ≥ 128) (is : List Item) :
    is.foldlM itemStep ⟨rom, none⟩ = some ⟨rom, none⟩ := by
  induction is with
  | nil => rfl
  | cons i rest ih =>
      rw [List.foldlM_cons]
      cases i with
      | service serviceId =>
          simp only [itemStep, if_pos hfull, Option.bind_eq_bind, Option.bind_some]
          exact ih
      | descriptor d => exact ih

theorem cbSdt_eq (services : List Service) : ∀ rom sdt,
    ((items services).foldlM itemStep ⟨rom, sdt⟩).map Visit.rom = cbSdt rom services := by
  induction services with
  | nil => exact fun _ _ ↦ rfl
  | cons service rest ih =>
      intro rom sdt
      have hitems : items (service :: rest) =
          .service service.serviceId :: (service.descriptors.map .descriptor ++ items rest) := rfl
      rw [hitems, List.foldlM_cons, cbSdt, itemStep]
      by_cases hfull : rom.count ≥ 128
      · simp only [if_pos hfull]
        exact congrArg (Option.map Visit.rom) (foldlM_full hfull _)
      · simp only [if_neg hfull, Option.bind_eq_bind, Option.bind_some, List.foldlM_append,
          foldlM_descriptors]
        cases service.descriptors.foldlM cbDescriptor (rom, emptySdt service.serviceId) with
        | none => rfl
        | some r => exact ih r.1 (some r.2)

theorem cbSdts_eq (sdts : List (List Service)) : ∀ rom sdt,
    ((sdts.flatMap items).foldlM itemStep ⟨rom, sdt⟩).map Visit.rom = sdts.foldlM cbSdt rom := by
  induction sdts with
  | nil => exact fun _ _ ↦ rfl
  | cons services rest ih =>
      intro rom sdt
      rw [List.flatMap_cons, List.foldlM_append, List.foldlM_cons, ← cbSdt_eq services rom sdt]
      cases (items services).foldlM itemStep ⟨rom, sdt⟩ with
      | none => rfl
      | some s => exact ih s.rom s.sdt

/-! ## What is cached -/

/-- The service type, the provider and the name of a service descriptor. -/
def Descriptor.content (d : Descriptor) : UInt8 × List UInt8 × List UInt8 :=
  (readData d.data).getD (0, [], [])

/-- As much of a text as a field holds. -/
def cut (text : List UInt8) : Text := fun i ↦ text.getD i 0

/-- The entry that a service descriptor is to be cached as. -/
def described (serviceId : UInt16) (content : UInt8 × List UInt8 × List UInt8) : StreammodelSdt :=
  ⟨serviceId, content.1, cut content.2.2, cut content.2.1⟩

/-- A service descriptor adds its entry if that is new and there is room, and nothing else
adds one. -/
def Caches (s : Visit) : Item → Visit × Unit → Prop
  | .service _, r => r.1.rom.entries = s.rom.entries
  | .descriptor d, r =>
      r.1.rom.entries =
        match s.sdt with
        | none => s.rom.entries
        | some sdt =>
            if d.tag = 0x48 then
              insertNew 128 s.rom.entries (described sdt.serviceId d.content)
            else s.rom.entries

/-- A text without a zero in front of another character, for a field that has nothing left
behind it. -/
def Kept (dst : Text) (text : List UInt8) : Prop :=
  (∀ i < text.length, ∀ j ≤ i, text.getD j 0 = 0 → text.getD i 0 = 0) ∧
    ∀ i : Fin 128, text.length ≤ i → dst i = 0

def assembled (sdt : StreammodelSdt) (content : UInt8 × List UInt8 × List UInt8) :
    StreammodelSdt :=
  { sdt with
    serviceName := copied sdt.serviceName content.2.2
    serviceProvider := copied sdt.serviceProvider content.2.1 }

/-- There is room in the cache and in the fields, the service type is zero, and both texts
are kept, unless what is cached for them and their own entry are both there already. -/
def Fits (rom : Rom) (sdt : StreammodelSdt) (content : UInt8 × List UInt8 × List UInt8) : Prop :=
  rom.count < 128 ∧ content.2.1.length ≤ 128 ∧ content.2.2.length ≤ 128 ∧ content.1 = 0 ∧
    (Kept sdt.serviceProvider content.2.1 ∧ Kept sdt.serviceName content.2.2 ∨
      assembled sdt content ∈ rom.entries ∧ described sdt.serviceId content ∈ rom.entries)

/-- A service descriptor of a service that is not passed over fits. -/
def ItemFits (s : Visit) : Item → Prop
  | .service _ => True
  | .descriptor d => ∀ sdt, s.sdt = some sdt → d.tag = 0x48 → Fits s.rom sdt d.content

section Steps

variable {rom : Rom} {sdt : StreammodelSdt} {d : Descriptor}

theorem Descriptor.read_eq (htag : d.tag = 0x48) : readData d.data = some d.content := by
  obtain ⟨content, hread⟩ := Option.isSome_iff_exists.mp (d.wellFormed htag)
  rw [Descriptor.content, hread, Option.getD_some]

theorem copied_eq_cut_iff {dst : Text} {text : List UInt8} (hlen : text.length ≤ 128) :
    copied dst text = cut text ↔ Kept dst text := by
  rw [funext_iff]
  constructor
  · intro h
    refine ⟨fun i hi j hj hzero ↦ ?_, fun i hi ↦ ?_⟩
    · have hat := h ⟨i, hi.trans_le hlen⟩
      rw [copied, cut, if_pos hi, if_pos ⟨j, hj, hzero⟩] at hat
      exact hat.symm
    · have hat := h i
      rw [copied, cut, if_neg (not_lt.mpr hi)] at hat
      rw [hat, List.getD_eq_getElem?_getD, List.getElem?_eq_none hi, Option.getD_none]
  · rintro ⟨hzeros, hbehind⟩ i
    rw [copied, cut]
    split_ifs with hi hzero
    · obtain ⟨j, hj, hzero⟩ := hzero
      exact (hzeros i hi j hj hzero).symm
    · rfl
    · rw [hbehind i (not_lt.mp hi), List.getD_eq_getElem?_getD,
        List.getElem?_eq_none (not_lt.mp hi), Option.getD_none]

/-- A service descriptor goes wrong, or adds the record that was assembled. -/
theorem cbDescriptor_eq (htag : d.tag = 0x48) :
    cbDescriptor (rom, sdt) d =
      if h : rom.count < 128 ∧ d.content.2.1.length ≤ 128 ∧ d.content.2.2.length ≤ 128 then
        some (sdtAdd (rom.poke h.1 fun e ↦ { e with serviceType := d.content.1 })
          (assembled sdt d.content), assembled sdt d.content)
      else none := by
  rw [cbDescriptor, if_pos htag, Descriptor.read_eq htag, Option.bind_some]
  by_cases hroom : rom.count < 128
  · by_cases hprovider : d.content.2.1.length ≤ 128
    · by_cases hname : d.content.2.2.length ≤ 128
      · simp [hroom, hprovider, hname, strncpy, assembled]
      · simp [hroom, hprovider, hname, strncpy]
    · simp [hroom, hprovider, strncpy]
  · simp [hroom]

/-- Where everything has room the cache gets the assembled record, which is the one described
if its service type is zero and the texts are kept. -/
theorem assembled_eq_iff (htype : sdt.serviceType = 0)
    {content : UInt8 × List UInt8 × List UInt8} (hprovider : content.2.1.length ≤ 128)
    (hname : content.2.2.length ≤ 128) :
    assembled sdt content = described sdt.serviceId content ↔
      content.1 = 0 ∧ Kept sdt.serviceProvider content.2.1 ∧ Kept sdt.serviceName content.2.2 := by
  rw [assembled, described, StreammodelSdt.mk.injEq, copied_eq_cut_iff hprovider,
    copied_eq_cut_iff hname, htype, eq_comm (a := (0 : UInt8))]
  tauto

/-- No service type is in the cache or in the record at hand. -/
def Typeless (s : Visit) : Prop :=
  (∀ e ∈ s.rom.entries, e.serviceType = 0) ∧ ∀ sdt, s.sdt = some sdt → sdt.serviceType = 0

theorem entries_cbDescriptor {r : Rom × StreammodelSdt} (htag : d.tag = 0x48)
    (h : cbDescriptor (rom, sdt) d = some r) :
    r.1.entries = insertNew 128 rom.entries (assembled sdt d.content) ∧
      r.2 = assembled sdt d.content := by
  rw [cbDescriptor_eq htag] at h
  split_ifs at h with hroom
  obtain rfl := Option.some.inj h
  rw [sdtAdd, Table.entries_add, Table.entries_poke]
  exact ⟨rfl, rfl⟩

theorem Typeless.step {s s' : Visit} (h : Typeless s) {i : Item} (hs : itemStep s i = some s') :
    Typeless s' := by
  cases i with
  | service serviceId =>
      obtain rfl := Option.some.inj hs
      refine ⟨h.1, fun sdt hsdt ↦ ?_⟩
      split_ifs at hsdt
      obtain rfl := Option.some.inj hsdt
      rfl
  | descriptor d =>
      obtain ⟨rom, current⟩ := s
      cases current with
      | none =>
          obtain rfl := Option.some.inj hs
          exact h
      | some sdt =>
          obtain ⟨r, hr, rfl⟩ := Option.map_eq_some_iff.mp hs
          by_cases htag : d.tag = 0x48
          · obtain ⟨hentries, hsdt⟩ := entries_cbDescriptor htag hr
            have htype : r.2.serviceType = 0 := by
              rw [hsdt]
              exact h.2 sdt rfl
            refine ⟨fun e he ↦ ?_, fun _ hsome ↦ Option.some.inj hsome ▸ htype⟩
            rw [hentries] at he
            rcases mem_of_mem_insertNew he with hold | hnew
            · exact h.1 e hold
            · rw [hnew, ← hsdt, htype]
          · rw [cbDescriptor, if_neg htag] at hr
            obtain rfl := Option.some.inj hr
            exact h

theorem descriptor_caches_iff (h : Typeless ⟨rom, some sdt⟩) (htag : d.tag = 0x48) :
    (∃ r, cbDescriptor (rom, sdt) d = some r ∧
      r.1.entries = insertNew 128 rom.entries (described sdt.serviceId d.content)) ↔
      Fits rom sdt d.content := by
  by_cases hroom : rom.count < 128 ∧ d.content.2.1.length ≤ 128 ∧ d.content.2.2.length ≤ 128
  · obtain ⟨r, hr⟩ : ∃ r, cbDescriptor (rom, sdt) d = some r := by
      rw [cbDescriptor_eq htag, dif_pos hroom]
      exact ⟨_, rfl⟩
    have hlength : rom.entries.length < 128 := by
      rw [rom.length_entries]
      exact hroom.1
    have hsame : r.1.entries = insertNew 128 rom.entries (described sdt.serviceId d.content) ↔
        assembled sdt d.content = described sdt.serviceId d.content ∨
          assembled sdt d.content ∈ rom.entries ∧
            described sdt.serviceId d.content ∈ rom.entries := by
      rw [(entries_cbDescriptor htag hr).1]
      exact insertNew_eq_iff hlength
    have htype : described sdt.serviceId d.content ∈ rom.entries → d.content.1 = 0 :=
      fun hin ↦ h.1 _ hin
    rw [hr, Fits]
    simp only [Option.some.injEq, exists_eq_left', hsame,
      assembled_eq_iff (h.2 sdt rfl) hroom.2.1 hroom.2.2]
    tauto
  · rw [cbDescriptor_eq htag, dif_neg hroom]
    refine iff_of_false (fun ⟨r, hr, _⟩ ↦ by cases hr) fun hfits ↦ ?_
    exact hroom ⟨hfits.1, hfits.2.1, hfits.2.2.1⟩

theorem descriptor_step_iff :
    (∃ r, silent itemStep ⟨rom, some sdt⟩ (.descriptor d) = some r ∧
      Caches ⟨rom, some sdt⟩ (.descriptor d) r) ↔
      ∃ q, cbDescriptor (rom, sdt) d = some q ∧ q.1.entries =
        if d.tag = 0x48 then insertNew 128 rom.entries (described sdt.serviceId d.content)
        else rom.entries := by
  constructor
  · rintro ⟨r, hr, hcaches⟩
    obtain ⟨s', hs', rfl⟩ := Option.map_eq_some_iff.mp hr
    obtain ⟨q, hq, rfl⟩ := Option.map_eq_some_iff.mp hs'
    exact ⟨q, hq, hcaches⟩
  · rintro ⟨q, hq, hentries⟩
    refine ⟨(⟨q.1, some q.2⟩, ()), ?_, hentries⟩
    rw [silent, itemStep_descriptor, hq]
    rfl

theorem item_caches_iff {s : Visit} (h : Typeless s) (i : Item) :
    (∃ r, silent itemStep s i = some r ∧ Caches s i r) ↔ ItemFits s i := by
  cases i with
  | service serviceId => exact iff_of_true ⟨_, rfl, rfl⟩ trivial
  | descriptor d =>
      obtain ⟨rom, current⟩ := s
      cases current with
      | none => exact iff_of_true ⟨_, rfl, rfl⟩ fun sdt hsdt ↦ by cases hsdt
      | some sdt =>
          rw [descriptor_step_iff]
          by_cases htag : d.tag = 0x48
          · have hfits : ItemFits ⟨rom, some sdt⟩ (.descriptor d) ↔ Fits rom sdt d.content :=
              ⟨fun h ↦ h sdt rfl htag, fun h _ hsome _ ↦ Option.some.inj hsome ▸ h⟩
            simp only [if_pos htag]
            exact (descriptor_caches_iff h htag).trans hfits.symm
          · simp only [if_neg htag]
            exact iff_of_true ⟨(rom, sdt), if_neg htag, rfl⟩ fun _ _ hyes ↦ absurd hyes htag

end Steps

/-- From an empty cache, whatever lies in its slots, the callback takes the tables as one
thing after the other, and every service descriptor that is not passed over adds its entry,
without a write outside, exactly when each one fits where it is met. -/
theorem sdt_cached_iff (memory : Fin 128 → StreammodelSdt) (sdts : List (List Service)) :
    sdts.foldlM cbSdt (Table.empty memory) =
        ((sdts.flatMap items).foldlM itemStep ⟨Table.empty memory, none⟩).map Visit.rom ∧
      (Safe (silent itemStep) Caches ⟨Table.empty memory, none⟩ (sdts.flatMap items) ↔
        Meets (silent itemStep) ItemFits ⟨Table.empty memory, none⟩ (sdts.flatMap items)) := by
  refine ⟨(cbSdts_eq sdts _ none).symm, ?_⟩
  have hkeep : ∀ s i r, Typeless s → silent itemStep s i = some r → Caches s i r →
      Typeless r.1 := by
    intro s i r h hs _
    obtain ⟨s', hs', rfl⟩ := Option.map_eq_some_iff.mp hs
    exact h.step hs'
  have hempty : (Table.empty memory).entries = [] := rfl
  refine safe_iff_meets Typeless hkeep (fun s i h ↦ item_caches_iff h i) _ _ ⟨?_, ?_⟩
  · rw [hempty]
    exact fun e he ↦ absurd he List.not_mem_nil
  · intro sdt hsdt
    cases hsdt

/-- A television service, of the provider `a` with the name `b`. -/
def televisionService : Service where
  serviceId := 1
  descriptors := [⟨0x48, [1, 1, 0x61, 1, 0x62], fun _ ↦ rfl⟩]

/-- It is not cached with its service type. -/
theorem serviceType_lost :
    ¬∃ memory, Safe (silent itemStep) Caches ⟨Table.empty memory, none⟩
      (items [televisionService]) := by
  rintro ⟨memory, hsafe⟩
  have hbehind : Safe (silent itemStep) Caches ⟨Table.empty memory, some (emptySdt 1)⟩
      [.descriptor ⟨0x48, [1, 1, 0x61, 1, 0x62], fun _ ↦ rfl⟩] := hsafe.2
  have htypeless : Typeless ⟨Table.empty memory, some (emptySdt 1)⟩ :=
    ⟨fun e he ↦ absurd he List.not_mem_nil, fun _ hsome ↦ Option.some.inj hsome ▸ rfl⟩
  have hfits := (item_caches_iff htypeless _).mp (safe_singleton.mp hbehind)
  exact absurd (hfits (emptySdt 1) rfl rfl).2.2.2.1 (by decide)

end LtnTsTools.ServiceDescriptions
