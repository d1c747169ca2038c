import LtnTsTools.BitReader

/-!
# Parsers over the bit reader

Parsers that fill a record with fields from the bit reader.  They do not look at the overrun
flag, so what decides whether they stay in the buffer is the position they end at; the rules
compute it from the bits of the buffer alone, part by part.  A parser fails only where it
stores behind the end of an array.
-/

namespace LtnTsTools.BitParser

open BitReader

abbrev Parser (α : Type) := StateT Klbs Option α

/-- `klbs_read_bits`, as a parser. -/
def readBits (n : ℕ) : Parser ℕ := fun bs ↦ some (klbsReadBits bs n)

section Steps

variable {β : Type}

/-- A field of `n` bits. -/
def field (n : ℕ) (set : β → ℕ → β) (b : β) : Parser β := do
  return set b (← readBits n)

def flagged (set : β → ℕ → β) (body : β → Parser β) (b : β) : Parser β := do
  let flag ← readBits 1
  if flag ≠ 0 then body (set b flag) else return set b flag

/-- What is only there under a condition on the fields read before. -/
def whenever (c : β → Prop) [DecidablePred c] (body : β → Parser β) (b : β) : Parser β :=
  if c b then body b else return b

/-- A field of `n` bits that is element `i` of an array of `size` elements. -/
def element {size : ℕ} (n : ℕ) (get : β → Fin size → ℕ) (set : β → (Fin size → ℕ) → β) (b : β)
    (i : ℕ) : Parser β := do
  let v ← readBits n
  if h : i < size then return set b (Function.update (get b) ⟨i, h⟩ v) else failure

end Steps

/-! ## Where parsers end -/

/-- From bit `p` on the parser comes to bit `q`, with a result of which `P` holds. -/
def Leads {α : Type} (buf : List UInt8) (p q : ℕ) (P : α → Prop) (x : Parser α) : Prop :=
  ∀ bs, Stands bs buf p → ∃ a bs', x bs = some (a, bs') ∧ Stands bs' buf q ∧ P a

/-- Behind a flag, and `n` bits if it is set. -/
def behindFlag (buf : List UInt8) (n p : ℕ) : ℕ := p + 1 + n * bitAt buf p

section Rules

variable {α β : Type} {buf : List UInt8} {p q r : ℕ} {P : α → Prop} {Q I : β → Prop}

theorem Leads.pure {a : α} (h : P a) : Leads buf p p P (pure a) := by
  intro bs hbs
  exact ⟨a, bs, rfl, hbs, h⟩

theorem Leads.bind {x : Parser α} {f : α → Parser β} (hx : Leads buf p q P x)
    (hf : ∀ a, P a → Leads buf q r Q (f a)) : Leads buf p r Q (x >>= f) := by
  intro bs hbs
  obtain ⟨a, bs', hrun, hstands, ha⟩ := hx bs hbs
  obtain ⟨b, bs'', hrun', hrest⟩ := hf a ha bs' hstands
  refine ⟨b, bs'', ?_, hrest⟩
  change (x bs).bind (fun r ↦ f r.1 r.2) = _
  rw [hrun, Option.bind_some, hrun']

theorem leads_readBits (buf : List UInt8) (p n : ℕ) :
    Leads buf p (p + n) (· = fieldAt buf p n) (readBits n) := by
  intro bs hbs
  obtain ⟨hvalue, hstands⟩ := hbs.readBits n
  exact ⟨_, _, rfl, hstands, hvalue⟩

theorem leads_field {n : ℕ} {set : β → ℕ → β} {b : β} (h : Q (set b (fieldAt buf p n))) :
    Leads buf p (p + n) Q (field n set b) := by
  refine (leads_readBits buf p n).bind fun v hv ↦ ?_
  rw [hv]
  exact .pure h

/-- A step that goes from `p` to `q` and keeps what is known of the record. -/
def Keeps (buf : List UInt8) (I : β → Prop) (p q : ℕ) (step : β → Parser β) : Prop :=
  ∀ b, I b → Leads buf p q I (step b)

theorem Keeps.comp {f g : β → Parser β} (hf : Keeps buf I p q f) (hg : Keeps buf I q r g) :
    Keeps buf I p r (f >=> g) :=
  fun b hb ↦ (hf b hb).bind hg

theorem keeps_field {n : ℕ} {set : β → ℕ → β} (h : ∀ b v, I b → I (set b v)) :
    Keeps buf I p (p + n) (field n set) :=
  fun b hb ↦ leads_field (h b _ hb)

theorem keeps_flagged {n : ℕ} {set : β → ℕ → β} {body : β → Parser β}
    (h : ∀ b v, I b → I (set b v)) (hbody : Keeps buf I (p + 1) (p + 1 + n) body) :
    Keeps buf I p (behindFlag buf n p) (flagged set body) := by
  intro b hb
  refine (leads_readBits buf p 1).bind fun flag hflag ↦ ?_
  have hbit : flag = bitAt buf p := by simpa [fieldAt] using hflag
  have htwo := bitAt_lt buf p
  have hset := h b flag hb
  rw [behindFlag]
  split_ifs with hzero
  · obtain hone : bitAt buf p = 1 := by omega
    rw [hone, mul_one]
    exact hbody _ hset
  · obtain hnone : bitAt buf p = 0 := by omega
    rw [hnone, mul_zero]
    exact .pure hset

theorem keeps_whenever {c : β → Prop} [DecidablePred c] {body : β → Parser β} {known : Prop}
    [Decidable known] (hc : ∀ b, I b → (c b ↔ known)) (h : known → Keeps buf I p q body) :
    Keeps buf I p (if known then q else p) (whenever c body) := by
  intro b hb
  rw [whenever]
  by_cases hknown : known
  · rw [if_pos ((hc b hb).mpr hknown), if_pos hknown]
    exact h hknown b hb
  · rw [if_neg (fun hyes ↦ hknown ((hc b hb).mp hyes)), if_neg hknown]
    exact .pure hb

theorem keeps_element {size n i : ℕ} {get : β → Fin size → ℕ} {set : β → (Fin size → ℕ) → β}
    (hi : i < size) (h : ∀ b a, I b → I (set b a)) :
    Keeps buf I p (p + n) fun b ↦ element n get set b i := by
  intro b hb
  refine (leads_readBits buf p n).bind fun v _ ↦ ?_
  rw [dif_pos hi]
  exact .pure (h b _ hb)

/-- A loop whose rounds end where the next ones begin. -/
theorem keeps_foldlM {ι : Type*} {body : β → ι → Parser β} {is : List ι} {next : ℕ → ℕ}
    (h : ∀ i ∈ is, ∀ p, Keeps buf I p (next p) fun b ↦ body b i) :
    ∀ p, Keeps buf I p (next^[is.length] p) fun b ↦ is.foldlM body b := by
  induction is with
  | nil => exact fun p b hb ↦ .pure hb
  | cons i rest ih =>
      intro p b hb
      beta_reduce
      rw [List.foldlM_cons, List.length_cons, Function.iterate_succ_apply]
      exact (h i List.mem_cons_self p b hb).bind
        (ih (fun j hj ↦ h j (List.mem_cons_of_mem i hj)) (next p))

/-- A loop over array elements of `w` bits. -/
theorem keeps_elements {size w n : ℕ} {get : β → Fin size → ℕ} {set : β → (Fin size → ℕ) → β}
    (hn : n ≤ size) (h : ∀ b a, I b → I (set b a)) :
    Keeps buf I p (p + w * n) fun b ↦ (List.range n).foldlM (element w get set) b := by
  have helement : ∀ i ∈ List.range n, ∀ p,
      Keeps buf I p (p + w) fun b ↦ element w get set b i :=
    fun i hi p ↦ keeps_element ((List.mem_range.mp hi).trans_le hn) h
  have hloop := keeps_foldlM helement p
  rw [List.length_range, add_right_iterate, smul_eq_mul, mul_comm n w] at hloop
  exact hloop

end Rules

end LtnTsTools.BitParser
