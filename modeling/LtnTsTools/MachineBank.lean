import LtnTsTools.PartialMachine

/-!
# Banks of machines

A list of partial machines of one kind.  An input goes to some of them, in an order that
depends on the input and on the number of machines.  What a machine puts out is tagged with
its place.  Each machine of a bank behaves as if it
were alone with the inputs that were routed to it.
-/

namespace LtnTsTools.MachineBank

open PartialMachine

variable {κ ι ο : Type*}

section Bank

variable (step : κ → ι → Option (κ × List ο)) (route : ℕ → ι → List ℕ)

def poke (i : ι) (r : List κ × List (ℕ × ο)) (k : ℕ) : Option (List κ × List (ℕ × ο)) :=
  r.1[k]?.bind fun m ↦ (step m i).map fun s ↦ (r.1.set k s.1, r.2 ++ s.2.map (Prod.mk k))

def give (bank : List κ) (i : ι) : Option (List κ × List (ℕ × ο)) :=
  (route bank.length i).foldlM (poke step i) (bank, [])

/-- The inputs that a bank of this size routes to a place. -/
def heard (size k : ℕ) (is : List ι) : List ι := is.filter fun i ↦ k ∈ route size i

end Bank

def outputsAt (k : ℕ) (outs : List (ℕ × ο)) : List ο :=
  outs.filterMap fun out ↦ if out.1 = k then some out.2 else none

@[simp] theorem outputsAt_nil (k : ℕ) : outputsAt k ([] : List (ℕ × ο)) = [] := rfl

@[simp] theorem outputsAt_append (k : ℕ) (outs outs' : List (ℕ × ο)) :
    outputsAt k (outs ++ outs') = outputsAt k outs ++ outputsAt k outs' :=
  List.filterMap_append

@[simp] theorem outputsAt_tagged_self (k : ℕ) (os : List ο) :
    outputsAt k (os.map (Prod.mk k)) = os := by
  simp [outputsAt, List.filterMap_map]

theorem outputsAt_tagged_ne {k j : ℕ} (h : j ≠ k) (os : List ο) :
    outputsAt k (os.map (Prod.mk j)) = [] := by
  simp [outputsAt, List.filterMap_map, h]

section Step

variable {step : κ → ι → Option (κ × List ο)} {route : ℕ → ι → List ℕ}

/-- What an input does to the machine at a place: one step if the place is on the route. -/
structure Delivered (step : κ → ι → Option (κ × List ο)) (i : ι) (places : List ℕ)
    (start last : List κ × List (ℕ × ο)) : Prop where
  length_eq : last.1.length = start.1.length
  visited : ∀ k ∈ places, ∃ m m' os, start.1[k]? = some m ∧ last.1[k]? = some m' ∧
    step m i = some (m', os) ∧ outputsAt k last.2 = outputsAt k start.2 ++ os
  passed : ∀ k ∉ places, last.1[k]? = start.1[k]? ∧ outputsAt k last.2 = outputsAt k start.2

theorem delivered_poke {i : ι} {k : ℕ} {start last : List κ × List (ℕ × ο)}
    (h : poke step i start k = some last) : Delivered step i [k] start last := by
  obtain ⟨m, hm, hrest⟩ := Option.bind_eq_some_iff.mp h
  obtain ⟨⟨m', os⟩, hs, rfl⟩ := Option.map_eq_some_iff.mp hrest
  have hk : k < start.1.length := (List.getElem?_eq_some_iff.mp hm).1
  refine ⟨List.length_set, fun j hj ↦ ?_, fun j hj ↦ ?_⟩
  · obtain rfl := List.mem_singleton.mp hj
    exact ⟨m, m', os, hm, List.getElem?_set_self hk, hs, by simp⟩
  · have hne : k ≠ j := fun heq ↦ hj (List.mem_singleton.mpr heq.symm)
    exact ⟨List.getElem?_set_ne hne, by simp [outputsAt_tagged_ne hne]⟩

/-- A route without repetition takes every machine on it one step. -/
theorem delivered_foldlM {i : ι} {places : List ℕ} (hnodup : places.Nodup) :
    ∀ {start last : List κ × List (ℕ × ο)}, places.foldlM (poke step i) start = some last →
      Delivered step i places start last := by
  induction places with
  | nil =>
      intro start last h
      obtain rfl : start = last := by simpa using h
      exact ⟨rfl, by simp, fun _ _ ↦ ⟨rfl, rfl⟩⟩
  | cons k rest ih =>
      intro start last h
      obtain ⟨hk, hrest⟩ := List.nodup_cons.mp hnodup
      rw [List.foldlM_cons] at h
      obtain ⟨mid, hmid, hlast⟩ := Option.bind_eq_some_iff.mp h
      have hone := delivered_poke hmid
      have hlater := ih hrest hlast
      refine ⟨hlater.length_eq.trans hone.length_eq, fun j hj ↦ ?_, fun j hj ↦ ?_⟩
      · rcases List.mem_cons.mp hj with rfl | hj
        · obtain ⟨m, m', os, hm, hm', hs, hos⟩ := hone.visited j (List.mem_singleton_self j)
          obtain ⟨hsame, houts⟩ := hlater.passed j hk
          exact ⟨m, m', os, hm, hsame.trans hm', hs, houts.trans hos⟩
        · have hne : j ∉ [k] := fun hmem ↦ hk (List.mem_singleton.mp hmem ▸ hj)
          obtain ⟨m, m', os, hm, hm', hs, hos⟩ := hlater.visited j hj
          obtain ⟨hsame, houts⟩ := hone.passed j hne
          exact ⟨m, m', os, hsame ▸ hm, hm', hs, by rw [hos, houts]⟩
      · have hne : j ∉ [k] := fun hmem ↦ hj (List.mem_singleton.mp hmem ▸ List.mem_cons_self)
        obtain ⟨hsame, houts⟩ := hone.passed j hne
        obtain ⟨hsame', houts'⟩ := hlater.passed j fun hmem ↦ hj (List.mem_cons_of_mem k hmem)
        exact ⟨hsame'.trans hsame, houts'.trans houts⟩

end Step

/-! ## Runs -/

/-- Every machine of the bank is where its own inputs take it alone, and has put out the
same. -/
structure Alone (step : κ → ι → Option (κ × List ο)) (route : ℕ → ι → List ℕ) (start : List κ)
    (bank : List κ) (is : List ι) (outs : List (List (ℕ × ο))) : Prop where
  length_eq : bank.length = start.length
  alone : ∀ (k : ℕ) (m : κ), start[k]? = some m → ∃ m' os, bank[k]? = some m' ∧
    trace step m (heard route start.length k is) = some (m', os) ∧
      os.flatten = outputsAt k outs.flatten
  silent : ∀ k, start.length ≤ k → outputsAt k outs.flatten = []

theorem Alone.give {step : κ → ι → Option (κ × List ο)} {route : ℕ → ι → List ℕ}
    (hnodup : ∀ n i, (route n i).Nodup) {start bank : List κ} {is : List ι}
    {outs : List (List (ℕ × ο))} (h : Alone step route start bank is outs) {i : ι}
    {bank' : List κ} {out : List (ℕ × ο)} (hgive : give step route bank i = some (bank', out)) :
    Alone step route start bank' (is ++ [i]) (outs ++ [out]) := by
  have hlength := h.length_eq
  have hdelivered := delivered_foldlM (hnodup _ _) hgive
  refine ⟨hdelivered.length_eq.trans hlength, fun k m hm ↦ ?_, fun k hk ↦ ?_⟩
  rotate_left
  · have hout : k ∉ route bank.length i := by
      intro hmem
      obtain ⟨m, -, -, hm, -⟩ := hdelivered.visited k hmem
      have hlt : k < bank.length := (List.getElem?_eq_some_iff.mp hm).1
      omega
    have hnone := (hdelivered.passed k hout).2
    simpa [h.silent k hk] using hnone
  obtain ⟨mid, os, hmid, htrace, hos⟩ := h.alone k m hm
  have houts : outputsAt k (outs ++ [out]).flatten = os.flatten ++ outputsAt k out := by
    rw [hos]
    simp
  by_cases hmem : k ∈ route bank.length i
  · obtain ⟨m₀, m', os', hm₀, hm', hs, hos'⟩ := hdelivered.visited k hmem
    obtain rfl : mid = m₀ := Option.some.inj (hmid.symm.trans hm₀)
    have hheard : heard route start.length k (is ++ [i]) =
        heard route start.length k is ++ [i] := by
      simp [heard, ← hlength, hmem]
    refine ⟨m', os ++ [os'], hm', ?_, ?_⟩
    · rw [hheard]
      exact trace_concat htrace hs
    · rw [houts, hos']
      simp
  · obtain ⟨hsame, hnone⟩ := hdelivered.passed k hmem
    have hheard : heard route start.length k (is ++ [i]) = heard route start.length k is := by
      simp [heard, ← hlength, hmem]
    refine ⟨mid, os, hsame.trans hmid, ?_, ?_⟩
    · rw [hheard]
      exact htrace
    · rw [houts, hnone]
      simp

/-- Behind every run each machine is where the inputs routed to it take it alone. -/
theorem alone_of_trace {step : κ → ι → Option (κ × List ο)} {route : ℕ → ι → List ℕ}
    (hnodup : ∀ n i, (route n i).Nodup) {start bank : List κ} {is : List ι}
    {outs : List (List (ℕ × ο))} (htrace : trace (give step route) start is = some (bank, outs)) :
    Alone step route start bank is outs := by
  have hstart : Alone step route start start [] [] := 
    ⟨rfl, fun k m hm ↦ ⟨m, [], hm, rfl, rfl⟩, fun _ _ ↦ rfl⟩
  exact trace_invariant (I := Alone step route start)
    (fun _ _ _ _ _ _ h hs ↦ h.give hnodup hs) hstart htrace

/-- What every machine keeps, and what it then puts out. -/
theorem forall_of_give {step : κ → ι → Option (κ × List ο)} {route : ℕ → ι → List ℕ}
    {P : κ → Prop} {Q : ο → Prop}
    (hstep : ∀ m i m' os, P m → step m i = some (m', os) → P m' ∧ ∀ o ∈ os, Q o)
    {bank bank' : List κ} {i : ι} {out : List (ℕ × ο)} (hbank : ∀ m ∈ bank, P m)
    (hgive : give step route bank i = some (bank', out)) :
    (∀ m ∈ bank', P m) ∧ ∀ o ∈ out, Q o.2 := by
  suffices hfold : ∀ (places : List ℕ) (start last : List κ × List (ℕ × ο)),
      (∀ m ∈ start.1, P m) ∧ (∀ o ∈ start.2, Q o.2) →
        places.foldlM (poke step i) start = some last →
          (∀ m ∈ last.1, P m) ∧ ∀ o ∈ last.2, Q o.2 from
    hfold _ _ _ ⟨hbank, by simp⟩ hgive
  intro places
  induction places with
  | nil =>
      intro start last h hlast
      obtain rfl : start = last := by simpa using hlast
      exact h
  | cons k rest ih =>
      intro start last h hlast
      rw [List.foldlM_cons] at hlast
      obtain ⟨mid, hmid, hlast⟩ := Option.bind_eq_some_iff.mp hlast
      obtain ⟨m, hm, hmid⟩ := Option.bind_eq_some_iff.mp hmid
      obtain ⟨⟨m', os⟩, hs, rfl⟩ := Option.map_eq_some_iff.mp hmid
      obtain ⟨hP, hQ⟩ := hstep m i m' os (h.1 m (List.mem_of_getElem? hm)) hs
      refine ih _ last ⟨fun x hx ↦ ?_, fun o ho ↦ ?_⟩ hlast
      · rcases List.mem_or_eq_of_mem_set hx with hold | rfl
        · exact h.1 x hold
        · exact hP
      · rcases List.mem_append.mp ho with hold | hnew
        · exact h.2 o hold
        · obtain ⟨o', ho', rfl⟩ := List.mem_map.mp hnew
          exact hQ o' ho'

theorem forall_of_trace {step : κ → ι → Option (κ × List ο)} {route : ℕ → ι → List ℕ}
    {P : κ → Prop} {Q : ο → Prop}
    (hstep : ∀ m i m' os, P m → step m i = some (m', os) → P m' ∧ ∀ o ∈ os, Q o) {is : List ι} :
    ∀ {bank bank' : List κ} {outs : List (List (ℕ × ο))}, (∀ m ∈ bank, P m) →
      trace (give step route) bank is = some (bank', outs) →
        (∀ m ∈ bank', P m) ∧ ∀ o ∈ outs.flatten, Q o.2 := by
  induction is with
  | nil =>
      intro bank bank' outs hbank htrace
      obtain ⟨rfl, rfl⟩ : bank = bank' ∧ [] = outs := by simpa [trace] using htrace
      exact ⟨hbank, by simp⟩
  | cons i rest ih =>
      intro bank bank' outs hbank htrace
      obtain ⟨mid, out, later, hs, hrest, rfl⟩ := exists_of_trace_cons htrace
      obtain ⟨hmid, hout⟩ := forall_of_give hstep hbank hs
      obtain ⟨hlast, hlater⟩ := ih hmid hrest
      refine ⟨hlast, fun o ho ↦ ?_⟩
      rw [List.flatten_cons, List.mem_append] at ho
      exact ho.elim (hout o) (hlater o)

end LtnTsTools.MachineBank
