import Mathlib.Tactic

/-!
# Partial machines and guarded runs

A partial machine takes an input in a state and either fails or moves to a new
state with an output.  Two questions are asked of its runs.  Does a run whose
inputs all meet a guard, each in the state it is taken in, track a reference
machine that never fails?  And which facts hold in every state that admissible
steps can reach?  Both reduce to one step.
-/

namespace LtnTsTools.PartialMachine

variable {σ τ ι ο : Type*}

/-- Every input of the run meets the guard in the state it is taken in.  After
a failed step nothing more is asked. -/
def Meets (step : σ → ι → Option (σ × ο)) (guard : σ → ι → Prop) : σ → List ι → Prop
  | _, [] => True
  | s, i :: rest => guard s i ∧
      match step s i with
      | none => True
      | some (s', _) => Meets step guard s' rest

/-- The run never fails, produces the outputs of the reference machine, and
stays in the relation `good` with it in every state it passes. -/
def Tracks (step : σ → ι → Option (σ × ο)) (spec : τ → ι → τ × ο) (good : σ → τ → Prop) :
    σ → τ → List ι → Prop
  | s, t, [] => good s t
  | s, t, i :: rest => good s t ∧
      match step s i with
      | none => False
      | some (s', out) => out = (spec t i).2 ∧ Tracks step spec good s' (spec t i).1 rest

instance Meets.decidable (step : σ → ι → Option (σ × ο)) (guard : σ → ι → Prop)
    [∀ s i, Decidable (guard s i)] : ∀ s is, Decidable (Meets step guard s is)
  | _, [] => inferInstanceAs (Decidable True)
  | s, i :: rest =>
      match h : step s i with
      | none => decidable_of_iff (guard s i) (by simp [Meets, h])
      | some (s', _) =>
          have := Meets.decidable step guard s' rest
          decidable_of_iff (guard s i ∧ Meets step guard s' rest) (by simp [Meets, h])

instance Tracks.decidable (step : σ → ι → Option (σ × ο)) (spec : τ → ι → τ × ο)
    (good : σ → τ → Prop) [∀ s t, Decidable (good s t)] [DecidableEq ο] :
    ∀ s t is, Decidable (Tracks step spec good s t is)
  | s, t, [] => inferInstanceAs (Decidable (good s t))
  | s, t, i :: rest =>
      match h : step s i with
      | none => isFalse (by simp [Tracks, h])
      | some (s', out) =>
          have := Tracks.decidable step spec good s' (spec t i).1 rest
          decidable_of_iff
            (good s t ∧ out = (spec t i).2 ∧ Tracks step spec good s' (spec t i).1 rest)
            (by simp [Tracks, h])

/-- Behind a step that does not fail the rest of the run meets the guard too. -/
theorem Meets.tail {step : σ → ι → Option (σ × ο)} {guard : σ → ι → Prop} {s s' : σ} {i : ι}
    {out : ο} {is : List ι} (h : Meets step guard s (i :: is)) (hs : step s i = some (s', out)) :
    Meets step guard s' is := by
  have hrest := h.2
  simpa only [hs] using hrest

theorem Meets.and {step : σ → ι → Option (σ × ο)} {g₁ g₂ : σ → ι → Prop} {is : List ι} :
    ∀ {s}, Meets step g₁ s is → Meets step g₂ s is →
      Meets step (fun s i ↦ g₁ s i ∧ g₂ s i) s is := by
  induction is with
  | nil => exact fun _ _ ↦ trivial
  | cons i rest ih =>
      intro s h₁ h₂
      refine ⟨⟨h₁.1, h₂.1⟩, ?_⟩
      have hr₁ := h₁.2
      have hr₂ := h₂.2
      cases hs : step s i with
      | none => trivial
      | some r =>
          simp only [hs] at hr₁ hr₂ ⊢
          exact ih hr₁ hr₂

/-- A guard that asks something of the inputs alone. -/
theorem meets_of_forall {step : σ → ι → Option (σ × ο)} {guard : σ → ι → Prop} {is : List ι}
    (h : ∀ i ∈ is, ∀ s, guard s i) : ∀ s, Meets step guard s is := by
  induction is with
  | nil => exact fun _ ↦ trivial
  | cons i rest ih =>
      intro s
      refine ⟨h i List.mem_cons_self s, ?_⟩
      cases hs : step s i with
      | none => trivial
      | some r => exact ih (fun j hj ↦ h j (List.mem_cons_of_mem i hj)) r.1

/-- Guarded steps that keep a simulation relation make every guarded run track
the reference machine. -/
theorem tracks_of_step {step : σ → ι → Option (σ × ο)} {spec : τ → ι → τ × ο}
    {guard : σ → ι → Prop} {good : σ → τ → Prop} (R : σ → τ → Prop)
    (hgood : ∀ s t, R s t → good s t)
    (hstep : ∀ s t i, R s t → guard s i →
      ∃ s', step s i = some (s', (spec t i).2) ∧ R s' (spec t i).1) :
    ∀ is s t, R s t → Meets step guard s is → Tracks step spec good s t is := by
  intro is
  induction is with
  | nil =>
      intro s t hR _
      exact hgood s t hR
  | cons i rest ih =>
      intro s t hR hmeets
      obtain ⟨s', hs', hR'⟩ := hstep s t i hR hmeets.1
      refine ⟨hgood s t hR, ?_⟩
      simp only [hs']
      exact ⟨trivial, ih s' _ hR' (hmeets.tail hs')⟩

def Safe (step : σ → ι → Option (σ × ο)) (good : σ → ι → σ × ο → Prop) : σ → List ι → Prop
  | _, [] => True
  | s, i :: rest =>
      match step s i with
      | none => False
      | some r => good s i r ∧ Safe step good r.1 rest

instance Safe.decidable (step : σ → ι → Option (σ × ο)) (good : σ → ι → σ × ο → Prop)
    [∀ s i r, Decidable (good s i r)] : ∀ s is, Decidable (Safe step good s is)
  | _, [] => inferInstanceAs (Decidable True)
  | s, i :: rest =>
      match h : step s i with
      | none => isFalse (by simp [Safe, h])
      | some r =>
          have := Safe.decidable step good r.1 rest
          decidable_of_iff (good s i r ∧ Safe step good r.1 rest) (by simp [Safe, h])

theorem safe_singleton {step : σ → ι → Option (σ × ο)} {good : σ → ι → σ × ο → Prop} {s : σ}
    {i : ι} : Safe step good s [i] ↔ ∃ r, step s i = some r ∧ good s i r := by
  cases hs : step s i <;> simp [Safe, hs]

/-- Guarded steps that keep an invariant and are good make every guarded run
safe. -/
theorem safe_of_step {step : σ → ι → Option (σ × ο)} {guard : σ → ι → Prop}
    {good : σ → ι → σ × ο → Prop} (I : σ → Prop)
    (hstep : ∀ s i, I s → guard s i → ∃ r, step s i = some r ∧ good s i r ∧ I r.1) :
    ∀ is s, I s → Meets step guard s is → Safe step good s is := by
  intro is
  induction is with
  | nil => exact fun _ _ _ ↦ trivial
  | cons i rest ih =>
      intro s hI hmeets
      obtain ⟨r, hr, hgood, hI'⟩ := hstep s i hI hmeets.1
      simp only [Safe, hr]
      exact ⟨hgood, ih r.1 hI' (hmeets.tail hr)⟩

/-- If, under an invariant that good steps keep and for inputs of a domain, a step is good
exactly when its input meets the guard, a run in the domain is safe exactly when all its inputs
meet the guard. -/
theorem safe_iff_meets_within {step : σ → ι → Option (σ × ο)} {domain guard : σ → ι → Prop}
    {good : σ → ι → σ × ο → Prop} (I : σ → Prop)
    (hkeep : ∀ s i r, I s → domain s i → step s i = some r → good s i r → I r.1)
    (hexact : ∀ s i, I s → domain s i → ((∃ r, step s i = some r ∧ good s i r) ↔ guard s i)) :
    ∀ is s, I s → Meets step domain s is → (Safe step good s is ↔ Meets step guard s is) := by
  intro is
  induction is with
  | nil => exact fun _ _ _ ↦ Iff.rfl
  | cons i rest ih =>
      intro s hI hdomain
      have hone := hexact s i hI hdomain.1
      cases hs : step s i with
      | none =>
          have hno : ¬guard s i := by simpa [hs] using hone
          simp [Safe, Meets, hs, hno]
      | some r =>
          have hgood : good s i r ↔ guard s i := by simpa [hs] using hone
          simp only [Safe, Meets, hs]
          rw [hgood]
          refine and_congr_right fun hguard ↦ ?_
          exact ih r.1 (hkeep s i r hI hdomain.1 hs (hgood.mpr hguard)) (hdomain.tail hs)

/-- If in every state of an invariant, which good steps keep, a step is good
exactly when its input meets the guard, a run is safe exactly when all its inputs
do. -/
theorem safe_iff_meets {step : σ → ι → Option (σ × ο)} {guard : σ → ι → Prop}
    {good : σ → ι → σ × ο → Prop} (I : σ → Prop)
    (hkeep : ∀ s i r, I s → step s i = some r → good s i r → I r.1)
    (hexact : ∀ s i, I s → ((∃ r, step s i = some r ∧ good s i r) ↔ guard s i)) :
    ∀ is s, I s → (Safe step good s is ↔ Meets step guard s is) :=
  fun is s hI ↦ safe_iff_meets_within I (fun s i r hI _ ↦ hkeep s i r hI)
    (fun s i hI _ ↦ hexact s i hI) is s hI (meets_of_forall (fun _ _ _ ↦ trivial) s)

/-- A partial function as a machine without outputs. -/
def silent (f : σ → ι → Option σ) (s : σ) (i : ι) : Option (σ × Unit) := (f s i).map (·, ())

theorem foldlM_isSome_iff_meets {f : σ → ι → Option σ} {guard : σ → ι → Prop}
    (hexact : ∀ s i, (f s i).isSome ↔ guard s i) (is : List ι) :
    ∀ s, (is.foldlM f s).isSome ↔ Meets (silent f) guard s is := by
  induction is with
  | nil => exact fun _ ↦ iff_of_true rfl trivial
  | cons i rest ih =>
      intro s
      have hone := hexact s i
      rw [List.foldlM_cons]
      cases hs : f s i with
      | none =>
          have hno : ¬guard s i := by simpa [hs] using hone
          simp [Meets, hno]
      | some s' =>
          have hyes : guard s i := by simpa [hs] using hone
          simp only [Meets, silent, hs, Option.map_some, hyes, true_and]
          exact ih s'

/-- A guard that does not look at the state, and that keeps a run going. -/
theorem meets_iff_forall {f : σ → ι → Option σ} {guard : ι → Prop}
    (hgoes : ∀ s i, guard i → (f s i).isSome) (is : List ι) :
    ∀ s, Meets (silent f) (fun _ i ↦ guard i) s is ↔ ∀ i ∈ is, guard i := by
  induction is with
  | nil => simp [Meets]
  | cons i rest ih =>
      intro s
      rw [List.forall_mem_cons, Meets]
      refine and_congr_right fun hi ↦ ?_
      obtain ⟨s', hs⟩ := Option.isSome_iff_exists.mp (hgoes s i hi)
      simp only [silent, hs, Option.map_some]
      exact ih s'

/-- States reached by admissible steps from an initial one. -/
inductive Reachable (step : σ → ι → Option (σ × ο)) (admissible : σ → ι → Prop) (s₀ : σ) :
    σ → Prop
  | init : Reachable step admissible s₀ s₀
  | step {s s' : σ} {i : ι} {out : ο} (h : Reachable step admissible s₀ s)
      (hi : admissible s i) (hs : step s i = some (s', out)) : Reachable step admissible s₀ s'

/-- What holds initially and is kept by admissible steps holds in every
reachable state. -/
theorem Reachable.invariant {step : σ → ι → Option (σ × ο)} {admissible : σ → ι → Prop}
    {s₀ s : σ} {P : σ → Prop} (h : Reachable step admissible s₀ s) (hinit : P s₀)
    (hstep : ∀ s s' i out, P s → admissible s i → step s i = some (s', out) → P s') : P s := by
  induction h with
  | init => exact hinit
  | step _ hi hs ih => exact hstep _ _ _ _ ih hi hs

/-- The state behind a list of inputs; `none` if one of them is not possible. -/
def run (step : σ → ι → Option (σ × ο)) : σ → List ι → Option σ
  | s, [] => some s
  | s, i :: rest =>
      match step s i with
      | none => none
      | some (s', _) => run step s' rest

theorem exists_of_run_cons {step : σ → ι → Option (σ × ο)} {s s' : σ} {i : ι} {is : List ι}
    (h : run step s (i :: is) = some s') :
    ∃ mid out, step s i = some (mid, out) ∧ run step mid is = some s' := by
  cases hs : step s i with
  | none => simp [run, hs] at h
  | some r =>
      simp only [run, hs] at h
      exact ⟨r.1, r.2, rfl, h⟩

theorem Reachable.of_run {step : σ → ι → Option (σ × ο)} {admissible : σ → ι → Prop} {s₀ : σ}
    {is : List ι} (hadm : ∀ i ∈ is, ∀ s, admissible s i) :
    ∀ {s s'}, Reachable step admissible s₀ s → run step s is = some s' →
      Reachable step admissible s₀ s' := by
  induction is with
  | nil =>
      intro s s' h hrun
      obtain rfl : s = s' := by simpa [run] using hrun
      exact h
  | cons i rest ih =>
      intro s s' h hrun
      obtain ⟨mid, out, hs, hrest⟩ := exists_of_run_cons hrun
      exact ih (fun j hj ↦ hadm j (List.mem_cons_of_mem i hj))
        (h.step (hadm i List.mem_cons_self s) hs) hrest

/-- Guarded steps that keep an invariant keep it along a run. -/
theorem run_invariant {step : σ → ι → Option (σ × ο)} {guard : σ → ι → Prop} {I : σ → Prop}
    (hstep : ∀ s s' i out, I s → guard s i → step s i = some (s', out) → I s') {is : List ι} :
    ∀ {s s'}, I s → Meets step guard s is → run step s is = some s' → I s' := by
  induction is with
  | nil =>
      intro s s' hI _ hrun
      obtain rfl : s = s' := by simpa [run] using hrun
      exact hI
  | cons i rest ih =>
      intro s s' hI hmeets hrun
      obtain ⟨mid, out, hs, hrest⟩ := exists_of_run_cons hrun
      exact ih (hstep s mid i out hI hmeets.1 hs) (hmeets.tail hs) hrest

theorem Reachable.of_meets {step : σ → ι → Option (σ × ο)} {admissible : σ → ι → Prop} {s₀ : σ}
    {is : List ι} {s : σ} (hmeets : Meets step admissible s₀ is) (hrun : run step s₀ is = some s) :
    Reachable step admissible s₀ s :=
  run_invariant (fun _ _ _ _ h hi hs ↦ h.step hi hs) .init hmeets hrun

theorem run_append {step : σ → ι → Option (σ × ο)} (is js : List ι) (s : σ) :
    run step s (is ++ js) = (run step s is).bind fun s' ↦ run step s' js := by
  induction is generalizing s with
  | nil => rfl
  | cons i rest ih =>
      cases hs : step s i with
      | none => simp [run, hs]
      | some r =>
          simp only [List.cons_append, run, hs]
          exact ih r.1

theorem Meets.of_append {step : σ → ι → Option (σ × ο)} {guard : σ → ι → Prop} {is js : List ι} :
    ∀ {s}, Meets step guard s (is ++ js) → Meets step guard s is := by
  induction is with
  | nil => exact fun _ ↦ trivial
  | cons i rest ih =>
      intro s h
      refine ⟨h.1, ?_⟩
      have hrest := h.2
      cases hs : step s i with
      | none => trivial
      | some r =>
          simp only [hs] at hrest ⊢
          exact ih hrest

/-- What holds at the start and is kept by every step, with the inputs so far, holds
behind every run. -/
theorem run_history {step : σ → ι → Option (σ × ο)} {I : σ → List ι → Prop}
    (hstep : ∀ s is i s' out, I s is → step s i = some (s', out) → I s' (is ++ [i]))
    {is : List ι} :
    ∀ {s s' done}, I s done → run step s is = some s' → I s' (done ++ is) := by
  induction is with
  | nil =>
      intro s s' done hI hrun
      obtain rfl : s = s' := by simpa [run] using hrun
      simpa using hI
  | cons i rest ih =>
      intro s s' done hI hrun
      obtain ⟨mid, out, hs, hrest⟩ := exists_of_run_cons hrun
      have hlater := ih (hstep s done i mid out hI hs) hrest
      simpa using hlater

/-! ## Folds as runs -/

/-- The inputs behind the elements of a fold, each in the state it is taken in. -/
def foldTrace {α : Type*} (f : σ → α → σ) (trace : σ → α → List ι) : σ → List α → List ι
  | _, [] => []
  | s, a :: rest => trace s a ++ foldTrace f trace (f s a) rest

theorem run_foldTrace {α : Type*} {step : σ → ι → Option (σ × ο)} {f : σ → α → σ}
    {trace : σ → α → List ι} {as : List α}
    (h : ∀ a ∈ as, ∀ s, run step s (trace s a) = some (f s a)) (s : σ) :
    run step s (foldTrace f trace s as) = some (as.foldl f s) := by
  induction as generalizing s with
  | nil => rfl
  | cons a rest ih =>
      rw [foldTrace, run_append, h a List.mem_cons_self s, Option.bind_some]
      exact ih (fun b hb ↦ h b (List.mem_cons_of_mem a hb)) (f s a)

/-! ## Records -/

section Record

variable {η : Type*}

def recorded (step : σ → ι → Option (σ × ο)) (note : σ → η → ι → η) (s : σ × η) (i : ι) :
    Option ((σ × η) × ο) :=
  (step s.1 i).map fun r ↦ ((r.1, note s.1 s.2 i), r.2)

def recordAfter (step : σ → ι → Option (σ × ο)) (note : σ → η → ι → η) : σ → η → List ι → η
  | _, record, [] => record
  | s, record, i :: rest =>
      match step s i with
      | none => record
      | some (s', _) => recordAfter step note s' (note s record i) rest

theorem run_recorded (step : σ → ι → Option (σ × ο)) (note : σ → η → ι → η) (is : List ι) (s : σ)
    (record : η) :
    run (recorded step note) (s, record) is =
      (run step s is).map fun s' ↦ (s', recordAfter step note s record is) := by
  induction is generalizing s record with
  | nil => rfl
  | cons i rest ih =>
      cases hs : step s i with
      | none => simp [run, recorded, hs]
      | some r =>
          simp only [run, recorded, recordAfter, hs, Option.map_some]
          exact ih r.1 (note s record i)

end Record

/-! ## Outputs of a run -/

/-- The state behind a list of inputs, with the outputs along the way; `none` if
one of the inputs is not possible. -/
def trace (step : σ → ι → Option (σ × ο)) : σ → List ι → Option (σ × List ο)
  | s, [] => some (s, [])
  | s, i :: rest =>
      match step s i with
      | none => none
      | some (s', out) => (trace step s' rest).map fun r ↦ (r.1, out :: r.2)

theorem exists_of_trace_cons {step : σ → ι → Option (σ × ο)} {s s' : σ} {i : ι} {is : List ι}
    {outs : List ο} (h : trace step s (i :: is) = some (s', outs)) :
    ∃ mid out rest, step s i = some (mid, out) ∧ trace step mid is = some (s', rest) ∧
      outs = out :: rest := by
  cases hs : step s i with
  | none => simp [trace, hs] at h
  | some r =>
      simp only [trace, hs] at h
      obtain ⟨⟨last, rest⟩, hrest, hend⟩ := Option.map_eq_some_iff.mp h
      obtain ⟨rfl, rfl⟩ := Prod.mk.inj hend
      exact ⟨r.1, r.2, rest, rfl, hrest, rfl⟩

theorem trace_concat {step : σ → ι → Option (σ × ο)} {is : List ι} {i : ι} {out : ο} :
    ∀ {s mid s' outs}, trace step s is = some (mid, outs) → step mid i = some (s', out) →
      trace step s (is ++ [i]) = some (s', outs ++ [out]) := by
  induction is with
  | nil =>
      intro s mid s' outs htrace hs
      obtain ⟨rfl, rfl⟩ : s = mid ∧ [] = outs := by simpa [trace] using htrace
      simp [trace, hs]
  | cons j rest ih =>
      intro s mid s' outs htrace hs
      obtain ⟨next, out', later, hnext, hrest, rfl⟩ := exists_of_trace_cons htrace
      simp [trace, hnext, ih hrest hs]

/-- What holds at the start and is kept by every guarded step, with the inputs and
the outputs so far, holds behind every guarded run. -/
theorem trace_invariant_of_meets {step : σ → ι → Option (σ × ο)} {guard : σ → ι → Prop}
    {I : σ → List ι → List ο → Prop}
    (hstep : ∀ s is outs i s' out, I s is outs → guard s i → step s i = some (s', out) →
      I s' (is ++ [i]) (outs ++ [out])) {is : List ι} :
    ∀ {s s' done past outs}, I s done past → Meets step guard s is →
      trace step s is = some (s', outs) → I s' (done ++ is) (past ++ outs) := by
  induction is with
  | nil =>
      intro s s' done past outs hI _ htrace
      obtain ⟨rfl, rfl⟩ : s = s' ∧ [] = outs := by simpa [trace] using htrace
      simpa using hI
  | cons i rest ih =>
      intro s s' done past outs hI hmeets htrace
      obtain ⟨mid, out, later, hs, hrest, rfl⟩ := exists_of_trace_cons htrace
      have hlater := ih (hstep s done past i mid out hI hmeets.1 hs) (hmeets.tail hs) hrest
      simpa using hlater

theorem trace_invariant {step : σ → ι → Option (σ × ο)} {I : σ → List ι → List ο → Prop}
    (hstep : ∀ s is outs i s' out, I s is outs → step s i = some (s', out) →
      I s' (is ++ [i]) (outs ++ [out])) {is : List ι} {s s' : σ} {done : List ι}
    {past outs : List ο} (hI : I s done past) (htrace : trace step s is = some (s', outs)) :
    I s' (done ++ is) (past ++ outs) :=
  trace_invariant_of_meets (fun s is outs i s' out hI _ hs ↦ hstep s is outs i s' out hI hs) hI
    (meets_of_forall (fun _ _ _ ↦ trivial) s) htrace

theorem outputs_invariant_of_meets {step : σ → ι → Option (σ × ο)} {guard : σ → ι → Prop}
    {I : σ → List ο → Prop}
    (hstep : ∀ s outs i s' out, I s outs → guard s i → step s i = some (s', out) →
      I s' (outs ++ [out])) {is : List ι} {s s' : σ} {past outs : List ο} (hI : I s past)
    (hmeets : Meets step guard s is) (htrace : trace step s is = some (s', outs)) :
    I s' (past ++ outs) := by
  have hkeep : ∀ s (_ : List ι) outs i s' out, I s outs → guard s i →
      step s i = some (s', out) → I s' (outs ++ [out]) := fun s _ ↦ hstep s
  exact @trace_invariant_of_meets _ _ _ step guard (fun s _ ↦ I s) hkeep is s s' [] past outs hI
    hmeets htrace

/-- If an output is good exactly when its input meets the guard, all outputs of a
run are good exactly when all its inputs do. -/
theorem forall_outputs_iff_meets {step : σ → ι → Option (σ × ο)} {guard : σ → ι → Prop}
    {good : ο → Prop} (hexact : ∀ s i s' out, step s i = some (s', out) → (good out ↔ guard s i))
    {is : List ι} :
    ∀ {s s' outs}, trace step s is = some (s', outs) →
      ((∀ out ∈ outs, good out) ↔ Meets step guard s is) := by
  induction is with
  | nil =>
      intro s s' outs htrace
      obtain ⟨-, rfl⟩ : s = s' ∧ [] = outs := by simpa [trace] using htrace
      simp [Meets]
  | cons i rest ih =>
      intro s s' outs htrace
      obtain ⟨mid, out, later, hs, hrest, rfl⟩ := exists_of_trace_cons htrace
      rw [List.forall_mem_cons, hexact s i mid out hs, ih hrest]
      simp only [Meets, hs]

def outputs (spec : τ → ι → τ × ο) : τ → List ι → List ο
  | _, [] => []
  | t, i :: rest => (spec t i).2 :: outputs spec (spec t i).1 rest

/-- A machine that looks at its inputs through `f` only. -/
theorem outputs_map {κ : Type*} (spec : τ → κ → τ × ο) (f : ι → κ) (is : List ι) (t : τ) :
    outputs (fun t i ↦ spec t (f i)) t is = outputs spec t (is.map f) := by
  induction is generalizing t with
  | nil => rfl
  | cons i rest ih =>
      rw [outputs, List.map_cons, outputs]
      exact congrArg _ (ih _)

theorem Tracks.outputs_eq {step : σ → ι → Option (σ × ο)} {spec : τ → ι → τ × ο}
    {good : σ → τ → Prop} {is : List ι} :
    ∀ {s s' t outs}, Tracks step spec good s t is → trace step s is = some (s', outs) →
      outs = outputs spec t is ∧ good s' (is.foldl (fun t i ↦ (spec t i).1) t) := by
  induction is with
  | nil =>
      intro s s' t outs htracks htrace
      obtain ⟨rfl, rfl⟩ : s = s' ∧ [] = outs := by simpa [trace] using htrace
      exact ⟨rfl, htracks⟩
  | cons i rest ih =>
      intro s s' t outs htracks htrace
      obtain ⟨mid, out, later, hs, hrest, rfl⟩ := exists_of_trace_cons htrace
      have hmid := htracks.2
      simp only [hs] at hmid
      obtain ⟨hout, hlater⟩ := hmid
      obtain ⟨houts, hgood⟩ := ih hlater hrest
      exact ⟨by rw [outputs, hout, houts], hgood⟩

end LtnTsTools.PartialMachine
