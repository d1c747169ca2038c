import Mathlib.Data.List.TakeWhile
import Mathlib.Tactic

/-!
# Metering

A meter adds up what is written at one time.  With the first write of another time it keeps the sum
as its rate and starts a new one.  A read that comes too late for the last write clears both.  In a
run whose times do not go back the rate is the sum of everything written at the last busy time but
one, as long as no read came too late for it, or for the last one.  A meter may also keep its rate
when a read comes too late, and clear the open sum only.
-/

namespace LtnTsTools.Metering

/-- An amount written at a time, or a read. -/
inductive Op (τ α : Type*)
  | write (now : τ) (amount : α)
  | read (now : τ)

variable {τ α : Type*}

def Op.time : Op τ α → τ
  | .write now _ => now
  | .read now => now

def Op.busy : Op τ α → Option τ
  | .write now _ => some now
  | .read _ => none

structure Meter (τ α : Type*) where
  lastUpdate : τ
  rate : α
  window : α

/-! ## Runs -/

section Runs

variable [DecidableEq τ] [AddMonoid α]

def Meter.zero (t₀ : τ) : Meter τ α := ⟨t₀, 0, 0⟩

def Meter.write (m : Meter τ α) (now : τ) (amount : α) : Meter τ α :=
  if now = m.lastUpdate then { m with window := m.window + amount } else ⟨now, m.window, amount⟩

variable (late : τ → τ → Prop) [∀ t u, Decidable (late t u)] (clears : Bool)

omit [DecidableEq τ] in
/-- What a read does, where `late t u` says that a read at `u` is too late for a write at `t`. -/
def Meter.expire (m : Meter τ α) (now : τ) : Meter τ α :=
  if late m.lastUpdate now then { m with rate := if clears then 0 else m.rate, window := 0 } else m

def Meter.step (m : Meter τ α) : Op τ α → Meter τ α
  | .write now amount => m.write now amount
  | .read now => m.expire late clears now

def metered (t₀ : τ) (ops : List (Op τ α)) : Meter τ α :=
  ops.foldl (Meter.step late clears) (.zero t₀)

/-! ## What a run leaves -/

/-- The amount that an operation writes at `t`. -/
def Op.amountAt (t : τ) : Op τ α → Option α
  | .write now amount => if now = t then some amount else none
  | .read _ => none

omit [DecidableEq τ] [AddMonoid α] in
/-- The operation is a read too late for a write at `t`. -/
def Op.lateFor (t : τ) : Op τ α → Bool
  | .write _ _ => false
  | .read now => decide (late t now)

/-- The amounts that were written at `t`. -/
def amountsAt (t : τ) (ops : List (Op τ α)) : List α := ops.filterMap (Op.amountAt t)

def lastBusy (ops : List (Op τ α)) : Option τ := (ops.filterMap Op.busy).getLast?

/-- The operations in front of the first write at `t`. -/
def before (t : τ) (ops : List (Op τ α)) : List (Op τ α) := ops.takeWhile fun op ↦ op.busy ≠ some t

/-- A read came too late for the writes at `t`. -/
def lapsed (t : τ) (ops : List (Op τ α)) : Bool := ops.any (Op.lateFor late t)

/-- The sum of what was written at the last busy time. -/
def spent (ops : List (Op τ α)) : α :=
  match lastBusy ops with
  | none => 0
  | some t => if lapsed late t ops then 0 else (amountsAt t ops).sum

/-- The sum of what was written at the last busy time but one. -/
def closed (ops : List (Op τ α)) : α :=
  match lastBusy ops with
  | none => 0
  | some t => if clears && lapsed late t ops then 0 else spent late (before t ops)

end Runs

/-! ## Times that do not go back -/

section Sorted

variable [LinearOrder τ] [AddMonoid α] {late : τ → τ → Prop} [∀ t u, Decidable (late t u)]
  {clears : Bool}

variable {κ : Type*}

theorem metered_flatMap_concat (t₀ : τ) (ops : κ → List (Op τ α)) (calls : List κ) (call : κ) :
    metered late clears t₀ ((calls ++ [call]).flatMap ops) =
      (ops call).foldl (Meter.step late clears) (metered late clears t₀ (calls.flatMap ops)) := by
  rw [List.flatMap_append, metered, List.foldl_append]
  simp [metered]

end Sorted

/-! ## Whole seconds -/

def After (slack t u : ℤ) : Prop := t + slack < u

instance (slack t u : ℤ) : Decidable (After slack t u) := inferInstanceAs (Decidable (_ < _))

theorem After.lt {slack : ℤ} (h : 0 ≤ slack) (t u : ℤ) (hafter : After slack t u) : t < u := by
  unfold After at hafter
  linarith

end LtnTsTools.Metering
