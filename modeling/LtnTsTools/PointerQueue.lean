import LtnTsTools.PartialMachine

/-!
# The pointer queue

The model of `kl-queue.c`.  Every call works in critical sections of one mutex, so
a run is a sequence of them: a push, the first section of a pop, which either
takes an item or goes to sleep on the condition variable, and the section in which
a sleeper holds the mutex again, after a signal, a spurious wake-up or a timeout.
The queue is first in, first out in every run; the return code is honest as long
as no sleeper that was woken finds the queue empty.  Allocations succeed.
-/

namespace LtnTsTools.PointerQueue

open PartialMachine

variable {α τ : Type*}

/-- `struct klqueue_s`. -/
structure Klqueue (α : Type*) where
  list : List α
  itemCount : ℕ
deriving DecidableEq

/-- `klqueue_initialize`. -/
def klqueueInitialize : Klqueue α := ⟨[], 0⟩

/-- `klqueue_count`. -/
def klqueueCount (q : Klqueue α) : ℕ := q.itemCount

/-- `klqueue_empty`. -/
def klqueueEmpty (q : Klqueue α) : Bool := klqueueCount q == 0

/-- `klqueue_push`. -/
def klqueuePush (q : Klqueue α) (item : α) : Klqueue α := ⟨q.list ++ [item], q.itemCount + 1⟩

/-- `ETIMEDOUT`. -/
def etimedout : ℤ := 110

/-- What `klqueue_pop_non_blocking` returns, and what it stores in `*item`, if
anything. -/
structure PopResult (α : Type*) where
  ret : ℤ
  item : Option α
deriving DecidableEq

/-- How `pthread_cond_timedwait` returns: with zero, signalled or not, or with
`ETIMEDOUT`. -/
inductive Wait
  | woken
  | timedOut
deriving DecidableEq

/-- `klqueue_pop_non_blocking` with `ret == 0`: an item is taken if there is one. -/
def takeFirst (q : Klqueue α) : Klqueue α × PopResult α :=
  match q.list with
  | [] => (q, ⟨0, none⟩)
  | item :: rest => (⟨rest, q.itemCount - 1⟩, ⟨0, some item⟩)

/-- `klqueue_pop_non_blocking` behind `pthread_cond_timedwait`. -/
def klqueueResume (q : Klqueue α) : Wait → Klqueue α × PopResult α
  | .timedOut => (q, ⟨etimedout, none⟩)
  | .woken => takeFirst q

structure State (α τ : Type*) where
  queue : Klqueue α
  sleeping : τ → Bool

/-- A critical section of a thread. -/
inductive Action (α τ : Type*)
  | push (item : α)
  | pop (thread : τ)
  | resume (thread : τ) (wait : Wait)
deriving DecidableEq

/-- One critical section; a pop that goes to sleep has no result yet.  A sleeper
does not call, and only a sleeper is resumed. -/
def step [DecidableEq τ] (s : State α τ) :
    Action α τ → Option (State α τ × Option (PopResult α))
  | .push item => some ({ s with queue := klqueuePush s.queue item }, none)
  | .pop thread =>
      if s.sleeping thread then none
      else if s.queue.list = [] then
        some ({ s with sleeping := Function.update s.sleeping thread true }, none)
      else
        let r := takeFirst s.queue
        some ({ s with queue := r.1 }, some r.2)
  | .resume thread wait =>
      if s.sleeping thread then
        let r := klqueueResume s.queue wait
        some ({ queue := r.1, sleeping := Function.update s.sleeping thread false }, some r.2)
      else none

def initial : State α τ := ⟨klqueueInitialize, fun _ ↦ false⟩

def pushedItems (actions : List (Action α τ)) : List α :=
  actions.filterMap fun a ↦
    match a with
    | .push item => some item
    | _ => none

def deliveredItems (results : List (Option (PopResult α))) : List α :=
  results.filterMap fun r ↦ r.bind PopResult.item

/-- The return code is zero exactly when an item was stored. -/
def Honest (result : Option (PopResult α)) : Prop :=
  ∀ r ∈ result, r.ret = 0 ↔ r.item.isSome = true

/-- A sleeper that was woken finds an item. -/
def FindsItem (s : State α τ) : Action α τ → Prop
  | .resume _ .woken => s.queue.list ≠ []
  | _ => True

instance (s : State α τ) : ∀ action, Decidable (FindsItem s action)
  | .push _ => isTrue trivial
  | .pop _ => isTrue trivial
  | .resume _ .timedOut => isTrue trivial
  | .resume _ .woken => decidable_of_iff (s.queue.list.isEmpty = false) (by simp [FindsItem])

/-! ## First in, first out -/

@[simp] theorem pushedItems_push (actions : List (Action α τ)) (item : α) :
    pushedItems (actions ++ [.push item]) = pushedItems actions ++ [item] := by
  simp [pushedItems]

@[simp] theorem pushedItems_pop (actions : List (Action α τ)) (thread : τ) :
    pushedItems (actions ++ [.pop thread]) = pushedItems actions := by
  simp [pushedItems]

@[simp] theorem pushedItems_resume (actions : List (Action α τ)) (thread : τ) (wait : Wait) :
    pushedItems (actions ++ [.resume thread wait]) = pushedItems actions := by
  simp [pushedItems]

@[simp] theorem deliveredItems_none (results : List (Option (PopResult α))) :
    deliveredItems (results ++ [none]) = deliveredItems results := by
  simp [deliveredItems]

@[simp] theorem deliveredItems_some (results : List (Option (PopResult α))) (r : PopResult α) :
    deliveredItems (results ++ [some r]) = deliveredItems results ++ r.item.toList := by
  cases hitem : r.item <;> simp [deliveredItems, hitem]

/-- What was pushed has been delivered, in the same order, or is still on the list,
and the counter counts the list. -/
structure Fifo (q : Klqueue α) (pushed delivered : List α) : Prop where
  order : pushed = delivered ++ q.list
  count : q.itemCount = q.list.length

theorem Fifo.push {q : Klqueue α} {pushed delivered : List α} (h : Fifo q pushed delivered)
    (item : α) : Fifo (klqueuePush q item) (pushed ++ [item]) delivered := by
  constructor
  · rw [h.order, klqueuePush, List.append_assoc]
  · simp [klqueuePush, h.count]

theorem Fifo.takeFirst {q : Klqueue α} {pushed delivered : List α} (h : Fifo q pushed delivered) :
    Fifo (takeFirst q).1 pushed (delivered ++ (takeFirst q).2.item.toList) := by
  obtain ⟨list, count⟩ := q
  cases list with
  | nil => simpa [PointerQueue.takeFirst] using h
  | cons item rest =>
      constructor
      · rw [h.order]
        simp [PointerQueue.takeFirst]
      · have hcount := h.count
        simp only [List.length_cons] at hcount
        simp [PointerQueue.takeFirst, hcount]

theorem Fifo.resume {q : Klqueue α} {pushed delivered : List α} (h : Fifo q pushed delivered)
    (wait : Wait) :
    Fifo (klqueueResume q wait).1 pushed
      (delivered ++ (klqueueResume q wait).2.item.toList) := by
  cases wait with
  | woken => exact h.takeFirst
  | timedOut => simpa [klqueueResume] using h

section Runs

variable [DecidableEq τ]

/-- What a critical section does to the queue, and its result. -/
theorem step_cases {s s' : State α τ} {action : Action α τ} {result : Option (PopResult α)}
    (hs : step s action = some (s', result)) :
    (∃ item, action = .push item ∧ s'.queue = klqueuePush s.queue item ∧ result = none) ∨
    (∃ thread, action = .pop thread ∧ s'.queue = s.queue ∧ result = none) ∨
    (∃ thread, action = .pop thread ∧ s.queue.list ≠ [] ∧ s'.queue = (takeFirst s.queue).1 ∧
      result = some (takeFirst s.queue).2) ∨
    ∃ thread wait, action = .resume thread wait ∧ s'.queue = (klqueueResume s.queue wait).1 ∧
      result = some (klqueueResume s.queue wait).2 := by
  cases action with
  | push item =>
      obtain ⟨rfl, rfl⟩ : _ = s' ∧ none = result := by simpa [step] using hs
      exact .inl ⟨item, rfl, rfl, rfl⟩
  | pop thread =>
      simp only [step] at hs
      split_ifs at hs with hsleep hempty
      · obtain ⟨rfl, rfl⟩ : _ = s' ∧ none = result := by simpa using hs
        exact .inr (.inl ⟨thread, rfl, rfl, rfl⟩)
      · obtain ⟨rfl, rfl⟩ : _ = s' ∧ some (takeFirst s.queue).2 = result := by simpa using hs
        exact .inr (.inr (.inl ⟨thread, rfl, hempty, rfl, rfl⟩))
  | resume thread wait =>
      simp only [step] at hs
      split_ifs at hs with hsleep
      obtain ⟨rfl, rfl⟩ : _ = s' ∧ some (klqueueResume s.queue wait).2 = result := by
        simpa using hs
      exact .inr (.inr (.inr ⟨thread, wait, rfl, rfl, rfl⟩))

theorem fifo_step (s : State α τ) (actions : List (Action α τ))
    (results : List (Option (PopResult α))) (action : Action α τ) (s' : State α τ)
    (result : Option (PopResult α))
    (h : Fifo s.queue (pushedItems actions) (deliveredItems results))
    (hs : step s action = some (s', result)) :
    Fifo s'.queue (pushedItems (actions ++ [action])) (deliveredItems (results ++ [result])) := by
  rcases step_cases hs with ⟨item, rfl, hq, rfl⟩ | ⟨thread, rfl, hq, rfl⟩ |
    ⟨thread, rfl, -, hq, rfl⟩ | ⟨thread, wait, rfl, hq, rfl⟩
  · simpa [hq] using h.push item
  · simpa [hq] using h
  · simpa [hq] using h.takeFirst
  · simpa [hq] using h.resume wait

theorem takeFirst_honest (q : Klqueue α) :
    Honest (some (takeFirst q).2) ↔ q.list ≠ [] := by
  unfold takeFirst
  cases q.list <;> simp [Honest]

/-- The one result that is not honest. -/
theorem honest_iff_findsItem (s : State α τ) (action : Action α τ) (s' : State α τ)
    (result : Option (PopResult α)) (hs : step s action = some (s', result)) :
    Honest result ↔ FindsItem s action := by
  rcases step_cases hs with ⟨item, rfl, -, rfl⟩ | ⟨thread, rfl, -, rfl⟩ |
    ⟨thread, rfl, hsome, -, rfl⟩ | ⟨thread, wait, rfl, -, rfl⟩
  · simp [Honest, FindsItem]
  · simp [Honest, FindsItem]
  · exact iff_of_true ((takeFirst_honest s.queue).mpr hsome) trivial
  · cases wait with
    | woken => exact takeFirst_honest s.queue
    | timedOut => simp [klqueueResume, Honest, FindsItem, etimedout]

/-- In every run the queue is first in, first out, and its counter counts the list;
all return codes of the run are honest exactly when every sleeper that was woken
found an item. -/
theorem klqueue_fifo_honest_iff {actions : List (Action α τ)} {s : State α τ}
    {results : List (Option (PopResult α))} (h : trace step initial actions = some (s, results)) :
    pushedItems actions = deliveredItems results ++ s.queue.list ∧
      klqueueCount s.queue = s.queue.list.length ∧
      ((∀ result ∈ results, Honest result) ↔ Meets step FindsItem initial actions) := by
  have hstart : Fifo (initial : State α τ).queue (pushedItems ([] : List (Action α τ)))
      (deliveredItems []) := ⟨rfl, rfl⟩
  have hfifo := trace_invariant fifo_step hstart h
  exact ⟨hfifo.order, hfifo.count, forall_outputs_iff_meets honest_iff_findsItem h⟩

end Runs

/-- A sleeper that finds an item, and one that times out. -/
theorem klqueue_fifo_honest_handover :
    ∃ s, trace step (initial : State ℕ ℕ)
        [.pop 1, .push 7, .resume 1 .woken, .pop 2, .resume 2 .timedOut] =
          some (s, [none, none, some ⟨0, some 7⟩, none, some ⟨etimedout, none⟩]) ∧
      pushedItems [.pop 1, .push 7, .resume 1 .woken, .pop 2, .resume 2 .timedOut] =
        [7] ++ s.queue.list ∧
      ∀ result ∈ [none, none, some ⟨0, some 7⟩, none, some ⟨etimedout, none⟩],
        Honest result := by
  obtain ⟨s, htrace⟩ : ∃ s, trace step (initial : State ℕ ℕ)
      [.pop 1, .push 7, .resume 1 .woken, .pop 2, .resume 2 .timedOut] =
        some (s, [none, none, some ⟨0, some 7⟩, none, some ⟨etimedout, none⟩]) := ⟨_, rfl⟩
  obtain ⟨horder, -, hhonest⟩ := klqueue_fifo_honest_iff htrace
  exact ⟨s, htrace, horder, hhonest.mpr (by decide +kernel)⟩

/-- Thread 1 sleeps, an item is pushed and taken by thread 2, and thread 1 wakes:
its pop returns zero and stores nothing. -/
theorem klqueue_dishonest :
    ∃ s, trace step (initial : State ℕ ℕ)
        [.pop 1, .push 7, .pop 2, .resume 1 .woken] =
          some (s, [none, none, some ⟨0, some 7⟩, some ⟨0, none⟩]) ∧
      ¬Honest (some (⟨0, none⟩ : PopResult ℕ)) := by
  refine ⟨_, rfl, ?_⟩
  simp [Honest]

end LtnTsTools.PointerQueue
