import LtnTsTools.HistoryMetric
import LtnTsTools.IntrusiveList

/-!
# Expiry of the history

`ltntstools_history_metric_collection_add` in memory: the entries are cells of a
circular list, and the expiry walks that list while it takes entries out and frees
them.  What it takes out is always the entry that was just added.
-/

namespace LtnTsTools.History

open IntrusiveList

/-- `xorg_list_init`. -/
def xorgListInit (l : Links) (list : ℕ) : Links :=
  ⟨Function.update l.next list list, Function.update l.prev list list⟩

/-- `xorg_list_add`. -/
def xorgListAdd (l : Links) (entry head : ℕ) : Links where
  next := Function.update (Function.update l.next entry (l.next head)) head entry
  prev := Function.update (Function.update l.prev (l.next head) entry) entry head

/-- `xorg_list_del`. -/
def xorgListDel (l : Links) (entry : ℕ) : Links :=
  xorgListInit
    { next := Function.update l.next (l.prev entry) (l.next entry)
      prev := Function.update l.prev (l.next entry) (l.prev entry) } entry

theorem xorgListAdd_eq (l : Links) (entry head : ℕ) :
    xorgListAdd l entry head = l.insertAfter entry head := rfl

theorem xorgListDel_eq (l : Links) (entry : ℕ) : xorgListDel l entry = l.remove entry := rfl

structure Memory where
  links : Links
  metrics : ℕ → HistoryMetric
  freed : List ℕ

def Memory.drop (mem : Memory) (m : ℕ) : Memory :=
  { mem with links := xorgListDel mem.links m, freed := m :: mem.freed }

/-- `xorg_list_del` and `ltntstools_history_metric_free`, which must not meet an entry
that is freed. -/
def Memory.deleteEntry (mem : Memory) (m : ℕ) : Option Memory :=
  if m ∈ mem.freed then none else some (mem.drop m)

/-- The expiry loop of `ltntstools_history_metric_collection_add`: `e` is the entry it
stands at, `next` the one it goes on with, read before the body of the loop. -/
def Memory.expireWalk (window : ℤ) (c m : ℕ) : ℕ → Memory → ℕ → ℕ → Option Memory
  | 0, _, _, _ => none
  | fuel + 1, mem, e, next =>
      if e = c then some mem
      else if e ∈ mem.freed then none
      else
        match if (mem.metrics e).ts < window then mem.deleteEntry m else some mem with
        | none => none
        | some mem =>
            if next ∈ mem.freed then none
            else expireWalk window c m fuel mem next (mem.links.next next)

/-- `ltntstools_history_metric_collection_add` of the entry `m` to the collection `c`. -/
def Memory.historyMetricCollectionAdd (mem : Memory) (c m : ℕ) (now : ℤ) (fuel : ℕ) :
    Option Memory :=
  let mem := { mem with links := xorgListAdd mem.links m c }
  let e := mem.links.next c
  mem.expireWalk (now - 25 * 60 * 60) c m fuel e (mem.links.next e)

/-! ## The walk -/

/-- In the middle of the walk: `gone` says whether the new entry `m` is already gone,
`todo` are the entries that are still to be visited. -/
structure Walking (mem : Memory) (c m : ℕ) (es todo : List ℕ) (gone : Bool) : Prop where
  nodup : (c :: m :: es).Nodup
  ring : Ring mem.links c (if gone then es else m :: es)
  live : ∀ e ∈ c :: es, e ∉ mem.freed
  gone_iff : m ∈ mem.freed ↔ gone = true
  todo_suffix : todo <:+ if gone then es else m :: es

theorem Walking.notMem_freed {mem : Memory} {c m : ℕ} {es todo : List ℕ} {gone : Bool}
    (h : Walking mem c m es todo gone) : ∀ e ∈ todo ++ [c], e ∉ mem.freed := by
  intro e he
  rcases List.mem_append.mp he with he | he
  · have hmem := h.todo_suffix.subset he
    cases gone with
    | true => exact h.live e (List.mem_cons_of_mem c hmem)
    | false =>
        rcases List.mem_cons.mp hmem with rfl | hes
        · exact fun hfreed ↦ Bool.false_ne_true (h.gone_iff.mp hfreed)
        · exact h.live e (List.mem_cons_of_mem c hes)
  · rw [List.mem_singleton.mp he]
    exact h.live c List.mem_cons_self

/-- The walk goes from an entry to the one behind it. -/
theorem Walking.next_eq {mem : Memory} {c m x e : ℕ} {es rest t : List ℕ} {gone : Bool}
    (h : Walking mem c m es (x :: rest) gone) (hnext : rest ++ [c] = e :: t) :
    mem.links.next x = e := by
  have hchain := h.ring.chain.tail.suffix (List.suffix_append_self_iff.mpr h.todo_suffix)
  rw [List.cons_append, hnext, List.isChain_cons_cons] at hchain
  exact hchain.1.1

theorem Walking.keep {mem : Memory} {c m x : ℕ} {es rest : List ℕ} {gone : Bool}
    (h : Walking mem c m es (x :: rest) gone) : Walking mem c m es rest gone :=
  { h with todo_suffix := (List.suffix_cons x rest).trans h.todo_suffix }

/-- An old entry has the new one taken out. -/
theorem Walking.drop {mem : Memory} {c m x : ℕ} {es rest : List ℕ}
    (h : Walking mem c m es (x :: rest) false) : Walking (mem.drop m) c m es rest true where
  nodup := h.nodup
  ring := by
    rw [Memory.drop, xorgListDel_eq]
    exact h.ring.remove
  live := by
    intro e he hfreed
    rcases List.mem_cons.mp hfreed with rfl | hold
    · exact (List.nodup_cons.mp ((List.Perm.swap ..).nodup_iff.mp h.nodup)).1 he
    · exact h.live e he hold
  gone_iff := by simp [Memory.drop]
  todo_suffix := by
    rcases List.suffix_cons_iff.mp h.todo_suffix with heq | hsuffix
    · rw [(List.cons.inj heq).2]
      exact List.suffix_refl es
    · exact (List.suffix_cons x rest).trans hsuffix

theorem expireLoop_true {window : ℤ} {l : List HistoryMetric} {gone : Bool}
    (h : expireLoop window l true = some gone) : gone = true := by
  induction l with
  | nil => exact (Option.some.inj h).symm
  | cons e rest ih =>
      by_cases hold : e.ts < window
      · simp [expireLoop, hold] at h
      · exact ih (by simpa [expireLoop, hold] using h)

/-- The walk in memory is the loop over the list: it ends where that ends, with the
new entry taken out if it was not before. -/
theorem Memory.expireWalk_eq {window : ℤ} {c m : ℕ} {es : List ℕ} (fuel : ℕ) :
    ∀ {mem : Memory} {todo t : List ℕ} {gone : Bool} {e : ℕ}, Walking mem c m es todo gone →
      todo ++ [c] = e :: t → todo.length < fuel →
      mem.expireWalk window c m fuel e (mem.links.next e) =
        (expireLoop window (todo.map mem.metrics) gone).map fun gone' ↦
          if gone' = gone then mem else mem.drop m := by
  induction fuel with
  | zero => exact fun _ _ hfuel ↦ absurd hfuel (Nat.not_lt_zero _)
  | succ fuel ih =>
      intro mem todo t gone e h hfirst hfuel
      cases todo with
      | nil =>
          obtain ⟨rfl, -⟩ := List.cons.inj hfirst
          simp [expireWalk, expireLoop]
      | cons x rest =>
          obtain ⟨rfl, -⟩ := List.cons.inj hfirst
          obtain ⟨y, t', hnext⟩ := exists_follower c rest
          have hxc : x ≠ c := by
            rintro rfl
            exact h.ring.notMem (h.todo_suffix.subset List.mem_cons_self)
          have hx : x ∉ mem.freed := h.notMem_freed x (by simp)
          have hy : y ∉ mem.freed := h.notMem_freed y (by simp [hnext])
          have hlen : rest.length < fuel := Nat.lt_of_succ_lt_succ hfuel
          simp only [expireWalk, if_neg hxc, if_neg hx, h.next_eq hnext, List.map_cons, expireLoop]
          by_cases hold : (mem.metrics x).ts < window
          · cases gone with
            | true => simp [hold, deleteEntry, h.gone_iff]
            | false =>
                have hm : m ∉ mem.freed := fun hfreed ↦ Bool.false_ne_true (h.gone_iff.mp hfreed)
                have hy' : y ∉ (mem.drop m).freed := h.drop.notMem_freed y (by simp [hnext])
                simp only [hold, if_true, deleteEntry, if_neg hm, if_neg hy']
                rw [ih h.drop hnext hlen]
                change (expireLoop window (rest.map mem.metrics) true).map _ = _
                cases hloop : expireLoop window (rest.map mem.metrics) true with
                | none => rfl
                | some gone' => simp [expireLoop_true hloop]
          · simp only [hold, if_false, if_neg hy]
            exact ih h.keep hnext hlen

/-! ## Collections -/

/-- A collection in memory: a list of entries that are not freed. -/
structure Collection where
  mem : Memory
  head : ℕ
  entries : List ℕ
  ring : Ring mem.links head entries
  live : ∀ e ∈ head :: entries, e ∉ mem.freed

def Collection.history (c : Collection) : List HistoryMetric := c.entries.map c.mem.metrics

/-- A new entry is none of the collection, and is not freed. -/
def Collection.Fresh (c : Collection) (m : ℕ) : Prop :=
  m ∉ c.head :: c.entries ∧ m ∉ c.mem.freed

def Collection.inserted (c : Collection) (m : ℕ) : Memory :=
  { c.mem with links := xorgListAdd c.mem.links m c.head }

theorem Collection.walking {c : Collection} {m : ℕ} (hm : c.Fresh m) :
    Walking (c.inserted m) c.head m c.entries (m :: c.entries) false where
  nodup := (List.Perm.swap ..).nodup_iff.mp (c.ring.nodup.cons hm.1)
  ring := by
    rw [Collection.inserted, xorgListAdd_eq]
    exact c.ring.insert hm.1
  live := c.live
  gone_iff := by simpa [Collection.inserted] using hm.2
  todo_suffix := List.suffix_refl _

/-- Adding to a collection in memory is adding to the list of what it holds: it fails
where that fails, and else the new entry stays or goes as it does there. -/
theorem Collection.add_eq {c : Collection} {m : ℕ} (hm : c.Fresh m) (now : ℤ) {fuel : ℕ}
    (hfuel : c.entries.length + 1 < fuel) :
    c.mem.historyMetricCollectionAdd c.head m now fuel =
      (expireLoop (now - 25 * 60 * 60) (c.mem.metrics m :: c.history) false).map fun gone ↦
        if gone then (c.inserted m).drop m else c.inserted m := by
  have h := c.walking hm
  have hfirst : (c.inserted m).links.next c.head = m :=
    (List.isChain_cons_cons.mp h.ring.chain).1.1
  have hwalk : ∀ e, (c.inserted m).links.next c.head = e →
      c.mem.historyMetricCollectionAdd c.head m now fuel =
        (c.inserted m).expireWalk (now - 25 * 60 * 60) c.head m fuel e
          ((c.inserted m).links.next e) := by
    rintro e rfl
    rfl
  rw [hwalk m hfirst, Memory.expireWalk_eq fuel h rfl hfuel]
  refine congrArg (Option.map · _) (funext fun gone ↦ ?_)
  cases gone <;> rfl

/-- The list level: what is in memory afterwards is what the list holds. -/
theorem Collection.add_refines {c : Collection} {m : ℕ} (hm : c.Fresh m) (now : ℤ) {fuel : ℕ}
    (hfuel : c.entries.length + 1 < fuel) :
    historyMetricCollectionAdd c.history (c.mem.metrics m) now =
      (c.mem.historyMetricCollectionAdd c.head m now fuel).map fun mem ↦
        (if m ∈ mem.freed then c.entries else m :: c.entries).map mem.metrics := by
  rw [c.add_eq hm now hfuel, History.historyMetricCollectionAdd, Option.map_map]
  refine congrArg (Option.map · _) (funext fun gone ↦ ?_)
  cases gone with
  | true => simp [Memory.drop, inserted, history]
  | false =>
      have hlive : m ∉ c.mem.freed := hm.2
      simp [hlive, inserted, history]

/-! ## Expiry -/

/-- Older than 25 hours. -/
def Old (now : ℤ) (m : HistoryMetric) : Prop := m.ts < now - 25 * 60 * 60

instance (now : ℤ) (m : HistoryMetric) : Decidable (Old now m) :=
  inferInstanceAs (Decidable (_ < _))

/-- The new entry and the entries before it are kept in order, but for the old ones,
and each of these is freed once. -/
def ExpiresOld (c : Collection) (m : ℕ) (now : ℤ) : Prop :=
  ∃ mem, c.mem.historyMetricCollectionAdd c.head m now (c.entries.length + 2) = some mem ∧
    mem.metrics = c.mem.metrics ∧
    Ring mem.links c.head ((m :: c.entries).filter fun e ↦ ¬Old now (c.mem.metrics e)) ∧
    mem.freed.Perm ((m :: c.entries).filter (fun e ↦ Old now (c.mem.metrics e)) ++ c.mem.freed)

theorem expireLoop_of_young {now : ℤ} {l : List HistoryMetric} (gone : Bool)
    (h : ∀ e ∈ l, ¬Old now e) : expireLoop (now - 25 * 60 * 60) l gone = some gone := by
  induction l with
  | nil => rfl
  | cons e rest ih =>
      have hyoung : ¬e.ts < now - 25 * 60 * 60 := h e List.mem_cons_self
      rw [expireLoop, if_neg hyoung]
      exact ih fun x hx ↦ h x (List.mem_cons_of_mem e hx)

theorem not_expiresOld {c : Collection} {m e : ℕ} {now : ℤ} (hm : c.Fresh m)
    (he : e ∈ c.entries) (hold : Old now (c.mem.metrics e)) : ¬ExpiresOld c m now := by
  rintro ⟨mem, hadd, -, -, hfreed⟩
  have hin : e ∈ mem.freed := hfreed.mem_iff.mpr (by simp [he, hold])
  rw [c.add_eq hm now (by omega), Option.map_eq_some_iff] at hadd
  obtain ⟨gone, -, rfl⟩ := hadd
  have hlive := c.live e (List.mem_cons_of_mem _ he)
  have hne : e ≠ m := fun h ↦ hm.1 (List.mem_cons_of_mem _ (h ▸ he))
  cases gone with
  | true => simp [Memory.drop, Collection.inserted, hne, hlive] at hin
  | false => exact hlive hin

/-- The old entries expire exactly when there is none among the entries that were
there before. -/
theorem expiresOld_iff (c : Collection) {m : ℕ} (hm : c.Fresh m) (now : ℤ) :
    ExpiresOld c m now ↔ ∀ e ∈ c.entries, ¬Old now (c.mem.metrics e) := by
  refine ⟨fun h e he hold ↦ not_expiresOld hm he hold h, fun hyoung ↦ ?_⟩
  have hkeep : c.entries.filter (fun e ↦ decide ¬Old now (c.mem.metrics e)) = c.entries :=
    List.filter_eq_self.mpr (by simpa using hyoung)
  have hnone : c.entries.filter (fun e ↦ decide (Old now (c.mem.metrics e))) = [] :=
    List.filter_eq_nil_iff.mpr (by simpa using hyoung)
  have hrest : ∀ gone, expireLoop (now - 25 * 60 * 60) c.history gone = some gone :=
    fun gone ↦ expireLoop_of_young gone (by simpa [Collection.history] using hyoung)
  have h := c.walking hm
  rw [ExpiresOld, c.add_eq hm now (Nat.lt_succ_self _), expireLoop, hrest, hrest]
  by_cases hold : Old now (c.mem.metrics m)
  · refine ⟨(c.inserted m).drop m, ?_, rfl, ?_, ?_⟩
    · have hcut : (c.mem.metrics m).ts < now - 25 * 60 * 60 := hold
      rw [if_pos hcut]
      rfl
    · rw [List.filter_cons_of_neg (by simpa using hold), hkeep]
      exact h.drop.ring
    · rw [List.filter_cons_of_pos (by simpa using hold), hnone]
      exact List.Perm.refl _
  · refine ⟨c.inserted m, ?_, rfl, ?_, ?_⟩
    · have hcut : ¬(c.mem.metrics m).ts < now - 25 * 60 * 60 := hold
      rw [if_neg hcut]
      rfl
    · rw [List.filter_cons_of_pos (by simpa using hold), hkeep]
      exact h.ring
    · rw [List.filter_cons_of_neg (by simpa using hold), hnone]
      exact List.Perm.refl _

/-- A collection with one entry, and the metric of a second one to be added. -/
def collectionOf (before new : HistoryMetric) : Collection where
  mem :=
    { links := xorgListAdd (xorgListInit ⟨fun _ ↦ 0, fun _ ↦ 0⟩ 0) 1 0
      metrics := fun e ↦ if e = 1 then before else new
      freed := [] }
  head := 0
  entries := [1]
  ring := (ring_nil rfl rfl).insert (by decide)
  live := by simp

theorem fresh_collectionOf (before new : HistoryMetric) : (collectionOf before new).Fresh 2 :=
  ⟨by simp [collectionOf], List.not_mem_nil⟩

theorem expiresOld_recent : ExpiresOld (collectionOf ⟨99000, 1⟩ ⟨100000, 1⟩) 2 100000 :=
  (expiresOld_iff _ (fresh_collectionOf _ _) _).mpr (by decide)

/-- One old entry has the new one freed in its place, two free it twice. -/
theorem old_entry_frees_new :
    ¬ExpiresOld (collectionOf ⟨0, 1⟩ ⟨100000, 1⟩) 2 100000 ∧
      historyMetricCollectionAdd [⟨0, 1⟩] ⟨100000, 1⟩ 100000 = some [⟨0, 1⟩] ∧
      historyMetricCollectionAdd [⟨1, 1⟩, ⟨0, 1⟩] ⟨100000, 1⟩ 100000 = none :=
  ⟨not_expiresOld (fresh_collectionOf _ _) List.mem_cons_self (by decide), by decide, by decide⟩

end LtnTsTools.History
