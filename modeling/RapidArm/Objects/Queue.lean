import Mathlib.Algebra.Group.Nat.Defs
import RapidArm.Lib.Indexed
import RapidArm.Lib.Except

/-!
# The queue of the object manager

`Queue` of `io-mmu/src/cpu_fabric/object_manager.rs` (lines 106–225): a `VecDeque` of
entries beside a map from slot ids to absolute positions. A failed assertion, a strict
operation that overflows, an index out of bounds and `panic_abort!` all end the process;
here they are a `Failure`.

Results:
* `dequeue_ok`, `enqueue_ok`: on a queue with an exact index the operations do not fail.
* `dequeue_cases`, `enqueue_cases`: what they do, and that the index stays exact.
-/

namespace RapidArm.Objects

open RapidArm.Lib

/-! ## Failures -/

/-- The ways in which the functions of the object manager end the process. -/
inductive Failure
  /-- `assert_eq!(self.queue.len(), self.already_in_queue.len())`. -/
  | lengthMismatch
  /-- `assert_eq!(removed, Some(self.base))`. -/
  | wrongPosition
  /-- `strict_add` or `strict_sub`. -/
  | overflow
  /-- `self.queue[index]`. -/
  | outOfBounds
  /-- "unreachable: iommu can't switch CpuFabric". -/
  | switchedFabric
  /-- "unreachable: queue contains flush for uninit page". -/
  | queuedFlushUninit
  /-- "enqueued flush for uninit page". -/
  | enqueuedFlushUninit
  /-- "queued flush without backing page". -/
  | flushWithoutPage
  /-- "async flusher thread died unexpectedly". -/
  | workerThreadDied
  deriving DecidableEq, Repr

/-- `u64::strict_add`. -/
def strictAdd (a b : ℕ) : Except Failure ℕ :=
  if a + b < 2 ^ 64 then .ok (a + b) else .error .overflow

/-- `u64::strict_sub`. -/
def strictSub (a b : ℕ) : Except Failure ℕ := if b ≤ a then .ok (a - b) else .error .overflow

/-! ## Entries -/

/-- The address of an `ObjectSlot`, which a `Weak` still has when the slot is gone. -/
abbrev ObjSlotId := ℕ

/-- The identity of a `CpuFabric`. -/
abbrev CpuFabricId := ℕ

/-- `OpType`. -/
inductive OpType
  | init (fabric : CpuFabricId)
  | flush
  deriving DecidableEq, Repr

variable {κ : Type}

/-- `QueueEntry`, with callbacks of any type. -/
structure QueueEntry (κ : Type) where
  slot : ObjSlotId
  callbacks : List κ
  opType : OpType
  deriving DecidableEq, Repr

/-- An entry that takes over an operation and one more callback. -/
def QueueEntry.join (opType : OpType) (callback : Option κ) (entry : QueueEntry κ) : QueueEntry κ :=
  { entry with opType := opType, callbacks := entry.callbacks ++ callback.toList }

/-- `EnqueueEntry`. -/
structure EnqueueEntry (κ : Type) where
  slot : ObjSlotId
  opType : OpType
  callback : Option κ
  deriving DecidableEq, Repr

/-- `Queue`. -/
structure Queue (κ : Type) where
  queue : List (QueueEntry κ)
  alreadyInQueue : AList fun _ : ObjSlotId => ℕ
  base : ℕ

/-- The result of `Queue::enqueue`: `Ok(())`, `Err(None)` or `Err(Some(enqueue))`. -/
inductive Enqueued
  | queued
  | unnecessary
  | full
  deriving DecidableEq, Repr

namespace Queue

/-- The queue that `ObjectManager::new` makes. -/
def new : Queue κ := ⟨[], ∅, 0⟩

/-- `Queue::assert_invariant`. -/
def assertInvariant (q : Queue κ) : Except Failure Unit :=
  require (q.queue.length = q.alreadyInQueue.keys.length) .lengthMismatch

/-- `base` after an entry has left: the positions start anew when none are queued. -/
def nextBase (base : ℕ) (rest : List (QueueEntry κ)) : Except Failure ℕ :=
  if rest.isEmpty then .ok 0 else strictAdd base 1

/-- `Queue::dequeue`. -/
def dequeue (q : Queue κ) : Except Failure (Option (QueueEntry κ) × Queue κ) := do
  q.assertInvariant
  match q.queue with
  | [] => return (none, q)
  | entry :: rest =>
    let removed := q.alreadyInQueue.lookup entry.slot
    require (removed = some q.base) .wrongPosition
    let base ← nextBase q.base rest
    return (some entry, ⟨rest, q.alreadyInQueue.erase entry.slot, base⟩)

/-- What `Queue::enqueue` does to an entry that is there already: its new operation. -/
def merge (enqueued queued : OpType) (resident : Bool) : Except Failure OpType :=
  match enqueued, queued with
  | .init newFabric, .init fabric => if newFabric = fabric then .ok queued else
    .error .switchedFabric
  | .flush, .flush => .ok .flush
  | .init _, .flush => .error .queuedFlushUninit
  | .flush, .init _ => if resident then .ok .flush else .error .enqueuedFlushUninit

/-- `Queue::enqueue`. `resident` is `enqueue.slot.page.get().is_some()`. -/
def enqueue (q : Queue κ) (e : EnqueueEntry κ) (resident : Bool) (queueLimit : ℕ) :
    Except Failure (Enqueued × Queue κ) := do
  q.assertInvariant
  if e.opType ≠ .flush ∧ resident then
    return (.unnecessary, q)
  match q.alreadyInQueue.lookup e.slot with
  | some position =>
    let index ← strictSub position q.base
    match q.queue[index]? with
    | none => throw .outOfBounds
    | some entry =>
      let opType ← merge e.opType entry.opType resident
      return (.queued, { q with queue := q.queue.modify index (·.join opType e.callback) })
  | none =>
    if queueLimit ≤ q.queue.length then
      return (.full, q)
    let position ← strictAdd q.base q.queue.length
    return (.queued, ⟨q.queue ++ [⟨e.slot, e.callback.toList, e.opType⟩],
      q.alreadyInQueue.insert e.slot position, q.base⟩)

/-! ## Specifications -/

/-- `already_in_queue` is exact. -/
def WellIndexed (q : Queue κ) : Prop := Indexed (·.slot) q.queue q.base q.alreadyInQueue

theorem wellIndexed_new : (new : Queue κ).WellIndexed := Indexed.nil _ 0

/-- The position of the next entry fits into a `u64`. -/
def Fits (q : Queue κ) : Prop := q.base + q.queue.length < 2 ^ 64

variable {q : Queue κ} {e : EnqueueEntry κ} {resident : Bool} {queueLimit : ℕ}

theorem WellIndexed.assertInvariant (h : q.WellIndexed) : q.assertInvariant = .ok () :=
  require_eq_ok.2 h.length_keys.symm

theorem nextBase_ok {rest : List (QueueEntry κ)} {base : ℕ}
    (hfits : base + (rest.length + 1) < 2 ^ 64) :
    ∃ base', nextBase base rest = .ok base' := by
  cases rest with
  | nil => exact ⟨0, rfl⟩
  | cons entry rest =>
    refine ⟨base + 1, ?_⟩
    have hlt : base + 1 < 2 ^ 64 := by
      rw [List.length_cons] at hfits
      omega
    exact if_pos hlt

theorem WellIndexed.dequeue_ok (h : q.WellIndexed) (hfits : q.Fits) : ∃ r, q.dequeue = .ok r := by
  obtain ⟨queue, index, base⟩ := q
  unfold dequeue
  rw [h.assertInvariant, ok_bind]
  cases queue with
  | nil => exact ⟨_, rfl⟩
  | cons entry rest =>
    obtain ⟨base', hbase⟩ : ∃ base', nextBase base rest = .ok base' := nextBase_ok hfits
    have hremoved : require (index.lookup entry.slot = some base) Failure.wrongPosition = .ok () :=
      require_eq_ok.2 (Indexed.pop h).1
    simp only [hremoved, ok_bind, hbase]
    exact ⟨_, rfl⟩

/-- What leaves a queue is its oldest entry. -/
theorem WellIndexed.dequeue_cases (h : q.WellIndexed) {r : Option (QueueEntry κ)} {q' : Queue κ}
    (hok : q.dequeue = .ok (r, q')) :
    (q.queue = [] ∧ r = none ∧ q' = q) ∨
    ∃ entry rest, q.queue = entry :: rest ∧ r = some entry ∧ q'.queue = rest ∧
      q'.base ≤ q.base + 1 ∧
      q'.WellIndexed := by
  obtain ⟨queue, index, base⟩ := q
  unfold dequeue at hok
  rw [h.assertInvariant, ok_bind] at hok
  cases queue with
  | nil =>
    obtain ⟨rfl, rfl⟩ := Prod.mk.inj (Except.ok.inj hok)
    exact .inl ⟨rfl, rfl, rfl⟩
  | cons entry rest =>
    have hremoved : require (index.lookup entry.slot = some base) Failure.wrongPosition = .ok () :=
      require_eq_ok.2 (Indexed.pop h).1
    have hpop := (Indexed.pop h).2
    simp only [hremoved, ok_bind] at hok
    obtain ⟨base', hbase, hok⟩ := bind_eq_ok.1 hok
    obtain ⟨rfl, rfl⟩ := Prod.mk.inj (Except.ok.inj hok)
    refine .inr ⟨entry, rest, rfl, rfl, rfl, ?_⟩
    cases rest with
    | nil =>
      obtain rfl := Except.ok.inj hbase
      exact ⟨Nat.zero_le _, hpop.rebase 0⟩
    | cons entry' rest =>
      simp only [List.isEmpty_cons, Bool.false_eq_true, if_false, nextBase, strictAdd] at hbase
      split_ifs at hbase
      obtain rfl := Except.ok.inj hbase
      exact ⟨le_rfl, hpop⟩

/-- What `enqueue` does, by the result it returns. -/
inductive Change (q : Queue κ) (e : EnqueueEntry κ) (resident : Bool) (queueLimit : ℕ) :
    Enqueued → Queue κ → Prop
  | unnecessary (hinit : e.opType ≠ .flush) (hresident : resident = true) :
    Change q e resident queueLimit .unnecessary q
  | full (hnew : e.slot ∉ q.queue.map (·.slot)) (hfull : queueLimit ≤ q.queue.length) :
    Change q e resident queueLimit .full q
  | joined {i : ℕ} {entry : QueueEntry κ} {opType : OpType} {q' : Queue κ}
    (hentry : q.queue[i]? = some entry) (hslot : entry.slot = e.slot)
    (hmerge : merge e.opType entry.opType resident = .ok opType)
    (hqueue : q'.queue = q.queue.modify i (·.join opType e.callback)) (hbase : q'.base = q.base) :
    Change q e resident queueLimit .queued q'
  | pushed {q' : Queue κ} (hnew : e.slot ∉ q.queue.map (·.slot)) (hroom :
    q.queue.length < queueLimit)
    (hqueue : q'.queue = q.queue ++ [⟨e.slot, e.callback.toList, e.opType⟩])
    (hbase : q'.base = q.base) :
    Change q e resident queueLimit .queued q'

theorem WellIndexed.lookup_eq_none (h : q.WellIndexed) {id : ObjSlotId} :
    q.alreadyInQueue.lookup id = none ↔ id ∉ q.queue.map (·.slot) := by
  rw [AList.lookup_eq_none]
  exact not_congr (Indexed.mem_iff h id)

theorem WellIndexed.enqueue_cases (h : q.WellIndexed) {r : Enqueued} {q' : Queue κ}
    (hok : q.enqueue e resident queueLimit = .ok (r, q')) :
    q.Change e resident queueLimit r q' ∧ q'.WellIndexed := by
  unfold enqueue at hok
  rw [h.assertInvariant, ok_bind] at hok
  by_cases hinit : e.opType ≠ .flush ∧ resident = true
  · rw [if_pos hinit] at hok
    obtain ⟨rfl, rfl⟩ := Prod.mk.inj (Except.ok.inj hok)
    exact ⟨.unnecessary hinit.1 hinit.2, h⟩
  rw [if_neg hinit] at hok
  cases hlookup : q.alreadyInQueue.lookup e.slot with
  | some position =>
    obtain ⟨hle, entry, hentry, hslot⟩ := Indexed.find h hlookup
    have hindex : strictSub position q.base = .ok (position - q.base) := if_pos hle
    simp only [hlookup, hindex, ok_bind, hentry] at hok
    obtain ⟨opType, hmerge, hok⟩ := bind_eq_ok.1 hok
    obtain ⟨rfl, rfl⟩ := Prod.mk.inj (Except.ok.inj hok)
    refine ⟨.joined hentry hslot hmerge rfl rfl, ?_⟩
    exact Indexed.modify h _ fun _ => rfl
  | none =>
    have hnew := h.lookup_eq_none.1 hlookup
    simp only [hlookup] at hok
    by_cases hfull : queueLimit ≤ q.queue.length
    · rw [if_pos hfull] at hok
      obtain ⟨rfl, rfl⟩ := Prod.mk.inj (Except.ok.inj hok)
      exact ⟨.full hnew hfull, h⟩
    · rw [if_neg hfull] at hok
      obtain ⟨position, hposition, hok⟩ := bind_eq_ok.1 hok
      obtain ⟨rfl, rfl⟩ := Prod.mk.inj (Except.ok.inj hok)
      unfold strictAdd at hposition
      split_ifs at hposition
      obtain rfl := Except.ok.inj hposition
      refine ⟨.pushed hnew (Nat.lt_of_not_le hfull) rfl rfl, ?_⟩
      exact Indexed.push h hlookup

/-- `enqueue` does not fail if the entry for the slot, if there is one, can be merged. -/
theorem WellIndexed.enqueue_ok (h : q.WellIndexed) (hfits : q.Fits)
    (hmerge : ¬ (e.opType ≠ .flush ∧ resident = true) → ∀ entry ∈ q.queue, entry.slot = e.slot →
      ∃ opType, merge e.opType entry.opType resident = .ok opType) :
    ∃ r, q.enqueue e resident queueLimit = .ok r := by
  unfold enqueue
  rw [h.assertInvariant, ok_bind]
  by_cases hinit : e.opType ≠ .flush ∧ resident = true
  · rw [if_pos hinit]
    exact ⟨_, rfl⟩
  rw [if_neg hinit]
  cases hlookup : q.alreadyInQueue.lookup e.slot with
  | some position =>
    obtain ⟨hle, entry, hentry, hslot⟩ := Indexed.find h hlookup
    have hindex : strictSub position q.base = .ok (position - q.base) := if_pos hle
    obtain ⟨opType, hop⟩ := hmerge hinit entry (List.mem_of_getElem? hentry) hslot
    simp only [hindex, ok_bind, hentry, hop]
    exact ⟨_, rfl⟩
  | none =>
    by_cases hfull : queueLimit ≤ q.queue.length
    · simp only [if_pos hfull]
      exact ⟨_, rfl⟩
    · have hposition : strictAdd q.base q.queue.length = .ok (q.base + q.queue.length) :=
        if_pos hfits
      simp only [if_neg hfull, hposition, ok_bind]
      exact ⟨_, rfl⟩

end Queue

end RapidArm.Objects
